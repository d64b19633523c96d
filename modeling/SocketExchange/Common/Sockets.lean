import Mathlib.Data.List.Basic
import SocketExchange.Common.Protocol

/-!
# Setting up sockets

A listening socket and a connected one are set up by several system calls, any of which may
fail. Then the socket is closed again, and the process has the sockets it had before.
-/

namespace SocketExchange

/-- The values of `errno` that the connection generator sets or explains, and the others. -/
inductive Errno where
  | eaddrnotavail
  | eaddrinuse
  | emfile
  | enfile
  | econnrefused
  | etimedout
  | econnreset
  | enobufs
  | einval
  | other (code : Nat)
  deriving DecidableEq

/-- An IPv4 address and a port. -/
structure SockAddr where
  addr : UInt32
  port : UInt16
  deriving DecidableEq

/-- The address a socket gets that is bound to this one: the kernel chooses the port if it is 0. -/
def SockAddr.withPort (addr : SockAddr) (chosen : UInt16) : SockAddr :=
  if addr.port = 0 then { addr with port := chosen } else addr

/-- A TCP socket. -/
structure Socket where
  reuseAddr : Bool := false
  /-- The address the socket is bound to. -/
  name : Option SockAddr := none
  /-- The backlog it listens with. -/
  backlog : Option Int := none
  /-- The address it is connected to. -/
  peer : Option SockAddr := none
  deriving DecidableEq

/-- A process: the sockets it has open, in the order it has opened them, and `errno`. -/
structure Process where
  sockets : List (Nat × Socket) := []
  errno : Errno := .other 0

/-- What the system calls return that set up one socket. -/
structure Returns where
  /-- The descriptor. -/
  socket : Except Errno Nat
  setsockopt : Except Errno Unit := .ok ()
  /-- The port, which the kernel chooses if it is asked for port 0. -/
  bind : Except Errno UInt16 := .ok 0
  listen : Except Errno Unit := .ok ()
  /-- The address that the kernel binds the socket to if it is not bound yet. -/
  connect : Except Errno SockAddr := .ok ⟨0, 0⟩
  /-- What `errno` is after a `close`. -/
  close : Errno := .other 0

namespace Process

/-- The descriptors of the open sockets. -/
def descriptors (p : Process) : List Nat := p.sockets.map Prod.fst

/-- The process has one more socket. -/
def hold (p : Process) (fd : Nat) (s : Socket) : Process :=
  { p with sockets := p.sockets ++ [(fd, s)] }

/-- Change the socket of a descriptor. -/
def update (p : Process) (fd : Nat) (f : Socket → Socket) : Process :=
  { p with sockets := p.sockets.map fun e => if e.1 = fd then (e.1, f e.2) else e }

/-- A call has failed. -/
def failed (p : Process) (e : Errno) : Process := { p with errno := e }

/-- Give a descriptor back; the call may set errno. -/
def close (p : Process) (fd : Nat) (e : Errno) : Process :=
  ⟨p.sockets.filter fun e => e.1 ≠ fd, e⟩

variable {p : Process} {fd : Nat}

@[simp] theorem descriptors_hold (p : Process) (fd : Nat) (s : Socket) :
    (p.hold fd s).descriptors = p.descriptors ++ [fd] := by simp [descriptors, hold]

@[simp] theorem descriptors_failed (p : Process) (e : Errno) :
    (p.failed e).descriptors = p.descriptors := rfl

@[simp] theorem errno_hold (p : Process) (fd : Nat) (s : Socket) :
    (p.hold fd s).errno = p.errno := rfl

@[simp] theorem errno_failed (p : Process) (e : Errno) : (p.failed e).errno = e := rfl

@[simp] theorem failed_failed (p : Process) (e e' : Errno) :
    (p.failed e).failed e' = p.failed e' := rfl

@[simp] theorem failed_hold (p : Process) (fd : Nat) (s : Socket) (e : Errno) :
    (p.hold fd s).failed e = (p.failed e).hold fd s := rfl

private theorem ne_of_mem_sockets (hfd : fd ∉ p.descriptors) {e : Nat × Socket}
    (he : e ∈ p.sockets) :
    e.1 ≠ fd := by
  rintro rfl
  exact hfd (List.mem_map_of_mem he)

/-- Changing the socket just opened is opening the changed one. -/
theorem update_hold (hfd : fd ∉ p.descriptors) (s : Socket) (f : Socket → Socket) :
    (p.hold fd s).update fd f = p.hold fd (f s) := by
  have hothers : (p.sockets.map fun e => if e.1 = fd then (e.1, f e.2) else e) = p.sockets := by
    rw [List.map_congr_left fun e he => if_neg (ne_of_mem_sockets hfd he), List.map_id']
  simp [update, hold, hothers]

/-- Closing the socket just opened leaves what the failed call had left. -/
theorem close_hold (hfd : fd ∉ p.descriptors) (s : Socket) (e : Errno) :
    (p.hold fd s).close fd e = p.failed e := by
  have hothers : (p.sockets.filter fun e => e.1 ≠ fd) = p.sockets :=
    List.filter_eq_self.mpr fun e he => decide_eq_true (ne_of_mem_sockets hfd he)
  rw [close, hold, List.filter_append, hothers]
  simp [failed]

end Process

/-! ## The two ends -/

/-- `inet_pton` for IPv4: the address that a text stands for. -/
abbrev InetPton := Bytes → Option UInt32

variable (pton : InetPton)

/-- The address of a host and a port; no host stands for any address. -/
def fillAddr (host : Bytes) (port : Int) : Option SockAddr :=
  let port := UInt16.ofInt port
  if host = [] ∨ host = text "0.0.0.0" then some ⟨0, port⟩
  else (pton host).map fun addr => ⟨addr, port⟩

/-- The descriptor returned, none where the source returns -1, and the process after the call. -/
def makeListenSocket (somaxconn : Int) (host : Bytes) (port backlog : Int) (p : Process)
    (a : Returns) : Option Nat × Process :=
  match a.socket with
  | .error e => (none, p.failed e)
  | .ok fd =>
    let p := p.hold fd {}
    match a.setsockopt with
    | .error e => (none, (p.failed e).close fd a.close)
    | .ok () =>
      let p := p.update fd fun s => { s with reuseAddr := true }
      match fillAddr pton host port with
      | none => (none, p.close fd a.close)
      | some addr =>
        match a.bind with
        | .error e => (none, (p.failed e).close fd a.close)
        | .ok chosen =>
          let p := p.update fd fun s => { s with name := some (addr.withPort chosen) }
          match a.listen with
          | .error e => (none, (p.failed e).close fd a.close)
          | .ok () =>
            let backlog := if backlog > 0 then backlog else somaxconn
            (some fd, p.update fd fun s => { s with backlog := some backlog })

/-- Open a connection to a host and a port, or give back the descriptor. -/
def connectTo (host : Bytes) (port : Int) (p : Process) (a : Returns) : Option Nat × Process :=
  match a.socket with
  | .error e => (none, p.failed e)
  | .ok fd =>
    let p := p.hold fd {}
    match fillAddr pton host port with
    | none => (none, p.close fd a.close)
    | some addr =>
      match a.connect with
      | .error e => (none, (p.failed e).close fd a.close)
      | .ok name => (some fd, p.update fd fun s => { s with name := some name, peer := some addr })

/-- The kernel hands out no descriptor that is open. -/
def Returns.Fresh (a : Returns) (p : Process) : Prop := ∀ fd, a.socket = .ok fd → fd ∉ p.descriptors

instance (a : Returns) (p : Process) : Decidable (a.Fresh p) :=
  match h : a.socket with
  | .ok fd => decidable_of_iff (fd ∉ p.descriptors) (by simp [Returns.Fresh, h])
  | .error _ => .isTrue (by simp [Returns.Fresh, h])

variable {p : Process} {a : Returns}

/-- The server listens at its address with a backlog, or it has opened nothing. -/
theorem makeListenSocket_opens (somaxconn : Int) (host : Bytes) (port backlog : Int)
    (hfresh : a.Fresh p) :
    (∃ e, makeListenSocket pton somaxconn host port backlog p a = (none, p.failed e)) ∨
      ∃ fd addr chosen, a.socket = .ok fd ∧ fillAddr pton host port = some addr ∧
        a.bind = .ok chosen ∧
        makeListenSocket pton somaxconn host port backlog p a =
          (some fd, p.hold fd
            { reuseAddr := true
              name := some (addr.withPort chosen)
              backlog := some (if backlog > 0 then backlog else somaxconn) }) := by
  unfold makeListenSocket
  cases hsocket : a.socket with
  | error e => exact Or.inl ⟨e, rfl⟩
  | ok fd =>
    have hfd := hfresh fd hsocket
    have hfailed : ∀ e, fd ∉ (p.failed e).descriptors := fun _ => hfd
    cases a.setsockopt with
    | error e =>
      left
      refine ⟨a.close, ?_⟩
      simp [Process.close_hold (hfailed e)]
    | ok _ =>
      cases haddr : fillAddr pton host port with
      | none =>
        left
        refine ⟨a.close, ?_⟩
        simp [Process.update_hold hfd, Process.close_hold hfd]
      | some addr =>
        cases a.bind with
        | error e =>
          left
          refine ⟨a.close, ?_⟩
          simp [Process.update_hold hfd, Process.close_hold (hfailed e)]
        | ok chosen =>
          cases a.listen with
          | error e =>
            left
            refine ⟨a.close, ?_⟩
            simp [Process.update_hold hfd, Process.close_hold (hfailed e)]
          | ok _ =>
            right
            refine ⟨fd, addr, chosen, rfl, rfl, rfl, ?_⟩
            simp [Process.update_hold hfd]

/-- The client is connected to its server, or it has opened nothing. -/
theorem connectTo_opens (host : Bytes) (port : Int) (hfresh : a.Fresh p) :
    (∃ e, connectTo pton host port p a = (none, p.failed e)) ∨
      ∃ fd addr name, a.socket = .ok fd ∧ fillAddr pton host port = some addr ∧
        a.connect = .ok name ∧
        connectTo pton host port p a =
          (some fd, p.hold fd { name := some name, peer := some addr }) := by
  unfold connectTo
  cases hsocket : a.socket with
  | error e => exact Or.inl ⟨e, rfl⟩
  | ok fd =>
    have hfd := hfresh fd hsocket
    cases haddr : fillAddr pton host port with
    | none =>
      left
      refine ⟨a.close, ?_⟩
      simp [Process.close_hold hfd]
    | some addr =>
      cases a.connect with
      | error e =>
        left
        refine ⟨a.close, ?_⟩
        have hfailed : fd ∉ (p.failed e).descriptors := hfd
        simp [Process.close_hold hfailed]
      | ok name =>
        right
        refine ⟨fd, addr, name, rfl, rfl, rfl, ?_⟩
        simp [Process.update_hold hfd]

end SocketExchange
