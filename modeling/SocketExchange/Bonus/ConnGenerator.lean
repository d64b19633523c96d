import SocketExchange.Common.Sockets
import SocketExchange.Library.Runs

/-!
# The connection generator

The generator opens connections to the server and holds them, until it has as many as it is
to open or one cannot be opened. It goes round its source addresses, since the connections
from one address to the server differ in nothing but their ports.
-/

namespace SocketExchange

open Runs

/-- The loop of `split_csv`, with what it has read since the last comma. -/
def splitCsvFrom (piece : Bytes) : Bytes → List Bytes
  | [] => if piece = [] then [] else [piece]
  | b :: s =>
    if b = 44 then (if piece = [] then [] else [piece]) ++ splitCsvFrom [] s
    else splitCsvFrom (piece ++ [b]) s

/-- The parts of a text between commas. -/
def splitCsv (s : Bytes) : List Bytes := splitCsvFrom [] s

variable (pton : InetPton)

/-- The descriptor returned, none where the source returns -1, and the process after the call. -/
def openOne (dst : SockAddr) (srcIp : Option Bytes) (p : Process) (a : Returns) :
    Option Nat × Process :=
  match a.socket with
  | .error e => (none, p.failed e)
  | .ok fd =>
    let p := p.hold fd {}
    let connect (p : Process) : Option Nat × Process :=
      match a.connect with
      | .error e =>
        let p := p.failed e
        let saved := p.errno
        (none, (p.close fd a.close).failed saved)
      | .ok name =>
        -- Connecting gives a name to a socket that has none.
        (some fd, p.update fd fun s => { s with name := s.name <|> some name, peer := some dst })
    match srcIp with
    | none => connect p
    | some ip =>
      match pton ip with
      | none => (none, (p.close fd a.close).failed .einval)
      | some addr =>
        match a.bind with
        | .error e =>
          let p := p.failed e
          let saved := p.errno
          (none, (p.close fd a.close).failed saved)
        | .ok port => connect (p.update fd fun s => { s with name := some ⟨addr, port⟩ })

/-- The likely cause that is printed for an error. -/
def diagnose : Errno → Bytes
  | .eaddrnotavail => text <|
      "source address not configured on lo0 " ++
      "(ifconfig lo0 alias <ip>/32), or that IP's ephemeral ports " ++
      "are exhausted -- widen net.inet.ip.portrange or add a source IP"
  | .eaddrinuse => text "no free source port for this 4-tuple -- port space exhausted"
  | .emfile => text "per-process fd limit hit -- raise kern.maxfilesperproc / ulimit -n"
  | .enfile => text <|
      "SYSTEM-WIDE open file limit hit -- raise kern.maxfiles " ++
      "(both ends are local, so N conns cost 2N file entries)"
  | .econnrefused => text "nothing listening -- is the Exchange Server running?"
  | .etimedout => text <|
      "connect timed out -- listen backlog may be full " ++
      "(raise kern.ipc.somaxconn and the server's backlog)"
  | .econnreset => text "server reset the connection -- it may have hit its own fd limit"
  | .enobufs => text "kernel out of socket buffer space -- raise kern.ipc.nmbclusters"
  | _ => text "see errno above"

/-- The variables of `main`. -/
structure Generator where
  count : Nat
  srcIps : List Bytes
  dst : SockAddr
  process : Process
  fds : List Nat := []
  failErrno : Errno := .other 0
  failedAt : Int := -1
  i : Nat := 0

/-- The source address of the connections in turn. -/
def sourceAt (srcIps : List Bytes) (i : Nat) : Option Bytes :=
  if srcIps = [] then none else srcIps[i % srcIps.length]?

namespace Generator

/-- The generator before its loop; none where `main` gives up. -/
def start (host : Bytes) (port count : Int) (srcs : Option Bytes) (p : Process) :
    Option Generator :=
  if count ≤ 0 then none
  else
    (pton host).map fun addr =>
      { count := count.toNat
        srcIps := (srcs.map splitCsv).getD []
        dst := ⟨addr, UInt16.ofInt port⟩
        process := p }

/-- Whether `main` is still in its loop. -/
def running (g : Generator) : Bool := g.failedAt < 0 && g.i < g.count

/-- One pass of the loop. -/
def round (g : Generator) (a : Returns) : Generator :=
  if g.running then
    match openOne pton g.dst (sourceAt g.srcIps g.i) g.process a with
    | (none, p) => { g with process := p, failErrno := p.errno, failedAt := g.i }
    | (some fd, p) => { g with process := p, fds := g.fds ++ [fd], i := g.i + 1 }
  else g

/-- The likely cause that `main` reports. -/
def likelyCause (g : Generator) : Option Bytes :=
  if g.failedAt ≥ 0 then some (diagnose g.failErrno) else none

end Generator

/-! ## The list of addresses -/

private theorem splitCsvFrom_append {piece p s : Bytes} (hp : 44 ∉ p) :
    splitCsvFrom piece (p ++ s) = splitCsvFrom (piece ++ p) s := by
  induction p generalizing piece with
  | nil => rw [List.nil_append, List.append_nil]
  | cons b p ih =>
    rw [List.mem_cons, not_or] at hp
    rw [List.cons_append, splitCsvFrom, if_neg (Ne.symm hp.1), ih hp.2, List.append_assoc,
      List.singleton_append]

/-- Splitting the texts joined by commas gives them back. -/
theorem splitCsv_intercalate {pieces : List Bytes} (h : ∀ p ∈ pieces, p ≠ [] ∧ 44 ∉ p) :
    splitCsv ([44].intercalate pieces) = pieces := by
  induction pieces with
  | nil => rfl
  | cons p pieces ih =>
    obtain ⟨⟨hne, hplain⟩, hpieces⟩ := List.forall_mem_cons.mp h
    cases pieces with
    | nil =>
      have hone : [44].intercalate [p] = p ++ [] := by simp
      rw [hone, splitCsv, splitCsvFrom_append hplain, List.nil_append, splitCsvFrom, if_neg hne]
    | cons q pieces =>
      have hjoin : [44].intercalate (p :: q :: pieces) =
          p ++ 44 :: [44].intercalate (q :: pieces) := by simp [List.intercalate_cons_cons]
      rw [hjoin, splitCsv, splitCsvFrom_append hplain, splitCsvFrom, if_pos rfl, List.nil_append,
        if_neg hne, ← splitCsv, ih hpieces, List.singleton_append]

/-! ## One attempt -/

/-- What comes of an attempt: the error of the call that fails, or the descriptor and the address
that the socket is bound to. -/
def attempt (srcIp : Option Bytes) (a : Returns) : Except Errno (Nat × SockAddr) := do
  let fd ← a.socket
  match srcIp with
  | none =>
    let name ← a.connect
    return (fd, name)
  | some ip =>
    let addr ← (pton ip).elim (.error .einval) .ok
    let port ← a.bind
    let _ ← a.connect
    return (fd, ⟨addr, port⟩)

/-- A connection that is held, as the process has it. -/
def connection (dst : SockAddr) (x : Nat × SockAddr) : Nat × Socket :=
  (x.1, { name := some x.2, peer := some dst })

variable {p : Process} {a : Returns}

/-- An attempt that fails leaves the sockets as they were, and the error of the call that failed
in `errno`. -/
theorem openOne_error (hfresh : a.Fresh p) (dst : SockAddr) {srcIp : Option Bytes} {e : Errno}
    (h : attempt pton srcIp a = .error e) :
    openOne pton dst srcIp p a = (none, p.failed e) := by
  unfold attempt at h
  unfold openOne
  cases hsocket : a.socket with
  | error e' =>
    rw [hsocket] at h
    cases h
    rfl
  | ok fd =>
    have hfd := hfresh fd hsocket
    have hfailed : ∀ e, fd ∉ (p.failed e).descriptors := fun _ => hfd
    rw [hsocket] at h
    cases srcIp with
    | none =>
      cases hconnect : a.connect with
      | ok name =>
        rw [hconnect] at h
        cases h
      | error e' =>
        rw [hconnect] at h
        cases h
        simp [Process.close_hold (hfailed e)]
    | some ip =>
      cases haddr : pton ip with
      | none =>
        simp only [haddr] at h
        cases h
        simp [haddr, Process.close_hold hfd]
      | some addr =>
        cases hbind : a.bind with
        | error e' =>
          simp only [haddr, hbind] at h
          cases h
          simp [haddr, Process.close_hold (hfailed e)]
        | ok port =>
          cases hconnect : a.connect with
          | ok name =>
            simp only [haddr, hbind, hconnect] at h
            cases h
          | error e' =>
            simp only [haddr, hbind, hconnect] at h
            cases h
            simp [haddr, Process.update_hold hfd, Process.close_hold (hfailed e)]

/-- An attempt that works adds one connection to the sockets. -/
theorem openOne_ok (hfresh : a.Fresh p) (dst : SockAddr) {srcIp : Option Bytes}
    {x : Nat × SockAddr} (h : attempt pton srcIp a = .ok x) :
    x.1 ∉ p.descriptors ∧ openOne pton dst srcIp p a =
      (some x.1, { p with sockets := p.sockets ++ [connection dst x] }) := by
  unfold attempt at h
  unfold openOne
  cases hsocket : a.socket with
  | error e' =>
    rw [hsocket] at h
    cases h
  | ok fd =>
    have hfd := hfresh fd hsocket
    rw [hsocket] at h
    cases srcIp with
    | none =>
      cases hconnect : a.connect with
      | error e' =>
        rw [hconnect] at h
        cases h
      | ok name =>
        rw [hconnect] at h
        cases h
        refine ⟨hfd, ?_⟩
        simp only [Process.update_hold hfd]
        rfl
    | some ip =>
      cases haddr : pton ip with
      | none =>
        simp only [haddr] at h
        cases h
      | some addr =>
        cases hbind : a.bind with
        | error e' =>
          simp only [haddr, hbind] at h
          cases h
        | ok port =>
          cases hconnect : a.connect with
          | error e' =>
            simp only [haddr, hbind, hconnect] at h
            cases h
          | ok name =>
            simp only [haddr, hbind, hconnect] at h
            cases h
            refine ⟨hfd, ?_⟩
            simp only [haddr, Process.update_hold hfd]
            rfl

/-! ## The loop -/

namespace Generator

variable {g : Generator} {x : Nat × SockAddr} {e : Errno}

/-- A generator that has stopped does nothing more. -/
theorem round_stopped (h : g.running = false) (a : Returns) : g.round pton a = g := by
  simp [round, h]

/-- A failed attempt stops the generator, which keeps the cause and its number. -/
theorem round_error (hrunning : g.running = true) (hfresh : a.Fresh g.process)
    (h : attempt pton (sourceAt g.srcIps g.i) a = .error e) :
    g.round pton a = { g with process := g.process.failed e, failErrno := e, failedAt := g.i } := by
  simp [round, hrunning, openOne_error pton hfresh g.dst h]

/-- A successful attempt is one more connection held. -/
theorem round_ok (hrunning : g.running = true) (hfresh : a.Fresh g.process)
    (h : attempt pton (sourceAt g.srcIps g.i) a = .ok x) :
    g.round pton a =
      { g with
        process := { g.process with sockets := g.process.sockets ++ [connection g.dst x] }
        fds := g.fds ++ [x.1]
        i := g.i + 1 } := by
  simp [round, hrunning, (openOne_ok pton hfresh g.dst h).2]

/-- What the generator holds after some attempts: a connection for each of the first ones, up to
the one that failed. -/
structure Holding (g₀ : Generator) (tried : List Returns) (g : Generator)
    (held : List (Nat × SockAddr)) : Prop where
  count : g.count = g₀.count
  srcIps : g.srcIps = g₀.srcIps
  dst : g.dst = g₀.dst
  i : g.i = held.length
  fds : g.fds = held.map Prod.fst
  distinct : g.fds.Nodup
  sockets : g.process.sockets = g₀.process.sockets ++ held.map (connection g₀.dst)
  attempts : ((tried.take held.length).mapIdx fun i a => attempt pton (sourceAt g₀.srcIps i) a) =
    held.map .ok
  ended : (g.failedAt = -1 ∧ held.length = min g₀.count tried.length) ∨
    (g.failedAt = held.length ∧ held.length < g₀.count ∧ ∃ a, tried[held.length]? = some a ∧
      attempt pton (sourceAt g₀.srcIps held.length) a = .error g.failErrno)

variable {g₀ : Generator} {tried : List Returns} {held : List (Nat × SockAddr)}

/-- The generator runs until it fails or holds as many as it was asked for. -/
theorem Holding.running_iff (h : Holding pton g₀ tried g held) :
    g.running = true ↔ g.failedAt = -1 ∧ held.length < g₀.count := by
  rw [running, Bool.and_eq_true, decide_eq_true_iff, decide_eq_true_iff, h.i, h.count]
  rcases h.ended with ⟨hfailed, -⟩ | ⟨hfailed, -, -⟩ <;> omega

private theorem Holding.tried_of_running (h : Holding pton g₀ tried g held)
    (hrunning : g.running = true) :
    held.length = tried.length := by
  obtain ⟨hnot, hless⟩ := (h.running_iff pton).mp hrunning
  rcases h.ended with ⟨-, hlength⟩ | ⟨hfailed, -, -⟩ <;> omega

/-- Once the loop is over, the generator holds what it held. -/
theorem Holding.stopped (h : Holding pton g₀ tried g held) (hrunning : g.running = false)
    (a : Returns) : Holding pton g₀ (tried ++ [a]) (g.round pton a) held := by
  rw [round_stopped pton hrunning]
  have hle : held.length ≤ tried.length := by
    rcases h.ended with ⟨-, hlength⟩ | ⟨-, -, a', ha', -⟩
    · omega
    · exact (List.getElem?_eq_some_iff.mp ha').1.le
  refine { h with attempts := ?_, ended := ?_ }
  · rw [List.take_append_of_le_length hle]
    exact h.attempts
  · rcases h.ended with ⟨hnot, hlength⟩ | ⟨hfailed, hless, a', ha', herror⟩
    · have hall : ¬ held.length < g₀.count := by
        intro hless
        rw [(h.running_iff pton).mpr ⟨hnot, hless⟩] at hrunning
        cases hrunning
      left
      rw [List.length_append, List.length_singleton]
      exact ⟨hnot, by omega⟩
    · right
      have hlt := (List.getElem?_eq_some_iff.mp ha').1
      rw [List.getElem?_append_left hlt]
      exact ⟨hfailed, hless, a', ha', herror⟩

/-- After an attempt that fails, the generator holds what it held. -/
theorem Holding.error (h : Holding pton g₀ tried g held) (hrunning : g.running = true)
    (hfresh : a.Fresh g.process) (he : attempt pton (sourceAt g₀.srcIps held.length) a = .error e) :
    Holding pton g₀ (tried ++ [a]) (g.round pton a) held := by
  have hlength := h.tried_of_running pton hrunning
  obtain ⟨-, hless⟩ := (h.running_iff pton).mp hrunning
  have hhere : (tried ++ [a])[held.length]? = some a := by simp [hlength]
  have hround := he
  rw [← h.srcIps, ← h.i] at hround
  rw [round_error pton hrunning hfresh hround]
  refine { h with attempts := ?_, ended := ?_ }
  · rw [List.take_append_of_le_length hlength.le]
    exact h.attempts
  · exact Or.inr ⟨congrArg Nat.cast h.i, hless, a, hhere, he⟩

/-- After an attempt that works, the generator holds one more. -/
theorem Holding.ok (h : Holding pton g₀ tried g held) (hrunning : g.running = true)
    (hfresh : a.Fresh g.process) (hx : attempt pton (sourceAt g₀.srcIps held.length) a = .ok x) :
    Holding pton g₀ (tried ++ [a]) (g.round pton a) (held ++ [x]) := by
  have hlength := h.tried_of_running pton hrunning
  obtain ⟨hnot, hless⟩ := (h.running_iff pton).mp hrunning
  have hround := hx
  rw [← h.srcIps, ← h.i] at hround
  have hnew := (openOne_ok pton hfresh g.dst hround).1
  rw [round_ok pton hrunning hfresh hround]
  refine ⟨h.count, h.srcIps, h.dst, ?_, ?_, ?_, ?_, ?_, ?_⟩
  · rw [List.length_append, List.length_singleton, ← h.i]
  · rw [List.map_append, ← h.fds]
    rfl
  · have hother : x.1 ∉ g.fds := by
      intro hmem
      rw [h.fds, List.mem_map] at hmem
      obtain ⟨y, hy, hfd⟩ := hmem
      refine hnew ?_
      rw [Process.descriptors, h.sockets, List.map_append, List.mem_append, List.map_map]
      exact Or.inr (List.mem_map.mpr ⟨y, hy, hfd⟩)
    exact List.nodup_append_comm.mp (List.nodup_cons.mpr ⟨hother, h.distinct⟩)
  · rw [h.sockets, h.dst, List.map_append, List.append_assoc]
    rfl
  · have htake : (tried ++ [a]).take (held ++ [x]).length = tried ++ [a] :=
      List.take_of_length_le (by simp [hlength])
    have hbefore := h.attempts
    rw [List.take_of_length_le hlength.ge] at hbefore
    rw [htake, List.mapIdx_append, hbefore, List.map_append]
    simp [← hlength, hx]
  · left
    rw [List.length_append, List.length_append, List.length_singleton, List.length_singleton]
    exact ⟨hnot, by omega⟩

/-- A round keeps the account of what the generator holds. -/
theorem Holding.round (h : Holding pton g₀ tried g held) (hfresh : a.Fresh g.process) :
    ∃ held', Holding pton g₀ (tried ++ [a]) (g.round pton a) held' := by
  cases hrunning : g.running with
  | false => exact ⟨held, h.stopped pton hrunning a⟩
  | true =>
    cases hattempt : attempt pton (sourceAt g₀.srcIps held.length) a with
    | error e => exact ⟨held, h.error pton hrunning hfresh hattempt⟩
    | ok x => exact ⟨held ++ [x], h.ok pton hrunning hfresh hattempt⟩

/-- A generator that starts holds nothing. -/
theorem holding_start (count : Nat) (srcIps : List Bytes) (dst : SockAddr) (p : Process) :
    Holding pton { count := count, srcIps := srcIps, dst := dst, process := p } []
      { count := count, srcIps := srcIps, dst := dst, process := p } [] := by
  refine ⟨rfl, rfl, rfl, rfl, rfl, List.nodup_nil, (List.append_nil _).symm, rfl, ?_⟩
  exact Or.inl ⟨rfl, (Nat.min_zero _).symm⟩

/-- For all answers of the kernel: the process has the sockets it had and, in order, the connections
that the generator holds, one for each of the first attempts, each bound to an address of its
source and connected to the server. Either all attempts have worked that the loop has made, or the
first that failed is the one reported, with the error of the call that failed. -/
theorem run_holds (count : Nat) (srcIps : List Bytes) (dst : SockAddr) (p : Process)
    (answers : List Returns)
    (hfresh : Admissible (fun g a => a.Fresh g.process) (round pton)
      { count := count, srcIps := srcIps, dst := dst, process := p } answers) :
    let g := run (round pton) { count := count, srcIps := srcIps, dst := dst, process := p } answers
    ∃ held : List (Nat × SockAddr),
      g.fds = held.map Prod.fst ∧ g.fds.Nodup ∧
      g.process.sockets = p.sockets ++ held.map (connection dst) ∧
      ((answers.take held.length).mapIdx fun i a => attempt pton (sourceAt srcIps i) a) =
        held.map .ok ∧
      ((g.failedAt = -1 ∧ held.length = min count answers.length) ∨
        (g.failedAt = held.length ∧ held.length < count ∧ ∃ a, answers[held.length]? = some a ∧
          attempt pton (sourceAt srcIps held.length) a = .error g.failErrno)) := by
  intro g
  have hholding : ∃ held, Holding pton { count, srcIps, dst, process := p } answers g held := by
    induction answers using List.reverseRecOn with
    | nil => exact ⟨[], holding_start pton count srcIps dst p⟩
    | append_singleton tried a ih =>
      obtain ⟨htried, ha, -⟩ := admissible_append.mp hfresh
      obtain ⟨held, hheld⟩ := ih htried
      have hrun : g = (run (round pton)
          { count := count, srcIps := srcIps, dst := dst, process := p } tried).round pton a :=
        run_append
      rw [hrun]
      exact hheld.round pton ha
  obtain ⟨held, hheld⟩ := hholding
  exact ⟨held, hheld.fds, hheld.distinct, hheld.sockets, hheld.attempts, hheld.ended⟩

/-- The second source address is not configured, and the close after that leaves another error
behind. -/
theorem run_holds_until_bind_fails :
    let pton : InetPton := fun s =>
      if s = text "127.0.0.1" then some 0x7f000001
      else if s = text "127.0.0.2" then some 0x7f000002 else none
    let dst : SockAddr := ⟨0x7f000001, 5000⟩
    let answers : List Returns :=
      [{ socket := .ok 3, bind := .ok 10000 },
        { socket := .ok 4, bind := .error .eaddrnotavail, close := .other 5 },
        { socket := .ok 4, bind := .ok 10001 }]
    let g := run (round pton)
      { count := 3, srcIps := [text "127.0.0.1", text "127.0.0.2"], dst, process := {} } answers
    (∃ held : List (Nat × SockAddr), g.fds = held.map Prod.fst ∧
      g.process.sockets = held.map (connection dst)) ∧
      g.fds = [3] ∧ g.failedAt = 1 ∧ g.failErrno = .eaddrnotavail ∧
        g.likelyCause = some (diagnose .eaddrnotavail) := by
  intro pton dst answers g
  obtain ⟨held, hfds, -, hsockets, -⟩ :=
    run_holds pton 3 [text "127.0.0.1", text "127.0.0.2"] dst {} answers (by decide)
  exact ⟨⟨held, hfds, hsockets⟩, by decide, by decide, by decide, rfl⟩

end Generator

end SocketExchange
