import Mathlib.Data.Finset.Card
import Mathlib.Order.Bounds.Basic
import SocketExchange.Bonus.ConnGenerator
import SocketExchange.Library.Turns

/-!
# How many connections one host can open

Connections from one address to the server are told apart by their ports alone, so a host has
room for as many from each of its addresses as it has ports. The generator stops at the first
connection for which there is no descriptor or no room at the address whose turn it is.
-/

namespace SocketExchange

open Runs Turns

/-- What a host lends to one process. -/
structure Host where
  /-- How many sockets the process may have open. -/
  descriptors : Nat
  /-- The ports that the kernel chooses from, at every address. -/
  ports : Finset UInt16
  /-- The addresses of the interfaces. -/
  configured : Finset UInt32
  /-- The address of the sockets that are not bound to one. -/
  fallback : UInt32

/-- The addresses that the sockets of a process are bound to. -/
def Process.names (p : Process) : List SockAddr := p.sockets.filterMap fun e => e.2.name

/-- The address that a source stands for, if any. -/
def Host.addressOf (h : Host) (pton : InetPton) : Option Bytes → Option UInt32
  | none => some h.fallback
  | some ip => pton ip

/-- The address whose turn it is. -/
def Host.turn (h : Host) (pton : InetPton) (srcIps : List Bytes) (n : Nat) : Option UInt32 :=
  h.addressOf pton (sourceAt srcIps n)

/-- How many connections there can be from an address. -/
def Host.room (h : Host) : Option UInt32 → Nat
  | some addr => if addr ∈ h.configured then h.ports.card else 0
  | none => 0

/-- The host has nothing left for connection `n`. -/
def Host.Exhausted (h : Host) (pton : InetPton) (srcIps : List Bytes) (n : Nat) : Prop :=
  h.descriptors ≤ n ∨
    h.room (h.turn pton srcIps n) ≤ taken (h.turn pton srcIps) (h.turn pton srcIps n) n

/-- The error that says what it has run out of. -/
def Host.wall (h : Host) (pton : InetPton) (srcIps : List Bytes) (n : Nat) : Errno :=
  if h.descriptors ≤ n then .emfile
  else if (h.turn pton srcIps n).isSome then .eaddrnotavail else .einval

/-! ## The answers of a host that only runs out -/

/-- A descriptor that is not open, unless too many are. -/
def Host.Opens (h : Host) (p : Process) : Except Errno Nat → Prop
  | .ok fd => p.sockets.length < h.descriptors ∧ fd ∉ p.descriptors
  | .error e => h.descriptors ≤ p.sockets.length ∧ e = .emfile

/-- A port of the address that no socket has, unless all are taken. -/
def Host.Lends (h : Host) (p : Process) (addr : UInt32) : Except Errno UInt16 → Prop
  | .ok port => addr ∈ h.configured ∧ port ∈ h.ports ∧ ⟨addr, port⟩ ∉ p.names
  | .error e => (addr ∈ h.configured → ∀ port ∈ h.ports, ⟨addr, port⟩ ∈ p.names) ∧
      e = .eaddrnotavail

/-- A socket that is not bound gets its address and its port when it is connected. -/
def Host.Connects (h : Host) (p : Process) : Except Errno SockAddr → Prop
  | .ok name => name.addr = h.fallback ∧ h.Lends p h.fallback (.ok name.port)
  | .error e => h.Lends p h.fallback (.error e)

/-- A socket that is to be bound to an address gets its port then. -/
def Host.Binds (h : Host) (p : Process) (a : Returns) : Option UInt32 → Prop
  | some addr => h.Lends p addr a.bind ∧ a.connect.toOption.isSome = true
  | none => True

/-- The host lets the process bind to this source address, or connect without one. -/
def Host.Names (h : Host) (pton : InetPton) (p : Process) (a : Returns) : Option Bytes → Prop
  | none => h.Connects p a.connect
  | some ip => h.Binds p a (pton ip)

/-- The host answers as it must, and nothing else goes wrong. -/
def Host.Allows (h : Host) (pton : InetPton) (p : Process) (srcIp : Option Bytes) (a : Returns) :
    Prop := h.Opens p a.socket ∧ h.Names pton p a srcIp

instance (h : Host) (p : Process) : ∀ r, Decidable (h.Opens p r)
  | .ok _ => inferInstanceAs (Decidable (_ ∧ _))
  | .error _ => inferInstanceAs (Decidable (_ ∧ _))

instance (h : Host) (p : Process) (addr : UInt32) : ∀ r, Decidable (h.Lends p addr r)
  | .ok _ => inferInstanceAs (Decidable (_ ∧ _ ∧ _))
  | .error _ =>
    -- By the ports of the host, not by all ports there are.
    have : Decidable (∀ port ∈ h.ports, ⟨addr, port⟩ ∈ p.names) := Finset.decidableDforallFinset
    inferInstanceAs (Decidable ((_ → _) ∧ _))

instance (h : Host) (p : Process) : ∀ r, Decidable (h.Connects p r)
  | .ok _ => inferInstanceAs (Decidable (_ ∧ _))
  | .error e => inferInstanceAs (Decidable (h.Lends p h.fallback (.error e)))

instance (h : Host) (p : Process) (a : Returns) : ∀ addr, Decidable (h.Binds p a addr)
  | some _ => inferInstanceAs (Decidable (_ ∧ _))
  | none => .isTrue trivial

instance (h : Host) (pton : InetPton) (p : Process) (a : Returns) :
    ∀ srcIp, Decidable (h.Names pton p a srcIp)
  | none => inferInstanceAs (Decidable (h.Connects p a.connect))
  | some ip => inferInstanceAs (Decidable (h.Binds p a (pton ip)))

instance (h : Host) (pton : InetPton) (p : Process) (srcIp : Option Bytes) (a : Returns) :
    Decidable (h.Allows pton p srcIp a) := inferInstanceAs (Decidable (_ ∧ _))

variable {pton : InetPton} {h : Host} {p : Process} {srcIp : Option Bytes} {a : Returns}
  {srcIps : List Bytes}

/-- The host never hands out a descriptor that is in use. -/
theorem Host.Allows.fresh (ha : h.Allows pton p srcIp a) : a.Fresh p := by
  intro fd hfd
  have hopens := ha.1
  rw [hfd] at hopens
  exact hopens.2

/-- A connection is opened at an address with a port to spare. -/
theorem Host.Allows.ok (ha : h.Allows pton p srcIp a) {x : Nat × SockAddr}
    (hx : attempt pton srcIp a = .ok x) :
    p.sockets.length < h.descriptors ∧ h.addressOf pton srcIp = some x.2.addr ∧
      x.2.addr ∈ h.configured ∧ x.2.port ∈ h.ports ∧ x.2 ∉ p.names := by
  obtain ⟨hopens, hbinds⟩ := ha
  unfold attempt at hx
  cases hsocket : a.socket with
  | error e =>
    rw [hsocket] at hx
    cases hx
  | ok fd =>
    rw [hsocket] at hx hopens
    refine ⟨hopens.1, ?_⟩
    cases srcIp with
    | none =>
      cases hconnect : a.connect with
      | error e =>
        rw [hconnect] at hx
        cases hx
      | ok name =>
        rw [hconnect] at hx
        cases hx
        rw [Names, hconnect] at hbinds
        obtain ⟨haddr, hconfigured, hport, hnew⟩ := hbinds
        rw [← haddr] at hconfigured hnew
        exact ⟨congrArg some haddr.symm, hconfigured, hport, hnew⟩
    | some ip =>
      cases haddr : pton ip with
      | none =>
        simp only [haddr] at hx
        cases hx
      | some addr =>
        rw [Names, haddr] at hbinds
        obtain ⟨hlends, -⟩ := hbinds
        cases hbind : a.bind with
        | error e =>
          simp only [haddr, hbind] at hx
          cases hx
        | ok port =>
          rw [hbind] at hlends
          cases hconnect : a.connect with
          | error e =>
            simp only [haddr, hbind, hconnect] at hx
            cases hx
          | ok name =>
            simp only [haddr, hbind, hconnect] at hx
            cases hx
            exact ⟨haddr, hlends⟩

/-- A connection is refused for want of a descriptor, of an address or of a port. -/
theorem Host.Allows.error (ha : h.Allows pton p srcIp a) {e : Errno}
    (he : attempt pton srcIp a = .error e) :
    (h.descriptors ≤ p.sockets.length ∧ e = .emfile) ∨
      (p.sockets.length < h.descriptors ∧
        ((h.addressOf pton srcIp = none ∧ e = .einval) ∨
          ∃ addr, h.addressOf pton srcIp = some addr ∧ e = .eaddrnotavail ∧
            (addr ∈ h.configured → ∀ port ∈ h.ports, ⟨addr, port⟩ ∈ p.names))) := by
  obtain ⟨hopens, hbinds⟩ := ha
  unfold attempt at he
  cases hsocket : a.socket with
  | error e' =>
    rw [hsocket] at he hopens
    cases he
    exact Or.inl hopens
  | ok fd =>
    rw [hsocket] at he hopens
    refine Or.inr ⟨hopens.1, ?_⟩
    cases srcIp with
    | none =>
      cases hconnect : a.connect with
      | ok name =>
        rw [hconnect] at he
        cases he
      | error e' =>
        rw [hconnect] at he
        cases he
        rw [Names, hconnect] at hbinds
        obtain ⟨hused, heq⟩ := hbinds
        exact Or.inr ⟨h.fallback, rfl, heq, hused⟩
    | some ip =>
      cases haddr : pton ip with
      | none =>
        simp only [haddr] at he
        cases he
        exact Or.inl ⟨haddr, rfl⟩
      | some addr =>
        rw [Names, haddr] at hbinds
        obtain ⟨hlends, hconnects⟩ := hbinds
        cases hbind : a.bind with
        | error e' =>
          simp only [haddr, hbind] at he
          cases he
          rw [hbind] at hlends
          exact Or.inr ⟨addr, haddr, hlends.2, hlends.1⟩
        | ok port =>
          cases hconnect : a.connect with
          | error e' =>
            rw [hconnect] at hconnects
            cases hconnects
          | ok name =>
            simp only [haddr, hbind, hconnect] at he
            cases he

/-! ## The ports lent -/

/-- The addresses and ports that the host has lent, one for each turn so far. -/
structure Host.Lent (h : Host) (pton : InetPton) (srcIps : List Bytes) (names : List SockAddr) :
    Prop where
  distinct : names.Nodup
  ports : ∀ name ∈ names, name.port ∈ h.ports
  turns : names.map (fun name => some name.addr) =
    (List.range names.length).map (h.turn pton srcIps)

/-- The ports lent at an address. -/
def portsAt (addr : UInt32) (names : List SockAddr) : List UInt16 :=
  (names.filter fun name => name.addr = addr).map SockAddr.port

namespace Host.Lent

variable {names : List SockAddr} {addr : UInt32} {name : SockAddr}

private theorem mem_portsAt {port : UInt16} : port ∈ portsAt addr names ↔ ⟨addr, port⟩ ∈ names := by
  rw [portsAt, List.mem_map]
  constructor
  · rintro ⟨⟨addr', port'⟩, hmem, rfl⟩
    obtain ⟨hmem, haddr⟩ := List.mem_filter.mp hmem
    rwa [← of_decide_eq_true haddr]
  · exact fun hmem => ⟨⟨addr, port⟩, List.mem_filter.mpr ⟨hmem, decide_eq_true rfl⟩, rfl⟩

private theorem nodup_portsAt (hnames : names.Nodup) (addr : UInt32) :
    (portsAt addr names).Nodup := by
  refine (hnames.filter _).map_on fun x hx y hy hport => ?_
  have hxaddr := of_decide_eq_true (List.mem_filter.mp hx).2
  have hyaddr := of_decide_eq_true (List.mem_filter.mp hy).2
  cases x
  cases y
  simp_all

/-- At each address as many ports are lent as it has had turns. -/
theorem length_portsAt (hl : Lent h pton srcIps names) (addr : UInt32) :
    (portsAt addr names).length = taken (h.turn pton srcIps) (some addr) names.length := by
  rw [taken_eq_countP, ← hl.turns, portsAt, List.length_map, List.countP_map,
    List.countP_eq_length_filter]
  simp [Function.comp_def]

/-- All ports of the address are lent. -/
theorem room_le (hl : Lent h pton srcIps names)
    (hused : addr ∈ h.configured → ∀ port ∈ h.ports, ⟨addr, port⟩ ∈ names) :
    h.room (some addr) ≤ taken (h.turn pton srcIps) (some addr) names.length := by
  rw [room]
  split
  · rename_i hconfigured
    rw [← hl.length_portsAt, ← List.toFinset_card_of_nodup (nodup_portsAt hl.distinct addr)]
    refine Finset.card_le_card fun port hport => ?_
    rw [List.mem_toFinset, mem_portsAt]
    exact hused hconfigured port hport
  · exact Nat.zero_le _

/-- There is a port of the address that is not lent. -/
theorem lt_room (hl : Lent h pton srcIps names) (hconfigured : name.addr ∈ h.configured)
    (hport : name.port ∈ h.ports) (hnew : name ∉ names) :
    taken (h.turn pton srcIps) (some name.addr) names.length < h.room (some name.addr) := by
  rw [room, if_pos hconfigured, ← hl.length_portsAt,
    ← List.toFinset_card_of_nodup (nodup_portsAt hl.distinct name.addr)]
  refine Finset.card_lt_card (Finset.ssubset_iff.mpr ⟨name.port, ?_, ?_⟩)
  · rw [List.mem_toFinset, mem_portsAt]
    exact hnew
  · intro port hmem
    rcases Finset.mem_insert.mp hmem with rfl | hmem
    · exact hport
    · rw [List.mem_toFinset, mem_portsAt] at hmem
      exact hl.ports _ hmem

/-- One more is lent to the address whose turn it is. -/
theorem concat (hl : Lent h pton srcIps names) (hport : name.port ∈ h.ports) (hnew : name ∉ names)
    (hturn : h.turn pton srcIps names.length = some name.addr) :
    Lent h pton srcIps (names ++ [name]) where
  distinct := List.nodup_append_comm.mp (List.nodup_cons.mpr ⟨hnew, hl.distinct⟩)
  ports := by
    intro name' hmem
    rcases List.mem_append.mp hmem with hmem | hmem
    · exact hl.ports _ hmem
    · rwa [List.mem_singleton.mp hmem]
  turns := by
    rw [List.length_append, List.length_singleton, List.range_succ, List.map_append,
      List.map_append, ← hl.turns]
    simp [hturn]

end Host.Lent

/-! ## A run -/

namespace Generator

/-- While the loop runs, the host answers as it must and nothing else goes wrong. -/
def Allowed (h : Host) (pton : InetPton) (g : Generator) (a : Returns) : Prop :=
  g.running = true → h.Allows pton g.process (sourceAt g.srcIps g.i) a

instance (h : Host) (pton : InetPton) (g : Generator) (a : Returns) :
    Decidable (Allowed h pton g a) := inferInstanceAs (Decidable (_ → _))

/-- The generator has opened a connection for each turn before the host ran out. -/
structure Filling (h : Host) (pton : InetPton) (g₀ : Generator) (tried : List Returns)
    (g : Generator) (held : List (Nat × SockAddr)) : Prop where
  holding : Holding pton g₀ tried g held
  lent : h.Lent pton g₀.srcIps (held.map Prod.snd)
  lasted : ∀ n < held.length, ¬ h.Exhausted pton g₀.srcIps n
  stopped : 0 ≤ g.failedAt → h.Exhausted pton g₀.srcIps held.length ∧
    g.failErrno = h.wall pton g₀.srcIps held.length

variable {g g₀ : Generator} {tried : List Returns} {held : List (Nat × SockAddr)}

/-- The connections held are all the sockets there are. -/
theorem Holding.sockets_eq (hh : Holding pton g₀ tried g held) (hempty : g₀.process.sockets = []) :
    g.process.sockets = held.map (connection g₀.dst) := by
  rw [hh.sockets, hempty, List.nil_append]

private theorem Holding.names_eq (hh : Holding pton g₀ tried g held)
    (hempty : g₀.process.sockets = []) :
    g.process.names = held.map Prod.snd := by
  rw [Process.names, hh.sockets_eq hempty, List.filterMap_map, ← List.filterMap_eq_map]
  rfl

/-- A round opens the next connection or stops because the host has run out. -/
theorem Filling.round (hf : Filling h pton g₀ tried g held) (hempty : g₀.process.sockets = [])
    (ha : Allowed h pton g a) :
    ∃ held', Filling h pton g₀ (tried ++ [a]) (g.round pton a) held' := by
  cases hrunning : g.running with
  | false =>
    refine ⟨held, hf.holding.stopped pton hrunning a, hf.lent, hf.lasted, ?_⟩
    rw [round_stopped pton hrunning]
    exact hf.stopped
  | true =>
    have hallows := ha hrunning
    have hlength : g.process.sockets.length = held.length := by
      rw [hf.holding.sockets_eq hempty, List.length_map]
    have hnames := hf.holding.names_eq hempty
    have hturn : h.addressOf pton (sourceAt g₀.srcIps held.length) =
        h.turn pton g₀.srcIps held.length := rfl
    rw [hf.holding.srcIps, hf.holding.i] at hallows
    cases hattempt : attempt pton (sourceAt g₀.srcIps held.length) a with
    | error e =>
      refine ⟨held, hf.holding.error pton hrunning hallows.fresh hattempt, hf.lent, hf.lasted, ?_⟩
      intro _
      have hround := hattempt
      rw [← hf.holding.srcIps, ← hf.holding.i] at hround
      rw [round_error pton hrunning hallows.fresh hround]
      obtain ⟨hfull, rfl⟩ | ⟨hspare, ⟨hnone, rfl⟩ | ⟨addr, haddr, rfl, hused⟩⟩ :=
        hallows.error hattempt
      · rw [hlength] at hfull
        exact ⟨Or.inl hfull, (if_pos hfull).symm⟩
      · rw [hlength] at hspare
        rw [hturn] at hnone
        simp [Host.Exhausted, Host.wall, Host.room, hnone, hspare]
      · rw [hlength] at hspare
        rw [hturn] at haddr
        rw [hnames] at hused
        have hroom := hf.lent.room_le hused
        rw [List.length_map] at hroom
        simp [Host.Exhausted, Host.wall, haddr, hspare, hroom]
    | ok x =>
      obtain ⟨hspare, haddr, hconfigured, hport, hnew⟩ := hallows.ok hattempt
      rw [hlength] at hspare
      rw [hturn] at haddr
      rw [hnames] at hnew
      have hroom := hf.lent.lt_room hconfigured hport hnew
      rw [List.length_map] at hroom
      have hround := hattempt
      rw [← hf.holding.srcIps, ← hf.holding.i] at hround
      refine ⟨held ++ [x], hf.holding.ok pton hrunning hallows.fresh hattempt, ?_, ?_, ?_⟩
      · rw [List.map_append]
        refine hf.lent.concat hport hnew ?_
        rw [List.length_map, haddr]
      · intro n hn
        rw [List.length_append, List.length_singleton] at hn
        by_cases hlast : n < held.length
        · exact hf.lasted n hlast
        · obtain rfl : n = held.length := by omega
          rw [Host.Exhausted, haddr]
          omega
      · rw [round_ok pton hrunning hallows.fresh hround]
        intro hfailed
        obtain ⟨hnot, -⟩ := (hf.holding.running_iff pton).mp hrunning
        have hfailed : 0 ≤ g.failedAt := hfailed
        omega

private theorem filling_start (h : Host) (pton : InetPton) (count : Nat) (srcIps : List Bytes)
    (dst : SockAddr) :
    Filling h pton { count, srcIps, dst, process := {} } []
      { count, srcIps, dst, process := {} } [] where
  holding := holding_start pton count srcIps dst {}
  lent := ⟨List.nodup_nil, by simp, rfl⟩
  lasted := by simp
  stopped := by simp

/-- On a host where nothing goes wrong but that it runs out, the generator opens connections, all
from different addresses or ports, up to its count or to the first for which the host has nothing
left, and then reports what that is. -/
theorem run_exhausts (h : Host) (pton : InetPton) (count : Nat) (srcIps : List Bytes)
    (dst : SockAddr) (answers : List Returns) (hlength : count ≤ answers.length)
    (hallowed : Admissible (Allowed h pton) (round pton) { count, srcIps, dst, process := {} }
      answers) :
    let g := run (round pton) { count, srcIps, dst, process := {} } answers
    IsLeast {n | count ≤ n ∨ h.Exhausted pton srcIps n} g.fds.length ∧
      g.process.descriptors = g.fds ∧ g.process.names.Nodup ∧
      g.process.names.length = g.fds.length ∧
      g.likelyCause = if g.fds.length < count then
        some (diagnose (h.wall pton srcIps g.fds.length)) else none := by
  intro g
  have hfilling : ∃ held, Filling h pton { count, srcIps, dst, process := {} } answers g held := by
    clear hlength
    induction answers using List.reverseRecOn with
    | nil => exact ⟨[], filling_start h pton count srcIps dst⟩
    | append_singleton tried a ih =>
      obtain ⟨htried, ha, -⟩ := admissible_append.mp hallowed
      obtain ⟨held, hheld⟩ := ih htried
      have hrun : g = (run (round pton) { count, srcIps, dst, process := {} } tried).round pton a :=
        run_append
      rw [hrun]
      exact hheld.round rfl ha
  obtain ⟨held, hf⟩ := hfilling
  have hfds : g.fds.length = held.length := by rw [hf.holding.fds, List.length_map]
  have hnames := hf.holding.names_eq rfl
  have hdescriptors : g.process.descriptors = g.fds := by
    rw [Process.descriptors, hf.holding.sockets_eq rfl, hf.holding.fds, List.map_map]
    rfl
  have hended : (g.failedAt = -1 ∧ held.length = min count answers.length) ∨
      (g.failedAt = held.length ∧ held.length < count) :=
    hf.holding.ended.imp_right fun hend => ⟨hend.1, hend.2.1⟩
  rw [hfds, hnames, likelyCause]
  refine ⟨⟨?_, ?_⟩, hdescriptors, hf.lent.distinct, List.length_map _, ?_⟩
  · rcases hended with ⟨-, hall⟩ | ⟨hfailed, -⟩
    · exact Or.inl (by omega)
    · exact Or.inr (hf.stopped (by omega)).1
  · rintro n (hcount | hexhausted)
    · have hle : held.length ≤ count := by
        rcases hended with ⟨-, hall⟩ | ⟨-, hless⟩ <;> omega
      omega
    · exact not_lt.mp fun hn => hf.lasted n hn hexhausted
  · rcases hended with ⟨hnot, hall⟩ | ⟨hfailed, hless⟩
    · rw [if_neg (by omega), if_neg (by omega)]
    · rw [if_pos (by omega), if_pos hless, (hf.stopped (by omega)).2]

/-- An address that stands in the list twice has no more ports for it. -/
theorem run_exhausts_one_address_twice :
    let h : Host := ⟨100, {10000, 10001}, {0x7f000001}, 0x7f000001⟩
    let pton : InetPton := fun s => if s = text "127.0.0.1" then some 0x7f000001 else none
    let srcIps := [text "127.0.0.1", text "127.0.0.1"]
    let answers : List Returns :=
      [{ socket := .ok 3, bind := .ok 10000 }, { socket := .ok 4, bind := .ok 10001 },
        { socket := .ok 5, bind := .error .eaddrnotavail }]
    let g := run (round pton) { count := 3, srcIps, dst := ⟨0x7f000001, 5000⟩, process := {} }
      answers
    IsLeast {n | 3 ≤ n ∨ h.Exhausted pton srcIps n} 2 ∧
      g.likelyCause = some (diagnose .eaddrnotavail) := by
  intro h pton srcIps answers g
  have hfds : g.fds.length = 2 := by decide
  obtain ⟨hleast, -⟩ := run_exhausts h pton 3 srcIps ⟨0x7f000001, 5000⟩ answers le_rfl
    (by decide)
  have hleast : IsLeast {n | 3 ≤ n ∨ h.Exhausted pton srcIps n} g.fds.length := hleast
  rw [hfds] at hleast
  have hfailed : g.failedAt = 2 ∧ g.failErrno = .eaddrnotavail := by decide
  rw [likelyCause, hfailed.1, hfailed.2]
  exact ⟨hleast, rfl⟩

/-! ## Different addresses -/

/-- The addresses that the connections are opened from. -/
def addresses (h : Host) (addrs : List UInt32) : List UInt32 :=
  if addrs = [] then [h.fallback] else addrs

private theorem length_addresses (h : Host) (addrs : List UInt32) :
    (addresses h addrs).length = max 1 addrs.length := by
  unfold addresses
  split
  · rename_i hnil
    simp [hnil]
  · rename_i hne
    have hpos := List.length_pos_iff.mpr hne
    omega

/-- The configured source addresses take turns. -/
theorem roundRobin_turn {ips : List Bytes} {addrs : List UInt32}
    (haddrs : ips.map pton = addrs.map some) :
    RoundRobin (h.turn pton ips) ((addresses h addrs).map some) := by
  intro n
  have hlength : ips.length = addrs.length := by simpa using congrArg List.length haddrs
  unfold addresses
  split
  · rename_i hnil
    have hips : ips = [] := by simpa [hnil] using hlength
    simp [Host.turn, sourceAt, hips, Host.addressOf, Nat.mod_one]
  · rename_i hne
    have hpos := List.length_pos_iff.mpr hne
    have hips : ips ≠ [] := by
      rintro rfl
      simp at hlength
      omega
    have hlt : n % ips.length < ips.length := Nat.mod_lt _ (by omega)
    have hsource : sourceAt ips n = some ips[n % ips.length] := by
      rw [sourceAt, if_neg hips, List.getElem?_eq_getElem hlt]
    rw [← haddrs, List.length_map, List.getElem?_map, List.getElem?_eq_getElem hlt, Host.turn,
      hsource]
    rfl

/-- With different addresses, all of the host, it runs out when all ports of all addresses are
taken. -/
theorem exhausted_iff {ips : List Bytes} {addrs : List UInt32}
    (haddrs : ips.map pton = addrs.map some) (hdistinct : addrs.Nodup)
    (hconfigured : ∀ addr ∈ addresses h addrs, addr ∈ h.configured) (n : Nat) :
    h.Exhausted pton ips n ↔ h.descriptors ≤ n ∨ max 1 ips.length * h.ports.card ≤ n := by
  have hturns := roundRobin_turn (h := h) haddrs
  have hlength : ips.length = addrs.length := by simpa using congrArg List.length haddrs
  have hnodup : ((addresses h addrs).map some).Nodup := by
    refine List.Nodup.map (Option.some_injective _) ?_
    unfold addresses
    split
    · exact List.nodup_singleton _
    · exact hdistinct
  have htaken := hturns.taken_turn hnodup n
  rw [List.length_map, length_addresses, ← hlength] at htaken
  obtain ⟨addr, hmem, haddr⟩ := List.mem_map.mp (List.mem_of_getElem? (hturns n))
  have hroom : h.room (h.turn pton ips n) = h.ports.card := by
    rw [← haddr, Host.room, if_pos (hconfigured addr hmem)]
  rw [Host.Exhausted, hroom, htaken, Nat.le_div_iff_mul_le (by omega), Nat.mul_comm]

/-- On a host where nothing goes wrong but that it runs out, and started with a list of texts for
different addresses of the host, the generator opens the connections it is asked for as far as there
are descriptors, and ports at the addresses together. With an empty list there is one address. -/
theorem run_capacity (h : Host) (pton : InetPton) {host : Bytes} {port count : Int}
    (ips : List Bytes) (hips : ∀ ip ∈ ips, ip ≠ [] ∧ 44 ∉ ip) (addrs : List UInt32)
    (haddrs : ips.map pton = addrs.map some) (hdistinct : addrs.Nodup)
    (hconfigured : ∀ addr ∈ h.fallback :: addrs, addr ∈ h.configured) {g₀ : Generator}
    (hstart : start pton host port count (some ([44].intercalate ips)) {} = some g₀)
    (answers : List Returns) (hlength : count ≤ answers.length)
    (hallowed : Admissible (Allowed h pton) (round pton) g₀ answers) :
    (run (round pton) g₀ answers).fds.length =
      min count.toNat (min h.descriptors (max 1 ips.length * h.ports.card)) := by
  rw [start] at hstart
  split at hstart
  · cases hstart
  · obtain ⟨addr, -, rfl⟩ := Option.map_eq_some_iff.mp hstart
    simp only [Option.map_some, Option.getD_some, splitCsv_intercalate hips] at hallowed ⊢
    have hrun := (run_exhausts h pton count.toNat ips _ answers (by omega) hallowed).1
    have hthere : ∀ addr ∈ addresses h addrs, addr ∈ h.configured := by
      intro addr haddr
      unfold addresses at haddr
      split at haddr
      · exact hconfigured addr (List.mem_cons.mpr (Or.inl (List.mem_singleton.mp haddr)))
      · exact hconfigured addr (List.mem_cons_of_mem _ haddr)
    have hiff := exhausted_iff haddrs hdistinct hthere
    obtain ⟨hmem, hleast⟩ := hrun
    refine le_antisymm (hleast ?_) ?_
    · have hall : ∀ n, n = min count.toNat (min h.descriptors (max 1 ips.length * h.ports.card)) →
          count.toNat ≤ n ∨ h.Exhausted pton ips n := by
        intro n hn
        rw [hiff]
        omega
      exact hall _ rfl
    · rcases hmem with hcount | hexhausted
      · omega
      · rw [hiff] at hexhausted
        omega

/-- Two addresses with two ports each. -/
theorem run_capacity_two_addresses :
    let h : Host := ⟨100, {10000, 10001}, {0x7f000001, 0x7f000002}, 0x7f000001⟩
    let pton : InetPton := fun s =>
      if s = text "127.0.0.1" then some 0x7f000001
      else if s = text "127.0.0.2" then some 0x7f000002 else none
    let g₀ : Generator := ⟨5, [text "127.0.0.1", text "127.0.0.2"], ⟨0x7f000001, 5000⟩, {}, [],
      .other 0, -1, 0⟩
    let answers : List Returns :=
      [{ socket := .ok 3, bind := .ok 10000 }, { socket := .ok 4, bind := .ok 10000 },
        { socket := .ok 5, bind := .ok 10001 }, { socket := .ok 6, bind := .ok 10001 },
        { socket := .ok 7, bind := .error .eaddrnotavail }]
    start pton (text "127.0.0.1") 5000 5 (some (text "127.0.0.1,127.0.0.2")) {} = some g₀ ∧
      (run (round pton) g₀ answers).fds.length =
        min 5 (min h.descriptors (2 * h.ports.card)) := by
  intro h pton g₀ answers
  have hstart : start pton (text "127.0.0.1") 5000 5 (some (text "127.0.0.1,127.0.0.2")) {} =
      some g₀ := by rfl
  exact ⟨hstart, run_capacity h pton [text "127.0.0.1", text "127.0.0.2"] (by decide)
    [0x7f000001, 0x7f000002] (by decide) (by decide) (by simp [h]) hstart answers (by decide)
    (by decide)⟩

end Generator

end SocketExchange
