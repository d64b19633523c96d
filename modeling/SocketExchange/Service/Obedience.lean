import SocketExchange.Service.Calls

/-!
# Acting on lines

What the server does on a line is a function of its state without its input and
output. A list of lines is acted on up to and including the first QUIT, and two servers
that differ in input and output alone end alike.
-/

namespace SocketExchange

open Containers ClientSession Runs

/-- A session without its input and output. -/
def ClientSession.core (c : ClientSession) : ClientSession :=
  { c with inbuf := {}, outbuf := [], wantWrite := false }

namespace Server

variable {s s' : Server} {fd : Int} {c : ClientSession}

/-! ## What a line depends on -/

/-- A server without input and output and without the kernel. -/
def core (s : Server) : Server :=
  { s with sessions := UnorderedMap.mapValues ClientSession.core s.sessions, kernel := {} }

@[simp] theorem lookup_core :
    s.core.sessions.lookup fd = (s.sessions.lookup fd).map ClientSession.core :=
  UnorderedMap.lookup_mapValues ..

private theorem keys_core : s.core.sessions.keys = s.sessions.keys := UnorderedMap.keys_mapValues ..

/-- The view has the core of the server. -/
theorem core_view (s : Server) : s.view.core = s.core := by
  have hentries : UnorderedMap.mapValues ClientSession.core
      (UnorderedMap.mapValues ClientSession.profile s.sessions) =
      UnorderedMap.mapValues ClientSession.core s.sessions := by
    apply AList.ext
    simp only [UnorderedMap.mapValues, List.map_map]
    rfl
  simp only [core, view, hentries]

/-- Logging in the server is logging in its core. -/
theorem core_log (obs : List Obs) : (s.log obs).core = s.core.log obs := rfl

/-- Servers with the same core have the same sessions but for input and output. -/
theorem lookup_of_core (h : s.core = s'.core) (hc : s.sessions.lookup fd = some c) :
    ∃ c', s'.sessions.lookup fd = some c' ∧ c'.core = c.core := by
  have hlookup := congrArg (fun t : Server => t.sessions.lookup fd) h
  simp only [lookup_core] at hlookup
  rwa [hc, Option.map_some, eq_comm, Option.map_eq_some_iff] at hlookup

/-- Servers with one core have the same sessions. -/
theorem lookup_none_of_core (h : s.core = s'.core) (hc : s.sessions.lookup fd = none) :
    s'.sessions.lookup fd = none := by
  by_contra hsome
  obtain ⟨c', hc'⟩ := Option.ne_none_iff_exists'.mp hsome
  obtain ⟨c, hc₀, -⟩ := lookup_of_core h.symm hc'
  rw [hc] at hc₀
  cases hc₀

private theorem core_withBook (book : OrderBook) :
    (s.withBook book).core = s.core.withBook book := rfl

/-- A change that the core sees as another changes the core by it. -/
theorem core_update {f g : ClientSession → ClientSession} (h : ∀ c, (f c).core = g c.core) :
    (s.update fd f).core = s.core.update fd g := by
  simp only [core, update, UnorderedMap.mapValues_modify h]

/-- Forgetting a session forgets it in the core. -/
theorem core_forget (s : Server) (fd : Int) : (s.forget fd).core = s.core.forget fd := by
  unfold forget
  rw [lookup_core]
  cases s.sessions.lookup fd with
  | none => rfl
  | some c =>
    have herase := UnorderedMap.mapValues_erase ClientSession.core fd s.sessions
    simp only [Option.map_some, core, eraseSession, log, herase]
    rfl

private theorem core_inferRole (cmd : Bytes) (c : ClientSession) :
    (inferRole cmd c).core = inferRole cmd c.core := by
  have hrole : c.core.role = c.role := rfl
  unfold inferRole
  rw [hrole]
  split_ifs <;> rfl

private theorem fillVoice_core (s : Server) : s.core.fillVoice = s.fillVoice := by
  have howner : ∀ party line, s.core.ownerVoice party line = s.ownerVoice party line := by
    intro party line
    rw [ownerVoice, ownerVoice, lookup_core]
    cases s.sessions.lookup party.1 <;> rfl
  have hfollowers : ∀ instrument, s.core.followers instrument = s.followers instrument := by
    intro instrument
    have hfollower : s.core.follower instrument = s.follower instrument := by
      funext fd
      rw [follower, follower, lookup_core]
      cases s.sessions.lookup fd <;> rfl
    rw [followers, followers, hfollower, keys_core]
  funext f
  simp only [fillVoice, tradeVoice, howner, hfollowers]

private theorem standing_core (s : Server) (c : ClientSession) :
    s.core.standing c.core = s.standing c := by
  simp only [standing, core, any_mapValues (g := ClientSession.core) fun _ => rfl]
  rfl

private theorem carryOut_core (s : Server) (fd : Int) (c : ClientSession) (d : Decision) :
    ((s.carryOut fd c d).1.core, (s.carryOut fd c d).2) = s.core.carryOut fd c.core d := by
  cases d with
  | rejected reason => rfl
  | loggedIn name => rw [carryOut, core_log, core_update (g := setUsername name) fun _ => rfl]; rfl
  | placed side instrument qty price =>
    rw [carryOut, accept, core_log, core_withBook, ← fillVoice_core]
    rfl
  | cancelled oid => rfl
  | subscribed i => rw [carryOut, core_log, core_update (g := subscribe i) fun _ => rfl]; rfl
  | unsubscribed i => rw [carryOut, core_log, core_update (g := unsubscribe i) fun _ => rfl]; rfl
  | quit => rw [carryOut, core_forget]; rfl

/-- What a line does to the core is a function of the core. -/
theorem handleLine_core (hc : s.sessions.lookup fd = some c) (line : Bytes) :
    ((s.handleLine fd line).1.core, (s.handleLine fd line).2) =
      let c' := inferRole (commandWord line) c.core
      let s' := s.core.noted fd c.core line
      s'.carryOut fd c' ((s'.standing c').decision line) := by
  have hview := handleLine_view hc line
  have hnoted : (s.view.noted fd c.profile line).core = s.core.noted fd c.core line := by
    rw [noted, core_update (core_inferRole _), core_log, core_view]
    rfl
  have hprofile : (inferRole (commandWord line) c.profile).core =
      inferRole (commandWord line) c.core := core_inferRole ..
  have hfst := congrArg (fun r => (r.1.core, r.2)) hview
  dsimp only at hfst ⊢
  rw [core_view] at hfst
  rw [hfst, carryOut_core, ← standing_core, hnoted, hprofile]

/-- Two servers with the same core do the same on a line. -/
theorem handleLine_congr (h : s.core = s'.core) (fd : Int) (line : Bytes) :
    (s.handleLine fd line).1.core = (s'.handleLine fd line).1.core ∧
      (s.handleLine fd line).2 = (s'.handleLine fd line).2 := by
  cases hc : s.sessions.lookup fd with
  | none =>
    simp only [handleLine, hc, lookup_none_of_core h hc]
    exact ⟨h, trivial⟩
  | some c =>
    obtain ⟨c', hc', hsame⟩ := lookup_of_core h hc
    have hboth := handleLine_core hc line
    have hboth' := handleLine_core hc' line
    rw [← h, hsame] at hboth'
    exact Prod.mk.inj (hboth.trans hboth'.symm)

/-! ## Acting on a list of lines -/

/-- Act on lines in turn; false when the session is gone, and the rest is left undone. -/
def obey (s : Server) (fd : Int) : List Bytes → Server × Bool
  | [] => (s, true)
  | line :: lines =>
    match s.handleLine fd line with
    | (s', true) => obey s' fd lines
    | (s', false) => (s', false)

/-- Obeying two lists of lines is obeying one after the other, unless a QUIT is in the first. -/
theorem obey_append (s : Server) (fd : Int) (ls ls' : List Bytes) :
    s.obey fd (ls ++ ls') =
      if (s.obey fd ls).2 = true then (s.obey fd ls).1.obey fd ls' else s.obey fd ls := by
  induction ls generalizing s with
  | nil => rfl
  | cons line ls ih =>
    rw [List.cons_append, obey, obey]
    cases s.handleLine fd line with
    | mk s' alive =>
      cases alive with
      | true => exact ih s'
      | false => rfl

/-- Servers with one core obey alike. -/
theorem obey_congr (h : s.core = s'.core) (fd : Int) (ls : List Bytes) :
    (s.obey fd ls).1.core = (s'.obey fd ls).1.core ∧ (s.obey fd ls).2 = (s'.obey fd ls).2 := by
  induction ls generalizing s s' with
  | nil => exact ⟨h, rfl⟩
  | cons line ls ih =>
    obtain ⟨hcore, halive⟩ := handleLine_congr h fd line
    rw [obey, obey]
    cases hr : s.handleLine fd line with
    | mk s₁ alive =>
      cases hr' : s'.handleLine fd line with
      | mk s₂ alive' =>
        rw [hr, hr'] at hcore halive
        obtain rfl : alive = alive' := halive
        cases alive with
        | true => exact ih hcore
        | false => exact ⟨hcore, rfl⟩

/-- The connection of a descriptor and its unconsumed input. -/
def input (s : Server) (fd : Int) : Option (Nat × LineBuffer) :=
  (s.sessions.lookup fd).map fun c => (c.conn, c.inbuf)

/-- The input of a session is its connection and what it has buffered. -/
theorem input_eq (hc : s.sessions.lookup fd = some c) : s.input fd = some (c.conn, c.inbuf) := by
  rw [input, hc, Option.map_some]

/-- Only a session has an input. -/
theorem input_eq_some {k : Nat} {inbuf : LineBuffer} : s.input fd = some (k, inbuf) ↔
    ∃ c, s.sessions.lookup fd = some c ∧ c.conn = k ∧ c.inbuf = inbuf := by
  simp only [input, Option.map_eq_some_iff, Prod.mk.injEq]

/-- A descriptor without a session has none. -/
theorem input_eq_none : s.input fd = none ↔ s.sessions.lookup fd = none := Option.map_eq_none_iff

/-- The view shows what has been buffered. -/
theorem input_view (s : Server) (fd : Int) : s.view.input fd = s.input fd := by
  rw [input, lookup_view, Option.map_map]
  rfl

private theorem input_update {f : ClientSession → ClientSession}
    (hf : ∀ c, ((f c).conn, (f c).inbuf) = (c.conn, c.inbuf)) (fd fd' : Int) :
    (s.update fd f).input fd' = s.input fd' := map_lookup_update s fd f hf fd'

private theorem input_noted (s : Server) (fd : Int) (c : ClientSession) (line : Bytes) (fd' : Int) :
    (s.noted fd c line).input fd' = s.input fd' := by
  refine input_update (fun c => ?_) fd fd'
  rw [inferRole_inbuf, (continues_inferRole ..).conn]

/-- Forgetting one session leaves the others' input alone. -/
theorem input_forget_ne (s : Server) {fd fd' : Int} (hne : fd' ≠ fd) :
    (s.forget fd).input fd' = s.input fd' := by
  unfold forget input
  cases s.sessions.lookup fd with
  | none => rfl
  | some c => rw [lookup_log, eraseSession, AList.lookup_erase_ne hne]

private theorem carryOut_input (hfd : c.fd = fd) (d : Decision) {fd' : Int}
    (h : (s.carryOut fd c d).2 = true ∨ fd' ≠ fd) :
    (s.carryOut fd c d).1.input fd' = s.input fd' := by
  cases d with
  | rejected reason => rfl
  | loggedIn name => exact input_update (f := setUsername name) (fun _ => rfl) fd fd'
  | placed side instrument qty price => rfl
  | cancelled oid => rfl
  | subscribed i => exact input_update (f := subscribe i) (fun _ => rfl) fd fd'
  | unsubscribed i => exact input_update (f := unsubscribe i) (fun _ => rfl) fd fd'
  | quit =>
    rcases h with h | h
    · cases h
    · rw [carryOut, hfd]
      exact input_forget_ne s h

/-- A line leaves all unconsumed input as it is, except that of a session it closes. -/
theorem handleLine_input (hs : Consistent s) (fd : Int) (line : Bytes) (fd' : Int)
    (h : (s.handleLine fd line).2 = true ∨ fd' ≠ fd) :
    (s.handleLine fd line).1.input fd' = s.input fd' := by
  cases hc : s.sessions.lookup fd with
  | none => simp only [handleLine, hc]
  | some c =>
    have hview := congrArg Prod.fst (handleLine_view hc line)
    have halive := congrArg Prod.snd (handleLine_view hc line)
    dsimp only at hview halive
    have hfd : (inferRole (commandWord line) c.profile).fd = fd :=
      (continues_inferRole ..).fd.trans (hs.keyed fd c hc)
    rw [halive] at h
    rw [← input_view, hview, carryOut_input hfd _ h, input_noted, input_view]

/-- Only a QUIT ends the session. -/
theorem handleLine_alive (hc : s.sessions.lookup fd = some c) (line : Bytes) :
    (s.handleLine fd line).2 = false ↔ commandWord line = text "QUIT" := by
  constructor
  · intro hgone
    have houtcome := handleLine_outcome hc line
    generalize s.handleLine fd line = r at houtcome hgone
    cases houtcome with
    | quit hword => exact hword
    | _ => cases hgone
  · intro hword
    rw [handleLine_quit hc hword]

/-- A line that ends its session leaves the descriptor free. -/
theorem handleLine_gone (hs : Consistent s) (hc : s.sessions.lookup fd = some c) {line : Bytes}
    (h : (s.handleLine fd line).2 = false) :
    (s.handleLine fd line).1.sessions.lookup fd = none := by
  rw [handleLine_quit hc ((handleLine_alive hc line).mp h), hs.keyed fd c hc]
  exact lookup_closeSession ..

/-! ## The lines acted on -/

/-- The lines of a connection that were acted on. -/
def linesFrom (k : Nat) (history : List Obs) : List Bytes :=
  history.filterMap fun
    | .received k' line => if k' = k then some line else none
    | _ => none

/-- The lines up to and including the first QUIT. -/
def untilQuit : List Bytes → List Bytes
  | [] => []
  | line :: lines => if commandWord line = text "QUIT" then [line] else line :: untilQuit lines

/-- What follows a QUIT is not acted on. -/
theorem untilQuit_append_of_quit {ls : List Bytes}
    (h : ∃ line ∈ ls, commandWord line = text "QUIT") (ls' : List Bytes) :
    untilQuit (ls ++ ls') = untilQuit ls := by
  induction ls with
  | nil => simp at h
  | cons line ls ih =>
    rw [List.cons_append, untilQuit, untilQuit]
    by_cases hline : commandWord line = text "QUIT"
    · rw [if_pos hline, if_pos hline]
    · rw [List.exists_mem_cons_iff] at h
      rw [if_neg hline, if_neg hline, ih (h.resolve_left hline)]

/-- Lines without a QUIT are all acted on. -/
theorem untilQuit_append_of_not {ls : List Bytes}
    (h : ∀ line ∈ ls, commandWord line ≠ text "QUIT") (ls' : List Bytes) :
    untilQuit (ls ++ ls') = ls ++ untilQuit ls' := by
  induction ls with
  | nil => rfl
  | cons line ls ih =>
    obtain ⟨hline, hls⟩ := List.forall_mem_cons.mp h
    rw [List.cons_append, untilQuit, if_neg hline, ih hls, List.cons_append]

/-- Without a QUIT all the lines count. -/
theorem untilQuit_of_not {ls : List Bytes} (h : ∀ line ∈ ls, commandWord line ≠ text "QUIT") :
    untilQuit ls = ls := by
  have happend := untilQuit_append_of_not h []
  rwa [List.append_nil, untilQuit, List.append_nil] at happend

/-- The lines from a connection in two histories, one after the other. -/
theorem linesFrom_append (k : Nat) (h h' : List Obs) :
    linesFrom k (h ++ h') = linesFrom k h ++ linesFrom k h' := List.filterMap_append ..

private theorem linesFrom_eq_nil {k : Nat} {obs : List Obs} (h : ∀ line, .received k line ∉ obs) :
    linesFrom k obs = [] := by
  rw [linesFrom, List.filterMap_eq_nil_iff]
  intro o ho
  cases o with
  | received k' line =>
    dsimp only
    rw [if_neg]
    rintro rfl
    exact h line ho
  | _ => rfl

/-- Entries that are not of its lines do not change the lines of a connection. -/
theorem linesFrom_append_nil {k : Nat} (history : List Obs) {obs : List Obs}
    (h : ∀ line, .received k line ∉ obs) : linesFrom k (history ++ obs) = linesFrom k history := by
  rw [linesFrom_append, linesFrom_eq_nil h, List.append_nil]

private theorem carryOut_adds (s : Server) (fd : Int) (c : ClientSession) (d : Decision) :
    ∃ obs, (s.carryOut fd c d).1.history = s.history ++ obs ∧
      ∀ k line, .received k line ∉ obs := by
  cases d with
  | placed side instrument qty price =>
    refine ⟨_, rfl, fun k line hmem => ?_⟩
    rcases mem_orderVoice hmem with he | ⟨_, he⟩ | ⟨_, _, he⟩ <;> cases he
  | quit =>
    obtain ⟨obs, hhistory, hobs⟩ := s.forget_entries c.fd
    refine ⟨obs, hhistory, fun k line hmem => ?_⟩
    obtain ⟨_, he⟩ := hobs _ hmem
    cases he
  | _ =>
    refine ⟨_, rfl, fun k line hmem => ?_⟩
    simp only [List.mem_cons, List.not_mem_nil, reduceCtorEq, or_self] at hmem

/-- Handling a line makes the entry of the line and others that are not of lines. -/
theorem handleLine_adds (hc : s.sessions.lookup fd = some c) (line : Bytes) :
    ∃ obs, (s.handleLine fd line).1.history = s.history ++ [.received c.conn line] ++ obs ∧
      ∀ k line', .received k line' ∉ obs := by
  have hview := congrArg Prod.fst (handleLine_view hc line)
  dsimp only at hview
  obtain ⟨obs, hhistory, hobs⟩ := (s.view.noted fd c.profile line).carryOut_adds fd
    (inferRole (commandWord line) c.profile) (((s.view.noted fd c.profile line).standing
      (inferRole (commandWord line) c.profile)).decision line)
  rw [← hview] at hhistory
  exact ⟨obs, hhistory, hobs⟩

/-- A received line is a line from its own connection. -/
theorem linesFrom_received (k k' : Nat) (line : Bytes) :
    linesFrom k [.received k' line] = if k' = k then [line] else [] := by
  simp only [linesFrom, List.filterMap_cons, List.filterMap_nil]
  by_cases hk : k' = k
  · rw [if_pos hk, if_pos hk]
  · rw [if_neg hk, if_neg hk]

/-- Handling a line adds it to the lines acted on, and no other. -/
theorem handleLine_received (hc : s.sessions.lookup fd = some c) (line : Bytes) :
    linesFrom c.conn (s.handleLine fd line).1.history = linesFrom c.conn s.history ++ [line] := by
  obtain ⟨obs, hhistory, hobs⟩ := handleLine_adds hc line
  rw [hhistory, linesFrom_append_nil _ (hobs c.conn), linesFrom_append, linesFrom_received,
    if_pos rfl]

/-- Of a list of lines those up to the first QUIT are acted on, and a QUIT ends the session. -/
theorem obey_received (hs : Consistent s) (hc : s.sessions.lookup fd = some c) (ls : List Bytes) :
    linesFrom c.conn (s.obey fd ls).1.history = linesFrom c.conn s.history ++ untilQuit ls ∧
      ((s.obey fd ls).2 = false ↔ ∃ line ∈ ls, commandWord line = text "QUIT") := by
  induction ls generalizing s c with
  | nil =>
    refine ⟨(List.append_nil _).symm, fun h => ?_, fun h => ?_⟩
    · cases h
    · obtain ⟨line, hmem, -⟩ := h
      cases hmem
  | cons line ls ih =>
    have hreceived := handleLine_received hc line
    have halive := handleLine_alive hc line
    have hinput := handleLine_input hs fd line fd
    have hs' := hs.calls (calls_handleLine s fd line)
    rw [obey, untilQuit]
    generalize s.handleLine fd line = r at hreceived halive hinput hs'
    obtain ⟨s', alive⟩ := r
    cases alive with
    | false =>
      have hword : commandWord line = text "QUIT" := halive.mp rfl
      rw [if_pos hword]
      exact ⟨hreceived, fun _ => ⟨line, List.mem_cons_self, hword⟩, fun _ => rfl⟩
    | true =>
      have hword : commandWord line ≠ text "QUIT" := fun hword => nomatch halive.mpr hword
      rw [if_neg hword]
      have hsame := hinput (Or.inl rfl)
      rw [input_eq hc, input, Option.map_eq_some_iff] at hsame
      obtain ⟨c', hc', he⟩ := hsame
      obtain ⟨hconn, -⟩ := Prod.mk.inj he
      obtain ⟨hrest, hquit⟩ := ih hs' hc'
      rw [hconn, hreceived, List.append_assoc, List.singleton_append] at hrest
      refine ⟨hrest, hquit.trans ?_⟩
      rw [List.exists_mem_cons_iff]
      exact (or_iff_right hword).symm

end Server

end SocketExchange
