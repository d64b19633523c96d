import Mathlib.Logic.Relation
import SocketExchange.Service.Orders
import SocketExchange.Service.Outcomes
import SocketExchange.Service.Streams

/-!
# Actions as sequences of calls

The view forgets the output; here it is kept. Whatever an action does, it does by a few
kinds of calls, and each line it enqueues is plain. A property of whole servers that
every such call keeps holds in every reachable state.
-/

namespace SocketExchange

open Containers ClientSession Runs OrderBook

/-- The entry sends nothing to a connection and opens or closes none. -/
def Obs.Silent : Obs → Prop
  | .accepted .. => False
  | .enqueued .. => False
  | .closed _ => False
  | _ => True

/-- The second session is the first at a later time, and its output is the same. -/
structure ClientSession.Keeping (c c' : ClientSession) : Prop where
  continues : Continues c c'
  outbuf : c'.outbuf = c.outbuf
  wantWrite : c'.wantWrite = c.wantWrite

namespace Server

variable {s s' : Server} {fd : Int} {c : ClientSession}

/-! ## The calls of an action -/

/-- One call, as it is made in a state. -/
inductive Call (s : Server) : Server → Prop
  | logged {obs : List Obs} (hsilent : ∀ o ∈ obs, o.Silent) : Call s (s.log obs)
  | booked (book : OrderBook) : Call s (s.withBook book)
  | changed {fd : Int} {f : ClientSession → ClientSession} (hf : ∀ c, Keeping c (f c)) :
    Call s (s.update fd f)
  | enqueued {fd : Int} {c : ClientSession} {line : Bytes} (hc : s.sessions.lookup fd = some c)
      (hplain : Plain line) : Call s (s.enqueue fd line)
  | closed {fd : Int} {c : ClientSession} (hc : s.sessions.lookup fd = some c) :
    Call s (s.closeSession fd)
  | opened {cfd : Int} (hfree : s.Free cfd) : Call s (s.openSession cfd)
  | rehashed (sessionOrder : List Int) (bookOrder : List Bytes) :
    Call s (s.rehash sessionOrder bookOrder)

/-- Some sequence of calls leads from one state to the other. -/
abbrev Calls : Server → Server → Prop := Relation.ReflTransGen Call

/-- One call is a sequence of calls. -/
theorem Call.calls (h : Call s s') : Calls s s' := .single h

/-- Entries that say nothing to a client are no call at all. -/
theorem calls_log (s : Server) {o : Obs} (ho : o.Silent) : Calls s (s.log [o]) :=
  (Call.logged (List.forall_mem_singleton.mpr ho)).calls

/-- A change that keeps the output side of a session is a call. -/
theorem calls_update (s : Server) (fd : Int) {f : ClientSession → ClientSession}
    (hf : ∀ c, Keeping c (f c)) : Calls s (s.update fd f) := (Call.changed hf).calls

/-- Closing a session is a call. -/
theorem calls_close (s : Server) (fd : Int) : Calls s (s.closeSession fd) := by
  cases hc : s.sessions.lookup fd with
  | none =>
    simp only [closeSession, hc]
    exact .refl
  | some c => exact (Call.closed hc).calls

private theorem calls_notify (s : Server) (fd : Int) (seq : UInt64) {line : Bytes}
    (hline : Plain line) :
    Calls s (s.notify fd seq line) := by
  unfold notify
  cases hc : s.sessions.lookup fd with
  | none => exact .refl
  | some c =>
    dsimp only
    split
    · exact (Call.enqueued hc hline).calls
    · exact .refl

private theorem calls_broadcast (fds : List Int) (s : Server) (instrument : Bytes) {msg : Bytes}
    (hmsg : Plain msg) : Calls s (fds.foldl (tradeTo instrument msg) s) := by
  induction fds generalizing s with
  | nil => exact .refl
  | cons fd fds ih =>
    have hturn : Calls s (s.tradeTo instrument msg fd) := by
      unfold tradeTo
      cases hc : s.sessions.lookup fd with
      | none => exact .refl
      | some c =>
        dsimp only
        split_ifs
        · exact .refl
        · exact (Call.enqueued hc hmsg).calls
        · exact .refl
    exact hturn.trans (ih _)

/-- The lines that report a fill in a plain instrument are plain. -/
private theorem plain_report {word instrument : Bytes} (hword : Plain word)
    (hinstrument : Plain instrument) (qty price : Int) :
    Plain (word ++ instrument ++ text " " ++ stdToString qty ++ text " " ++ stdToString price) := by
  have hblank : Plain (text " ") := by decide
  have hstart := (hword.append hinstrument).append hblank
  exact ((hstart.append (plain_stdToString qty)).append hblank).append (plain_stdToString price)

private theorem calls_reportFill (s : Server) {f : Fill} (hf : Plain f.instrument) :
    Calls s (s.reportFill f) := by
  have hfilled := calls_log s (o := .filled f) trivial
  have hwords : Plain (text "BOUGHT ") ∧ Plain (text "SOLD ") ∧ Plain (text "TRADE ") := by decide
  have hbought : Plain (msgBought f.instrument f.qty f.price) := plain_report hwords.1 hf _ _
  have hsold : Plain (msgSold f.instrument f.qty f.price) := plain_report hwords.2.1 hf _ _
  have htrade : Plain (msgTrade f.instrument f.qty f.price) := plain_report hwords.2.2 hf _ _
  exact ((hfilled.trans (calls_notify _ _ _ hbought)).trans (calls_notify _ _ _ hsold)).trans
    (calls_broadcast _ _ _ htrade)

private theorem calls_reportFills (fills : List Fill) (s : Server)
    (hfills : ∀ f ∈ fills, Plain f.instrument) :
    Calls s (fills.foldl reportFill s) := by
  induction fills generalizing s with
  | nil => exact .refl
  | cons f fills ih =>
    obtain ⟨hf, hfills⟩ := List.forall_mem_cons.mp hfills
    exact (calls_reportFill s hf).trans (ih _ hfills)

private theorem plain_instrument_of_valid {i : Bytes} (h : isValidInstrument i = true) :
    Plain i := by
  simp only [isValidInstrument, instruments, List.any_cons, List.any_nil, Bool.or_false,
    Bool.or_eq_true, beq_iff_eq] at h
  rcases h with rfl | rfl <;> decide

/-- The fills of a well-formed order are in its instrument. -/
theorem fills_instrument {line : Bytes} {o : Order} (h : Places line o) (b : OrderBook) {f : Fill}
    (hf : f ∈ (b.submit o).1) : f.instrument = o.instrument := by
  rw [submit_fills b h.qty_pos] at hf
  obtain ⟨pairs, hfills, -, hpairs⟩ := (b.matching_matched o).counterparties
  rw [hfills] at hf
  obtain ⟨p, hp, rfl⟩ := List.mem_map.mp hf
  obtain ⟨q, hq⟩ := hpairs p hp
  rw [hq, fillOf_instrument]

private theorem calls_place (hc : s.sessions.lookup fd = some c) {line : Bytes} {o : Order}
    (hplaces : Places line o) : Calls s (s.place fd c o) := by
  have hinstrument : Plain o.instrument := by
    obtain ⟨_, _, -, hvalid, -⟩ := hplaces
    exact plain_instrument_of_valid hvalid
  have hdrawn : Calls s (s.withBook s.drawn) := (Call.booked _).calls
  have hplaced := hdrawn.trans (calls_log _ (o := .placed c.conn o) trivial)
  have hid : Plain (msgOrderAccepted o.id) := Plain.append (by decide) (plain_stdToString _)
  have hreply := hplaced.tail (.enqueued hc hid)
  have hsubmitted := hreply.tail (.booked (s.drawn.submit o).2)
  refine hsubmitted.trans (calls_reportFills _ _ fun f hf => ?_)
  rw [fills_instrument hplaces s.drawn hf]
  exact hinstrument

/-- Every outcome of a line is a sequence of calls. -/
theorem Outcome.calls {line : Bytes} {r : Server × Bool} (h : Outcome s fd c line r)
    (hc : s.sessions.lookup fd = some c) : Calls s r.1 := by
  have hok : Plain msgOk := by decide
  cases h with
  | @rejected reason _ hreason =>
    have hplain : Plain (msgError reason) := Plain.append (by decide) hreason
    exact (Call.enqueued hc hplain).calls
  | @loggedIn name =>
    have hset : Calls s (s.update fd (setUsername name)) :=
      calls_update s fd fun _ => ⟨⟨rfl, Or.inr rfl⟩, rfl, rfl⟩
    exact hset.tail (.enqueued (lookup_update_of hc (setUsername name)) hok)
  | placed hplaces => exact calls_place hc hplaces
  | @cancelled oid =>
    have hid : Plain (msgOrderCancelled oid) := Plain.append (by decide) (plain_stdToString _)
    exact (Call.booked _).calls.tail (.enqueued hc hid)
  | @subscribed i =>
    have hset : Calls s (s.update fd (subscribe i)) :=
      calls_update s fd fun _ => ⟨⟨rfl, Or.inr rfl⟩, rfl, rfl⟩
    have hlogged := hset.trans (calls_log _ (o := .subscribed c.conn i) trivial)
    exact hlogged.tail (.enqueued (lookup_update_of hc (subscribe i)) hok)
  | @unsubscribed i =>
    have hset : Calls s (s.update fd (unsubscribe i)) :=
      calls_update s fd fun _ => ⟨⟨rfl, Or.inr rfl⟩, rfl, rfl⟩
    have hlogged := hset.trans (calls_log _ (o := .unsubscribed c.conn i) trivial)
    exact hlogged.tail (.enqueued (lookup_update_of hc (unsubscribe i)) hok)
  | quit => exact calls_close s c.fd

/-- Inferring a role keeps the output side of the session. -/
theorem keeping_inferRole (cmd : Bytes) (c : ClientSession) : Keeping c (inferRole cmd c) := by
  refine ⟨continues_inferRole cmd c, ?_, ?_⟩ <;> unfold inferRole <;> split_ifs <;> rfl

/-- Handling a line is a sequence of calls. -/
theorem calls_handleLine (s : Server) (fd : Int) (line : Bytes) :
    Calls s (s.handleLine fd line).1 := by
  cases hc : s.sessions.lookup fd with
  | none =>
    simp only [handleLine, hc]
    exact .refl
  | some c =>
    have hreceived := calls_log s (o := .received c.conn line) trivial
    have hnoted : Calls s (s.noted fd c line) :=
      hreceived.trans (calls_update _ fd (keeping_inferRole _))
    exact hnoted.trans ((handleLine_outcome hc line).calls (lookup_noted hc line))

/-- Every action but the flushing of a backlog is a sequence of calls. -/
theorem calls_act (s : Server) {a : Action} (ha : ∀ fd, a ≠ .writable fd) :
    Calls s (s.act a) := by
  cases a with
  | accept cfd =>
    rw [act]
    split
    · rename_i hfree
      exact (Call.opened hfree).calls
    · exact .refl
  | feed fd chunk => exact calls_update s fd fun _ => ⟨⟨rfl, Or.inr rfl⟩, rfl, rfl⟩
  | line fd =>
    obtain hnone | ⟨c, line, inbuf, -, -, -, htaken⟩ := s.takeLine_cases fd
    · simp only [act, hnone]
      exact .refl
    · have hset : Calls s (s.update fd (setInbuf inbuf)) :=
        calls_update s fd fun _ => ⟨⟨rfl, Or.inr rfl⟩, rfl, rfl⟩
      rw [act_line htaken]
      exact hset.trans (calls_handleLine _ fd line)
  | hangup fd =>
    simp only [act, hangup]
    cases s.sessions.lookup fd with
    | none => exact .refl
    | some c =>
      exact (calls_log s (o := .ended c.conn) trivial).trans (calls_close _ fd)
  | drop fd => exact calls_close s fd
  | writable fd => exact absurd rfl (ha fd)
  | rehash sessionOrder bookOrder => exact (Call.rehashed sessionOrder bookOrder).calls

/-! ## Properties that every call keeps -/

/-- A server is consistent when its view is. -/
theorem consistent_of_view (h : Consistent s.view) : Consistent s := by
  refine ⟨fun fd c hc => ?_, fun fd c hc => ?_, fun fd c hc => ?_, fun fd fd' c c' hc hc' => ?_,
    h.nextSeq⟩
  · exact h.keyed fd c.profile (lookup_view_of hc)
  · exact h.numbered fd c.profile (lookup_view_of hc)
  · exact h.sequenced fd c.profile (lookup_view_of hc)
  · exact h.distinct fd fd' c.profile c'.profile (lookup_view_of hc) (lookup_view_of hc')

/-- The view of a consistent server is consistent. -/
theorem consistent_view (h : Consistent s) : Consistent s.view := by
  have hlookup : ∀ {fd c}, s.view.sessions.lookup fd = some c →
      ∃ c₀, s.sessions.lookup fd = some c₀ ∧ c₀.profile = c := by
    intro fd c hc
    rwa [lookup_view, Option.map_eq_some_iff] at hc
  refine ⟨fun fd c hc => ?_, fun fd c hc => ?_, fun fd c hc => ?_, fun fd fd' c c' hc hc' => ?_,
    h.nextSeq⟩
  · obtain ⟨c₀, hc₀, rfl⟩ := hlookup hc
    exact h.keyed fd c₀ hc₀
  · obtain ⟨c₀, hc₀, rfl⟩ := hlookup hc
    exact h.numbered fd c₀ hc₀
  · obtain ⟨c₀, hc₀, rfl⟩ := hlookup hc
    exact h.sequenced fd c₀ hc₀
  · obtain ⟨c₀, hc₀, rfl⟩ := hlookup hc
    obtain ⟨c₁, hc₁, rfl⟩ := hlookup hc'
    exact h.distinct fd fd' c₀ c₁ hc₀ hc₁

/-- Every action keeps the sessions consistent. -/
theorem Consistent.act (h : Consistent s) (a : Action) : Consistent (s.act a) :=
  consistent_of_view ((consistent_view h).moves (act_moves s a))

/-- A call keeps the sessions consistent. -/
theorem Consistent.call (h : Consistent s) (hcall : Call s s') : Consistent s' := by
  cases hcall with
  | logged => exact h.keeps (keeps_log s _)
  | booked => exact h.keeps (keeps_withBook s _)
  | changed hf => exact h.keeps (keeps_update s _ _ fun c => (hf c).continues)
  | @enqueued fd c line =>
    refine consistent_of_view ?_
    rw [view_enqueue]
    exact (consistent_view h).keeps (keeps_log ..)
  | closed => exact h.act (.drop _)
  | @opened cfd hfree =>
    have hopen := h.act (.accept cfd)
    rwa [Server.act, if_pos hfree] at hopen
  | rehashed sessionOrder bookOrder => exact h.act (.rehash sessionOrder bookOrder)

/-- A sequence of calls keeps the sessions consistent. -/
theorem Consistent.calls (h : Consistent s) (hcalls : Calls s s') : Consistent s' := by
  induction hcalls with
  | refl => exact h
  | tail _ hlast ih => exact ih.call hlast

/-- A property of servers that holds at the start and that calls and flushes keep holds of every
reachable state. -/
theorem Reachable.call_invariant {P : Server → Prop}
    (hstart : ∀ kq listenFd sends, P (Server.start kq listenFd sends))
    (hcall : ∀ s s', Consistent s → P s → Call s s' → P s')
    (hflush : ∀ s fd c, Consistent s → s.sessions.lookup fd = some c → P s → P (s.onWritable fd))
    {s : Server} (h : Reachable s) : P s := by
  obtain ⟨kq, listenFd, sends, actions, rfl⟩ := h
  have hcalls : ∀ s s', Consistent s → P s → Calls s s' → P s' := by
    intro s s' hs hP hcalls
    induction hcalls with
    | refl => exact hP
    | tail hinit hlast ih => exact hcall _ _ (hs.calls hinit) ih hlast
  have hact : ∀ s a, Consistent s ∧ P s → Consistent (s.act a) ∧ P (s.act a) := by
    rintro s a ⟨hs, hP⟩
    refine ⟨hs.act a, ?_⟩
    by_cases ha : ∃ fd, a = .writable fd
    · obtain ⟨fd, rfl⟩ := ha
      cases hc : s.sessions.lookup fd with
      | none =>
        simp only [act, onWritable, hc]
        exact hP
      | some c => exact hflush s fd c hs hc hP
    · exact hcalls s _ hs hP (calls_act s (not_exists.mp ha))
  have hbegin := consistent_of_view (consistent_start kq listenFd sends)
  exact (run_invariant hact ⟨hbegin, hstart kq listenFd sends⟩ actions).2

end Server

end SocketExchange
