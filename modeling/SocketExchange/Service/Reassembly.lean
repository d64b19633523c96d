import SocketExchange.Common.Framing
import SocketExchange.Service.Delivery
import SocketExchange.Service.Unheard

/-!
# Reassembly

TCP may cut what a client sends anywhere. Whatever the pieces are, the server acts on the
same lines: the complete ones among what was buffered and what has come since, up to
and including the first QUIT. Two ways of delivering the same bytes therefore end alike.
-/

namespace SocketExchange

open Containers ClientSession Runs

namespace Server

variable {s s' : Server} {fd : Int} {c : ClientSession}

/-! ## Loops that act on lines -/

/-- From the first state some lines of a connection have been acted on, with the result given;
if the session is still there, the rest of its input is left. -/
structure Obeyed (s : Server) (fd : Int) (k : Nat) (ls : List Bytes) (left : LineBuffer)
    (r : Server × Bool) : Prop where
  consistent : Consistent r.1
  core : r.1.core = (s.obey fd ls).1.core
  alive : r.2 = (s.obey fd ls).2
  stays : r.2 = true → r.1.input fd = some (k, left)
  gone : r.2 = false → r.1.sessions.lookup fd = none
  others : ∀ fd', fd' ≠ fd → r.1.input fd' = s.input fd'

/-- Lines obeyed one list after the other have been obeyed. -/
theorem Obeyed.trans {k : Nat} {ls ls' : List Bytes} {left left' : LineBuffer}
    {r r' : Server × Bool} (h : Obeyed s fd k ls left r) (hstays : r.2 = true)
    (h' : Obeyed r.1 fd k ls' left' r') : Obeyed s fd k (ls ++ ls') left' r' := by
  have halive : (s.obey fd ls).2 = true := h.alive.symm.trans hstays
  obtain ⟨hcore, hsame⟩ := obey_congr h.core fd ls'
  refine ⟨h'.consistent, ?_, ?_, h'.stays, h'.gone, fun fd' hne => ?_⟩
  · rw [obey_append, if_pos halive, ← hcore]
    exact h'.core
  · rw [obey_append, if_pos halive, ← hsame]
    exact h'.alive
  · exact (h'.others fd' hne).trans (h.others fd' hne)

/-- Once the session is gone, further lines make no difference. -/
theorem Obeyed.stop {k : Nat} {ls : List Bytes} {left : LineBuffer} {r : Server × Bool}
    (h : Obeyed s fd k ls left r) (hgone : r.2 = false) (ls' : List Bytes) (left' : LineBuffer) :
    Obeyed s fd k (ls ++ ls') left' r := by
  have hdone : ¬ (s.obey fd ls).2 = true := by
    rw [← h.alive, hgone]
    exact Bool.false_ne_true
  refine ⟨h.consistent, ?_, ?_, fun hstays => ?_, h.gone, h.others⟩
  · rw [obey_append, if_neg hdone]
    exact h.core
  · rw [obey_append, if_neg hdone]
    exact h.alive
  · rw [hgone] at hstays
    cases hstays

/-- No lines have been obeyed by doing nothing. -/
theorem Obeyed.refl (hs : Consistent s) {k : Nat} {left : LineBuffer}
    (h : s.input fd = some (k, left)) : Obeyed s fd k [] left (s, true) :=
  ⟨hs, rfl, rfl, fun _ => h, nofun, fun _ _ => rfl⟩

/-- The same lines from a state that differs in this session's input alone. -/
theorem Obeyed.of_setInput {k : Nat} {ls : List Bytes} {left : LineBuffer} {r : Server × Bool}
    (h : Obeyed s' fd k ls left r) (hcore : s'.core = s.core)
    (hothers : ∀ fd', fd' ≠ fd → s'.input fd' = s.input fd') : Obeyed s fd k ls left r := by
  obtain ⟨hsame, halive⟩ := obey_congr hcore fd ls
  refine ⟨h.consistent, h.core.trans hsame, h.alive.trans halive, h.stays, h.gone, ?_⟩
  exact fun fd' hne => (h.others fd' hne).trans (hothers fd' hne)

private theorem core_setInbuf (s : Server) (fd : Int) {f : ClientSession → ClientSession}
    (hf : ∀ c, (f c).core = c.core) : (s.update fd f).core = s.core := by
  rw [core_update (g := id) hf, update, UnorderedMap.modify_id]

private theorem input_update_ne (s : Server) {fd fd' : Int} (hne : fd' ≠ fd)
    (f : ClientSession → ClientSession) : (s.update fd f).input fd' = s.input fd' := by
  rw [input, lookup_update_ne s hne, input]

/-- Acting on a single line. -/
theorem Obeyed.line (hs : Consistent s) (hc : s.sessions.lookup fd = some c) (line : Bytes) :
    Obeyed s fd c.conn [line] c.inbuf (s.handleLine fd line) := by
  have hs' := hs.calls (calls_handleLine s fd line)
  have hinput := handleLine_input hs fd line
  have hgone : (s.handleLine fd line).2 = false →
      (s.handleLine fd line).1.sessions.lookup fd = none := handleLine_gone hs hc
  have hobey : s.obey fd [line] = s.handleLine fd line := by
    rw [obey]
    cases s.handleLine fd line with
    | mk s' alive => cases alive <;> rfl
  refine ⟨hs', by rw [hobey], by rw [hobey], fun hstays => ?_, hgone, fun fd' hne => ?_⟩
  · rw [hinput fd (Or.inl hstays), input_eq hc]
  · exact hinput fd' (Or.inr hne)

/-- The loop over the complete lines acts on all of them. -/
theorem handleLines_obeyed (hs : Consistent s) (hc : s.sessions.lookup fd = some c) {fuel : Nat}
    (hfuel : c.inbuf.buf_.length ≤ fuel) :
    Obeyed s fd c.conn c.inbuf.lines.1 c.inbuf.lines.2 (handleLines fuel s fd) := by
  obtain ⟨b, hb⟩ : ∃ b, c.inbuf = b := ⟨_, rfl⟩
  rw [hb] at hfuel ⊢
  induction b using LineBuffer.lines_induction generalizing s c fuel with
  | hnone b hno =>
    have hnone : handleLines fuel s fd = (s, true) := by
      cases fuel with
      | zero => rfl
      | succ fuel =>
        simp only [handleLines, takeLine, hc, hb, LineBuffer.nextLine_eq_none.mpr hno]
    rw [hnone, LineBuffer.lines_none hno]
    exact .refl hs (by rw [input_eq hc, hb])
  | hcons w t hw ih =>
    rw [List.length_append, List.length_cons] at hfuel
    obtain ⟨fuel, rfl⟩ : ∃ n, fuel = n + 1 := ⟨fuel - 1, by omega⟩
    let s₁ := s.update fd (setInbuf ⟨t⟩)
    have hs₁ : Consistent s₁ := hs.keeps (keeps_update s fd _ fun _ => ⟨rfl, Or.inr rfl⟩)
    have hc₁ : s₁.sessions.lookup fd = some (setInbuf ⟨t⟩ c) := lookup_update_of hc _
    have htaken : s.takeLine fd = some (s₁.handleLine fd (stripCr w)) := by
      simp only [takeLine, hc, hb, LineBuffer.nextLine_append hw]
      rfl
    have hfirst : Obeyed s fd c.conn [stripCr w] ⟨t⟩ (s₁.handleLine fd (stripCr w)) :=
      (Obeyed.line hs₁ hc₁ (stripCr w)).of_setInput (core_setInbuf s fd fun _ => rfl)
        fun fd' hne => input_update_ne s hne _
    rw [LineBuffer.lines_cons hw, handleLines, htaken, ← List.singleton_append]
    generalize s₁.handleLine fd (stripCr w) = r at hfirst
    obtain ⟨s₂, alive⟩ := r
    cases alive with
    | true =>
      obtain ⟨c₂, hc₂, hconn, hinbuf⟩ := input_eq_some.mp (hfirst.stays rfl)
      have hleft : t.length ≤ fuel := by omega
      have hrest := ih hfirst.consistent hc₂ hleft hinbuf
      rw [hconn] at hrest
      exact hfirst.trans rfl hrest
    | false => exact hfirst.stop rfl _ _

/-! ## Ways of delivering a stream -/

/-- What the results of one drain of the socket amount to: the bytes read, and whether the last
of them ends the session. -/
def streamOf : List RecvResult → Bytes × Bool
  | [] => ([], false)
  | .data chunk :: rest =>
    let r := streamOf rest
    (chunk.bytes ++ r.1, r.2)
  | .fin :: _ => ([], true)
  | .eintr :: rest => streamOf rest
  | .again :: _ => ([], false)
  | .reset :: _ => ([], true)
  | .failed :: _ => ([], true)

/-- The same for the drains of several readiness events. -/
def streamOfCalls : List (List RecvResult) → Bytes × Bool
  | [] => ([], false)
  | recvs :: calls =>
    let r := streamOf recvs
    if r.2 then r
    else
      let r' := streamOfCalls calls
      (r.1 ++ r'.1, r'.2)

/-- The session's readiness events in turn, with no other event between them. -/
def deliver (s : Server) (fd : Int) (calls : List (List RecvResult)) : Server :=
  calls.foldl (fun s recvs => s.onReadable fd recvs) s

/-- A session that is still there when its stream has ended is closed. -/
def finish (fd : Int) (r : Server × Bool) (ended : Bool) : Server :=
  if r.2 && ended then r.1.hangup fd else r.1

/-- A stream that has not ended hangs up on nobody. -/
theorem finish_false (fd : Int) (r : Server × Bool) : finish fd r false = r.1 := by
  rw [finish, Bool.and_false, if_neg Bool.false_ne_true]

private theorem finish_gone (fd : Int) {r : Server × Bool} (hgone : r.2 = false) (ended : Bool) :
    finish fd r ended = r.1 := by
  rw [finish, hgone, Bool.false_and, if_neg Bool.false_ne_true]

private theorem finish_ended (fd : Int) {r : Server × Bool} (hstays : r.2 = true) :
    finish fd r true = r.1.hangup fd := by
  rw [finish, hstays, Bool.and_true, if_pos rfl]

/-- While no bytes come, no line is acted on. -/
theorem Obeyed.nothing (hs : Consistent s) (hc : s.sessions.lookup fd = some c)
    (hno : 10 ∉ c.inbuf.buf_) :
    Obeyed s fd c.conn (c.inbuf.feed []).lines.1 (c.inbuf.feed []).lines.2 (s, true) := by
  have hfeed : c.inbuf.feed [] = c.inbuf := congrArg LineBuffer.mk (List.append_nil _)
  rw [hfeed, LineBuffer.lines_none hno]
  exact .refl hs (input_eq hc)

/-- Whatever the results of the reads, the lines acted on are those of the bytes read. -/
theorem recvLoop_obeyed (recvs : List RecvResult) (hs : Consistent s)
    (hc : s.sessions.lookup fd = some c) (hno : 10 ∉ c.inbuf.buf_) :
    ∃ r, s.recvLoop fd recvs = finish fd r (streamOf recvs).2 ∧
      Obeyed s fd c.conn (c.inbuf.feed (streamOf recvs).1).lines.1
        (c.inbuf.feed (streamOf recvs).1).lines.2 r := by
  induction recvs generalizing s c with
  | nil => exact ⟨(s, true), rfl, .nothing hs hc hno⟩
  | cons result recvs ih =>
    cases result with
    | data chunk =>
      have hs₁ : Consistent (s.feed fd chunk) :=
        hs.keeps (keeps_update s fd _ fun _ => ⟨rfl, Or.inr rfl⟩)
      have hc₁ : (s.feed fd chunk).sessions.lookup fd = some (feedInbuf chunk.bytes c) := by
        rw [feed, lookup_update_self, hc, Option.map_some]
      have hbuffered : (feedInbuf chunk.bytes c).inbuf.buf_.length ≤
          (s.feed fd chunk).buffered fd := by
        rw [buffered, hc₁, Option.map_some, Option.getD_some]
      have hlines := (handleLines_obeyed hs₁ hc₁ hbuffered).of_setInput
        (core_setInbuf s fd fun _ => rfl) fun fd' hne => input_update_ne s hne _
      have hstream : c.inbuf.feed (streamOf (.data chunk :: recvs)).1 =
          (c.inbuf.feed chunk.bytes).feed (streamOf recvs).1 :=
        congrArg LineBuffer.mk (List.append_assoc ..).symm
      have hended : (streamOf (.data chunk :: recvs)).2 = (streamOf recvs).2 := rfl
      obtain ⟨⟨s₂, alive⟩, hhandled⟩ :
          ∃ r, handleLines ((s.feed fd chunk).buffered fd) (s.feed fd chunk) fd = r := ⟨_, rfl⟩
      rw [hhandled] at hlines
      rw [hstream, hended, LineBuffer.lines_feed (c.inbuf.feed chunk.bytes)]
      simp only [recvLoop, hhandled]
      cases alive with
      | true =>
        obtain ⟨c₂, hc₂, hconn, hinbuf⟩ := input_eq_some.mp (hlines.stays rfl)
        have hno₂ : 10 ∉ c₂.inbuf.buf_ := by
          rw [hinbuf]
          exact LineBuffer.lines_left _
        obtain ⟨r, hr, hobeyed⟩ := ih hlines.consistent hc₂ hno₂
        rw [hconn, hinbuf] at hobeyed
        exact ⟨r, hr, hlines.trans rfl hobeyed⟩
      | false => exact ⟨(s₂, false), rfl, hlines.stop rfl _ _⟩
    | fin => exact ⟨(s, true), rfl, .nothing hs hc hno⟩
    | eintr => exact ih hs hc hno
    | again => exact ⟨(s, true), rfl, .nothing hs hc hno⟩
    | reset => exact ⟨(s, true), rfl, .nothing hs hc hno⟩
    | failed => exact ⟨(s, true), rfl, .nothing hs hc hno⟩

/-- Reading from a descriptor without a session does nothing. -/
theorem onReadable_gone (hgone : s.sessions.lookup fd = none) (recvs : List RecvResult) :
    s.onReadable fd recvs = s := by simp only [onReadable, hgone]

/-- What comes in one readiness event is acted on, and its end is seen to. -/
theorem onReadable_obeyed (recvs : List RecvResult) (hs : Consistent s)
    (hc : s.sessions.lookup fd = some c) (hno : 10 ∉ c.inbuf.buf_) :
    ∃ r, s.onReadable fd recvs = finish fd r (streamOf recvs).2 ∧
      Obeyed s fd c.conn (c.inbuf.feed (streamOf recvs).1).lines.1
        (c.inbuf.feed (streamOf recvs).1).lines.2 r := by
  simpa only [onReadable, hc] using recvLoop_obeyed recvs hs hc hno

private theorem deliver_gone (hgone : s.sessions.lookup fd = none)
    (calls : List (List RecvResult)) :
    s.deliver fd calls = s := by
  induction calls with
  | nil => rfl
  | cons recvs calls ih =>
    rw [deliver, List.foldl_cons, onReadable_gone hgone]
    exact ih

private theorem lookup_hangup (s : Server) (fd : Int) :
    (s.hangup fd).sessions.lookup fd = none := by
  unfold hangup
  cases hc : s.sessions.lookup fd with
  | none => exact hc
  | some c => exact lookup_closeSession ..

/-- However the bytes are spread over readiness events, the lines acted on are those of all. -/
theorem deliver_obeyed (calls : List (List RecvResult)) (hs : Consistent s)
    (hc : s.sessions.lookup fd = some c) (hno : 10 ∉ c.inbuf.buf_) :
    ∃ r, s.deliver fd calls = finish fd r (streamOfCalls calls).2 ∧
      Obeyed s fd c.conn (c.inbuf.feed (streamOfCalls calls).1).lines.1
        (c.inbuf.feed (streamOfCalls calls).1).lines.2 r := by
  induction calls generalizing s c with
  | nil =>
    obtain ⟨r, hr, hobeyed⟩ := recvLoop_obeyed [] hs hc hno
    exact ⟨r, hr, hobeyed⟩
  | cons recvs calls ih =>
    obtain ⟨r, hr, hobeyed⟩ := onReadable_obeyed recvs hs hc hno
    have hcall : s.deliver fd (recvs :: calls) =
        (finish fd r (streamOf recvs).2).deliver fd calls := by
      rw [← hr, deliver, List.foldl_cons, deliver]
    rw [hcall, streamOfCalls]
    cases hended : (streamOf recvs).2 with
    | true =>
      have hgone : (finish fd r true).sessions.lookup fd = none := by
        cases hstays : r.2 with
        | true =>
          rw [finish_ended fd hstays]
          exact lookup_hangup ..
        | false =>
          rw [finish_gone fd hstays]
          exact hobeyed.gone hstays
      simp only [hended, if_true, deliver_gone hgone]
      exact ⟨r, rfl, hobeyed⟩
    | false =>
      have hfeed : c.inbuf.feed ((streamOf recvs).1 ++ (streamOfCalls calls).1) =
          (c.inbuf.feed (streamOf recvs).1).feed (streamOfCalls calls).1 :=
        congrArg LineBuffer.mk (List.append_assoc ..).symm
      simp only [Bool.false_eq_true, if_false, finish_false, hfeed]
      rw [LineBuffer.lines_feed (c.inbuf.feed (streamOf recvs).1)]
      cases hstays : r.2 with
      | true =>
        obtain ⟨c₂, hc₂, hconn, hinbuf⟩ := input_eq_some.mp (hobeyed.stays hstays)
        have hno₂ : 10 ∉ c₂.inbuf.buf_ := by
          rw [hinbuf]
          exact LineBuffer.lines_left _
        obtain ⟨r', hr', hobeyed'⟩ := ih hobeyed.consistent hc₂ hno₂
        rw [hconn, hinbuf] at hobeyed'
        exact ⟨r', hr', hobeyed.trans hstays hobeyed'⟩
      | false =>
        rw [deliver_gone (hobeyed.gone hstays)]
        exact ⟨r, (finish_gone fd hstays _).symm, hobeyed.stop hstays _ _⟩

/-! ## Between two events -/

/-- No session holds back a complete line. -/
def Drained (s : Server) : Prop := ∀ fd k b, s.input fd = some (k, b) → 10 ∉ b.buf_

/-- Nothing unheard can be a complete line. -/
theorem Drained.unheard (h : Drained s) (hunheard : ∀ k, Unheard k s s') : Drained s' := by
  intro fd k b hb
  rcases (hunheard k).input fd b hb with hbefore | ⟨-, rfl⟩
  · exact h fd k b hbefore
  · exact List.not_mem_nil

/-- Closing a session takes its input away, and no other's. -/
theorem input_closeSession (s : Server) (fd fd' : Int) :
    (s.closeSession fd).input fd' = if fd' = fd then none else s.input fd' := by
  by_cases hne : fd' = fd
  · rw [hne, if_pos rfl, input_eq_none, lookup_closeSession]
  · rw [if_neg hne, ← input_view, view_closeSession, input_forget_ne _ hne, input_view]

/-- Hanging up takes the session's input away, and no other's. -/
theorem hangup_input (s : Server) (fd fd' : Int) :
    (s.hangup fd).input fd' = if fd' = fd then none else s.input fd' := by
  unfold hangup
  cases hc : s.sessions.lookup fd with
  | none =>
    dsimp only
    split_ifs with hfd
    · rw [hfd, input_eq_none, hc]
    · rfl
  | some c => exact input_closeSession ..

/-- After a read a session is one of the others, as it was, or the one read from, if it stays, with
what its lines have left. -/
theorem Obeyed.input_cases {ls : List Bytes} {left : LineBuffer} {r : Server × Bool} {j : Nat}
    (h : Obeyed s fd j ls left r) {ended : Bool} {fd' : Int} {x : Nat × LineBuffer}
    (hx : (finish fd r ended).input fd' = some x) :
    (fd' ≠ fd ∧ s.input fd' = some x) ∨ (fd' = fd ∧ r.2 = true ∧ x = (j, left)) := by
  have hbefore : r.1.input fd' = some x := by
    rw [finish] at hx
    split at hx
    · rw [hangup_input] at hx
      split_ifs at hx
      exact hx
    · exact hx
  by_cases hfd : fd' = fd
  · rw [hfd] at hbefore
    cases hstays : r.2 with
    | true =>
      rw [h.stays hstays] at hbefore
      exact Or.inr ⟨hfd, rfl, (Option.some.inj hbefore).symm⟩
    | false =>
      rw [input_eq_none.mpr (h.gone hstays)] at hbefore
      cases hbefore
  · rw [h.others fd' hfd] at hbefore
    exact Or.inl ⟨hfd, hbefore⟩

/-- At the end of a stream no line is acted on. -/
theorem unheard_finish (k : Nat) (fd : Int) (r : Server × Bool) (ended : Bool) :
    Unheard k r.1 (finish fd r ended) := by
  unfold finish
  split
  · exact unheard_hangup k r.1 fd
  · exact .refl k r.1

/-- Reading leaves no complete line behind. -/
theorem Drained.onReadable (hs : Consistent s) (h : Drained s) (fd : Int)
    (recvs : List RecvResult) : Drained (s.onReadable fd recvs) := by
  cases hc : s.sessions.lookup fd with
  | none =>
    rw [onReadable_gone hc]
    exact h
  | some c =>
    obtain ⟨r, hr, hobeyed⟩ := onReadable_obeyed recvs hs hc (h fd _ _ (input_eq hc))
    rw [hr]
    intro fd' k b hb
    rcases hobeyed.input_cases hb with ⟨-, hbefore⟩ | ⟨-, -, hleft⟩
    · exact h fd' k b hbefore
    · obtain ⟨-, rfl⟩ := Prod.mk.inj hleft
      exact LineBuffer.lines_left _

/-- In the event the loop reads from a descriptor. -/
def Reads (s : Server) (e : Event) : Prop :=
  e.event.error = false ∧ e.event.ident ≠ s.listenFd ∧ e.event.filter = .read

instance (s : Server) (e : Event) : Decidable (s.Reads e) :=
  inferInstanceAs (Decidable (_ ∧ _))

/-- In any other event the loop acts on no line. -/
theorem unheard_dispatch {e : Event} (h : ¬ s.Reads e) (k : Nat) : Unheard k s (s.dispatch e) := by
  refine (unheard_rehash k s e.sessionOrder e.bookOrder).trans ?_
  unfold Server.dispatch
  dsimp only
  split
  · split
    · exact unheard_closeSession k _ _
    · exact .refl k _
  · rename_i herror
    split
    · exact unheard_acceptNew k e.accepts _
    · rename_i hlisten
      split
      · rename_i hfilter
        exact absurd ⟨Bool.eq_false_iff.mpr herror, hlisten, hfilter⟩ h
      · exact unheard_onWritable k _ _

/-- After a read it acts on no further line. -/
theorem Reads.unheard {e : Event} (h : s.Reads e) (k : Nat) :
    Unheard k ((s.rehash e.sessionOrder e.bookOrder).onReadable e.event.ident e.recvs)
      (s.dispatch e) := by
  obtain ⟨herror, hlisten, hfilter⟩ := h
  have hlisten' : e.event.ident ≠ (s.rehash e.sessionOrder e.bookOrder).listenFd := hlisten
  simp only [Server.dispatch, herror, Bool.false_eq_true, if_false, if_neg hlisten', hfilter]
  split
  · exact unheard_closeSession k _ _
  · exact .refl k _

/-- An event leaves no complete line behind. -/
theorem Drained.dispatch (hs : Consistent s) (h : Drained s) (e : Event) :
    Drained (s.dispatch e) := by
  by_cases hreads : s.Reads e
  · have hrehash : Drained (s.rehash e.sessionOrder e.bookOrder) :=
      h.unheard fun k => unheard_rehash k s e.sessionOrder e.bookOrder
    have hread := hrehash.onReadable (hs.act (.rehash e.sessionOrder e.bookOrder)) e.event.ident
      e.recvs
    exact hread.unheard hreads.unheard
  · exact h.unheard (unheard_dispatch hreads)

/-- Whenever the event loop waits, every complete line that has come in has been acted on. -/
theorem run_drained (kq listenFd : Int) (sends : List SendResult) (events : List Event) :
    Drained (run dispatch (start kq listenFd sends) events) := by
  have hstep : ∀ (s : Server) e, Reachable s ∧ Drained s →
      Reachable (s.dispatch e) ∧ Drained (s.dispatch e) := by
    intro s e hs
    obtain ⟨hreachable, hdrained⟩ := hs
    exact ⟨hreachable.reaches (dispatch_reaches s e),
      hdrained.dispatch (consistent_of_view hreachable.consistent) e⟩
  have hbegin : Drained (start kq listenFd sends) := fun fd k b hb => nomatch hb
  exact (run_invariant hstep ⟨.start kq listenFd sends, hbegin⟩ events).2

/-! ## Once the session is gone -/

/-- No action acts on a line of a connection that has no session. -/
theorem act_linesFrom_gone {k : Nat} (hk : s.connected k = false) (a : Action) :
    linesFrom k (s.act a).history = linesFrom k s.history := by
  cases a with
  | accept cfd => exact (unheard_accept k s cfd).lines
  | feed fd chunk => rfl
  | line fd =>
    obtain hnone | ⟨c, line, inbuf, hc, -, hset, htaken⟩ := s.takeLine_cases fd
    · simp only [act, hnone]
    · obtain ⟨obs, hhistory, hobs⟩ := handleLine_adds hset line
      have hother : ¬ c.conn = k := by
        intro hconn
        rw [connected_iff.mpr ⟨fd, c, hc, hconn⟩] at hk
        cases hk
      have hnew : linesFrom k [.received c.conn line] = [] := by
        rw [linesFrom_received, if_neg hother]
      have hhistory' : ((s.update fd (setInbuf inbuf)).handleLine fd line).1.history =
          s.history ++ [.received c.conn line] ++ obs := hhistory
      rw [act_line htaken, hhistory', linesFrom_append_nil _ (hobs k), linesFrom_append, hnew,
        List.append_nil]
  | hangup fd => exact (unheard_hangup k s fd).lines
  | drop fd => exact (unheard_closeSession k s fd).lines
  | writable fd => exact (unheard_onWritable k s fd).lines
  | rehash => rfl

/-- A connection whose session has been closed stays without one. -/
theorem act_gone {k : Nat} (hk : s.connected k = false) (hlt : k < s.accepted) (a : Action) :
    (s.act a).connected k = false ∧ k < (s.act a).accepted := by
  have hmoves := act_moves s a
  refine ⟨?_, hlt.trans_le hmoves.accepted_le⟩
  rw [← Bool.not_eq_true]
  intro hopen
  rw [← connected_view] at hopen
  rcases hmoves.connected hopen with hbefore | hle
  · rw [connected_view, hk] at hbefore
    cases hbefore
  · exact absurd hlt (Nat.not_lt.mpr hle)

private theorem run_linesFrom_gone {k : Nat} (hk : s.connected k = false) (hlt : k < s.accepted)
    (events : List Event) :
    linesFrom k (run dispatch s events).history = linesFrom k s.history := by
  obtain ⟨actions, hactions⟩ := run_dispatch_reaches s events
  rw [← hactions]
  clear hactions
  induction actions generalizing s with
  | nil => rfl
  | cons a actions ih =>
    obtain ⟨hgone, hold⟩ := act_gone hk hlt a
    rw [run_cons, ih hgone hold, act_linesFrom_gone hk a]

/-! ## Two ways of delivering -/

/-- The same server with other outcomes of its sends. -/
def rescript (s : Server) (sends : List SendResult) : Server :=
  { s with kernel := { s.kernel with sends := sends } }

private theorem core_closeSession (s : Server) (fd : Int) :
    (s.closeSession fd).core = s.core.forget fd := by
  rw [← core_view, view_closeSession, core_forget, core_view]

private theorem hangup_congr (h : s.core = s'.core) (fd : Int) :
    (s.hangup fd).core = (s'.hangup fd).core := by
  unfold hangup
  cases hc : s.sessions.lookup fd with
  | none =>
    rw [lookup_none_of_core h hc]
    exact h
  | some c =>
    obtain ⟨c', hc', hsame⟩ := lookup_of_core h hc
    have hconn : c'.core.conn = c.core.conn := congrArg ClientSession.conn hsame
    have hconn' : c'.conn = c.conn := hconn
    simp only [hc', hconn', core_closeSession, core_log, h]

private theorem finish_congr {r r' : Server × Bool} (hcore : r.1.core = r'.1.core)
    (halive : r.2 = r'.2)
    (fd : Int) (ended : Bool) : (finish fd r ended).core = (finish fd r' ended).core := by
  rw [finish, finish, halive]
  split
  · exact hangup_congr hcore fd
  · exact hcore

/-- The core and the unconsumed input are all there is to a session but its output. -/
theorem profile_eq (hcore : s.core = s'.core) (hinput : s.input fd = s'.input fd) :
    (s.sessions.lookup fd).map ClientSession.profile =
      (s'.sessions.lookup fd).map ClientSession.profile := by
  cases hc : s.sessions.lookup fd with
  | none => rw [lookup_none_of_core hcore hc, Option.map_none]
  | some c =>
    obtain ⟨c', hc', hsame⟩ := lookup_of_core hcore hc
    rw [input_eq hc, input_eq hc'] at hinput
    obtain ⟨-, hinbuf⟩ := Prod.mk.inj (Option.some.inj hinput)
    have hprofile : ∀ c : ClientSession, c.profile = { c.core with inbuf := c.inbuf } :=
      fun _ => rfl
    rw [hc', Option.map_some, Option.map_some, hprofile, hprofile, hsame, hinbuf]

/-- Whatever state is reached, no accepted connection is taken back. -/
theorem Reaches.accepted_le (h : Reaches s s') : s.accepted ≤ s'.accepted := by
  obtain ⟨actions, rfl⟩ := h
  exact run_accepted_le s actions

/-- Once the session is closed, nothing that has come or comes on its connection is acted on. -/
theorem Reaches.silenced (h : Reaches s s') (hs : Consistent s)
    (hc : s.sessions.lookup fd = some c) (hothers : ∀ fd', fd' ≠ fd → s'.input fd' = s.input fd')
    (events : List Event) :
    linesFrom c.conn (run dispatch (s'.closeSession fd) events).history =
      linesFrom c.conn s'.history := by
  have hgone : (s'.closeSession fd).connected c.conn = false := by
    rw [← Bool.not_eq_true, connected_iff]
    rintro ⟨fd', c', hc', hconn⟩
    have hleft := input_closeSession s' fd fd'
    rw [input_eq hc'] at hleft
    split_ifs at hleft with hfd
    rw [hothers fd' hfd, eq_comm, input, Option.map_eq_some_iff] at hleft
    obtain ⟨c₀, hc₀, he⟩ := hleft
    have hconn₀ : c₀.conn = c'.conn := congrArg Prod.fst he
    exact hfd (hs.distinct fd' fd c₀ c hc₀ hc (hconn₀.trans hconn))
  have hlt : c.conn < (s'.closeSession fd).accepted := by
    rw [accepted_closeSession]
    exact (hs.numbered fd c hc).trans_le h.accepted_le
  rw [run_linesFrom_gone hgone hlt, (unheard_closeSession c.conn s' fd).lines]

private theorem deliver_reaches (calls : List (List RecvResult)) (s : Server) (fd : Int) :
    Reaches s (s.deliver fd calls) := by
  induction calls generalizing s with
  | nil => exact .refl s
  | cons recvs calls ih => exact (onReadable_proceeds s fd recvs).reaches.trans (ih _)

/-- The outcome of a delivery: the lines of the stream are acted on, and its end is seen to. -/
theorem deliver_outcome (hs : Consistent s) (hc : s.sessions.lookup fd = some c)
    (hno : 10 ∉ c.inbuf.buf_) (calls : List (List RecvResult)) {stream : Bytes} {ended : Bool}
    (hstream : streamOfCalls calls = (stream, ended)) :
    let pieces := (c.inbuf.buf_ ++ stream).splitOn 10
    let r := s.obey fd (pieces.dropLast.map stripCr)
    (s.deliver fd calls).core = (finish fd r ended).core ∧
      ∀ fd', (s.deliver fd calls).input fd' =
        if fd' = fd then (if r.2 && !ended then some (c.conn, ⟨pieces.getLastD []⟩) else none)
        else s.input fd' := by
  intro pieces r
  obtain ⟨r', hr', hobeyed⟩ := deliver_obeyed calls hs hc hno
  rw [hstream, LineBuffer.lines_eq_splitOn] at hobeyed
  rw [hstream] at hr'
  have halive : r'.2 = r.2 := hobeyed.alive
  rw [hr']
  refine ⟨finish_congr hobeyed.core hobeyed.alive fd ended, fun fd' => ?_⟩
  by_cases hfd : fd' = fd
  · rw [hfd, if_pos rfl, finish, ← halive]
    cases hstays : r'.2 with
    | false => exact input_eq_none.mpr (hobeyed.gone hstays)
    | true =>
      cases ended with
      | true => exact (hangup_input ..).trans (if_pos rfl)
      | false => exact hobeyed.stays hstays
  · rw [if_neg hfd, ← hobeyed.others fd' hfd, finish]
    split
    · rw [hangup_input, if_neg hfd]
    · rfl

/-- A delivery acts on the lines of the stream up to and including the first QUIT; with a QUIT or
the end of the stream the session ends. -/
theorem deliver_received (hs : Consistent s) (hc : s.sessions.lookup fd = some c)
    (hno : 10 ∉ c.inbuf.buf_) (calls : List (List RecvResult)) :
    let lines := framedLines (c.inbuf.buf_ ++ (streamOfCalls calls).1)
    linesFrom c.conn (s.deliver fd calls).history =
        linesFrom c.conn s.history ++ untilQuit lines ∧
      (((streamOfCalls calls).2 = true ∨ ∃ line ∈ lines, commandWord line = text "QUIT") →
        (s.deliver fd calls).sessions.lookup fd = none) := by
  intro lines
  obtain ⟨hcore, hinput⟩ := deliver_outcome hs hc hno calls rfl
  obtain ⟨hreceived, hquit⟩ := obey_received hs hc lines
  constructor
  · have hhistory : (s.deliver fd calls).core.history = (finish fd _ _).core.history :=
      congrArg history hcore
    have hlines : linesFrom c.conn (s.deliver fd calls).history =
        linesFrom c.conn (s.obey fd lines).1.history :=
      (congrArg (linesFrom c.conn) hhistory).trans (unheard_finish ..).lines
    rw [hlines, hreceived]
  · intro hends
    rw [← input_eq_none, hinput, if_pos rfl, if_neg]
    intro hstays
    obtain ⟨hobeyed, hopen⟩ := Bool.and_eq_true_iff.mp hstays
    rcases hends with hended | hword
    · rw [hended] at hopen
      cases hopen
    · exact Bool.false_ne_true ((hquit.mpr hword).symm.trans hobeyed)

/-- In whatever pieces a stream reaches a session, the server ends with the same book, the same
sessions but for their output, and the same history, which holds the lines enqueued to everyone.
Of what was buffered and what has come since, the lines up to and including the first QUIT have
been acted on; once the session is closed, the rest never is. -/
theorem deliver_independent (kq listenFd : Int) (sends : List SendResult) (events : List Event)
    (fd : Int) {c : ClientSession}
    (hc : (run dispatch (start kq listenFd sends) events).sessions.lookup fd = some c)
    (sends₁ sends₂ : List SendResult) (calls₁ calls₂ : List (List RecvResult))
    (hstream : streamOfCalls calls₁ = streamOfCalls calls₂) :
    let s := run dispatch (start kq listenFd sends) events
    let s₁ := (s.rescript sends₁).deliver fd calls₁
    let s₂ := (s.rescript sends₂).deliver fd calls₂
    let pieces := (c.inbuf.buf_ ++ (streamOfCalls calls₁).1).splitOn 10
    let lines := pieces.dropLast.map stripCr
    s₁.book = s₂.book ∧ s₁.history = s₂.history ∧
      (∀ fd', (s₁.sessions.lookup fd').map ClientSession.profile =
        (s₂.sessions.lookup fd').map ClientSession.profile) ∧
      linesFrom c.conn s₁.history = linesFrom c.conn s.history ++ untilQuit lines ∧
      (∀ c', s₁.sessions.lookup fd = some c' → c'.inbuf.buf_ = pieces.getLastD []) ∧
      (((streamOfCalls calls₁).2 = true ∨ ∃ line ∈ lines, commandWord line = text "QUIT") →
        s₁.sessions.lookup fd = none) ∧
      ∀ events', linesFrom c.conn (run dispatch (s₁.closeSession fd) events').history =
        linesFrom c.conn s₁.history := by
  intro s s₁ s₂ pieces lines
  have hs : Consistent s :=
    consistent_of_view ((Reachable.start kq listenFd sends).run_dispatch events).consistent
  have hsent : ∀ sends, Consistent (s.rescript sends) := fun _ =>
    ⟨hs.keyed, hs.numbered, hs.sequenced, hs.distinct, hs.nextSeq⟩
  have hno := run_drained kq listenFd sends events fd _ _ (input_eq hc)
  obtain ⟨hreceived, hends⟩ := deliver_received (hsent sends₁) hc hno calls₁
  obtain ⟨hcore₁, hinput₁⟩ := deliver_outcome (hsent sends₁) hc hno calls₁ rfl
  obtain ⟨hcore₂, hinput₂⟩ := deliver_outcome (hsent sends₂) hc hno calls₂ hstream.symm
  have hbegin : (s.rescript sends₁).core = (s.rescript sends₂).core := rfl
  obtain ⟨hsame, halive⟩ := obey_congr hbegin fd lines
  have hcore : s₁.core = s₂.core :=
    hcore₁.trans ((finish_congr hsame halive fd _).trans hcore₂.symm)
  have hinput : ∀ fd', s₁.input fd' = s₂.input fd' := by
    intro fd'
    rw [hinput₁, hinput₂, ← halive]
    rfl
  have hbook : s₁.core.book = s₂.core.book := congrArg book hcore
  have hhistory : s₁.core.history = s₂.core.history := congrArg history hcore
  refine ⟨hbook, hhistory, fun fd' => profile_eq hcore (hinput fd'),
    hreceived, fun c' hc' => ?_, hends, fun events' => ?_⟩
  · have hleft := hinput₁ fd
    rw [input_eq hc', if_pos rfl] at hleft
    split_ifs at hleft
    exact congrArg (fun x => x.2.buf_) (Option.some.inj hleft)
  · refine (deliver_reaches calls₁ _ fd).silenced (hsent sends₁) hc (fun fd' hfd => ?_) events'
    exact (hinput₁ fd').trans (if_neg hfd)

/-- The same bytes in one read, and in three with a carriage return cut off its line feed; the
line after the QUIT is not acted on. -/
theorem deliver_independent_two_cuts :
    let events : List Event := [{ event := ⟨4, .read, false, false⟩, accepts := [.accepted 5] }]
    let s := run dispatch (start 3 4 []) events
    let s₁ := (s.rescript []).deliver 5
      [[.data ⟨text "FOO\r\nQUIT\nFOO\nBA", by decide, by decide⟩, .again]]
    let s₂ := (s.rescript [.sent 3]).deliver 5
      [[.data ⟨text "FOO\r", by decide, by decide⟩, .eintr,
        .data ⟨text "\nQU", by decide, by decide⟩, .again],
       [.data ⟨text "IT\nFOO\nBA", by decide, by decide⟩, .again]]
    s₁.book = s₂.book ∧ s₁.history = s₂.history ∧
      linesFrom 0 s₁.history = [text "FOO", text "QUIT"] ∧
      s₁.sessions.lookup 5 = none := by
  intro events s s₁ s₂
  obtain ⟨c, hc, hconn, hinbuf⟩ : ∃ c, (run dispatch (start 3 4 []) events).sessions.lookup 5 =
      some c ∧ c.conn = 0 ∧ c.inbuf.buf_ = [] := ⟨_, rfl, rfl, rfl⟩
  have h := deliver_independent 3 4 [] events 5 hc [] [.sent 3]
    [[.data ⟨text "FOO\r\nQUIT\nFOO\nBA", by decide, by decide⟩, .again]]
    [[.data ⟨text "FOO\r", by decide, by decide⟩, .eintr,
        .data ⟨text "\nQU", by decide, by decide⟩, .again],
      [.data ⟨text "IT\nFOO\nBA", by decide, by decide⟩, .again]] rfl
  obtain ⟨hbook, hhistory, -, hlines, -, hends, -⟩ := h
  rw [hinbuf] at hlines hends
  rw [hconn] at hlines
  refine ⟨hbook, hhistory, hlines.trans ?_, hends (Or.inr ⟨text "QUIT", ?_, by decide⟩)⟩
  · decide
  · decide

end Server

end SocketExchange
