import SocketExchange.Service.Events
import SocketExchange.Service.Hearing
import SocketExchange.Service.Lifetimes

/-!
# Why a session ends

If no send of a connection fails hard, then its session ends only in an event on its own
descriptor, and only because the event reports an error, its client has said QUIT, or its stream
has ended.
-/

namespace SocketExchange

open Containers ClientSession Runs Server

/-- How the loop over `recv` ends. -/
inductive RecvEnd where
  /-- There is nothing more to read for now. -/
  | drained
  | fin
  /-- A reset or another error. -/
  | broken
  deriving DecidableEq, Repr

/-- How a drain of the socket comes to its end. -/
def recvEnd : List RecvResult → RecvEnd
  | [] => .drained
  | .data _ :: rest => recvEnd rest
  | .fin :: _ => .fin
  | .eintr :: rest => recvEnd rest
  | .again :: _ => .drained
  | .reset :: _ => .broken
  | .failed :: _ => .broken

private theorem streamOf_ended (recvs : List RecvResult) :
    (streamOf recvs).2 = true ↔ recvEnd recvs ≠ .drained := by
  induction recvs with
  | nil => simp [streamOf, recvEnd]
  | cons r recvs ih => cases r <;> simp [streamOf, recvEnd, ih]

namespace Server

variable {s : Server} {fd : Int} {c : ClientSession} {k : Nat} {e : Event}

/-- The connection whose stream the event reads. -/
def reading (s : Server) (e : Event) : Option Nat :=
  if s.Reads e then (s.input e.event.ident).map Prod.fst else none

/-- An event reads from a connection when it is served as a read on its descriptor. -/
theorem reading_eq_some : s.reading e = some k ↔
    s.Reads e ∧ (s.input e.event.ident).map Prod.fst = some k := by
  unfold reading
  split
  · rename_i hreads
    exact (and_iff_right hreads).symm
  · rename_i hreads
    simp [hreads]

/-- An event brings a connection its bytes when it reads from it, and otherwise nothing. -/
theorem brought_eq (k : Nat) (s : Server) (e : Event) :
    s.brought k e = if s.reading e = some k then (streamOf e.recvs).1 else [] := by
  simp only [brought, reading_eq_some]

/-! ## Who is accepted -/

private theorem accepted_enqueue (s : Server) (fd : Int) (line : Bytes) :
    (s.enqueue fd line).accepted = s.accepted := by
  have hview := congrArg Server.accepted (s.view_enqueue fd line)
  exact hview

private theorem accepted_handleLine (s : Server) (fd : Int) (line : Bytes) :
    (s.handleLine fd line).1.accepted = s.accepted := by
  cases hc : s.sessions.lookup fd with
  | none => simp only [handleLine, hc]
  | some c => exact (handleLine_handled hc line).keeps.accepted

private theorem accepted_handleLines (fuel : Nat) (s : Server) (fd : Int) :
    (handleLines fuel s fd).1.accepted = s.accepted := by
  induction fuel generalizing s with
  | zero => rfl
  | succ fuel ih =>
    rw [handleLines]
    obtain hnone | ⟨c, line, inbuf, -, -, -, htaken⟩ := s.takeLine_cases fd
    · rw [hnone]
    · have hline := (s.update fd (setInbuf inbuf)).accepted_handleLine fd line
      rw [htaken]
      generalize (s.update fd (setInbuf inbuf)).handleLine fd line = r at hline
      obtain ⟨s', alive⟩ := r
      cases alive with
      | true => exact (ih s').trans hline
      | false => exact hline

private theorem accepted_hangup (s : Server) (fd : Int) : (s.hangup fd).accepted = s.accepted := by
  unfold hangup
  split
  · rfl
  · exact accepted_closeSession ..

private theorem accepted_recvLoop (recvs : List RecvResult) (s : Server) (fd : Int) :
    (s.recvLoop fd recvs).accepted = s.accepted := by
  induction recvs generalizing s with
  | nil => rfl
  | cons result recvs ih =>
    cases result with
    | data chunk =>
      have hlines := accepted_handleLines ((s.feed fd chunk).buffered fd) (s.feed fd chunk) fd
      rw [recvLoop]
      split
      · rename_i s' h
        rw [h] at hlines
        exact (ih s').trans hlines
      · rename_i s' h
        rw [h] at hlines
        exact hlines
    | fin => exact accepted_hangup s fd
    | eintr => exact ih s
    | again => rfl
    | reset => exact accepted_hangup s fd
    | failed => exact accepted_hangup s fd

private theorem accepted_onReadable (s : Server) (fd : Int) (recvs : List RecvResult) :
    (s.onReadable fd recvs).accepted = s.accepted := by
  unfold onReadable
  split
  · rfl
  · exact accepted_recvLoop recvs s fd

/-- The listening socket closes nothing. -/
theorem acceptNew_closes (results : List AcceptResult) (s : Server) :
    .closed k ∈ (s.acceptNew results).history ↔ .closed k ∈ s.history := by
  induction results generalizing s with
  | nil => exact Iff.rfl
  | cons result results ih =>
    cases result with
    | accepted cfd =>
      rw [acceptNew]
      split
      · rw [ih]
        have hhistory : (s.openSession cfd).history = s.history ++ [.accepted s.accepted cfd] := rfl
        rw [hhistory, List.mem_append]
        simp
      · exact ih s
    | again => exact Iff.rfl
    | eintr => exact ih s
    | aborted => exact ih s
    | failed => exact Iff.rfl

/-! ## The cause -/

/-- What makes the event loop close a session when its descriptor is ready for reading. -/
def EndsRead (c : ClientSession) (e : Event) : Prop :=
  (∃ line ∈ (c.inbuf.feed (streamOf e.recvs).1).lines.1, commandWord line = text "QUIT") ∨
    recvEnd e.recvs ≠ .drained ∨ e.event.eof = true

/-- A connection whose input is buffered is connected. -/
theorem connected_of_input {b : LineBuffer} (h : s.input fd = some (k, b)) :
    s.connected k = true := by
  obtain ⟨c, hc, hconn, -⟩ := input_eq_some.mp h
  exact connected_iff.mpr ⟨fd, c, hc, hconn⟩

/-- An event that reads is rehashing, reading and the EV_EOF test. -/
theorem Reads.dispatch (h : s.Reads e) :
    s.dispatch e =
      let s' := (s.rehash e.sessionOrder e.bookOrder).onReadable e.event.ident e.recvs
      if (s'.sessions.lookup e.event.ident).isSome && e.event.eof then
        s'.closeSession e.event.ident
      else s' := by
  obtain ⟨herror, hlisten, hfilter⟩ := h
  have hlisten' : e.event.ident ≠ (s.rehash e.sessionOrder e.bookOrder).listenFd := hlisten
  simp only [Server.dispatch, herror, Bool.false_eq_true, if_false, if_neg hlisten', hfilter]

/-- Reading from a descriptor leaves the sessions of the others as they are. -/
theorem Reads.input_ne (hs : Consistent s) (hdrained : Drained s) (h : s.Reads e)
    (hne : fd ≠ e.event.ident) : (s.dispatch e).input fd = s.input fd := by
  let s₁ := s.rehash e.sessionOrder e.bookOrder
  have hs₁ : Consistent s₁ := hs.act (.rehash e.sessionOrder e.bookOrder)
  have hsame : ∀ fd, s₁.input fd = s.input fd := fun fd =>
    congrArg (Option.map _) (s.lookup_rehash e.sessionOrder e.bookOrder fd)
  have hread : (s₁.onReadable e.event.ident e.recvs).input fd = s₁.input fd := by
    cases hc : s₁.sessions.lookup e.event.ident with
    | none => rw [onReadable_gone hc]
    | some c =>
      have hno : 10 ∉ c.inbuf.buf_ :=
        hdrained e.event.ident c.conn c.inbuf ((hsame _).symm.trans (input_eq hc))
      obtain ⟨r, hr, hobeyed⟩ := onReadable_obeyed e.recvs hs₁ hc hno
      rw [hr, finish]
      split
      · rw [hangup_input, if_neg hne, hobeyed.others fd hne]
      · exact hobeyed.others fd hne
  rw [h.dispatch, ← hsame, ← hread]
  dsimp only
  split
  · rw [input_closeSession, if_neg hne]
  · rfl

/-- Unless its stream ends, a session that is read from stays. -/
theorem Reads.connected (hs : Consistent s) (hdrained : Drained s) (h : s.Reads e)
    (hk : s.connected k = true)
    (hstays : ∀ c, s.sessions.lookup e.event.ident = some c → c.conn = k → ¬ EndsRead c e) :
    (s.dispatch e).connected k = true := by
  obtain ⟨fd, c, hc, rfl⟩ := connected_iff.mp hk
  by_cases hfd : fd = e.event.ident
  · subst hfd
    have hnone := hstays c hc rfl
    simp only [EndsRead, not_or, Decidable.not_not, Bool.not_eq_true] at hnone
    obtain ⟨hnoQuit, hends, heof⟩ := hnone
    let s₁ := s.rehash e.sessionOrder e.bookOrder
    have hs₁ : Consistent s₁ := hs.act (.rehash e.sessionOrder e.bookOrder)
    have hc₁ : s₁.sessions.lookup e.event.ident = some c := (lookup_rehash ..).trans hc
    have hno : 10 ∉ c.inbuf.buf_ := hdrained e.event.ident c.conn c.inbuf (input_eq hc)
    obtain ⟨r, hr, hobeyed⟩ := onReadable_obeyed e.recvs hs₁ hc₁ hno
    have hended : (streamOf e.recvs).2 = false := by
      rw [← Bool.not_eq_true, streamOf_ended, hends]
      exact fun hne => hne rfl
    have halive : r.2 = true := by
      rw [hobeyed.alive, ← Bool.not_eq_false, (obey_received hs₁ hc₁ _).2]
      exact hnoQuit
    rw [hended, finish_false] at hr
    rw [h.dispatch]
    simp only [heof, Bool.and_false, Bool.false_eq_true, if_false]
    rw [hr]
    exact connected_of_input (hobeyed.stays halive)
  · have hinput := (h.input_ne hs hdrained hfd).trans (input_eq hc)
    exact connected_of_input hinput

/-- An event that reads accepts nobody. -/
theorem Reads.accepted (h : s.Reads e) : (s.dispatch e).accepted = s.accepted := by
  rw [h.dispatch]
  dsimp only
  split
  · rw [accepted_closeSession, accepted_onReadable, rehash]
  · rw [accepted_onReadable, rehash]

/-- A flush that does not fail closes nothing. -/
theorem Writes.closes (hs : Consistent s) (h : s.Writes e) (hwell : EventSendsWell k s e) :
    .closed k ∈ (s.dispatch e).history ↔ .closed k ∈ s.history := by
  have hs₁ : Consistent (s.rehash e.sessionOrder e.bookOrder) :=
    hs.act (.rehash e.sessionOrder e.bookOrder)
  have hlookup := s.lookup_rehash e.sessionOrder e.bookOrder e.event.ident
  have hkept : (s.rehash e.sessionOrder e.bookOrder).history = s.history := rfl
  rw [h.dispatch]
  cases hc : s.sessions.lookup e.event.ident with
  | none =>
    rw [hc] at hlookup
    simp only [onWritable, hlookup, hkept]
  | some c =>
    rw [hc] at hlookup
    obtain ⟨obs, hhistory, -, hobs, hsoft, -⟩ := onWritable_channels hs₁ hlookup
    rw [hhistory, List.mem_append, hkept]
    refine or_iff_left fun hmem => ?_
    have hconn : k = c.conn := by
      rcases hobs _ hmem with he | he
      · cases he
      · exact Obs.closed.inj he
    subst hconn
    rw [EventSendsWell, eventOutputs, if_pos h, hc] at hwell
    have hqueue : s.channels.queue c.conn = c.outbuf := hs.backlog hc
    have hstop : (drainLoop s.kernel.sends c.outbuf).stop ≠ .failed := fun hfailed =>
      hwell.1 ⟨rfl, hqueue ▸ hfailed⟩
    rw [hsoft hstop] at hmem
    cases hmem

/-- Why the session of a connection has ended in an event, if none of its sends has failed. -/
theorem closed_cause (hs : Reachable s) (hdrained : Drained s) (hwell : EventSendsWell k s e)
    (hopen : .closed k ∉ s.history) (hclosed : .closed k ∈ (s.dispatch e).history) :
    ∃ c, s.sessions.lookup e.event.ident = some c ∧ c.conn = k ∧
      (e.event.error = true ∨ (s.Reads e ∧ EndsRead c e)) := by
  have hconsistent := consistent_of_view hs.consistent
  have hs' : Reachable (s.dispatch e) := hs.reaches (dispatch_reaches s e)
  by_contra hcause
  by_cases hreads : s.Reads e
  · have hlt : k < s.accepted := hreads.accepted ▸ hs'.recorded.closed k hclosed
    have hk := (hs.recorded.connected k).mpr ⟨hlt, hopen⟩
    have hk' := hreads.connected hconsistent hdrained hk fun c hc hconn hends =>
      hcause ⟨c, hc, hconn, Or.inr ⟨hreads, hends⟩⟩
    exact ((hs'.recorded.connected k).mp hk').2 hclosed
  · by_cases hwrites : s.Writes e
    · exact hopen ((hwrites.closes hconsistent hwell).mp hclosed)
    · have hlookup := s.lookup_rehash e.sessionOrder e.bookOrder e.event.ident
      unfold Server.dispatch at hclosed
      dsimp only at hclosed
      split at hclosed
      · rename_i herror
        split at hclosed
        · cases hc : s.sessions.lookup e.event.ident with
          | none =>
            rw [hc] at hlookup
            simp only [closeSession, hlookup] at hclosed
            exact hopen hclosed
          | some c =>
            rw [hc] at hlookup
            rw [history_close hlookup, List.mem_append, List.mem_singleton] at hclosed
            rcases hclosed with hclosed | hclosed
            · exact hopen hclosed
            · exact hcause ⟨c, hc, (Obs.closed.inj hclosed).symm, Or.inl herror⟩
        · exact hopen hclosed
      · rename_i herror
        rw [Bool.not_eq_true] at herror
        split at hclosed
        · have hkept := acceptNew_closes (k := k) e.accepts
            (s.rehash e.sessionOrder e.bookOrder)
          exact hopen (hkept.mp hclosed)
        · rename_i hlisten
          split at hclosed
          · rename_i hfilter
            exact hreads ⟨herror, hlisten, hfilter⟩
          · rename_i hfilter
            exact hwrites ⟨herror, hlisten, hfilter⟩

/-! ## After the end -/

/-- The connection has had a session and has none. -/
def Departed (s : Server) (k : Nat) : Prop := k < s.accepted ∧ s.connected k = false

instance (s : Server) (k : Nat) : Decidable (s.Departed k) := inferInstanceAs (Decidable (_ ∧ _))

/-- A connection has departed when its end is on record. -/
theorem Reachable.departed_iff (h : Reachable s) : s.Departed k ↔ .closed k ∈ s.history := by
  rw [Departed, ← Bool.not_eq_true, h.recorded.connected]
  constructor
  · rintro ⟨hlt, hnot⟩
    by_contra hopen
    exact hnot ⟨hlt, hopen⟩
  · intro hclosed
    exact ⟨h.recorded.closed k hclosed, fun hopen => hopen.2 hclosed⟩

/-- A departed connection has no session. -/
theorem Departed.conn_ne (h : s.Departed k) (hc : s.sessions.lookup fd = some c) : c.conn ≠ k := by
  intro hconn
  have hopen := connected_iff.mpr ⟨fd, c, hc, hconn⟩
  rw [h.2] at hopen
  cases hopen

/-- Nothing is done any more for a connection that has departed. -/
structure Past (k : Nat) (s s' : Server) : Prop where
  departed : s'.Departed k
  wire : s'.kernel.wire k = s.kernel.wire k
  lines : linesTo k s'.history = linesTo k s.history

/-- What is past over two stretches is past over both together. -/
theorem Past.trans {s' s'' : Server} (h : Past k s s') (h' : Past k s' s'') : Past k s s'' :=
  ⟨h'.departed, h'.wire.trans h.wire, h'.lines.trans h.lines⟩

/-- A call changes nothing of a departed connection. -/
theorem Call.past {s' : Server} (hs : Consistent s) (hcall : Call s s') (h : s.Departed k) :
    Past k s s' := by
  have hnone : ∀ {obs : List Obs}, (∀ line, .enqueued k line ∉ obs) →
      linesTo k (s.history ++ obs) = linesTo k s.history := by
    intro obs hobs
    have hnil : linesTo k obs = [] := linesWhere_eq_nil fun k' line hmem =>
      decide_eq_false fun hk => hobs line (hk ▸ hmem)
    rw [linesTo_append, hnil, List.append_nil]
  cases hcall with
  | logged hsilent => exact ⟨h, rfl, hnone fun line hmem => (hsilent _ hmem).elim⟩
  | booked => exact ⟨h, rfl, rfl⟩
  | @changed fd f hf =>
    have hconnected := connected_update (s := s) fd (fun c => (hf c).continues.conn) k
    exact ⟨⟨h.1, hconnected.trans h.2⟩, rfl, rfl⟩
  | @enqueued fd c line hc =>
    have hne := h.conn_ne hc
    have hchannels := channels_enqueue hs hc line
    have haccepted : (s.enqueue fd line).accepted = s.accepted := accepted_enqueue ..
    have hwire := (Channels.content_other s.channels (o := .line c.conn line) hne).1
    rw [← hchannels] at hwire
    refine ⟨⟨haccepted ▸ h.1, (connected_enqueue s fd line k).trans h.2⟩, hwire, ?_⟩
    rw [history_enqueue hc]
    exact hnone fun line' hmem => hne (Obs.enqueued.inj (List.mem_singleton.mp hmem)).1.symm
  | @closed fd c hc =>
    have haccepted := accepted_closeSession s fd
    have hgone : (s.closeSession fd).connected k = false := by
      rw [← Bool.not_eq_true, connected_close hs hc, h.2]
      simp
    refine ⟨⟨haccepted ▸ h.1, hgone⟩, congrFun (closeSession_kernel s fd).2 k, ?_⟩
    rw [history_close hc]
    exact hnone fun line hmem => by simp at hmem
  | @opened cfd hfree =>
    have hdeparted := act_gone h.2 h.1 (.accept cfd)
    rw [act, if_pos hfree] at hdeparted
    exact ⟨hdeparted.symm, rfl, hnone fun line hmem => by simp at hmem⟩
  | rehashed sessionOrder bookOrder =>
    exact ⟨⟨h.1, (connected_rehash sessionOrder bookOrder k).trans h.2⟩, rfl, rfl⟩

/-- A sequence of calls changes nothing of a departed connection. -/
theorem Calls.past {s' : Server} (hs : Consistent s) (hcalls : Calls s s') (h : s.Departed k) :
    Past k s s' := by
  induction hcalls with
  | refl => exact ⟨h, rfl, rfl⟩
  | tail hinit hlast ih => exact ih.trans (hlast.past (hs.calls hinit) ih.departed)

/-- No event does anything for a connection that has departed. -/
theorem Departed.dispatch (hs : Consistent s) (h : s.Departed k) (e : Event) :
    Past k s (s.dispatch e) := by
  by_cases hwrites : s.Writes e
  · have hrehash := (Call.rehashed e.sessionOrder e.bookOrder).past hs h
    have hs₁ : Consistent (s.rehash e.sessionOrder e.bookOrder) :=
      hs.act (.rehash e.sessionOrder e.bookOrder)
    rw [hwrites.dispatch]
    refine hrehash.trans ?_
    have hdeparted := hrehash.departed
    generalize s.rehash e.sessionOrder e.bookOrder = s₁ at hs₁ hdeparted
    cases hc : s₁.sessions.lookup e.event.ident with
    | none =>
      simp only [onWritable, hc]
      exact ⟨hdeparted, rfl, rfl⟩
    | some c =>
      have hne := hdeparted.conn_ne hc
      obtain ⟨obs, hhistory, hchannels, hobs, -, hconnected⟩ := onWritable_channels hs₁ hc
      have hothers : ∀ o ∈ Output.flush c.conn :: obs.filterMap Obs.output, o.conn ≠ k := by
        refine List.forall_mem_cons.mpr ⟨hne, fun o ho => ?_⟩
        obtain ⟨o', ho', he⟩ := List.mem_filterMap.mp ho
        rcases hobs o' ho' with rfl | rfl
        · cases he
        · exact Option.some.inj he ▸ hne
      have hwire := (Channels.content_others s₁.channels hothers).1
      rw [← hchannels] at hwire
      refine ⟨⟨?_, ?_⟩, hwire, ?_⟩
      · rw [accepted_onWritable]
        exact hdeparted.1
      · rw [hconnected k (Or.inr hne.symm)]
        exact hdeparted.2
      · have hnone : linesTo k obs = [] := by
          refine linesWhere_eq_nil fun k' line hmem => ?_
          rcases hobs _ hmem with he | he <;> cases he
        rw [hhistory, linesTo_append, hnone, List.append_nil]
  · exact (calls_dispatch hwrites).past hs h

end Server

end SocketExchange
