import SocketExchange.Service.Delivery

/-!
# From acceptance to closing

Connections are numbered as they are accepted, and each is open from then on until the one
entry that says it has been closed. So the history alone tells who is connected.
-/

namespace SocketExchange

open Containers ClientSession Runs

namespace Server

variable {s s' : Server} {fd : Int} {c : ClientSession} {k : Nat}

/-- The open connections are those that have been accepted and not closed. -/
structure Recorded (s : Server) : Prop where
  connected : ∀ k, s.connected k = true ↔ k < s.accepted ∧ .closed k ∉ s.history
  closed : ∀ k, .closed k ∈ s.history → k < s.accepted

/-- Nobody comes and nobody goes. -/
theorem Recorded.same (h : Recorded s) (hconnected : ∀ k, s'.connected k = s.connected k)
    (haccepted : s'.accepted = s.accepted) {obs : List Obs}
    (hhistory : s'.history = s.history ++ obs) (hobs : ∀ k, .closed k ∉ obs) : Recorded s' := by
  have hclosed : ∀ k, .closed k ∈ s'.history ↔ .closed k ∈ s.history := by
    intro k
    rw [hhistory, List.mem_append]
    exact or_iff_left (hobs k)
  refine ⟨fun k => ?_, fun k hk => ?_⟩
  · rw [hconnected, haccepted, hclosed]
    exact h.connected k
  · rw [haccepted]
    exact h.closed k ((hclosed k).mp hk)

/-- One connection is closed. -/
theorem Recorded.closing (h : Recorded s) {k₀ : Nat} (hk₀ : s.connected k₀ = true)
    (hconnected : ∀ k, s'.connected k = true ↔ s.connected k = true ∧ k ≠ k₀)
    (haccepted : s'.accepted = s.accepted) {obs : List Obs}
    (hhistory : s'.history = s.history ++ obs) (hobs : ∀ k, .closed k ∈ obs ↔ k = k₀) :
    Recorded s' := by
  have hclosed : ∀ k, .closed k ∈ s'.history ↔ .closed k ∈ s.history ∨ k = k₀ := by
    intro k
    rw [hhistory, List.mem_append, hobs]
  refine ⟨fun k => ?_, fun k hk => ?_⟩
  · rw [hconnected, haccepted, hclosed, h.connected, not_or, and_assoc]
  · rw [haccepted]
    rcases (hclosed k).mp hk with hk | rfl
    · exact h.closed k hk
    · exact ((h.connected k).mp hk₀).1

/-- The next connection is accepted. -/
theorem Recorded.opening (h : Recorded s) {cfd : Int} (hfree : s.Free cfd) :
    Recorded (s.openSession cfd) := by
  have hhistory : (s.openSession cfd).history = s.history ++ [.accepted s.accepted cfd] := rfl
  have haccepted : (s.openSession cfd).accepted = s.accepted + 1 := rfl
  have hclosed : ∀ k, .closed k ∈ (s.openSession cfd).history ↔ .closed k ∈ s.history := by
    intro k
    rw [hhistory, List.mem_append]
    refine or_iff_left fun hmem => ?_
    cases List.mem_singleton.mp hmem
  have hnone : s.view.sessions.lookup cfd = none := by
    rw [lookup_view, hfree.2.2, Option.map_none]
  refine ⟨fun k => ?_, fun k hk => ?_⟩
  · rw [← connected_view, view_openSession hfree, connected_join hnone, connected_view,
      view_accepted, h.connected, hclosed, haccepted]
    constructor
    · rintro (⟨hk, hopen⟩ | rfl)
      · exact ⟨by omega, hopen⟩
      · exact ⟨Nat.lt_succ_self _, fun hmem => absurd (h.closed _ hmem) (lt_irrefl _)⟩
    · rintro ⟨hk, hopen⟩
      by_cases hnew : k = s.accepted
      · exact Or.inr hnew
      · exact Or.inl ⟨by omega, hopen⟩
  · rw [haccepted]
    exact (h.closed k ((hclosed k).mp hk)).trans (Nat.lt_succ_self _)

/-- A call records the end of a session it closes. -/
theorem Recorded.call (hs : Consistent s) (h : Recorded s) (hcall : Call s s') : Recorded s' := by
  cases hcall with
  | logged hsilent => exact h.same (fun _ => rfl) rfl rfl fun k hk => hsilent _ hk
  | booked => exact h.same (fun _ => rfl) rfl (List.append_nil _).symm fun _ => List.not_mem_nil
  | @changed fd f hf =>
    refine h.same (connected_update fd fun c => (hf c).continues.conn) rfl
      (List.append_nil _).symm fun _ => List.not_mem_nil
  | @enqueued fd c line hc =>
    have hview : (s.enqueue fd line).view.accepted = (s.view.log _).accepted :=
      congrArg Server.accepted (s.view_enqueue fd line)
    refine h.same (connected_enqueue s fd line) hview (history_enqueue hc line) fun k hk => ?_
    cases List.mem_singleton.mp hk
  | @closed fd c hc =>
    refine h.closing (connected_iff.mpr ⟨fd, c, hc, rfl⟩) (connected_close hs hc)
      (accepted_closeSession ..) (history_close hc) fun k => ?_
    rw [List.mem_singleton, Obs.closed.injEq]
  | opened hfree => exact h.opening hfree
  | rehashed sessionOrder bookOrder =>
    exact h.same (connected_rehash sessionOrder bookOrder) rfl (List.append_nil _).symm
      fun _ => List.not_mem_nil

/-- A flush records the end of the session if it closes it. -/
theorem Recorded.flush (hs : Consistent s) (h : Recorded s)
    (hc : s.sessions.lookup fd = some c) : Recorded (s.onWritable fd) := by
  have hc' : s.view.sessions.lookup fd = some c.profile := lookup_view_of hc
  have haccepted := accepted_onWritable s fd
  rcases s.view_onWritable fd with hsame | ⟨c₀, hc₀, hclosed⟩
  · have hconnected : ∀ k, (s.onWritable fd).connected k = s.connected k := by
      intro k
      rw [← connected_view, hsame, connected_view]
    have hhistory : (s.onWritable fd).view.history = s.view.history :=
      congrArg Server.history hsame
    exact h.same hconnected haccepted (hhistory.trans (List.append_nil _).symm)
      fun _ => List.not_mem_nil
  · obtain rfl := Option.some.inj (hc.symm.trans hc₀)
    have hlogged : Consistent (s.view.log [.sendFailed c.conn]) :=
      (consistent_view hs).keeps (keeps_log ..)
    have hconnected : ∀ k, (s.onWritable fd).connected k = true ↔
        s.connected k = true ∧ k ≠ c.conn := by
      intro k
      rw [← connected_view, hclosed, hlogged.connected_forget hc', connected_log, connected_view]
      rfl
    have hhistory : (s.onWritable fd).history =
        s.history ++ [.sendFailed c.conn, .closed c.conn] := by
      have hview := congrArg Server.history hclosed
      rw [history_forget (s := s.view.log [.sendFailed c.conn]) hc'] at hview
      exact hview.trans (List.append_assoc ..)
    refine h.closing (connected_iff.mpr ⟨fd, c, hc, rfl⟩) hconnected haccepted hhistory
      fun k => ?_
    simp only [List.mem_cons, reduceCtorEq, Obs.closed.injEq, List.not_mem_nil, or_false,
      false_or]

/-- In every reachable state the open connections are those accepted and not closed. -/
theorem Reachable.recorded (h : Reachable s) : Recorded s := by
  have hstart : ∀ kq listenFd sends, Recorded (Server.start kq listenFd sends) := by
    intro kq listenFd sends
    refine ⟨fun k => ?_, fun k hk => ?_⟩
    · constructor
      · intro hopen
        cases hopen
      · rintro ⟨hk, -⟩
        exact absurd hk (Nat.not_lt_zero k)
    · cases hk
  exact h.call_invariant hstart (fun _ _ hs hrecorded => hrecorded.call hs)
    fun _ _ _ hs hc hrecorded => hrecorded.flush hs hc

end Server

end SocketExchange
