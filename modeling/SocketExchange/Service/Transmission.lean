import SocketExchange.Common.Framing
import SocketExchange.Service.Delivery

/-!
# Transmission

A client reads back the lines the server wrote. No line the server enqueues holds a byte
that ends or shortens a line, whatever the client sent; so a reader that is handed the
accepted bytes, in any pieces, takes off the enqueued lines one by one. The results a run
has used tell whether a send of it failed hard.
-/

namespace SocketExchange

open Containers ClientSession Runs

/-! ## Reading framed lines -/

/-- A plain line is read as it was written. -/
theorem stripCr_plain {line : Bytes} (h : Plain line) : stripCr line = line := by
  rw [stripCr, if_neg]
  rintro ⟨-, hlast⟩
  exact (h 13 (List.mem_of_getLast? hlast)).2 rfl

private theorem lines_framed {line : Bytes} (h : Plain line) (t : Bytes) :
    LineBuffer.lines ⟨framed line ++ t⟩ =
      (line :: (LineBuffer.lines ⟨t⟩).1, (LineBuffer.lines ⟨t⟩).2) := by
  have hline : 10 ∉ line := fun hmem => (h 10 hmem).1 rfl
  rw [framed, List.append_assoc, List.singleton_append, LineBuffer.lines_cons hline,
    stripCr_plain h]

/-- What begins a sequence of framed lines is read as the first of them, and what is left
begins the next. -/
theorem lines_of_prefix {ls : List Bytes} (hls : ∀ line ∈ ls, Plain line) {bytes : Bytes}
    (h : bytes <+: ls.flatMap framed) :
    (LineBuffer.lines ⟨bytes⟩).1 <+: ls ∧
      (LineBuffer.lines ⟨bytes⟩).1.flatMap framed ++ (LineBuffer.lines ⟨bytes⟩).2.buf_ = bytes := by
  induction ls generalizing bytes with
  | nil =>
    rw [List.flatMap_nil, List.prefix_nil] at h
    subst h
    have hnone : LineBuffer.lines ⟨[]⟩ = ([], ⟨[]⟩) := LineBuffer.lines_none List.not_mem_nil
    rw [hnone]
    exact ⟨List.nil_prefix, rfl⟩
  | cons line ls ih =>
    obtain ⟨hline, hls⟩ := List.forall_mem_cons.mp hls
    rw [List.flatMap_cons] at h
    by_cases hwhole : framed line <+: bytes
    · obtain ⟨t, rfl⟩ := hwhole
      obtain ⟨hbegins, hbytes⟩ := ih hls ((List.prefix_append_right_inj _).mp h)
      rw [lines_framed hline]
      refine ⟨(List.prefix_cons_inj line).mpr hbegins, ?_⟩
      rw [List.flatMap_cons, List.append_assoc, hbytes]
    · have hpart : bytes <+: line := by
        have hframed := (List.prefix_or_prefix_of_prefix h (List.prefix_append ..)).resolve_right
          hwhole
        rcases List.prefix_concat_iff.mp hframed with heq | hpart
        · exact absurd (heq ▸ List.prefix_rfl) hwhole
        · exact hpart
      have hnone : LineBuffer.lines ⟨bytes⟩ = ([], ⟨bytes⟩) :=
        LineBuffer.lines_none fun hmem => (hline 10 (hpart.subset hmem)).1 rfl
      rw [hnone]
      exact ⟨List.nil_prefix, rfl⟩

/-! ## What the sends of a run have used -/

namespace Server

/-- The results a line has used fail it only if one of them is hard. -/
theorem sendLoop_used (sends : List SendResult) (data : Bytes) :
    ∃ used, sends = used ++ (sendLoop sends data).sends ∧
      ((∀ r ∈ used, r.soft = true) → fails sends data.length = false) := by
  induction sends, data using sendLoop.induct with
  | case1 sends =>
    refine ⟨[], ?_, fun _ => fails_zero sends⟩
    rw [sendLoop, List.nil_append]
  | case2 data hne =>
    refine ⟨[], ?_, fun _ => rfl⟩
    rw [sendLoop, List.nil_append]
    exact hne
  | case3 n sends data hne ih =>
    obtain ⟨used, hsends, hsoft⟩ := ih
    refine ⟨.sent n :: used, ?_, fun h => ?_⟩
    · rw [sendLoop, List.cons_append, ← hsends]
      exact hne
    · have htail := hsoft (List.forall_mem_cons.mp h).2
      rwa [List.length_drop] at htail
  | case4 sends data hne ih =>
    obtain ⟨used, hsends, hsoft⟩ := ih
    refine ⟨.eintr :: used, ?_, fun h => hsoft (List.forall_mem_cons.mp h).2⟩
    rw [sendLoop, List.cons_append, ← hsends]
    exact hne
  | case5 sends data hne =>
    refine ⟨[.again], ?_, fun _ => rfl⟩
    rw [sendLoop, List.singleton_append]
    exact hne
  | case6 sends data hne =>
    refine ⟨[.zero], ?_, fun h => absurd (h _ List.mem_cons_self) (by decide)⟩
    rw [sendLoop, List.singleton_append]
    exact hne
  | case7 sends data hne =>
    refine ⟨[.failed], ?_, fun h => absurd (h _ List.mem_cons_self) (by decide)⟩
    rw [sendLoop, List.singleton_append]
    exact hne

/-- The results a backlog has used fail it only if one of them is hard. -/
theorem drainLoop_used (sends : List SendResult) {outbuf : List Bytes}
    (hfull : ∀ e ∈ outbuf, e ≠ []) :
    ∃ used, sends = used ++ (drainLoop sends outbuf).sends ∧
      ((∀ r ∈ used, r.soft = true) → (drainLoop sends outbuf).stop ≠ .failed) := by
  induction sends, outbuf using drainLoop.induct with
  | case1 sends =>
    refine ⟨[], ?_, fun _ => ?_⟩
    · rw [drainLoop, List.nil_append]
    · simp only [drainLoop, ne_eq, reduceCtorEq, not_false_eq_true]
  | case2 outbuf hne =>
    refine ⟨[], ?_, fun _ => ?_⟩
    · rw [drainLoop, List.nil_append]
      exact hne
    · simp only [drainLoop, ne_eq, reduceCtorEq, not_false_eq_true]
  | case3 n sends queue => exact absurd rfl (hfull [] List.mem_cons_self)
  | case4 n sends front queue hfront hshort =>
    simp only [drainLoop, if_neg hfront, if_pos hshort]
    exact ⟨[.sent n], rfl, fun _ => by decide⟩
  | case5 n sends front queue hfront hwhole ih =>
    obtain ⟨used, hsends, hsoft⟩ := ih (List.forall_mem_cons.mp hfull).2
    simp only [drainLoop, if_neg hfront, if_neg hwhole]
    refine ⟨.sent n :: used, ?_, fun h => hsoft (List.forall_mem_cons.mp h).2⟩
    rw [List.cons_append, ← hsends]
  | case6 sends outbuf hne ih =>
    obtain ⟨used, hsends, hsoft⟩ := ih hfull
    simp only [drainLoop]
    refine ⟨.eintr :: used, ?_, fun h => hsoft (List.forall_mem_cons.mp h).2⟩
    rw [List.cons_append, ← hsends]
  | case7 sends outbuf hne =>
    simp only [drainLoop]
    exact ⟨[.again], rfl, fun _ => by decide⟩
  | case8 sends outbuf hne =>
    simp only [drainLoop]
    exact ⟨[.zero], rfl, fun h => absurd (h _ List.mem_cons_self) (by decide)⟩
  | case9 sends outbuf hne =>
    simp only [drainLoop]
    exact ⟨[.failed], rfl, fun h => absurd (h _ List.mem_cons_self) (by decide)⟩

end Server

namespace Channels

variable {ch : Channels}

/-- No channel holds an empty entry. -/
def Full (ch : Channels) : Prop := ∀ k, ∀ e ∈ ch.queue k, e ≠ []

/-- Queues without empty entries stay so when one is replaced by such a queue. -/
theorem Full.update {q : Nat → List Bytes} (h : ∀ k, ∀ e ∈ q k, e ≠ []) {k : Nat}
    {entries : List Bytes} (hentries : ∀ e ∈ entries, e ≠ []) :
    ∀ k', ∀ e ∈ Function.update q k entries k', e ≠ [] := by
  intro k'
  by_cases hk : k' = k
  · rw [hk, Function.update_self]
    exact hentries
  · rw [Function.update_of_ne hk]
    exact h k'

/-- An output leaves no empty entry in a channel. -/
theorem Full.step (h : ch.Full) (o : Output) : (ch.step o).Full := by
  cases o with
  | line k line =>
    have hframed : framed line ≠ [] := List.append_ne_nil_of_right_ne_nil _ (by decide)
    rw [Channels.step]
    split
    · refine Full.update h (List.forall_mem_append.mpr ⟨h k, ?_⟩)
      exact List.forall_mem_singleton.mpr hframed
    · obtain ⟨-, hdone, -⟩ := Server.sendLoop_contract ch.sends (framed line)
      refine Full.update h ?_
      split
      · rename_i hblocked
        refine List.forall_mem_singleton.mpr fun hnil => ?_
        rw [hdone.mpr hnil] at hblocked
        cases hblocked
      · exact List.forall_mem_nil _
  | flush k =>
    obtain ⟨-, hleft, -⟩ := Server.drainLoop_contract ch.sends (ch.queue k)
    exact Full.update h (hleft (h k))
  | drop k => exact Full.update h (List.forall_mem_nil _)

/-- A step in which a send fails hard has used a hard result. -/
theorem Full.step_used (h : ch.Full) (o : Output) :
    ∃ used, ch.sends = used ++ (ch.step o).sends ∧
      ((∀ r ∈ used, r.soft = true) → ∀ k, ¬ FailsOn k ch o) := by
  cases o with
  | line k line =>
    rw [Channels.step]
    split
    · rename_i hwaits
      exact ⟨[], rfl, fun _ k' hfails => hwaits (hfails.1 ▸ hfails.2.1)⟩
    · obtain ⟨used, hsends, hsoft⟩ := Server.sendLoop_used ch.sends (framed line)
      refine ⟨used, hsends, fun hused k' hfails => ?_⟩
      obtain ⟨-, -, hhard⟩ := hfails
      rw [hsoft hused] at hhard
      cases hhard
  | flush k =>
    obtain ⟨used, hsends, hsoft⟩ := Server.drainLoop_used ch.sends (h k)
    refine ⟨used, hsends, fun hused k' hfails => hsoft hused ?_⟩
    obtain ⟨rfl, hfailed⟩ := hfails
    exact hfailed
  | drop k => exact ⟨[], rfl, fun _ _ hfails => hfails⟩

/-- The same of a sequence of steps. -/
theorem Full.run_used (h : ch.Full) (outputs : List Output) :
    ∃ used, ch.sends = used ++ (run Channels.step ch outputs).sends ∧
      ((∀ r ∈ used, r.soft = true) → ∀ k, ch.Unfailing k outputs) := by
  induction outputs generalizing ch with
  | nil => exact ⟨[], rfl, fun _ _ => trivial⟩
  | cons o outputs ih =>
    obtain ⟨used, hsends, hsoft⟩ := h.step_used o
    obtain ⟨used', hsends', hsoft'⟩ := ih (h.step o)
    refine ⟨used ++ used', ?_, fun hused k => ?_⟩
    · rw [List.append_assoc, run_cons, ← hsends', hsends]
    · obtain ⟨hhead, htail⟩ := List.forall_mem_append.mp hused
      exact ⟨hsoft hhead k, hsoft' htail k⟩

end Channels

namespace Server

variable {s : Server} {k : Nat}

/-- The channels of a wakeful server have no empty entry. -/
theorem Wakeful.full (h : Wakeful s) (hs : Consistent s) : s.channels.Full := by
  intro k
  cases hopen : s.connected k with
  | false =>
    have hgone : s.channels.queue k = [] := backlog_gone hopen
    rw [hgone]
    exact List.forall_mem_nil _
  | true =>
    obtain ⟨fd, c, hc, rfl⟩ := connected_iff.mp hopen
    have hqueue : s.channels.queue c.conn = c.outbuf := hs.backlog hc
    rw [hqueue]
    exact ((attendedAt_some hc).mp (h fd)).full

/-- If the results that a run has used are no failures, all sends of every connection go well. -/
theorem Reachable.run_used (hs : Reachable s) (actions : List Action) :
    ∃ used, s.kernel.sends = used ++ (run act s actions).kernel.sends ∧
      ((∀ r ∈ used, r.soft = true) → ∀ k, Admissible (SendsWell k) act s actions) := by
  induction actions generalizing s with
  | nil => exact ⟨[], rfl, fun _ _ => trivial⟩
  | cons a actions ih =>
    have hconsistent := consistent_of_view hs.consistent
    obtain ⟨hchannels, -⟩ := act_delivers hconsistent a
    have hsends : (s.act a).kernel.sends =
        (run Channels.step s.channels (s.outputs a)).sends := congrArg Channels.sends hchannels
    obtain ⟨used, hused, hsoft⟩ := (hs.wakeful.full hconsistent).run_used (s.outputs a)
    obtain ⟨used', hused', hsoft'⟩ := ih (hs.reaches (.act s a))
    refine ⟨used ++ used', ?_, fun h k => ?_⟩
    · rw [List.append_assoc, run_cons, ← hused', hsends]
      exact hused
    · obtain ⟨hhead, htail⟩ := List.forall_mem_append.mp h
      exact ⟨hsoft hhead k, hsoft' htail k⟩

/-! ## What is enqueued and what is read -/

/-- Whatever clients send, no enqueued line holds a line feed or a carriage return. -/
theorem Reachable.plain (hs : Reachable s) :
    ∀ k line, .enqueued k line ∈ s.history → Plain line := by
  refine hs.call_invariant (P := fun s => ∀ k line, .enqueued k line ∈ s.history → Plain line)
    ?_ ?_ ?_
  · intro kq listenFd sends k line hmem
    cases hmem
  · intro s s' hs hplain hcall k line hmem
    cases hcall with
    | logged hsilent =>
      rcases List.mem_append.mp hmem with hmem | hmem
      · exact hplain k line hmem
      · exact (hsilent _ hmem).elim
    | booked => exact hplain k line hmem
    | changed => exact hplain k line hmem
    | @enqueued fd c line' hc hline' =>
      rw [history_enqueue hc] at hmem
      rcases List.mem_append.mp hmem with hmem | hmem
      · exact hplain k line hmem
      · rw [(Obs.enqueued.inj (List.mem_singleton.mp hmem)).2]
        exact hline'
    | closed hc =>
      rw [history_close hc] at hmem
      rcases List.mem_append.mp hmem with hmem | hmem
      · exact hplain k line hmem
      · cases List.mem_singleton.mp hmem
    | opened =>
      rcases List.mem_append.mp hmem with hmem | hmem
      · exact hplain k line hmem
      · cases List.mem_singleton.mp hmem
    | rehashed => exact hplain k line hmem
  · intro s fd c hs hc hplain k line hmem
    obtain ⟨obs, hhistory, -, hobs, -⟩ := onWritable_channels hs hc
    rw [hhistory] at hmem
    rcases List.mem_append.mp hmem with hmem | hmem
    · exact hplain k line hmem
    · rcases hobs _ hmem with he | he <;> cases he

/-- The lines to a connection are those enqueued for it. -/
theorem mem_linesTo {history : List Obs} {line : Bytes} :
    line ∈ linesTo k history ↔ .enqueued k line ∈ history := by
  rw [linesTo, linesWhere, List.mem_filterMap]
  constructor
  · rintro ⟨o, ho, hline⟩
    cases o with
    | enqueued k' line' =>
      simp only [decide_eq_true_eq, Option.ite_none_right_eq_some] at hline
      obtain ⟨rfl, he⟩ := hline
      rwa [← Option.some.inj he]
    | _ => cases hline
  · intro hmem
    refine ⟨_, hmem, ?_⟩
    simp only [decide_true, if_true]

/-- If no send of a run fails hard, then a client that is handed the bytes accepted for its
connection, cut into chunks in any way, reads a prefix of the lines enqueued to it, each as it was
written, and keeps only the beginning of a further line; whatever the clients sent, no enqueued
line holds a line feed or ends in a carriage return. -/
theorem run_lines_intact (kq listenFd : Int) (sends : List SendResult) (events : List Event)
    (k : Nat) (chunks : List Bytes) {used : List SendResult}
    (hsends : sends = used ++ (run dispatch (start kq listenFd sends) events).kernel.sends)
    (hsoft : ∀ r ∈ used, r.soft = true)
    (hchunks : chunks.flatten = (run dispatch (start kq listenFd sends) events).kernel.wire k) :
    let s := run dispatch (start kq listenFd sends) events
    let r := LineBuffer.receive {} chunks
    r.1 <+: linesTo k s.history ∧ r.1.flatMap framed ++ r.2.buf_ = s.kernel.wire k ∧
      10 ∉ r.2.buf_ ∧
      ∀ line ∈ linesTo k s.history, 10 ∉ line ∧ line.getLast? ≠ some 13 := by
  intro s r
  have hstart := Reachable.start kq listenFd sends
  have hs : Reachable s := hstart.run_dispatch events
  have hplain : ∀ line ∈ linesTo k s.history, Plain line := fun line hmem =>
    hs.plain k line (mem_linesTo.mp hmem)
  obtain ⟨actions, hactions⟩ := run_dispatch_reaches (start kq listenFd sends) events
  have hdelivered : Delivered k s := by
    obtain ⟨used', hused', hwell⟩ := hstart.run_used actions
    rw [hactions] at hused'
    obtain rfl := List.append_cancel_right (hsends.symm.trans hused')
    have h := run_delivered (hwell hsoft k)
    rwa [hactions] at h
  have hread : r = LineBuffer.lines ⟨s.kernel.wire k⟩ := by
    rw [← hchunks]
    exact LineBuffer.receive_eq List.not_mem_nil chunks
  obtain ⟨hbegins, hbytes⟩ := lines_of_prefix hplain hdelivered.sent
  rw [hread]
  refine ⟨hbegins, hbytes, LineBuffer.lines_left _, fun line hmem => ⟨fun h10 => ?_, fun h13 => ?_⟩⟩
  · exact (hplain line hmem 10 h10).1 rfl
  · exact (hplain line hmem 13 (List.mem_of_getLast? h13)).2 rfl

/-- The window fills up inside the first of two replies; what the client has in the end is one
line, read from two chunks. -/
theorem run_lines_intact_short_write :
    let sends : List SendResult := [.sent 2, .again, .sent 99]
    let events : List Event :=
      [{ event := ⟨4, .read, false, false⟩, accepts := [.accepted 5, .again] },
        { event := ⟨5, .read, false, false⟩
          recvs := [.data ⟨text "FOO\nBAR\n", by decide, by decide⟩, .again] },
        { event := ⟨5, .write, false, false⟩ }]
    let s := run dispatch (start 3 4 sends) events
    let chunks := [text "ERROR unk", text "nown command\n"]
    let r := LineBuffer.receive {} chunks
    r.1 = [msgError (text "unknown command")] ∧ (linesTo 0 s.history).length = 2 ∧
      r.1 <+: linesTo 0 s.history := by
  intro sends events s chunks r
  have hused : sends = sends ++ (run dispatch (start 3 4 sends) events).kernel.sends := by decide
  have hsoft : ∀ r ∈ sends, r.soft = true := by decide
  have hchunks : chunks.flatten = (run dispatch (start 3 4 sends) events).kernel.wire 0 := by decide
  obtain ⟨hbegins, -⟩ := run_lines_intact 3 4 sends events 0 chunks hused hsoft hchunks
  have hr : r.1 = [msgError (text "unknown command")] := by decide
  have hs : (linesTo 0 s.history).length = 2 := by decide
  exact ⟨hr, hs, hbegins⟩

end Server

end SocketExchange
