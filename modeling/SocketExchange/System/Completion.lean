import SocketExchange.System.Conversation

/-!
# The end of a conversation

If nothing fails on a connection, its two sides leave together and in order: the server closes
the session only when it has acted on every line of the client, and the client leaves its loop
only behind the last byte that the server has sent it. Neither needs anything of the other
connections for it.
-/

namespace SocketExchange

open Containers ClientSession Runs Segments Server List

/-- Of the lines of a client only the whole of them holds a QUIT. -/
theorem eq_sent_of_quit (p : Program) {args : List Bytes} (hargs : ∀ a ∈ args, 10 ∉ a)
    {input bytes : Bytes} (hbytes : bytes <+: terminated 10 (sentLines p args input))
    (hquit : ∃ line ∈ framedLines bytes, commandWord line = text "QUIT") :
    bytes = terminated 10 (sentLines p args input) := by
  have hlines : ∀ line ∈ sentLines p args input, 10 ∉ line :=
    forall_mem_append.mpr ⟨greeting_no_newline p hargs, sessionLines_no_newline _⟩
  obtain ⟨before, last, hsent, -, hbefore⟩ := sentLines_cases p args input
  obtain ⟨segs, rest, hsegs, hrest, rfl⟩ := exists_terminated 10 bytes
  obtain ⟨t, ht⟩ := hbytes
  have hall := congrArg (segments 10) ht
  rw [append_assoc, segments_terminated_append hsegs, segments_terminated hlines] at hall
  have hwhole : segs = sentLines p args input := by
    rcases prefix_concat_iff.mp (hsent ▸ ⟨_, hall⟩ : segs <+: before ++ [last]) with he | hpart
    · rw [he, hsent]
    · exfalso
      obtain ⟨line, hline, hword⟩ := hquit
      rw [framedLines, segments_terminated_append hsegs, segments_of_not_mem hrest, append_nil]
        at hline
      obtain ⟨seg, hseg, rfl⟩ := mem_map.mp hline
      rw [commandWord_stripCr] at hword
      exact hbefore seg (hpart.subset hseg) hword
  have hnothing : rest ++ t = [] := by
    rw [hwhole, append_assoc] at ht
    exact append_cancel_left (ht.trans (append_nil _).symm)
  rw [(append_eq_nil_iff.mp hnothing).1, append_nil, hwhole]

/-- Lines that are enqueued whole are read as they were enqueued. -/
theorem framedLines_stream {k : Nat} {history : List Obs}
    (hplain : ∀ line ∈ linesTo k history, Plain line) :
    framedLines (stream k history) = linesTo k history := by
  have hlines : ∀ line ∈ linesTo k history, 10 ∉ line := fun line hmem h10 =>
    (hplain line hmem 10 h10).1 rfl
  have hstream : stream k history = terminated 10 (linesTo k history) := rfl
  rw [hstream, framedLines, segments_terminated hlines]
  exact (map_congr_left fun line hline => stripCr_plain (hplain line hline)).trans (map_id _)

namespace Client

variable {c : Client} {all : Bytes} {p : Poll}

private theorem running_sendTyped (fuel : Nat) (c : Client) :
    (sendTyped fuel c).running = c.running := by
  induction fuel generalizing c with
  | zero => rfl
  | succ fuel ih =>
    unfold sendTyped
    split
    · rfl
    · rename_i line rest hline
      have hsent : ({ c with stdinLines := rest }.sendLine (line ++ [10])).1.running = c.running :=
        rfl
      split
      · rename_i c' hc'
        rw [hc'] at hsent
        exact hsent
      · rename_i c' hc'
        rw [hc'] at hsent
        split
        · exact hsent
        · exact (ih c').trans hsent

private theorem running_endInput (c : Client) : c.endInput.running = c.running := by
  unfold endInput
  split <;> rfl

/-- Reads that work keep the client in its loop. -/
theorem running_stdinPart (h : c.stdinOpen = false ∨ ∀ r ∈ c.stdin, r.Works) (ready : Bool) :
    (c.stdinPart ready).running = c.running := by
  unfold stdinPart
  split
  · rename_i hopen
    have hworks := h.resolve_left (by simp [(Bool.and_eq_true_iff.mp hopen).1])
    cases hstdin : c.stdin with
    | nil =>
      simp only [onStdin, hstdin]
      exact running_endInput _
    | cons r stdin =>
      cases r with
      | data chunk =>
        simp only [onStdin, hstdin]
        exact (running_endInput _).trans (running_sendTyped ..)
      | eintr =>
        simp only [onStdin, hstdin]
        exact running_endInput _
      | again =>
        simp only [onStdin, hstdin]
        exact running_endInput _
      | failed => exact (hworks .failed (by simp [hstdin])).elim
  · rfl

/-- A client in its session, or behind it, leaves its loop for the end of the server's stream
only. -/
theorem turn_running (h : Typing c all ∨ Ended c all) (hrunning : c.running = true)
    (hp : p.Calm) : (c.turn p).running = true := by
  have hinput : c.stdinOpen = false ∨ ∀ r ∈ c.stdin, r.Works :=
    (h.imp Typing.works Ended.stdinOpen).symm
  unfold turn
  rw [if_pos hrunning]
  cases p with
  | ready stdin server =>
    obtain ⟨_, _, _, he, hkept⟩ := (c.stdinPart stdin).serverPart_eq server
    simp only [he, hkept stdin hp, running_stdinPart hinput, hrunning]
  | eintr => exact hrunning
  | failed => exact hp.elim

/-- A client that has not ended its session has not sent everything. -/
theorem Typing.not_whole (h : Typing c all) : ¬ all <+: c.wire := by
  intro hall
  obtain ⟨before, last, hlines, -⟩ := sessionLines_cases (c.stdinLines.buf_ ++ typed c.stdin)
  have hlength := congrArg List.length h.whole
  rw [hlines, terminated_append, terminated_cons, length_append, length_append, length_append,
    length_cons] at hlength
  have hle := hall.length_le
  omega

private theorem Typing.not_finished (h : Typing c all) : ¬ c.Finished := by
  simp [Finished, h.shut, h.running]

/-- A poll that reads the end receives nothing. -/
theorem received_fin (hp : p.fin = true) : c.received p = [] := by
  unfold Poll.fin at hp
  split at hp
  · simp [received, RecvResult.bytes]
  · cases hp

private theorem received_gone (h : c.running = false) (p : Poll) : c.received p = [] := by
  unfold received
  split
  · simp [h]
  · rfl

/-- A client that has stopped takes no more turns. -/
theorem turn_gone (h : c.running = false) (p : Poll) : c.turn p = c := by
  unfold turn
  rw [if_neg (by simp [h])]

end Client

namespace Network

variable {n : Network} {m : Move} {k : Nat} {u : User}

/-- Nothing fails on the connection in the move: no send of the server, no read from its
descriptor, no poll and no receive of the client, and no error event comes for its descriptor; and
an EV_EOF flag of its descriptor is its own. -/
def Smooth (k : Nat) (n : Network) : Move → Prop
  | .serve e => EventSendsWell k n.server e ∧
      ((n.server.input e.event.ident).map Prod.fst = some k → e.event.error = false ∧
        (e.event.filter = .read → recvEnd e.recvs ≠ .broken ∧
          (e.event.eof = true → (n.clients k).Finished ∧
            n.heard k ++ (streamOf e.recvs).1 = (n.clients k).wire)))
  | .poll j p => j = k → p.Calm ∨ p.fin = true

instance (k : Nat) (n : Network) : ∀ m, Decidable (Smooth k n m)
  | .serve _ => inferInstanceAs (Decidable (_ ∧ (_ → _ ∧ (_ → _ ∧ (_ → _ ∧ _)))))
  | .poll .. => inferInstanceAs (Decidable (_ → _ ∨ _))

private theorem Smooth.wellSent (h : Smooth k n m) : WellSent k n m := by
  cases m with
  | serve e => exact h.1
  | poll j p => trivial

/-- Either side has left only when everything before has been done. -/
structure Finishing (u : User) (k : Nat) (n : Network) : Prop where
  conversing : Conversing u k n
  phase : (n.clients k).Typing (terminated 10 u.lines) ∨ (n.clients k).Ended (terminated 10 u.lines)
  closed : n.server.Departed k → n.heard k = terminated 10 u.lines
  left : (n.clients k).running = false →
    n.server.Departed k ∧ n.shown k = n.server.kernel.wire k

/-- A client whose stream has ended has sent everything. -/
theorem Finishing.sent (h : Finishing u k n) (hfinished : (n.clients k).Finished) :
    (n.clients k).wire = terminated 10 u.lines := by
  rcases h.phase with htyping | hended
  · exact absurd hfinished htyping.not_finished
  · exact hended.whole

/-- The server has closed the session: the client has ended its own. -/
theorem Finishing.ended (h : Finishing u k n) (hdeparted : n.server.Departed k) :
    (n.clients k).Ended (terminated 10 u.lines) := by
  rcases h.phase with htyping | hended
  · refine absurd ?_ htyping.not_whole
    rw [← h.closed hdeparted]
    exact h.conversing.carried.up
  · exact hended

/-- A turn of the client keeps the invariant. -/
theorem Finishing.poll (h : Finishing u k n) {p : Client.Poll} (hm : n.Carries (.poll k p))
    (hsmooth : Smooth k n (.poll k p)) : Finishing u k (n.step (.poll k p)) := by
  have hconversing := h.conversing.step hm trivial
  have hclient : (n.step (.poll k p)).clients k = (n.clients k).turn p := by simp [Network.step]
  have hshown : (n.step (.poll k p)).shown k = n.shown k ++ (n.clients k).received p := by
    simp [Network.step]
  refine ⟨hconversing, ?_, h.closed, fun hgone => ?_⟩
  · rw [hclient]
    rcases h.phase with htyping | hended
    · rcases hsmooth rfl with hcalm | hfin
      · exact (htyping.turn (Or.inr hcalm)).symm.imp_left And.left
      · exact Or.inr ((h.ended (hm.2 hfin).1).turn p)
    · exact Or.inr (hended.turn p)
  · rw [hclient] at hgone
    rw [hshown]
    cases hrunning : (n.clients k).running with
    | false =>
      rw [Client.received_gone hrunning, append_nil]
      exact h.left hrunning
    | true =>
      rcases hsmooth rfl with hcalm | hfin
      · rw [Client.turn_running h.phase hrunning hcalm] at hgone
        cases hgone
      · rw [Client.received_fin hfin, append_nil]
        exact hm.2 hfin

/-- The event that ends the session has brought the rest of the client's stream. -/
theorem Finishing.heard (h : Finishing u k n) (hargs : ∀ a ∈ u.args, 10 ∉ a) {e : Event}
    (hm : n.Carries (.serve e)) (hsmooth : Smooth k n (.serve e))
    (hdeparted : (n.server.dispatch e).Departed k) :
    n.heard k ++ n.server.brought k e = terminated 10 u.lines := by
  obtain ⟨hwell, hquiet⟩ := hsmooth
  obtain ⟨hcarried, -, hspeaks, -⟩ := h.conversing
  have hs' := hcarried.reachable.reaches (dispatch_reaches n.server e)
  rw [hs'.departed_iff] at hdeparted
  by_cases hclosed : .closed k ∈ n.server.history
  · have hbefore := hcarried.reachable.departed_iff.mpr hclosed
    have hnothing : n.server.brought k e = [] := by
      rw [brought_eq, if_neg]
      rw [reading_eq_some, not_and, Option.map_eq_some_iff]
      rintro - ⟨⟨_, b⟩, hb, rfl⟩
      have hopen := connected_of_input hb
      rw [hbefore.2] at hopen
      cases hopen
    rw [hnothing, append_nil]
    exact h.closed hbefore
  · obtain ⟨c, hc, hconn, hcause⟩ := closed_cause hcarried.reachable hcarried.drained hwell hclosed
      hdeparted
    have hinput : (n.server.input e.event.ident).map Prod.fst = some k := by
      rw [input_eq hc, Option.map_some, hconn]
    obtain ⟨hnoError, hread⟩ := hquiet hinput
    obtain ⟨hreads, hends⟩ := hcause.resolve_left (by simp [hnoError])
    obtain ⟨hintact, heof⟩ := hread hreads.2.2
    have hreading : n.server.reading e = some k := reading_eq_some.mpr ⟨hreads, hinput⟩
    obtain ⟨hbegins, hfin⟩ := hm k hreading
    rw [brought_eq, if_pos hreading]
    rcases hends with ⟨line, hline, hword⟩ | hended | hflag
    · refine eq_sent_of_quit u.program hargs (hbegins.trans hspeaks.sent) ⟨line, ?_, hword⟩
      obtain ⟨hleft, -⟩ := hcarried.heard.left e.event.ident c.inbuf (hconn ▸ input_eq hc)
      rw [LineBuffer.lines_eq_framed, LineBuffer.feed, hleft] at hline
      have hall := framedLines_append (LineBuffer.mk (n.heard k)) (streamOf e.recvs).1
      rw [hall]
      exact mem_append_right _ hline
    · have hend : recvEnd e.recvs = .fin := by
        cases hr : recvEnd e.recvs with
        | drained => exact absurd hr hended
        | fin => rfl
        | broken => exact absurd hr hintact
      obtain ⟨hfinished, hwhole⟩ := hfin hend
      rw [hwhole, h.sent hfinished]
    · obtain ⟨hfinished, hwhole⟩ := heof hflag
      rw [hwhole, h.sent hfinished]

/-- A move that is smooth for the connection keeps the invariant. -/
theorem Finishing.step (h : Finishing u k n) (hargs : ∀ a ∈ u.args, 10 ∉ a) (hm : n.Carries m)
    (hsmooth : Smooth k n m) : Finishing u k (n.step m) := by
  cases m with
  | serve e =>
    have hs : Consistent n.server := consistent_of_view h.conversing.carried.reachable.consistent
    refine ⟨h.conversing.step hm hsmooth.wellSent, h.phase, h.heard hargs hm hsmooth,
      fun hgone => ?_⟩
    obtain ⟨hdeparted, hshown⟩ := h.left hgone
    have hpast := hdeparted.dispatch hs e
    exact ⟨hpast.departed, hshown.trans hpast.wire.symm⟩
  | poll j p =>
    by_cases hk : k = j
    · subst hk
      exact h.poll hm hsmooth
    · have hother : (n.step (.poll j p)).clients k = n.clients k := by simp [Network.step, hk]
      have hshown : (n.step (.poll j p)).shown k = n.shown k := by simp [Network.step, hk]
      refine ⟨h.conversing.step hm trivial, ?_, h.closed, ?_⟩
      · rw [hother]
        exact h.phase
      · rw [hother, hshown]
        exact h.left

/-- At the start nobody has connected. -/
theorem finishing_start (kq listenFd : Int) (sends : List SendResult) {users : Nat → User}
    (hstdin : ∀ r ∈ (users k).stdin, r.Works) (hsends : ∀ r ∈ (users k).sends, r.Proceeds) :
    Finishing (users k) k (start kq listenFd sends users) := by
  have hnonzero : ∀ r ∈ (users k).sends, r.Nonzero := by
    intro r hr
    have hproceeds := hsends r hr
    cases r with
    | zero => exact hproceeds.elim
    | _ => trivial
  have htyping : ((start kq listenFd sends users).clients k).Typing
      (terminated 10 (users k).lines) := Client.start_typing _ _ hstdin hsends
  refine ⟨conversing_start kq listenFd sends hnonzero, Or.inl htyping, fun hdeparted => ?_,
    fun hgone => ?_⟩
  · exact absurd hdeparted.1 (Nat.not_lt_zero k)
  · rw [htyping.running] at hgone
    cases hgone

/-- Behind a session the server has acted on every line of the user. -/
theorem Finishing.acted (h : Finishing u k n) (hargs : ∀ a ∈ u.args, 10 ∉ a)
    (hdeparted : n.server.Departed k) :
    linesFrom k n.server.history = u.lines.map stripCr := by
  have hheard := h.conversing.carried.heard
  rw [h.closed hdeparted] at hheard
  exact (hheard.sent u.program hargs).1

/-- A client that has left has printed every complete line it was sent. -/
theorem Finishing.printed (h : Finishing u k n) (hgone : (n.clients k).running = false) :
    (n.clients k).printed = framedLines (n.server.kernel.wire k) := by
  rw [← (h.left hgone).2, ← LineBuffer.lines_eq_framed (LineBuffer.mk (n.shown k))]
  exact congrArg Prod.fst h.conversing.screen

/-- In every run of the whole system in which nothing fails on a connection and each EV_EOF flag of
its descriptor is its own, whatever the other clients do, and if the client is started with no line
end in its arguments: once the server has closed its session, the client has ended its own and the
server has acted on every line of it; and once the client has left its loop, the server has closed
the session, and the client has printed every complete line that the kernel has accepted for it. If
that is all that was enqueued to the connection, then every command of its user has been answered,
in order. -/
theorem run_completion (kq listenFd : Int) (sends : List SendResult) (users : Nat → User)
    (moves : List Move) (k : Nat) (hargs : ∀ a ∈ (users k).args, 10 ∉ a)
    (hstdin : ∀ r ∈ (users k).stdin, r.Works) (hsends : ∀ r ∈ (users k).sends, r.Proceeds)
    (hmoves : Admissible (fun n m => n.Carries m ∧ Smooth k n m) step
      (start kq listenFd sends users) moves) :
    let n := run step (start kq listenFd sends users) moves
    (n.server.Departed k → (n.clients k).shut = true ∧
        linesFrom k n.server.history = (users k).lines.map stripCr) ∧
      ((n.clients k).running = false → n.server.Departed k ∧
        (n.clients k).printed = framedLines (n.server.kernel.wire k) ∧
        (n.server.kernel.wire k = stream k n.server.history →
          (n.clients k).printed = linesTo k n.server.history ∧
            Forall₂ Answers (users k).commands (n.clients k).replies)) := by
  intro n
  have h : Finishing (users k) k n := admissible_invariant
    (P := fun n => Finishing (users k) k n) (fun _ _ h hm => h.step hargs hm.1 hm.2)
    (finishing_start kq listenFd sends hstdin hsends) hmoves
  have hreachable := h.conversing.carried.reachable
  have hacted : n.server.Departed k →
      linesFrom k n.server.history = (users k).lines.map stripCr := h.acted hargs
  refine ⟨fun hdeparted => ⟨(h.ended hdeparted).shut, hacted hdeparted⟩, fun hgone => ?_⟩
  obtain ⟨hdeparted, -⟩ := h.left hgone
  have hprinted : (n.clients k).printed = framedLines (n.server.kernel.wire k) := h.printed hgone
  refine ⟨hdeparted, hprinted, fun hwhole => ?_⟩
  have hlines : (n.clients k).printed = linesTo k n.server.history := by
    rw [hprinted, hwhole]
    exact framedLines_stream fun line hmem => hreachable.plain k line (mem_linesTo.mp hmem)
  refine ⟨hlines, ?_⟩
  have haligned : Forall₂ Answers (requests k n.server.history)
      (directLines k n.server.history) := hreachable.aligned k
  rwa [requests_eq, hacted hdeparted, directLines_eq, ← hlines, ← Client.replies_eq] at haligned

/-- A client subscribes and has nothing to type; the server reads the QUIT before the client reads
the reply, which the end of the stream follows. -/
theorem run_completion_subscriber :
    let users : Nat → User := fun _ => ⟨.marketDataClient, [text "JNST"], [], [.sent 4, .eintr]⟩
    let moves : List Move :=
      [.serve { event := ⟨4, .read, false, false⟩, accepts := [.accepted 5, .again] },
        .poll 0 (.ready true none),
        .serve { event := ⟨5, .read, true, false⟩
                 recvs := [.data ⟨text "SUBSCRIBE JNST\nQUIT\n", by decide, by decide⟩, .fin] },
        .poll 0 (.ready false (some (.data ⟨text "OK\n", by decide, by decide⟩))),
        .poll 0 (.ready false (some .fin))]
    let n := run step (start 3 4 [.sent 99] users) moves
    (n.clients 0).running = false ∧ (n.clients 0).printed = [text "OK"] ∧
      linesFrom 0 n.server.history = [text "SUBSCRIBE JNST", text "QUIT"] ∧
      Forall₂ Answers (users 0).commands (n.clients 0).replies := by
  intro users moves n
  obtain ⟨hacted, hleft⟩ := run_completion 3 4 [.sent 99] users moves 0 (by decide) (by decide)
    (by decide) (by decide)
  have hgone : (n.clients 0).running = false := by decide
  obtain ⟨hdeparted, hprinted, hwhole⟩ := hleft hgone
  obtain ⟨-, hanswered⟩ := hwhole (by decide)
  refine ⟨hgone, hprinted.trans (by decide), (hacted hdeparted).2.trans (by decide), hanswered⟩

end Network

end SocketExchange
