import SocketExchange.System.Completion

/-!
# Every conversation can be finished

Nobody waits for ever: wherever a run stands, the client of an accepted connection and the server
can finish their conversation by themselves. The client reads its input to the end, the server
reads what it has been sent, and the client reads what is left of its replies.
-/

namespace SocketExchange

open Containers ClientSession Runs Segments Server List

/-! ## Sessions and the listening socket -/

namespace Server

variable {s s' : Server}

/-- No session has the descriptor of the listening socket. -/
def Apart (s : Server) : Prop := ∀ fd c, s.sessions.lookup fd = some c → fd ≠ s.listenFd

/-- Sessions that were there before, and the same listening socket. -/
theorem Apart.subset (h : Apart s) (hlisten : s'.listenFd = s.listenFd)
    (hsub : ∀ fd c', s'.view.sessions.lookup fd = some c' →
      ∃ c, s.view.sessions.lookup fd = some c) : Apart s' := by
  intro fd c' hc'
  obtain ⟨c, hc⟩ := hsub fd _ (lookup_view_of hc')
  rw [lookup_view, Option.map_eq_some_iff] at hc
  obtain ⟨c₀, hc₀, -⟩ := hc
  rw [hlisten]
  exact h fd c₀ hc₀

/-- Forgetting a session keeps the sessions apart from the listening descriptor. -/
theorem Apart.forget {fd : Int} (h : Apart s) (hs' : s'.view = s.view.forget fd) : Apart s' := by
  refine h.subset ?_ fun fd' c' hc' => ?_
  · have hlisten := congrArg listenFd hs'
    rw [listenFd_forget] at hlisten
    exact hlisten
  · rw [hs'] at hc'
    exact ⟨c', lookup_of_forget hc'⟩

/-- No session of a reachable server has the listening descriptor. -/
theorem Reachable.apart (h : Reachable s) : Apart s := by
  refine h.call_invariant (P := Apart) (fun kq listenFd sends fd c hc => ?_) ?_ ?_
  · cases hc
  · intro s s' hs hapart hcall
    cases hcall with
    | logged => exact hapart
    | booked => exact hapart
    | @changed fd f hf =>
      intro fd' c' hc'
      obtain ⟨c, hc, -⟩ := (keeps_update s fd f fun c => (hf c).continues).sessions fd' c' hc'
      exact hapart fd' c hc
    | @enqueued fd c line hc =>
      have hview := s.view_enqueue fd line
      have hlisten := congrArg listenFd hview
      refine hapart.subset hlisten fun fd' c' hc' => ⟨c', ?_⟩
      rw [hview] at hc'
      exact hc'
    | @closed fd c hc => exact hapart.forget (s.view_closeSession fd)
    | @opened cfd hfree =>
      intro fd c hc
      by_cases hfd : fd = cfd
      · rw [hfd]
        exact hfree.2.1
      · rw [openSession, kqAdd, AList.lookup_insert_ne hfd] at hc
        exact hapart fd c hc
    | rehashed sessionOrder bookOrder =>
      intro fd c hc
      rw [lookup_rehash] at hc
      exact hapart fd c hc
  · intro s fd c hs hc hapart
    rcases s.view_onWritable fd with hsame | ⟨c₀, -, hclosed⟩
    · have hlisten := congrArg listenFd hsame
      refine hapart.subset hlisten fun fd' c' hc' => ⟨c', ?_⟩
      rw [hsame] at hc'
      exact hc'
    · have hlogged : Apart (s.log [.sendFailed c₀.conn]) := hapart
      exact hlogged.forget hclosed

end Server

/-! ## Cutting a stream -/

/-- One byte at a time. -/
def Chunk.single (b : UInt8) : Chunk := ⟨[b], by simp, by simp⟩

/-- A stream as the results of one drain. -/
def bytewise (bytes : Bytes) : List RecvResult :=
  bytes.map (fun b => .data (.single b)) ++ [.again]

private theorem streamOf_bytewise (bytes : Bytes) :
    streamOf (bytewise bytes) = (bytes, false) ∧ recvEnd (bytewise bytes) = .drained := by
  induction bytes with
  | nil => exact ⟨rfl, rfl⟩
  | cons b bytes ih =>
    obtain ⟨hstream, hend⟩ := ih
    have hcons : bytewise (b :: bytes) = .data (.single b) :: bytewise bytes := rfl
    rw [hcons, streamOf, recvEnd, hstream]
    exact ⟨rfl, hend⟩

/-- If the results left to the sends are no failures, then no event fails on a connection. -/
theorem Server.Reachable.eventSendsWell {s : Server} (hs : Reachable s)
    (hsoft : ∀ r ∈ s.kernel.sends, r.soft = true) (k : Nat) (e : Event) :
    EventSendsWell k s e := by
  have hfull := hs.wakeful.full (consistent_of_view hs.consistent)
  obtain ⟨used, hused, hwell⟩ := hfull.run_used (s.eventOutputs e)
  have hscript : s.channels.sends = s.kernel.sends := rfl
  rw [hscript] at hused
  exact hwell (fun r hr => hsoft r (hused ▸ mem_append_left _ hr)) k

namespace Network

variable {n : Network} {k : Nat} {u : User}

/-- What a continuation of a run may do: the server is woken up by events that the kernel has to
report, nothing fails on any connection, and none is accepted. -/
structure Continues (n n' : Network) (moves : List Move) : Prop where
  admissible : Admissible (fun n m => n.Carries m ∧ n.Raised m ∧ ∀ j, Smooth j n m) step n moves
  result : run step n moves = n'
  accepted : n'.server.accepted = n.server.accepted

/-- Only this client and the server move. -/
structure Alone (k : Nat) (n n' : Network) (moves : List Move) : Prop
    extends Continues n n' moves where
  others : ∀ j, j ≠ k → n'.clients j = n.clients j

/-- Making no move is a continuation. -/
theorem Continues.refl (n : Network) : Continues n n [] := ⟨trivial, rfl, rfl⟩

/-- Continuations follow on each other. -/
theorem Continues.trans {n' n'' : Network} {moves moves' : List Move}
    (h : Continues n n' moves) (h' : Continues n' n'' moves') :
    Continues n n'' (moves ++ moves') := by
  refine ⟨?_, ?_, h'.accepted.trans h.accepted⟩
  · rw [admissible_append, h.result]
    exact ⟨h.admissible, h'.admissible⟩
  · rw [run_append, h.result, h'.result]

/-- Making no move leaves the others alone. -/
theorem Alone.refl (k : Nat) (n : Network) : Alone k n n [] := ⟨.refl n, fun _ _ => rfl⟩

/-- Continuations of one connection follow on each other. -/
theorem Alone.trans {n' n'' : Network} {moves moves' : List Move}
    (h : Alone k n n' moves) (h' : Alone k n' n'' moves') : Alone k n n'' (moves ++ moves') :=
  ⟨h.toContinues.trans h'.toContinues, fun j hj => (h'.others j hj).trans (h.others j hj)⟩

private theorem alone_poll {p : Client.Poll} (hm : n.Carries (.poll k p))
    (hp : p.Calm ∨ p.fin = true) :
    Alone k n (n.step (.poll k p)) [.poll k p] :=
  ⟨⟨⟨⟨hm, trivial, fun _ _ => hp⟩, trivial⟩, rfl, rfl⟩, fun j hj => by simp [step, hj]⟩

private theorem Continues.smooth {n' : Network} {moves : List Move} (h : Continues n n' moves)
    (k : Nat) :
    Admissible (fun n m => n.Carries m ∧ Smooth k n m) step n moves :=
  admissible_mono (fun _ _ hm => ⟨hm.1, hm.2.2 k⟩) h.admissible

/-- A client that has left its loop stays away. -/
theorem Continues.gone {n' : Network} {moves : List Move} (h : Continues n n' moves)
    (hgone : (n.clients k).running = false) : (n'.clients k).running = false := by
  rw [← h.result]
  refine run_invariant (P := fun n : Network => (n.clients k).running = false)
    (fun n m hgone => ?_) hgone moves
  rcases client_step n m k with ⟨hsame, -⟩ | ⟨p, -, hturn, -⟩
  · rw [hsame, hgone]
  · rw [hturn, Client.turn_gone hgone, hgone]

/-- Results that are no failures are left behind as such. -/
theorem Continues.soft {n' : Network} {moves : List Move} (h : Continues n n' moves)
    (hs : Reachable n.server) (hsoft : ∀ r ∈ n.server.kernel.sends, r.soft = true) :
    ∀ r ∈ n'.server.kernel.sends, r.soft = true := by
  have hreaches : Reaches n.server n'.server := h.result ▸ run_reaches n moves
  obtain ⟨actions, hactions⟩ := hreaches
  obtain ⟨used, hused, -⟩ := hs.run_used actions
  rw [hactions] at hused
  intro r hr
  refine hsoft r ?_
  rw [hused]
  exact mem_append_right _ hr

/-- A continuation keeps the invariant of a client that is to finish. -/
theorem Finishing.continues {n' : Network} {moves : List Move} (h : Finishing u k n)
    (hargs : ∀ a ∈ u.args, 10 ∉ a) (hc : Continues n n' moves) : Finishing u k n' := by
  rw [← hc.result]
  exact admissible_invariant (P := fun n => Finishing u k n)
    (fun _ _ h hm => h.step hargs hm.1 hm.2) h (hc.smooth k)

/-! ## The three steps -/

/-- The client reads its input to the end. -/
theorem Finishing.type_out (h : Finishing u k n) (hargs : ∀ a ∈ u.args, 10 ∉ a) :
    ∃ n' moves, Alone k n n' moves ∧ n'.server = n.server ∧
      (n'.clients k).Ended (terminated 10 u.lines) := by
  induction hlength : (n.clients k).stdin.length using Nat.strong_induction_on generalizing n with
  | h length ih =>
    rcases h.phase with htyping | hended
    · let p : Client.Poll := .ready true none
      have hcarries : n.Carries (.poll k p) := by
        refine ⟨?_, fun hfin => by cases hfin⟩
        have hnothing : (n.clients k).received p = [] := rfl
        rw [hnothing, append_nil]
        exact h.conversing.carried.down
      have hstep := alone_poll hcarries (Or.inl trivial)
      have hclient : (n.step (.poll k p)).clients k = (n.clients k).turn p := by
        simp [Network.step]
      rcases htyping.turn (p := p) (Or.inr trivial) with hended | ⟨-, hread⟩
      · exact ⟨_, _, hstep, rfl, hclient ▸ hended⟩
      · have hshorter : ((n.step (.poll k p)).clients k).stdin.length < length := by
          have hone : p.reads = 1 := rfl
          rw [hclient]
          omega
        obtain ⟨n', moves, hrest, hserver, hended⟩ :=
          ih _ hshorter (h.continues hargs hstep.toContinues) rfl
        exact ⟨n', _, hstep.trans hrest, hserver, hended⟩
    · exact ⟨n, [], .refl k n, rfl, hended⟩

/-- The server reads what the client has sent, and closes the session. -/
theorem Finishing.hear_out (h : Finishing u k n) (hargs : ∀ a ∈ u.args, 10 ∉ a)
    (hended : (n.clients k).Ended (terminated 10 u.lines)) (haccepted : k < n.server.accepted)
    (hsoft : ∀ r ∈ n.server.kernel.sends, r.soft = true) :
    ∃ n' moves, Alone k n n' moves ∧ n'.server.Departed k := by
  by_cases hdeparted : n.server.Departed k
  · exact ⟨n, [], .refl k n, hdeparted⟩
  · have hreachable := h.conversing.carried.reachable
    have hopen : n.server.connected k = true := by
      by_contra hgone
      exact hdeparted ⟨haccepted, Bool.eq_false_iff.mpr hgone⟩
    obtain ⟨fd, c, hc, hconn⟩ := connected_iff.mp hopen
    obtain ⟨rest, hrest⟩ := h.conversing.carried.up
    obtain ⟨hstream, hend⟩ := streamOf_bytewise rest
    let e : Event := { event := ⟨fd, .read, false, false⟩, recvs := bytewise rest }
    have hreads : n.server.Reads e := ⟨rfl, hreachable.apart fd c hc, rfl⟩
    have hinput : (n.server.input e.event.ident).map Prod.fst = some k := by
      rw [input_eq hc, Option.map_some, hconn]
    have hbytes : (streamOf e.recvs).1 = rest := congrArg Prod.fst hstream
    have hends : recvEnd e.recvs = .drained := hend
    have hcarries : n.Carries (.serve e) := by
      intro j hj
      obtain ⟨-, hj⟩ := reading_eq_some.mp hj
      obtain rfl := Option.some.inj (hinput.symm.trans hj)
      rw [hbytes, hrest, hends]
      exact ⟨prefix_rfl, fun hfin => by cases hfin⟩
    have hsmooth : ∀ j, Smooth j n (.serve e) := by
      refine fun j => ⟨hreachable.eventSendsWell hsoft j e,
        fun _ => ⟨rfl, fun _ => ⟨?_, fun heof => ?_⟩⟩⟩
      · rw [hends]
        decide
      · cases heof
    have hraised : n.Raised (.serve e) := by
      refine ⟨((attendedAt_some hc).mp (hreachable.wakeful fd)).read, rfl, fun j hj => ?_⟩
      obtain ⟨-, hj⟩ := reading_eq_some.mp hj
      obtain rfl := Option.some.inj (hinput.symm.trans hj)
      exact Or.inr (Or.inl hended.shut)
    have hstep : Alone k n (n.step (.serve e)) [.serve e] :=
      ⟨⟨⟨⟨hcarries, hraised, hsmooth⟩, trivial⟩, rfl, hreads.accepted⟩, fun _ _ => rfl⟩
    refine ⟨_, _, hstep, ?_⟩
    have hheard := (h.continues hargs hstep.toContinues).conversing.carried.heard
    have hall : (n.step (.serve e)).heard k = terminated 10 (sentLines u.program u.args
        (typed u.stdin)) := by
      have hbrought : n.server.brought k e = rest := by
        rw [brought_eq, if_pos (reading_eq_some.mpr ⟨hreads, hinput⟩), hbytes]
      exact (congrArg (n.heard k ++ ·) hbrought).trans (hrest.trans hended.whole)
    rw [hall] at hheard
    refine ⟨?_, (hheard.sent u.program hargs).2⟩
    exact haccepted.trans_le (dispatch_reaches n.server e).accepted_le

/-- The client reads what is left of the server's stream and its end. -/
theorem Finishing.read_out (h : Finishing u k n) (hargs : ∀ a ∈ u.args, 10 ∉ a)
    (hdeparted : n.server.Departed k) :
    ∃ n' moves, Alone k n n' moves ∧ (n'.clients k).running = false := by
  obtain ⟨rest, hrest⟩ := h.conversing.carried.down
  induction rest generalizing n with
  | nil =>
    let p : Client.Poll := .ready false (some .fin)
    have hnothing : (n.clients k).received p = [] := Client.received_fin rfl
    have hcarries : n.Carries (.poll k p) := by
      rw [append_nil] at hrest
      refine ⟨?_, fun _ => ⟨hdeparted, hrest⟩⟩
      rw [hnothing, append_nil, hrest]
    refine ⟨_, _, alone_poll hcarries (Or.inr rfl), ?_⟩
    simp only [Network.step, Function.update_self]
    cases hrunning : (n.clients k).running with
    | false => rw [Client.turn_gone hrunning, hrunning]
    | true => simp [Client.turn, Client.stdinPart, Client.serverPart, Client.onServer, hrunning, p]
  | cons b rest ih =>
    cases hrunning : (n.clients k).running with
    | false => exact ⟨n, [], .refl k n, hrunning⟩
    | true =>
      let p : Client.Poll := .ready false (some (.data (.single b)))
      have hbyte : (n.clients k).received p = [b] := by
        simp [Client.received, Client.stdinPart, hrunning, p, RecvResult.bytes, Chunk.single]
      have hsplit : n.shown k ++ [b] ++ rest = n.server.kernel.wire k := by simpa using hrest
      have hcarries : n.Carries (.poll k p) := by
        refine ⟨?_, fun hfin => by cases hfin⟩
        rw [hbyte]
        exact ⟨rest, hsplit⟩
      have hstep := alone_poll hcarries (Or.inl trivial)
      obtain ⟨n', moves, hmore, hgone⟩ := ih (h.continues hargs hstep.toContinues) hdeparted (by
        simpa [Network.step, hbyte] using hsplit)
      exact ⟨n', _, hstep.trans hmore, hgone⟩

/-- The client and the server finish their conversation by themselves. -/
theorem Finishing.finish (h : Finishing u k n) (hargs : ∀ a ∈ u.args, 10 ∉ a)
    (haccepted : k < n.server.accepted) (hsoft : ∀ r ∈ n.server.kernel.sends, r.soft = true) :
    ∃ n' moves, Alone k n n' moves ∧ (n'.clients k).running = false := by
  obtain ⟨n₁, typing, htyping, hserver, hended⟩ := h.type_out hargs
  have h₁ := h.continues hargs htyping.toContinues
  rw [← hserver] at haccepted hsoft
  obtain ⟨n₂, hearing, hheard, hdeparted⟩ := h₁.hear_out hargs hended haccepted hsoft
  have h₂ := h₁.continues hargs hheard.toContinues
  obtain ⟨n', reading, hread, hgone⟩ := h₂.read_out hargs hdeparted
  exact ⟨n', _, (htyping.trans hheard).trans hread, hgone⟩

/-- In every run of the whole system in which nothing has failed on an accepted connection and each
EV_EOF flag of its descriptor was its own, and wherever the run stands: if the results left to the
server's sends are no failures either, the run can go on, without a move of any other client and
without a failure, by events that the kernel has to report, until the client has left its loop. The
server has then closed the session and acted on every line of the client, and the client has
printed every complete line that the kernel has accepted for it. -/
theorem run_can_complete (kq listenFd : Int) (sends : List SendResult) (users : Nat → User)
    (moves : List Move) (k : Nat) (hargs : ∀ a ∈ (users k).args, 10 ∉ a)
    (hstdin : ∀ r ∈ (users k).stdin, r.Works) (hsends : ∀ r ∈ (users k).sends, r.Proceeds)
    (hmoves : Admissible (fun n m => n.Carries m ∧ Smooth k n m) step
      (start kq listenFd sends users) moves)
    (haccepted : k < (run step (start kq listenFd sends users) moves).server.accepted)
    (hsoft : ∀ r ∈ (run step (start kq listenFd sends users) moves).server.kernel.sends,
      r.soft = true) :
    ∃ more, Admissible (fun n m => n.Carries m ∧ Smooth k n m) step
        (start kq listenFd sends users) (moves ++ more) ∧
      let n := run step (start kq listenFd sends users) moves
      let n' := run step (start kq listenFd sends users) (moves ++ more)
      Admissible (fun n m => n.Raised m ∧ ∀ j, Smooth j n m) step n more ∧
        (∀ j, j ≠ k → n'.clients j = n.clients j) ∧
        (n'.clients k).running = false ∧ n'.server.Departed k ∧
        linesFrom k n'.server.history = (users k).lines.map stripCr ∧
        (n'.clients k).printed = framedLines (n'.server.kernel.wire k) := by
  have h : Finishing (users k) k (run step (start kq listenFd sends users) moves) :=
    admissible_invariant (P := fun n => Finishing (users k) k n)
      (fun _ _ h hm => h.step hargs hm.1 hm.2) (finishing_start kq listenFd sends hstdin hsends)
      hmoves
  obtain ⟨n', more, hmore, hgone⟩ := h.finish hargs haccepted hsoft
  have h' := h.continues hargs hmore.toContinues
  refine ⟨more, admissible_append.mpr ⟨hmoves, hmore.smooth k⟩, ?_⟩
  simp only [run_append, hmore.result]
  have hdeparted := (h'.left hgone).1
  have hraised : Admissible (fun n m => n.Raised m ∧ ∀ j, Smooth j n m) step
      (run step (start kq listenFd sends users) moves) more :=
    admissible_mono (fun _ _ hm => hm.2) hmore.admissible
  exact ⟨hraised, hmore.others, hgone, hdeparted, h'.acted hargs hdeparted, h'.printed hgone⟩

/-- The client has typed half a line and the server has been told of the connection only. -/
theorem run_can_complete_half_line :
    let users : Nat → User := fun _ =>
      ⟨.traderClient, [], [.data ⟨text "BUY JN", by decide, by decide⟩,
        .data ⟨text "ST 5 10\n", by decide, by decide⟩], [.eintr, .sent 3]⟩
    let moves : List Move :=
      [.poll 0 (.ready true none),
        .serve { event := ⟨4, .read, false, false⟩, accepts := [.accepted 5, .again] }]
    ∃ more, let n := run step (start 3 4 [.sent 2] users) (moves ++ more)
      (n.clients 0).running = false ∧
        linesFrom 0 n.server.history = [text "BUY JNST 5 10", text "QUIT"] := by
  intro users moves
  obtain ⟨more, -, -, -, hgone, -, hacted, -⟩ := run_can_complete 3 4 [.sent 2] users moves 0
    (by decide) (by decide) (by decide) (by decide) (by decide) (by decide)
  exact ⟨more, hgone, hacted.trans (by decide)⟩

end Network

end SocketExchange
