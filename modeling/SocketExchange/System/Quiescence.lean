import SocketExchange.System.Progress

/-!
# The whole system can come to rest

No client stands in the way of another: wherever a run stands in which nothing has failed, all
conversations can be finished one after the other, and then the server is left with its listening
socket alone.
-/

namespace SocketExchange

open Containers Runs Segments Server List

/-- Nothing fails at the user's end. -/
def User.Steady (u : User) : Prop :=
  (∀ a ∈ u.args, 10 ∉ a) ∧ (∀ r ∈ u.stdin, r.Works) ∧ ∀ r ∈ u.sends, r.Proceeds

instance (u : User) : Decidable u.Steady := inferInstanceAs (Decidable (_ ∧ _ ∧ _))

/-- A server whose clients have all departed has no session. -/
theorem Server.Reachable.deserted {s : Server} (hs : Reachable s)
    (hgone : ∀ k < s.accepted, s.Departed k) (fd : Int) : s.sessions.lookup fd = none := by
  cases hc : s.sessions.lookup fd with
  | none => rfl
  | some c =>
    have hnumber : c.conn < s.accepted :=
      (consistent_of_view hs.consistent).numbered fd c hc
    exact absurd rfl ((hgone c.conn hnumber).conn_ne hc)

/-- Without sessions only the listening socket is watched. -/
theorem Server.Reachable.unwatched {s : Server} (hs : Reachable s)
    (hnone : ∀ fd, s.sessions.lookup fd = none) {fd : Int} {filter : Filter}
    (hmem : (fd, filter) ∈ s.kernel.registered) : fd = s.listenFd := by
  by_contra hne
  exact (attendedAt_none (hnone fd)).mp (hs.wakeful fd) hne filter hmem

namespace Network

variable {n : Network} {users : Nat → User}

/-- A continuation from a reachable server ends in a reachable one. -/
theorem Continues.reachable {n' : Network} {moves : List Move} (h : Continues n n' moves)
    (hs : Reachable n.server) : Reachable n'.server :=
  hs.reaches (h.result ▸ run_reaches n moves)

/-- The conversations of a list of connections, one after the other. -/
theorem finish_all (hs : Reachable n.server) (hsoft : ∀ r ∈ n.server.kernel.sends, r.soft = true)
    (ks : List Nat) (h : ∀ k ∈ ks, Finishing (users k) k n)
    (hargs : ∀ k ∈ ks, ∀ a ∈ (users k).args, 10 ∉ a) (haccepted : ∀ k ∈ ks, k < n.server.accepted) :
    ∃ n' moves, Continues n n' moves ∧
      ∀ k ∈ ks, Finishing (users k) k n' ∧ (n'.clients k).running = false := by
  induction ks generalizing n with
  | nil => exact ⟨n, [], .refl n, by simp⟩
  | cons k ks ih =>
    obtain ⟨hk, hks⟩ := forall_mem_cons.mp h
    obtain ⟨hkargs, hksargs⟩ := forall_mem_cons.mp hargs
    obtain ⟨hlt, hlts⟩ := forall_mem_cons.mp haccepted
    obtain ⟨n₁, first, hfirst, hgone⟩ := hk.finish hkargs hlt hsoft
    have hgoes := hfirst.toContinues
    obtain ⟨n', rest, hrest, hothers⟩ := ih (hgoes.reachable hs) (hgoes.soft hs hsoft)
      (fun j hj => (hks j hj).continues (hksargs j hj) hgoes) hksargs
      (fun j hj => hgoes.accepted ▸ hlts j hj)
    refine ⟨n', first ++ rest, hgoes.trans hrest, forall_mem_cons.mpr ⟨⟨?_, ?_⟩, hothers⟩⟩
    · exact (hk.continues hkargs hgoes).continues hkargs hrest
    · exact hrest.gone hgone

/-- In every run of the whole system in which nothing has failed on the accepted connections and
each EV_EOF flag of a descriptor was that of its connection, and wherever the run stands: if the
results left to the server's sends are no failures either, the run can go on, without a failure on
any connection and without a new one, by events that the kernel has to report, until the server has
no session and watches its listening socket only. Every client accepted has then left its loop and
has printed every complete line that the kernel has accepted for it, and the server has acted on
every line of every client. -/
theorem run_can_wind_down (kq listenFd : Int) (sends : List SendResult) (users : Nat → User)
    (moves : List Move)
    (husers : ∀ k < (run step (start kq listenFd sends users) moves).server.accepted,
      (users k).Steady)
    (hmoves : Admissible (fun n m => n.Carries m) step (start kq listenFd sends users) moves)
    (hsmooth : ∀ k < (run step (start kq listenFd sends users) moves).server.accepted,
      Admissible (Smooth k) step (start kq listenFd sends users) moves)
    (hsoft : ∀ r ∈ (run step (start kq listenFd sends users) moves).server.kernel.sends,
      r.soft = true) :
    ∃ more, Admissible (fun n m => n.Carries m) step (start kq listenFd sends users)
        (moves ++ more) ∧
      let n := run step (start kq listenFd sends users) moves
      let n' := run step (start kq listenFd sends users) (moves ++ more)
      Admissible (fun n m => n.Carries m ∧ n.Raised m ∧ ∀ k, Smooth k n m) step n more ∧
        n'.server.accepted = n.server.accepted ∧
        (∀ fd, n'.server.sessions.lookup fd = none) ∧
        (∀ fd filter, (fd, filter) ∈ n'.server.kernel.registered → fd = n'.server.listenFd) ∧
        ∀ k < n.server.accepted, (n'.clients k).running = false ∧
          linesFrom k n'.server.history = (users k).lines.map stripCr ∧
          (n'.clients k).printed = framedLines (n'.server.kernel.wire k) := by
  have hreachable : Reachable (run step (start kq listenFd sends users) moves).server :=
    (Reachable.start kq listenFd sends).reaches
      (run_reaches (start kq listenFd sends users) moves)
  have h : ∀ k < (run step (start kq listenFd sends users) moves).server.accepted,
      Finishing (users k) k (run step (start kq listenFd sends users) moves) := fun k hk => by
    obtain ⟨hargs, hstdin, hproceed⟩ := husers k hk
    exact admissible_invariant (P := fun n => Finishing (users k) k n)
      (fun _ _ h hm => h.step hargs hm.1 hm.2)
      (finishing_start kq listenFd sends hstdin hproceed)
      (admissible_guards.mpr ⟨hmoves, hsmooth k hk⟩)
  obtain ⟨n', more, hmore, hall⟩ := finish_all hreachable hsoft
    (range (run step (start kq listenFd sends users) moves).server.accepted)
    (fun k hk => h k (mem_range.mp hk)) (fun k hk => (husers k (mem_range.mp hk)).1)
    (fun k hk => mem_range.mp hk)
  refine ⟨more, admissible_append.mpr ⟨hmoves, admissible_mono (fun _ _ hm => hm.1)
    hmore.admissible⟩, ?_⟩
  simp only [run_append, hmore.result]
  have hreachable' := hmore.reachable hreachable
  have hdeparted : ∀ k < n'.server.accepted, n'.server.Departed k := fun k hk => by
    rw [hmore.accepted] at hk
    obtain ⟨hfinishing, hgone⟩ := hall k (mem_range.mpr hk)
    exact (hfinishing.left hgone).1
  have hnone := hreachable'.deserted hdeparted
  refine ⟨hmore.admissible, hmore.accepted, hnone,
    fun fd filter hmem => hreachable'.unwatched hnone hmem, fun k hk => ?_⟩
  obtain ⟨hfinishing, hgone⟩ := hall k (mem_range.mpr hk)
  have hargs := (husers k hk).1
  exact ⟨hgone, hfinishing.acted hargs (hfinishing.left hgone).1, hfinishing.printed hgone⟩

/-- A seller has left half an order behind, and a subscriber has had its reply held back. -/
theorem run_can_wind_down_held_back :
    let users : Nat → User := fun k =>
      if k = 0 then ⟨.marketDataClient, [text "JNST"], [], []⟩
      else ⟨.traderClient, [text "ann"], [.data ⟨text "SELL JN", by decide, by decide⟩,
        .data ⟨text "ST 5 10\n", by decide, by decide⟩], []⟩
    let moves : List Move :=
      [.serve { event := ⟨4, .read, false, false⟩, accepts := [.accepted 5, .accepted 6, .again] },
        .serve { event := ⟨5, .read, false, false⟩
                 recvs := [.data ⟨text "SUBSCRIBE JNST\n", by decide, by decide⟩, .again] },
        .poll 1 (.ready true none)]
    ∃ more, let n := run step (start 3 4 [.sent 1, .again] users) (moves ++ more)
      (∀ fd, n.server.sessions.lookup fd = none) ∧
        linesFrom 1 n.server.history = [text "LOGIN ann", text "SELL JNST 5 10", text "QUIT"] := by
  intro users moves
  obtain ⟨more, -, -, -, hnone, -, hall⟩ := run_can_wind_down 3 4 [.sent 1, .again] users moves
    (by decide) (by decide) (by decide) (by decide)
  exact ⟨more, hnone, (hall 1 (by decide)).2.1.trans (by decide)⟩

end Network

end SocketExchange
