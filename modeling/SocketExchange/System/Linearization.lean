import SocketExchange.Exchange.Observers
import SocketExchange.System.Conversation

/-!
# One order of all deeds

However the server and its clients interleave, what all the clients see is what they would see of
an exchange that acts on one line at a time, at once. There is one order of the deeds of all
clients, and at every time a point in it that only moves on: the server is in the state of the
exchange that has done the deeds up to there, every line among them has been sent by then, and
every line printed by then has been said to its client by then.
-/

namespace SocketExchange

open Runs Segments Server List

/-- The complete lines of the first bytes of a stream are its first lines. -/
theorem framedLines_mono {bytes stream : Bytes} (h : bytes <+: stream) :
    framedLines bytes <+: framedLines stream := by
  obtain ⟨later, rfl⟩ := h
  rw [show bytes = (LineBuffer.mk bytes).buf_ from rfl, framedLines_append,
    ← LineBuffer.lines_eq_framed]
  exact prefix_append ..

private theorem deeds_mono {history history' : List Obs} (h : history <+: history') :
    deeds history <+: deeds history' := h.filterMap _

/-! ## Deeds over time -/

/-- A run only adds to the history. -/
theorem Server.Reaches.history {s s' : Server} (h : Reaches s s') : s.history <+: s'.history := by
  obtain ⟨actions, rfl⟩ := h
  obtain ⟨obs, hobs⟩ := history_run s actions
  exact ⟨obs, hobs.symm⟩

namespace Network

variable {n : Network} {k : Nat} {u : User}

/-- A later time is reached from an earlier one. -/
theorem reaches_take (n : Network) (moves : List Move) {t t' : Nat} (hle : t ≤ t') :
    Reaches (run step n (moves.take t)).server (run step n (moves.take t')).server := by
  obtain ⟨later, hlater⟩ : moves.take t <+: moves.take t' := take_prefix_take_left hle
  rw [← hlater, run_append]
  exact run_reaches ..

/-- The server has acted only on lines that the client has sent. -/
theorem Carried.invoked (h : Carried k n) :
    sentBy k (deeds n.server.history) <+: framedLines (n.clients k).wire := by
  rw [sentBy_deeds, h.heard.lines]
  exact (untilQuit_begins _).trans (framedLines_mono h.up)

/-- The client has printed only what the exchange has said to it. -/
theorem Conversing.responded (h : Conversing u k n) {e : Exchange}
    (hsim : Simulates n.server.view e) : (n.clients k).printed <+: e.sent k := by
  have hsaid : e.sent k = linesTo k n.server.history := hsim.sent k
  rw [hsaid]
  exact h.read

/-- In every run of the whole system with at most 2^64 connections, there are one order of the deeds
of all clients, in which nobody does anything before joining, and for each time a point in that
order, later times having later points, such that at each time: the server stands for the exchange
after the deeds up to the point; of each client, these are lines that it had sent by that time, in
their order; and if its sends never return 0 and as long as no send of the server to it has failed
hard, it had been shown only what the exchange has said to it after these deeds, in that order. -/
theorem run_linearizes (kq listenFd : Int) (sends : List SendResult) (users : Nat → User)
    (moves : List Move)
    (hmoves : Admissible (fun n m => n.Carries m) step (start kq listenFd sends users) moves)
    (hacc : (run step (start kq listenFd sends users) moves).server.accepted ≤ 2 ^ 64) :
    ∃ (order : List Deed) (point : Nat → Nat), Orderly order ∧ Monotone point ∧
      ∀ t, let n := run step (start kq listenFd sends users) (moves.take t)
        let past := order.take (point t)
        Simulates n.server.view (run Exchange.step {} past) ∧
          ∀ k, sentBy k past <+: framedLines (n.clients k).wire ∧
            ((∀ r ∈ (users k).sends, r.Nonzero) →
              Admissible (WellSent k) step (start kq listenFd sends users) (moves.take t) →
              (n.clients k).printed <+: (run Exchange.step {} past).sent k) := by
  have hsplit : ∀ t, Admissible (fun n m => n.Carries m) step (start kq listenFd sends users)
      (moves.take t ++ moves.drop t) := fun t => by rwa [take_append_drop]
  have hcarries := fun t => (admissible_append.mp (hsplit t)).1
  have hcarried : ∀ t k, Carried k (run step (start kq listenFd sends users) (moves.take t)) :=
    fun t k => admissible_invariant (P := Carried k) (fun _ _ h hm => h.step hm)
      (carried_start kq listenFd sends users k) (hcarries t)
  have hreaches : ∀ t, Reaches (run step (start kq listenFd sends users) (moves.take t)).server
      (run step (start kq listenFd sends users) moves).server := fun t => by
    have hlater := run_reaches (run step (start kq listenFd sends users) (moves.take t))
      (moves.drop t)
    rwa [← run_append, take_append_drop] at hlater
  -- each time's point is how many deeds the server has recorded by then
  refine ⟨deeds (run step (start kq listenFd sends users) moves).server.history,
    fun t =>
      (deeds (run step (start kq listenFd sends users) (moves.take t)).server.history).length,
    ?_, fun t t' hle => ?_, fun t => ?_⟩
  · have hwhole := (hcarried moves.length 0).reachable.orderly
    rwa [take_length] at hwhole
  · exact (deeds_mono (reaches_take _ moves hle).history).length_le
  · intro n past
    have hpast : past = deeds n.server.history :=
      (prefix_iff_eq_take.mp (deeds_mono (hreaches t).history)).symm
    have hsim : Simulates n.server.view (run Exchange.step {} past) := by
      rw [hpast]
      exact (hcarried t 0).reachable.simulates ((hreaches t).accepted_le.trans hacc)
    refine ⟨hsim, fun k => ⟨?_, fun hsends hwell => ?_⟩⟩
    · rw [hpast]
      exact (hcarried t k).invoked
    · have hconversing : Conversing (users k) k n := admissible_invariant
        (P := Conversing (users k) k) (fun _ _ h hm => h.step hm.1 hm.2)
        (conversing_start kq listenFd sends hsends) (admissible_guards.mpr ⟨hcarries t, hwell⟩)
      exact hconversing.responded hsim

/-- Two traders whose orders are in flight at once: the one whose client sends first is heard
second. -/
theorem run_linearizes_overtaking :
    let users : Nat → User := fun k =>
      ⟨.traderClient, [], [.data ⟨if k = 0 then text "BUY JNST 5 10\n" else text "SELL JNST 5 10\n",
        by split <;> decide, by split <;> decide⟩], [.sent 99]⟩
    let moves : List Move :=
      [.serve { event := ⟨4, .read, false, false⟩, accepts := [.accepted 5, .accepted 6, .again] },
        .poll 0 (.ready true none), .poll 1 (.ready true none),
        .serve { event := ⟨6, .read, false, false⟩
                 recvs := [.data ⟨text "SELL JNST 5 10\n", by decide, by decide⟩, .again] },
        .serve { event := ⟨5, .read, false, false⟩
                 recvs := [.data ⟨text "BUY JNST 5 10\n", by decide, by decide⟩, .again] },
        .poll 0 (.ready false (some (.data
          ⟨text "ORDER_ACCEPTED 1\nBOUGHT JNST 5 10\n", by decide, by decide⟩)))]
    let n (t : Nat) := run step (start 3 4 [.sent 99, .sent 99, .sent 99, .sent 99] users)
      (moves.take t)
    ((n 6).clients 0).printed = [text "ORDER_ACCEPTED 1", text "BOUGHT JNST 5 10"] ∧
      ∃ (order : List Deed) (point : Nat → Nat), Monotone point ∧
        sentBy 0 (order.take (point 3)) <+: framedLines ((n 3).clients 0).wire ∧
        ((n 6).clients 0).printed <+: (run Exchange.step {} (order.take (point 6))).sent 0 := by
  intro users moves n
  obtain ⟨order, point, -, hmono, htimes⟩ := run_linearizes 3 4
    [.sent 99, .sent 99, .sent 99, .sent 99] users moves (by decide) (by decide)
  refine ⟨by decide, order, point, hmono, ?_, ?_⟩
  · obtain ⟨-, hseen⟩ := htimes 3
    exact (hseen 0).1
  · obtain ⟨-, hseen⟩ := htimes 6
    exact (hseen 0).2 (by decide) (by decide)

end Network

end SocketExchange
