import SocketExchange.Service.Transmission
import SocketExchange.Service.Turnover
import SocketExchange.System.Network

/-!
# The conversation of a client

However the moves of the whole system are interleaved and its streams are cut: the server acts on
the lines of a client in order, the client prints lines that the server has enqueued to its
connection in order, and what it prints that is no report answers the first of its lines, one by
one.
-/

namespace SocketExchange

open Containers ClientSession Runs Segments Server List

/-! ## Beginnings of streams -/

/-- What begins a sequence of terminated lines is cut into the first of them. -/
theorem framedLines_begins {lines : List Bytes} (h : ∀ line ∈ lines, 10 ∉ line) {bytes : Bytes}
    (hbytes : bytes <+: terminated 10 lines) : framedLines bytes <+: lines.map stripCr := by
  obtain ⟨t, ht⟩ := hbytes
  obtain ⟨segs, rest, hsegs, hrest, rfl⟩ := exists_terminated 10 bytes
  have hall := congrArg (segments 10) ht
  rw [append_assoc, segments_terminated_append hsegs, segments_terminated h] at hall
  rw [framedLines, segments_terminated_append hsegs, segments_of_not_mem hrest, append_nil, ← hall,
    map_append]
  exact prefix_append ..

/-- The lines up to the first QUIT are the first lines. -/
theorem untilQuit_begins (ls : List Bytes) : untilQuit ls <+: ls := by
  induction ls with
  | nil => exact nil_prefix
  | cons line ls ih =>
    rw [untilQuit]
    split_ifs
    · exact ⟨ls, rfl⟩
    · exact (prefix_cons_inj line).mpr ih

/-- The lines of a user that are to be given a reply, as the server cuts them. -/
def User.commands (u : User) : List Bytes :=
  (u.lines.map stripCr).filter fun line => commandWord line ≠ text "QUIT"

/-- What a client has printed, reports and trades left out. -/
def Client.replies (c : Client) : List Bytes :=
  c.printed.filter fun line => !reportWords.contains (firstWord line)

/-- The replies a client prints are the lines it prints that are no reports. -/
theorem Client.replies_eq (c : Client) :
    c.replies = c.printed.filter fun line => firstWord line ∉ reportWords := by
  simp only [replies, contains_eq_mem, decide_not]

namespace Network

variable {n : Network} {m : Move} {k : Nat} {u : User}

/-- No send of the server on the connection fails hard. -/
def WellSent (k : Nat) (n : Network) : Move → Prop
  | .serve e => EventSendsWell k n.server e
  | .poll .. => True

instance (k : Nat) (n : Network) : ∀ m, Decidable (WellSent k n m)
  | .serve e => inferInstanceAs (Decidable (EventSendsWell k n.server e))
  | .poll .. => .isTrue trivial

/-- Both streams of the connection are whole, and what is in them is what the client and the
server have written. -/
structure Conversing (u : User) (k : Nat) (n : Network) : Prop where
  carried : Carried k n
  delivered : Delivered k n.server
  speaks : (n.clients k).Speaks (terminated 10 u.lines)
  screen : (n.clients k).screen = LineBuffer.lines ⟨n.shown k⟩

/-- A move carried by the network keeps the conversation in step. -/
theorem Conversing.step (h : Conversing u k n) (hm : n.Carries m) (hsent : WellSent k n m) :
    Conversing u k (n.step m) := by
  have hs : Consistent n.server := consistent_of_view h.carried.reachable.consistent
  have hdelivered : Delivered k (n.step m).server := by
    cases m with
    | serve e => exact h.delivered.dispatch hs hsent
    | poll j p => exact h.delivered
  rcases client_step n m k with ⟨hclient, hshown⟩ | ⟨p, -, hclient, hshown⟩
  · refine ⟨h.carried.step hm, hdelivered, ?_, ?_⟩
    · rw [hclient]
      exact h.speaks
    · rw [hclient, hshown]
      exact h.screen
  · refine ⟨h.carried.step hm, hdelivered, ?_, ?_⟩
    · rw [hclient]
      exact h.speaks.turn p
    · rw [hclient, hshown]
      exact Client.turn_screen h.screen p

/-- At the start nothing has been said. -/
theorem conversing_start (kq listenFd : Int) (sends : List SendResult) {users : Nat → User}
    (hsends : ∀ r ∈ (users k).sends, r.Nonzero) :
    Conversing (users k) k (start kq listenFd sends users) := by
  obtain ⟨hspeaks, hscreen⟩ := Client.start_speaks (users k).program (users k).args
    (users k).stdin hsends
  exact ⟨carried_start kq listenFd sends users k, delivered_start kq listenFd sends k, hspeaks,
    hscreen⟩

/-- The server has acted on the first lines of the user. -/
theorem Conversing.acted (h : Conversing u k n) (hargs : ∀ a ∈ u.args, 10 ∉ a) :
    linesFrom k n.server.history <+: u.lines.map stripCr := by
  have hlines : ∀ line ∈ u.lines, 10 ∉ line :=
    forall_mem_append.mpr ⟨greeting_no_newline u.program hargs, sessionLines_no_newline _⟩
  rw [h.carried.heard.lines]
  exact (untilQuit_begins _).trans
    (framedLines_begins hlines (h.carried.up.trans h.speaks.sent))

/-- The client has printed the first lines that were enqueued to it. -/
theorem Conversing.read (h : Conversing u k n) :
    (n.clients k).printed <+: linesTo k n.server.history := by
  have hplain : ∀ line ∈ linesTo k n.server.history, Plain line := fun line hmem =>
    h.carried.reachable.plain k line (mem_linesTo.mp hmem)
  have hprinted : (n.clients k).printed = (LineBuffer.lines ⟨n.shown k⟩).1 :=
    congrArg Prod.fst h.screen
  rw [hprinted]
  have hboth := lines_of_prefix hplain (h.carried.down.trans h.delivered.sent)
  exact hboth.1

/-- The server has replied to the first commands of the user, -/
theorem Conversing.requested (h : Conversing u k n) (hargs : ∀ a ∈ u.args, 10 ∉ a) :
    requests k n.server.history <+: u.commands := by
  rw [requests_eq]
  exact (h.acted hargs).filter _

/-- and the client has printed the first of the replies. -/
theorem Conversing.replied (h : Conversing u k n) :
    (n.clients k).replies <+: directLines k n.server.history := by
  rw [directLines_eq, Client.replies_eq]
  exact h.read.filter _

/-- No reply is printed ahead of its request. -/
theorem Conversing.replies_le (h : Conversing u k n) :
    (n.clients k).replies.length ≤ (requests k n.server.history).length := by
  have haligned : Forall₂ Answers (requests k n.server.history)
      (directLines k n.server.history) := h.carried.reachable.aligned k
  rw [haligned.length_eq]
  exact h.replied.length_le

/-- The replies that a client has printed answer the first commands of its user. -/
theorem Conversing.answered (h : Conversing u k n) (hargs : ∀ a ∈ u.args, 10 ∉ a) :
    Forall₂ Answers (u.commands.take (n.clients k).replies.length) (n.clients k).replies := by
  have haligned : Forall₂ Answers (requests k n.server.history)
      (directLines k n.server.history) := h.carried.reachable.aligned k
  have hlength := h.replies_le
  obtain ⟨later, hlater⟩ := h.replied
  obtain ⟨ahead, hahead⟩ := h.requested hargs
  rw [← hlater] at haligned
  rw [← hahead, take_append_of_le_length hlength]
  exact forall₂_take_append _ _ _ haligned

/-- In every run of the whole system, however the moves of the server and of all clients are
interleaved and the streams are cut, whatever the sends of a client return but 0, and if it is
started with no line end in its arguments: as long as no send of the server on its connection fails
hard, the server has acted on the first of the client's lines, the client has printed the first of
the lines that the server has enqueued to it, and those it has printed that are no reports answer
its first commands, one by one. -/
theorem run_conversation (kq listenFd : Int) (sends : List SendResult) (users : Nat → User)
    (moves : List Move) (k : Nat) (hargs : ∀ a ∈ (users k).args, 10 ∉ a)
    (hsends : ∀ r ∈ (users k).sends, r.Nonzero)
    (hmoves : Admissible (fun n m => n.Carries m ∧ WellSent k n m) step
      (start kq listenFd sends users) moves) :
    let n := run step (start kq listenFd sends users) moves
    linesFrom k n.server.history <+: (users k).lines.map stripCr ∧
      (n.clients k).printed <+: linesTo k n.server.history ∧
      Forall₂ Answers ((users k).commands.take (n.clients k).replies.length)
        (n.clients k).replies := by
  intro n
  have h : Conversing (users k) k n := admissible_invariant
    (P := fun n => Conversing (users k) k n) (fun _ _ h hm => h.step hm.1 hm.2)
    (conversing_start kq listenFd sends hsends) hmoves
  exact ⟨h.acted hargs, h.read, h.answered hargs⟩

/-- Two traders at once: each sees the reply to its order before the report of the trade, and the
server's window for the first is full at times. -/
theorem run_conversation_two_traders :
    let users : Nat → User := fun k =>
      if k = 0 then ⟨.traderClient, [], [.data ⟨text "BUY JNST 5 10\n", by decide, by decide⟩], []⟩
      else ⟨.traderClient, [], [.data ⟨text "SELL JNST 5 10\n", by decide, by decide⟩], [.sent 3]⟩
    let moves : List Move :=
      [.poll 0 (.ready true none),
        .serve { event := ⟨4, .read, false, false⟩, accepts := [.accepted 5, .accepted 6, .again] },
        .serve { event := ⟨5, .read, false, false⟩
                 recvs := [.data ⟨text "BUY J", by decide, by decide⟩, .again] },
        .poll 1 (.ready true none),
        .serve { event := ⟨5, .read, false, false⟩
                 recvs := [.data ⟨text "NST 5 10\n", by decide, by decide⟩, .again] },
        .serve { event := ⟨6, .read, false, false⟩
                 recvs := [.data ⟨text "SELL JNST 5 10\n", by decide, by decide⟩, .again] },
        .poll 0 (.ready false (some (.data ⟨text "ORDER_ACC", by decide, by decide⟩))),
        .serve { event := ⟨5, .write, false, false⟩ },
        .poll 0 (.ready false (some (.data
          ⟨text "EPTED 0\nBOUGHT JNST 5 10\n", by decide, by decide⟩)))]
    let n := run step (start 3 4 [.sent 8, .again, .sent 99, .sent 99, .sent 99, .sent 99] users)
      moves
    (n.clients 0).printed = [text "ORDER_ACCEPTED 0", text "BOUGHT JNST 5 10"] ∧
      (n.clients 0).printed <+: linesTo 0 n.server.history ∧
      Forall₂ Answers ((users 0).commands.take 1) [text "ORDER_ACCEPTED 0"] := by
  intro users moves n
  obtain ⟨-, hread, hanswered⟩ := run_conversation 3 4
    [.sent 8, .again, .sent 99, .sent 99, .sent 99, .sent 99] users moves 0 (by decide) (by decide)
    (by decide)
  have hprinted : (n.clients 0).printed = [text "ORDER_ACCEPTED 0", text "BOUGHT JNST 5 10"] := by
    decide
  have hreplies : (n.clients 0).replies = [text "ORDER_ACCEPTED 0"] := by
    rw [Client.replies, hprinted]
    decide
  refine ⟨hprinted, hread, ?_⟩
  have hcount : (n.clients 0).replies.length = 1 := congrArg List.length hreplies
  rw [← hcount, ← hreplies]
  exact hanswered

end Network

end SocketExchange
