import Mathlib.Algebra.Order.BigOperators.Group.List
import SocketExchange.Exchange.Ledger
import SocketExchange.System.Conversation

/-!
# What a trader reads off the screen

A trader pairs the replies on the screen with the commands that have been typed, by position, and
adds up the orders that were accepted. At no time do the trades on the screen exceed them: the
acceptance of an order is enqueued before its first report, and no order is filled beyond its
quantity, however far behind the screen is.
-/

namespace SocketExchange

open Containers ClientSession Runs OrderBook List

/-- The command that asks for an order on a side. -/
def Side.command : Side → Bytes
  | .buy => text "BUY"
  | .sell => text "SELL"

/-- The quantity that a command asks to buy or sell at a level. -/
def orderedIn (key : LevelKey) (command : Bytes) : Int :=
  match tokenize command with
  | [word, instrument, quantity, limit] =>
    if word = key.side.command ∧ instrument = key.instrument ∧
        parsePositiveInt limit = some key.price then
      (parsePositiveInt quantity).getD 0
    else 0
  | _ => 0

/-- What a command and its reply add to the orders accepted at a level. -/
def acceptedIn (key : LevelKey) (command reply : Bytes) : Int :=
  if firstWord reply = text "ORDER_ACCEPTED" then orderedIn key command else 0

/-- The quantity at a level of the orders that have been accepted, each reply being read as the
answer to the command in its place. -/
def acceptedQty (key : LevelKey) (commands replies : List Bytes) : Int :=
  (zipWith (acceptedIn key) commands replies).sum

/-- The lines that are replies, reports and trades left out. -/
def repliesAmong (lines : List Bytes) : List Bytes :=
  lines.filter fun line => !reportWords.contains (firstWord line)

variable {key : LevelKey}

/-! ## Adding up -/

private theorem orderedIn_nonneg (key : LevelKey) (command : Bytes) :
    0 ≤ orderedIn key command := by
  unfold orderedIn
  split
  · rename_i quantity limit _
    split
    · cases hqty : parsePositiveInt quantity with
      | none => exact le_rfl
      | some qty => exact (parsePositiveInt_pos hqty).le
    · exact le_rfl
  · exact le_rfl

private theorem acceptedIn_nonneg (key : LevelKey) (command reply : Bytes) :
    0 ≤ acceptedIn key command reply := by
  unfold acceptedIn
  split_ifs
  · exact orderedIn_nonneg key command
  · exact le_rfl

private theorem acceptedQty_nonneg (key : LevelKey) (commands replies : List Bytes) :
    0 ≤ acceptedQty key commands replies := by
  refine List.sum_nonneg fun q hq => ?_
  obtain ⟨i, hi, rfl⟩ := getElem_of_mem hq
  rw [getElem_zipWith]
  exact acceptedIn_nonneg ..

private theorem acceptedQty_append {commands replies : List Bytes}
    (h : commands.length = replies.length) (commands' replies' : List Bytes) :
    acceptedQty key (commands ++ commands') (replies ++ replies') =
      acceptedQty key commands replies + acceptedQty key commands' replies' := by
  rw [acceptedQty, zipWith_append h, sum_append]
  rfl

/-- Commands that have not been replied to do not count. -/
theorem acceptedQty_of_begins {commands commands' replies : List Bytes}
    (h : commands <+: commands') (hlength : replies.length ≤ commands.length) :
    acceptedQty key commands' replies = acceptedQty key commands replies := by
  obtain ⟨later, rfl⟩ := h
  induction commands generalizing replies with
  | nil =>
    obtain rfl := length_eq_zero_iff.mp (Nat.le_zero.mp hlength)
    rw [acceptedQty, acceptedQty, zipWith_nil_right, zipWith_nil_right]
  | cons command commands ih =>
    cases replies with
    | nil => rfl
    | cons reply replies =>
      have htail := ih (Nat.le_of_succ_le_succ hlength)
      rw [acceptedQty] at htail ⊢
      rw [cons_append, zipWith_cons_cons, sum_cons, htail]
      rfl

private theorem reportedIn_nonneg (key : LevelKey) (line : Bytes) : 0 ≤ reportedIn key line := by
  unfold reportedIn
  split_ifs
  · cases Report.read line with
    | none => exact le_rfl
    | some r =>
      dsimp only
      split_ifs
      · exact le_trans (by decide) r.qty_inRange.1
      · exact le_rfl
  · exact le_rfl

/-- More lines report no less. -/
theorem reportedQty_mono {lines lines' : List Bytes} (h : lines <+: lines') :
    reportedQty key lines ≤ reportedQty key lines' := by
  obtain ⟨later, rfl⟩ := h
  rw [reportedQty_append]
  refine le_add_of_nonneg_right (List.sum_nonneg fun q hq => ?_)
  obtain ⟨line, -, rfl⟩ := mem_map.mp hq
  exact reportedIn_nonneg key line

private theorem Side.command_injective : Function.Injective Side.command := by
  intro side side' h
  cases side <;> cases side' <;> first | rfl | exact absurd h (by decide)

/-- A well-formed order command asks for its order. -/
theorem Places.orderedIn_eq {line : Bytes} {o : Order} (h : Places line o) (key : LevelKey) :
    orderedIn key line = if o.key = key then o.qty else 0 := by
  obtain ⟨quantity, limit, hline, -, hqty, hprice⟩ := h
  have hword : text (if o.side = .buy then "BUY" else "SELL") = o.side.command := by
    cases o.side <;> rfl
  have hkey : (o.side.command = key.side.command ∧ o.instrument = key.instrument ∧
      parsePositiveInt limit = some key.price) ↔ o.key = key := by
    obtain ⟨instrument, side, price⟩ := key
    rw [hprice, Option.some.injEq, Order.key, LevelKey.mk.injEq, Side.command_injective.eq_iff]
    exact and_left_comm
  rw [orderedIn, hline, hword]
  simp only [hkey, hqty, Option.getD_some]

namespace Server

variable {s : Server} {k : Nat}

/-! ## What the server reports -/

/-- What rests is positive, and so is any part of it. -/
theorem Reachable.part_nonneg (hs : Reachable s) (key : LevelKey) (p : Order → Prop)
    [DecidablePred p] : 0 ≤ ((s.book.level key).map fun x => if p x then x.qty else 0).sum := by
  refine List.sum_nonneg fun q hq => ?_
  obtain ⟨x, hx, rfl⟩ := mem_map.mp hq
  split
  · exact (hs.tracked.chronological.shape.positive key x hx).le
  · exact le_rfl

private theorem Reachable.holding_nonneg (hs : Reachable s) (k : Nat) (key : LevelKey) :
    0 ≤ s.book.holding k key := hs.part_nonneg key _

private theorem Reachable.withdrawnBy_nonneg (hs : Reachable s) (k : Nat) (key : LevelKey)
    (a : Action) :
    0 ≤ withdrawnBy k key s a := hs.part_nonneg key _

/-- What an action brings in is positive. -/
theorem Reachable.brought_nonneg (hs : Reachable s) (k : Nat) (key : LevelKey) (a : Action) :
    0 ≤ placedQty k key (s.since (s.act a)) := by
  have hs' : Reachable (s.act a) := hs.reaches (.act s a)
  obtain ⟨obs, hhistory, -⟩ := act_effect s a
  rw [since_of_append hhistory]
  refine List.sum_nonneg fun q hq => ?_
  obtain ⟨p, hp, rfl⟩ := mem_map.mp hq
  have hpos : 0 < p.2.qty := by
    refine hs'.settled.positive p.1 p.2 (mem_placedOrders.mpr ?_)
    rw [view_history, hhistory]
    exact mem_append_right _ (mem_placedOrders.mp hp)
  split
  · exact hpos.le
  · exact le_rfl

/-- For an open connection, what has been reported and what rests was accepted. -/
theorem Reachable.reported_le (hs : Reachable s) (hopen : s.connected k = true)
    (hacc : s.accepted ≤ 2 ^ 64) (key : LevelKey) :
    reportedQty key (linesTo k s.history) + s.book.holding k key ≤ placedQty k key s.history := by
  have hk : k < 2 ^ 64 := ((hs.recorded.connected k).mp hopen).1.trans_le hacc
  obtain ⟨kq, listenFd, sends, actions, rfl⟩ := hs
  have hall := (Reachable.start kq listenFd sends).ledger hk key actions (Or.inl hopen) hacc
  have hwithdrawn : 0 ≤ (Runs.outputs act (withdrawnBy k key)
      (Server.start kq listenFd sends) actions).sum := by
    refine List.sum_nonneg fun q hq => ?_
    obtain ⟨done, a, todo, -, rfl⟩ := mem_outputs.mp hq
    exact Reachable.withdrawnBy_nonneg ⟨kq, listenFd, sends, done, rfl⟩ k key a
  have hplaced : placedQty k key (Server.start kq listenFd sends).history = 0 := rfl
  have hreported : reportedQty key (linesTo k (Server.start kq listenFd sends).history) = 0 := rfl
  have hholding : (Server.start kq listenFd sends).book.holding k key = 0 := rfl
  omega

/-- An action that closes nothing leaves the connection open. -/
theorem Reachable.stays_open (hs : Reachable s) (a : Action) (hopen : s.connected k = true)
    (hobs : .closed k ∉ s.since (s.act a)) : (s.act a).connected k = true := by
  have hs' : Reachable (s.act a) := hs.reaches (.act s a)
  obtain ⟨hlt, hnot⟩ := (hs.recorded.connected k).mp hopen
  obtain ⟨obs, hhistory, -⟩ := act_effect s a
  rw [since_of_append hhistory] at hobs
  refine (hs'.recorded.connected k).mpr ⟨hlt.trans_le (act_moves s a).accepted_le, ?_⟩
  rw [hhistory, mem_append, not_or]
  exact ⟨hnot, hobs⟩

private theorem closed_not_mem_placed (s : Server) (k conn : Nat) (line : Bytes) (o : Order) :
    .closed k ∉ .received conn line :: s.orderVoice conn o := by
  rw [mem_cons, or_iff_right (by simp)]
  intro hmem
  rcases mem_orderVoice hmem with h | ⟨_, h⟩ | ⟨_, _, h⟩ <;> cases h

/-- Nothing is reported to a connection that is closed before an action or by it. -/
theorem act_unreported (hs : Reachable s) (a : Action) (hacc : (s.act a).accepted ≤ 2 ^ 64)
    (hclosed : ¬ (s.connected k = true ∧ (s.act a).connected k = true)) (key : LevelKey) :
    reportedQty key (linesTo k (s.since (s.act a))) = 0 := by
  have hbefore : s.accepted ≤ 2 ^ 64 := (act_moves s a).accepted_le.trans hacc
  have hstays := hs.stays_open (k := k) a
  obtain ⟨obs, hhistory, heffect⟩ := act_effect s a
  rw [since_of_append hhistory] at hstays ⊢
  generalize (s.act a).book = book at heffect
  cases heffect with
  | quiet hobs => exact (quiet_ledger hobs k key).2.1
  | rehashed => rfl
  | @placed fd c line o hc hline hid howner =>
    -- To place an order closes nothing, so the connection was closed before.
    have hgone : s.view.connected k = false := by
      rw [connected_view, ← Bool.not_eq_true]
      exact fun hopen => hclosed ⟨hopen, hstays hopen (closed_not_mem_placed _ _ _ _ _)⟩
    have ht := hs.traceable hbefore
    have hreply : reportedQty key (linesTo k [.enqueued c.conn (msgOrderAccepted o.id)]) = 0 :=
      reportedQty_reply (by rw [firstWord_msgOrderAccepted]; decide) ..
    rw [linesTo_placed, reportedQty_append, hreply, linesTo_flatMap, reportedQty_flatMap, zero_add]
    refine sum_eq_zero fun q hq => ?_
    obtain ⟨f, hf, rfl⟩ := mem_map.mp hq
    exact ht.reported_gone hgone (fun side => ht.fills hc howner hf side) key
  | @cancelled fd c line oid =>
    exact reportedQty_reply (by rw [firstWord_msgOrderCancelled]; decide) k c.conn

/-- What an action reports to a connection rested for it or comes in. -/
theorem act_reported_le (hs : Reachable s) (a : Action) (hacc : (s.act a).accepted ≤ 2 ^ 64)
    (key : LevelKey) :
    reportedQty key (linesTo k (s.since (s.act a))) ≤
      if s.connected k then placedQty k key (s.since (s.act a)) + s.book.holding k key else 0 := by
  by_cases hboth : s.connected k = true ∧ (s.act a).connected k = true
  · obtain ⟨hopen, hstill⟩ := hboth
    have hs' : Reachable (s.act a) := hs.reaches (.act s a)
    have hk : k < 2 ^ 64 := ((hs'.recorded.connected k).mp hstill).1.trans_le hacc
    have hledger := act_ledger hs a hacc hk (Or.inl hstill) key
    have hwithdrawn := hs.withdrawnBy_nonneg k key a
    have hheld := hs'.holding_nonneg k key
    rw [if_pos hopen]
    omega
  · rw [act_unreported hs a hacc hboth key]
    split
    · exact add_nonneg (hs.brought_nonneg k key a) (hs.holding_nonneg k key)
    · exact le_rfl

/-! ## What the screen can show -/

/-- The trades among the first lines to a connection stay within the orders accepted among them,
and all its orders are accepted in some line. -/
structure Booked (k : Nat) (key : LevelKey) (s : Server) : Prop where
  placed : placedQty k key s.history ≤
    acceptedQty key (requests k s.history) (directLines k s.history)
  begins : ∀ lines, lines <+: linesTo k s.history →
    reportedQty key lines ≤ acceptedQty key (requests k s.history) (repliesAmong lines)

private theorem requests_placed (s : Server) (k : Nat) {line : Bytes} {o : Order}
    (h : Places line o) :
    requests k (.received k line :: s.orderVoice k o) = [line] := by
  have hvoice : requests k (s.orderVoice k o) = [] := by
    refine requests_eq_nil fun c line hmem => ?_
    rcases mem_orderVoice hmem with h | ⟨_, h⟩ | ⟨_, _, h⟩ <;> cases h
  have hword : commandWord line ≠ text "QUIT" := by
    rw [h.word]
    cases o.side <;> decide
  rw [← singleton_append, requests_append, requests_received, if_pos ⟨rfl, hword⟩, hvoice]
  rfl

private theorem repliesAmong_linesTo (k : Nat) (history : List Obs) :
    repliesAmong (linesTo k history) = directLines k history := by
  rw [directLines_eq, repliesAmong]
  simp only [contains_eq_mem, decide_not]

/-- The order that an action takes is accepted in the first line that it enqueues to its
connection. -/
theorem Effect.accepts {book : OrderBook} {obs : List Obs} (h : Effect s book obs) (k : Nat)
    (key : LevelKey) {lines : List Bytes} (hlines : lines <+: linesTo k obs)
    (hsome : lines = [] → linesTo k obs = []) :
    placedQty k key obs ≤ acceptedQty key (requests k obs) (repliesAmong lines) := by
  have hnonneg := acceptedQty_nonneg key (requests k obs) (repliesAmong lines)
  cases h with
  | quiet hobs =>
    rw [(quiet_ledger hobs k key).1]
    exact hnonneg
  | rehashed => exact hnonneg
  | cancelled => exact hnonneg
  | @placed fd c line o hc hline =>
    have hplaced : placedQty k key (.received c.conn line :: s.orderVoice c.conn o) =
        if c.conn = k ∧ o.key = key then o.qty else 0 := by
      rw [placedQty, placedOrders_placed]
      simp
    rw [hplaced]
    by_cases hk : c.conn = k
    · subst hk
      have hfirst := linesTo_placed s c.conn c.conn line o
      rw [linesTo_enqueued, if_pos rfl, singleton_append] at hfirst
      cases lines with
      | nil =>
        rw [hsome rfl] at hfirst
        cases hfirst
      | cons reply lines =>
        rw [hfirst, cons_prefix_cons] at hlines
        obtain ⟨rfl, -⟩ := hlines
        have hword := firstWord_msgOrderAccepted o.id
        have hreplies : repliesAmong (msgOrderAccepted o.id :: lines) =
            msgOrderAccepted o.id :: repliesAmong lines :=
          filter_cons_of_pos (by rw [hword]; decide)
        rw [requests_placed s c.conn hline, hreplies, acceptedQty, zipWith_cons_cons,
          zipWith_nil_left, sum_singleton, acceptedIn, if_pos hword, hline.orderedIn_eq]
        simp only [true_and, le_refl]
    · rw [if_neg fun h => hk h.1]
      exact hnonneg

/-- An action keeps the reports to a connection within the orders accepted for it. -/
theorem Booked.act (hs : Reachable s) (h : Booked k key s) (a : Action)
    (hacc : (s.act a).accepted ≤ 2 ^ 64) : Booked k key (s.act a) := by
  have hreported := act_reported_le (k := k) hs a hacc key
  have hbefore : s.accepted ≤ 2 ^ 64 := (act_moves s a).accepted_le.trans hacc
  have haligned : Forall₂ Answers (requests k s.history) (directLines k s.history) := hs.aligned k
  obtain ⟨obs, hhistory, heffect⟩ := act_effect s a
  rw [since_of_append hhistory] at hreported
  -- The requests before and the replies to them are counted apart from the new ones.
  have hsplit : ∀ replies, acceptedQty key (requests k (s.act a).history)
      (directLines k s.history ++ replies) =
        acceptedQty key (requests k s.history) (directLines k s.history) +
          acceptedQty key (requests k obs) replies := by
    intro replies
    rw [hhistory, requests_append]
    exact acceptedQty_append haligned.length_eq _ _
  refine ⟨?_, fun lines hlines => ?_⟩
  · have hall := heffect.accepts k key (prefix_refl (linesTo k obs)) fun hnil => hnil
    rw [repliesAmong_linesTo] at hall
    have hdirect : directLines k (s.act a).history =
        directLines k s.history ++ directLines k obs := by
      rw [hhistory]
      exact linesWhere_append ..
    rw [hdirect, hsplit, hhistory, placedQty_append]
    have hplaced := h.placed
    omega
  · rw [hhistory, linesTo_append] at hlines
    by_cases hearlier : lines <+: linesTo k s.history
    · -- The lines were there before, and the new requests have no reply among them.
      have hlength : (repliesAmong lines).length ≤ (requests k s.history).length := by
        rw [haligned.length_eq, ← repliesAmong_linesTo]
        exact (hearlier.filter _).length_le
      rw [hhistory, requests_append, acceptedQty_of_begins (prefix_append ..) hlength]
      exact h.begins lines hearlier
    · have hboth := prefix_or_prefix_of_prefix hlines (prefix_append ..)
      obtain ⟨later, rfl⟩ := hboth.resolve_left hearlier
      have hlater : later <+: linesTo k obs := (prefix_append_right_inj _).mp hlines
      have hsome : later ≠ [] := fun hnil => hearlier (by rw [hnil, append_nil])
      have hreplies : repliesAmong (linesTo k s.history ++ later) =
          directLines k s.history ++ repliesAmong later := by
        rw [repliesAmong, filter_append, ← repliesAmong, repliesAmong_linesTo]
        rfl
      have hlate : reportedQty key later ≤ reportedQty key (linesTo k obs) :=
        reportedQty_mono hlater
      have haccepts := heffect.accepts k key hlater fun hnil => absurd hnil hsome
      rw [hreplies, hsplit, reportedQty_append]
      split at hreported
      · rename_i hopen
        have hledger := hs.reported_le hopen hbefore key
        have hplaced := h.placed
        omega
      · have hearlier := h.begins _ (prefix_refl _)
        have hnonneg := acceptedQty_nonneg key (requests k obs) (repliesAmong later)
        rw [repliesAmong_linesTo] at hearlier
        omega

/-- Within 2^64 connections the reports to a connection stay within the orders accepted for it. -/
theorem Reachable.booked (hs : Reachable s) (hacc : s.accepted ≤ 2 ^ 64) (k : Nat)
    (key : LevelKey) : Booked k key s := by
  obtain ⟨kq, listenFd, sends, actions, rfl⟩ := hs
  induction actions using List.reverseRecOn with
  | nil =>
    refine ⟨le_rfl, fun lines hlines => ?_⟩
    have hnone : linesTo k (Server.start kq listenFd sends).history = [] := rfl
    rw [run_nil, hnone] at hlines
    rw [prefix_nil.mp hlines]
    exact acceptedQty_nonneg ..
  | append_singleton actions a ih =>
    have hbefore : Reachable (run act (Server.start kq listenFd sends) actions) :=
      ⟨kq, listenFd, sends, actions, rfl⟩
    rw [run_append, run_cons, run_nil] at hacc ⊢
    exact Booked.act hbefore (ih ((act_moves _ a).accepted_le.trans hacc)) a hacc

end Server

/-! ## The screens of the system -/

namespace Network

/-- In every run of the whole system with at most 2^64 connections, however the moves of the server
and of all clients are interleaved and the streams are cut, and whatever the other clients order,
cancel or leave behind, take a client that is started with no line end in its arguments and whose
sends never return 0. As long as no send of the server on its connection fails hard: for each
instrument, side and price, the BOUGHT or SOLD lines that it has printed add up to no more than the
orders that it can take for accepted there, by reading each reply it has printed as the answer to
the command in its place. -/
theorem run_never_overfills (kq listenFd : Int) (sends : List SendResult) (users : Nat → User)
    (moves : List Move) (k : Nat) (key : LevelKey) (hargs : ∀ a ∈ (users k).args, 10 ∉ a)
    (hsends : ∀ r ∈ (users k).sends, r.Nonzero)
    (hmoves : Admissible (fun n m => n.Carries m ∧ WellSent k n m) step
      (start kq listenFd sends users) moves)
    (hacc : (run step (start kq listenFd sends users) moves).server.accepted ≤ 2 ^ 64) :
    let n := run step (start kq listenFd sends users) moves
    reportedQty key (n.clients k).printed ≤
      acceptedQty key (users k).commands (n.clients k).replies := by
  intro n
  have h : Conversing (users k) k n := admissible_invariant
    (P := fun n => Conversing (users k) k n) (fun _ _ h hm => h.step hm.1 hm.2)
    (conversing_start kq listenFd sends hsends) hmoves
  have hbooked : Server.Booked k key n.server := h.carried.reachable.booked hacc k key
  have hreplies : (n.clients k).replies = repliesAmong (n.clients k).printed := rfl
  rw [acceptedQty_of_begins (h.requested hargs) h.replies_le, hreplies]
  exact hbooked.begins _ h.read

/-- A bid for 5 is accepted and filled with 3, and the report comes in two pieces. -/
theorem run_never_overfills_partly_filled :
    let users : Nat → User := fun k =>
      if k = 0 then ⟨.traderClient, [], [.data ⟨text "BUY JNST 5 10\n", by decide, by decide⟩], []⟩
      else ⟨.traderClient, [], [.data ⟨text "SELL JNST 3 10\n", by decide, by decide⟩], []⟩
    let moves : List Move :=
      [.poll 0 (.ready true none),
        .serve { event := ⟨4, .read, false, false⟩, accepts := [.accepted 5, .accepted 6, .again] },
        .serve { event := ⟨5, .read, false, false⟩
                 recvs := [.data ⟨text "BUY JNST 5 10\n", by decide, by decide⟩, .again] },
        .poll 1 (.ready true none),
        .serve { event := ⟨6, .read, false, false⟩
                 recvs := [.data ⟨text "SELL JNST 3 10\n", by decide, by decide⟩, .again] },
        .poll 0 (.ready false (some (.data
          ⟨text "ORDER_ACCEPTED 0\nBOUGHT JN", by decide, by decide⟩))),
        .poll 0 (.ready false (some (.data ⟨text "ST 3 10\n", by decide, by decide⟩)))]
    let n := run step (start 3 4 [.sent 99, .sent 99, .sent 99, .sent 99] users) moves
    let key : LevelKey := ⟨text "JNST", .buy, 10⟩
    reportedQty key (n.clients 0).printed ≤
        acceptedQty key (users 0).commands (n.clients 0).replies ∧
      reportedQty key (n.clients 0).printed = 3 ∧
      acceptedQty key (users 0).commands (n.clients 0).replies = 5 := by
  intro users moves n key
  exact ⟨run_never_overfills 3 4 [.sent 99, .sent 99, .sent 99, .sent 99] users moves 0 key
    (by decide) (by decide) (by decide) (by decide), by decide, by decide⟩

end Network

end SocketExchange
