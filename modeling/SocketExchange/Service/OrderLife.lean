import SocketExchange.Book.Resting
import SocketExchange.Service.Lines

/-!
# The life of an order

An accepted order rests with less and less to fill until it is filled or cancelled;
after that nothing rests under its id again. The replies tell the same story: each id
is accepted once, in turn, and cancelled once at most.
-/

namespace SocketExchange

open Containers ClientSession Runs OrderBook

/-- The lines with this first word that were enqueued, to whatever connection. -/
def linesOf (word : Bytes) : List Obs → List Bytes :=
  linesWhere fun _ line => firstWord line = word

/-! ## Lines by their first word -/

@[simp] theorem linesOf_append (word : Bytes) (h h' : List Obs) :
    linesOf word (h ++ h') = linesOf word h ++ linesOf word h' := linesWhere_append ..

/-- Quiet entries hold no line of an order's life. -/
theorem linesOf_quiet {word : Bytes} (hword : word ∈ orderWords) {obs : List Obs}
    (h : ∀ o ∈ obs, o.Quiet) : linesOf word obs = [] := by
  refine linesWhere_quiet (fun k line he => ?_) h
  rw [of_decide_eq_true he]
  exact hword

private theorem msgOrderAccepted_inj {a b : Int} (ha : 0 ≤ a) (hb : 0 ≤ b)
    (h : msgOrderAccepted a = msgOrderAccepted b) : a = b :=
  stdToString_injOn ha hb (List.append_cancel_left h)

/-- Orders with different ids are cancelled in different words. -/
theorem msgOrderCancelled_inj {a b : Int} (ha : 0 ≤ a) (hb : 0 ≤ b)
    (h : msgOrderCancelled a = msgOrderCancelled b) : a = b :=
  stdToString_injOn ha hb (List.append_cancel_left h)

namespace Server

variable {s s' : Server} {a : Action}

/-- Apart from the reports of its fills, placing an order says only ORDER_ACCEPTED. -/
theorem linesOf_orderVoice {word : Bytes}
    (hword : word ∉ [text "BOUGHT", text "SOLD", text "TRADE"]) (k : Nat) (o : Order) :
    linesOf word (s.orderVoice k o) =
      if word = text "ORDER_ACCEPTED" then [msgOrderAccepted o.id] else [] := by
  have hplaced : linesOf word [.placed k o] = [] := rfl
  have hfills : linesOf word ((s.drawn.submit o).1.flatMap s.fillVoice) = [] := by
    refine linesWhere_fillVoices (fun k line he => ?_) _
    rw [of_decide_eq_true he]
    exact hword
  have haccepted : linesOf word [.enqueued k (msgOrderAccepted o.id)] =
      if word = text "ORDER_ACCEPTED" then [msgOrderAccepted o.id] else [] := by
    rw [linesOf, linesWhere_enqueued, firstWord_msgOrderAccepted]
    simp only [decide_eq_true_eq]
    exact if_congr eq_comm rfl rfl
  rw [orderVoice, linesOf_append, hfills, ← List.singleton_append, linesOf_append, hplaced,
    haccepted, List.nil_append, List.append_nil]

/-! ## What a move leaves resting -/

/-- What rests after a move rested before it, with no less to fill, or has the next id. -/
theorem Effect.rests {book : OrderBook} {obs : List Obs} (h : Effect s book obs)
    (hshape : Shape s.book) {x : Order} (hx : book.Rests x) :
    (∃ r, s.book.Rests r ∧ r.id = x.id ∧ x.qty ≤ r.qty) ∨ x.id = s.book.nextId_ := by
  cases h with
  | quiet => exact Or.inl ⟨x, hx, rfl, le_rfl⟩
  | rehashed order =>
    obtain ⟨k, hx⟩ := hx
    rw [level_rehash] at hx
    exact Or.inl ⟨x, ⟨k, hx⟩, rfl, le_rfl⟩
  | placed _ _ hid =>
    rcases rests_submit (hshape.apply .nextId) hx with ⟨r, hr, he, hle⟩ | ⟨he, -⟩
    · exact Or.inl ⟨r, hr, by rw [he, Order.withQty_id], hle⟩
    · exact Or.inr (by rw [he, Order.withQty_id, hid])
  | cancelled =>
    obtain ⟨k, hx⟩ := hx
    exact Or.inl ⟨x, ⟨k, (level_cancel_sublist ..).subset hx⟩, rfl, le_rfl⟩

private theorem Effect.nextId_le {book : OrderBook} {obs : List Obs} (h : Effect s book obs) :
    s.book.nextId_ ≤ book.nextId_ := by
  cases h with
  | quiet => exact le_rfl
  | rehashed => exact le_rfl
  | placed =>
    rw [submit_nextId_]
    exact (lt_add_one _).le
  | @cancelled fd c line oid =>
    have hnext := s.book.apply_nextId_ (.cancel oid c.fd c.sessionSeq)
    exact (hnext.trans (add_zero _)).ge

/-! ## The replies -/

/-- What the replies of a history say about the orders. -/
structure Settled (s : Server) : Prop where
  positive : ∀ k o, (k, o) ∈ placedOrders s.history → 0 < o.qty
  /-- Each accepted order has been acknowledged under its id. -/
  acknowledged : linesOf (text "ORDER_ACCEPTED") s.history =
    (placedOrders s.history).map fun p => msgOrderAccepted p.2.id
  /-- An id reported as cancelled was issued and does not rest. -/
  gone : ∀ i, 0 ≤ i → msgOrderCancelled i ∈ linesOf (text "ORDER_CANCELLED") s.history →
    i < s.book.nextId_ ∧ ∀ x, s.book.Rests x → x.id ≠ i
  once : ∀ i, 0 ≤ i →
    (linesOf (text "ORDER_CANCELLED") s.history).count (msgOrderCancelled i) ≤ 1

/-- What does not rest under an issued id does not come to rest under it. -/
theorem Effect.absent {book : OrderBook} {obs : List Obs} (h : Effect s book obs)
    (hshape : Shape s.book) {i : Int} (hi : i < s.book.nextId_)
    (hgone : ∀ x, s.book.Rests x → x.id ≠ i) : ∀ x, book.Rests x → x.id ≠ i := by
  intro x hx he
  rcases h.rests hshape hx with ⟨r, hr, hid, -⟩ | hid
  · exact hgone r hr (hid.trans he)
  · omega

/-- A move without a cancellation. -/
private theorem Settled.extend (h : Settled s) (ht : Tracked s) {book : OrderBook}
    {obs : List Obs} (hbook : s'.book = book) (hhistory : s'.history = s.history ++ obs)
    (heffect : Effect s book obs) (hpositive : ∀ k o, (k, o) ∈ placedOrders obs → 0 < o.qty)
    (haccepted : linesOf (text "ORDER_ACCEPTED") obs =
      (placedOrders obs).map fun p => msgOrderAccepted p.2.id)
    (hcancelled : linesOf (text "ORDER_CANCELLED") obs = []) : Settled s' where
  positive k o ho := by
    rw [hhistory, placedOrders_append, List.mem_append] at ho
    exact ho.elim (h.positive k o) (hpositive k o)
  acknowledged := by
    rw [hhistory, linesOf_append, placedOrders_append, List.map_append, h.acknowledged, haccepted]
  gone i hi hmem := by
    rw [hhistory, linesOf_append, hcancelled, List.append_nil] at hmem
    obtain ⟨hlt, hgone⟩ := h.gone i hi hmem
    rw [hbook]
    exact ⟨hlt.trans_le heffect.nextId_le, heffect.absent ht.chronological.shape hlt hgone⟩
  once i hi := by
    rw [hhistory, linesOf_append, hcancelled, List.append_nil]
    exact h.once i hi

/-- A cancellation. -/
private theorem Settled.cancelled (h : Settled s) (ht : Tracked s) {fd : Int} {c : ClientSession}
    {line : Bytes} {oid : Int} (hc : s.sessions.lookup fd = some c) (hoid : 0 ≤ oid)
    (hok : (s.book.cancel oid c.fd c.sessionSeq).1 = true)
    (hbook : s'.book = (s.book.cancel oid c.fd c.sessionSeq).2)
    (hhistory : s'.history =
      s.history ++ [.received c.conn line, .enqueued c.conn (msgOrderCancelled oid)]) :
    Settled s' := by
  have heffect : Effect s (s.book.cancel oid c.fd c.sessionSeq).2
      [.received c.conn line, .enqueued c.conn (msgOrderCancelled oid)] := .cancelled hc hoid hok
  have hidentified := ht.chronological.identified
  obtain ⟨x, ⟨k, hx⟩, hid, -⟩ := hidentified.cancel_iff.mp hok
  have hlines : linesOf (text "ORDER_CANCELLED")
      [.received c.conn line, .enqueued c.conn (msgOrderCancelled oid)] =
        [msgOrderCancelled oid] := rfl
  have hfirst : msgOrderCancelled oid ∉ linesOf (text "ORDER_CANCELLED") s.history :=
    fun hmem => (h.gone oid hoid hmem).2 x ⟨k, hx⟩ hid
  constructor
  case positive =>
    rw [hhistory, placedOrders_append]
    intro k o ho
    exact h.positive k o ((List.mem_append.mp ho).resolve_right fun hm => by cases hm)
  case acknowledged =>
    rw [hhistory, linesOf_append, placedOrders_append, List.map_append, h.acknowledged]
    rfl
  case gone =>
    intro i hi hmem
    rw [hhistory, linesOf_append, hlines, List.mem_append, List.mem_singleton] at hmem
    rw [hbook]
    rcases hmem with hmem | hmem
    · obtain ⟨hlt, hgone⟩ := h.gone i hi hmem
      exact ⟨hlt.trans_le heffect.nextId_le, heffect.absent ht.chronological.shape hlt hgone⟩
    · obtain rfl := msgOrderCancelled_inj hi hoid hmem
      refine ⟨?_, ?_⟩
      · exact (hid ▸ hidentified.below k x hx).trans_le heffect.nextId_le
      · rintro y ⟨k', hy⟩
        rw [hidentified.level_cancel hok, List.mem_filter] at hy
        exact of_decide_eq_true hy.2
  case once =>
    intro i hi
    rw [hhistory, linesOf_append, hlines, List.count_append, List.count_singleton]
    by_cases he : oid = i
    · subst he
      rw [List.count_eq_zero.mpr hfirst]
      simp only [beq_self_eq_true, if_true, zero_add, le_refl]
    · have hne : (msgOrderCancelled oid == msgOrderCancelled i) = false :=
        beq_eq_false_iff_ne.mpr fun heq => he (msgOrderCancelled_inj hoid hi heq)
      rw [hne]
      exact h.once i hi

/-- A move keeps the replies true to the orders. -/
theorem Settled.moves (h : Settled s) (ht : Tracked s) (hm : Moves s a s') : Settled s' := by
  obtain ⟨obs, hhistory, heffect⟩ := hm.effect
  generalize hbook : s'.book = book at heffect
  have hkept := heffect
  cases heffect with
  | quiet hobs =>
    have hnone : placedOrders obs = [] := placedOrders_quiet hobs
    refine h.extend ht hbook hhistory hkept ?_ ?_ (linesOf_quiet (by decide) hobs)
    · rw [hnone]
      exact fun _ _ ho => by cases ho
    · rw [hnone, linesOf_quiet (by decide) hobs]
      rfl
  | rehashed =>
    exact h.extend ht hbook hhistory hkept (fun _ _ ho => by cases ho) rfl rfl
  | @placed fd c line o hc hline hid howner =>
    have hplaced := s.placedOrders_placed c.conn line o
    have hlines : ∀ word, linesOf word (.received c.conn line :: s.orderVoice c.conn o) =
        linesOf word (s.orderVoice c.conn o) := fun _ => rfl
    refine h.extend ht hbook hhistory hkept ?_ ?_ ?_
    · intro k o' ho'
      rw [hplaced] at ho'
      obtain ⟨-, rfl⟩ := Prod.mk.inj (List.mem_singleton.mp ho')
      exact hline.qty_pos
    · rw [hplaced, hlines, linesOf_orderVoice (by decide)]
      rfl
    · rw [hlines, linesOf_orderVoice (by decide)]
      rfl
  | cancelled hc hoid hok => exact h.cancelled ht hc hoid hok hbook hhistory

private theorem settled_start (kq listenFd : Int) (sends : List SendResult) :
    Settled (start kq listenFd sends).view where
  positive k o ho := by cases ho
  acknowledged := rfl
  gone i hi hmem := by cases hmem
  once i hi := Nat.zero_le _

/-- In every reachable state the replies are true to the orders. -/
theorem Reachable.settled (h : Reachable s) : Settled s.view :=
  h.view_invariant settled_start fun _ _ hs hsettled hm => hsettled.moves hs.tracked hm

/-! ## What an action leaves resting -/

/-- The ids of the orders that the fills of an action trade with each other. -/
def consumed (s : Server) (a : Action) : List Int :=
  (placedOrders (s.since (s.act a))).flatMap fun p => s.book.nextId.2.tradedIds p.2

private theorem act_nextId_le (s : Server) (a : Action) :
    s.book.nextId_ ≤ (s.act a).book.nextId_ := by
  obtain ⟨obs, -, heffect⟩ := act_effect s a
  exact heffect.nextId_le

/-- The quantity under an issued id does not grow. -/
theorem act_restingQty_le (hs : Reachable s) (a : Action) {i : Int} (hi : i < s.book.nextId_) :
    (s.act a).book.restingQty i ≤ s.book.restingQty i := by
  obtain ⟨obs, -, heffect⟩ := act_effect s a
  have hbefore := hs.tracked.chronological
  have hafter := (hs.reaches (.act s a)).tracked.chronological
  refine hbefore.identified.restingQty_le hbefore.shape hafter.identified ?_
  intro x hx hid
  rcases heffect.rests hbefore.shape hx with ⟨r, hr, hrid, hle⟩ | hnew
  · exact ⟨r, hr, hrid.trans hid, hle⟩
  · have hlt : x.id < s.book.nextId_ := hid ▸ hi
    exact absurd hnew hlt.ne

private theorem act_absent (hs : Reachable s) (a : Action) {i : Int} (hi : i < s.book.nextId_)
    (hgone : ∀ x, s.book.Rests x → x.id ≠ i) : ∀ x, (s.act a).book.Rests x → x.id ≠ i := by
  obtain ⟨obs, -, heffect⟩ := act_effect s a
  exact heffect.absent hs.tracked.chronological.shape hi hgone

/-- No fill involves an order that was accepted before and does not rest. -/
theorem not_mem_consumed (s : Server) (a : Action) {i : Int} (hi : i < s.book.nextId_)
    (hgone : ∀ x, s.book.Rests x → x.id ≠ i) : i ∉ s.consumed a := by
  obtain ⟨obs, hhistory, heffect⟩ := act_effect s a
  rw [consumed, since_of_append hhistory]
  generalize (s.act a).book = book at heffect
  cases heffect with
  | quiet hobs =>
    rw [placedOrders_quiet hobs]
    exact List.not_mem_nil
  | rehashed => exact List.not_mem_nil
  | cancelled => exact List.not_mem_nil
  | @placed fd c line o hc hline hid howner =>
    rw [placedOrders_placed, List.flatMap_singleton]
    intro hmem
    have hnext : o.id = s.book.nextId_ := hid
    rcases mem_tradedIds hmem with rfl | ⟨x, ⟨k, hx⟩, rfl⟩
    · exact absurd hnext hi.ne
    · rw [level_nextId] at hx
      exact hgone x ⟨k, hx⟩ rfl

/-! ## Whole runs -/

private theorem run_restingQty_le (hs : Reachable s) (actions : List Action) {i : Int}
    (hi : i < s.book.nextId_) :
    (run act s actions).book.restingQty i ≤ s.book.restingQty i := by
  induction actions generalizing s with
  | nil => exact le_rfl
  | cons a actions ih =>
    have hrest := ih (hs.reaches (.act s a)) (hi.trans_le (s.act_nextId_le a))
    exact hrest.trans (act_restingQty_le hs a hi)

private theorem run_absent (hs : Reachable s) (actions : List Action) {i : Int}
    (hi : i < s.book.nextId_) (hgone : ∀ x, s.book.Rests x → x.id ≠ i) :
    (∀ x, (run act s actions).book.Rests x → x.id ≠ i) ∧
      ∀ ids ∈ outputs act consumed s actions, i ∉ ids := by
  induction actions generalizing s with
  | nil => exact ⟨hgone, fun ids hids => by cases hids⟩
  | cons a actions ih =>
    obtain ⟨hend, hids⟩ := ih (hs.reaches (.act s a)) (hi.trans_le (s.act_nextId_le a))
      (act_absent hs a hi hgone)
    refine ⟨hend, List.forall_mem_cons.mpr ⟨not_mem_consumed s a hi hgone, hids⟩⟩

/-- A CANCEL that names no resting order is answered with an error and changes no order. -/
theorem cancel_absent_error (hs : Reachable s) {fd : Int} {c : ClientSession}
    (hc : s.sessions.lookup fd = some c) {line orderId : Bytes}
    (hline : tokenize line = [text "CANCEL", orderId])
    (habsent : ∀ i, parseNonnegativeInt orderId = some i → ∀ x, s.book.Rests x → x.id ≠ i) :
    ∃ reason, (s.handleLine fd line).1.history =
      s.history ++ [.received c.conn line, .enqueued c.conn (msgError reason)] ∧
      (s.handleLine fd line).1.book = s.book := by
  have hidentified := hs.tracked.chronological.identified
  have hhandled := handleLine_handled hc line
  have hconn := (continues_inferRole (commandWord line) c.profile).conn
  generalize hr : ((s.handleLine fd line).1.view, (s.handleLine fd line).2) = r at hhandled
  have hhistory : (s.handleLine fd line).1.history = r.1.history := by rw [← hr]; rfl
  have hbook : (s.handleLine fd line).1.book = r.1.book := by rw [← hr]; rfl
  rw [hhistory, hbook]
  cases hhandled with
  | rejected reason =>
    refine ⟨reason, ?_, rfl⟩
    rw [hconn]
    exact List.append_assoc s.history [.received c.conn line] _
  | cancelled hline' hrole hoid hok =>
    obtain ⟨-, he⟩ := List.cons.inj (hline.symm.trans hline')
    obtain ⟨rfl, -⟩ := List.cons.inj he
    obtain ⟨x, hx, hid, -⟩ := hidentified.cancel_iff.mp hok
    exact absurd hid (habsent _ hoid x hx)
  | @placed side _ _ _ _ _ hline' =>
    obtain ⟨hword, -⟩ := List.cons.inj (hline.symm.trans hline')
    cases side with
    | buy => exact absurd hword (by decide)
    | sell => exact absurd hword (by decide)
  | loggedIn hline' =>
    exact absurd (List.cons.inj (hline.symm.trans hline')).1 (by decide)
  | subscribed hline' =>
    exact absurd (List.cons.inj (hline.symm.trans hline')).1 (by decide)
  | unsubscribed hline' =>
    exact absurd (List.cons.inj (hline.symm.trans hline')).1 (by decide)
  | quit hword =>
    rw [commandWord_eq hline] at hword
    exact absurd hword (by decide)

/-- The acceptances of a reachable state acknowledge the ids from 0 on, one after the other. -/
theorem acceptances_eq (ht : Tracked s) (hs : Settled s) :
    linesOf (text "ORDER_ACCEPTED") s.history =
      (List.range (linesOf (text "ORDER_ACCEPTED") s.history).length).map
        fun n : Nat => msgOrderAccepted n := by
  have hids : (placedOrders s.history).map (fun p => msgOrderAccepted p.2.id) =
      ((placedOrders s.history).map (·.2.id)).map msgOrderAccepted := by
    rw [List.map_map]
    rfl
  rw [hs.acknowledged, List.length_map, hids, ht.ids, List.map_map]
  rfl

/-- The ids of accepted orders have been issued. -/
theorem Tracked.issued (ht : Tracked s) {k : Nat} {o : Order}
    (ho : (k, o) ∈ placedOrders s.history) : 0 ≤ o.id ∧ o.id < s.book.nextId_ := by
  have hmem : o.id ∈ (placedOrders s.history).map (·.2.id) := List.mem_map_of_mem ho
  rw [ht.ids] at hmem
  obtain ⟨m, hm, he⟩ := List.mem_map.mp hmem
  have hlt := List.mem_range.mp hm
  have hcast : (m : Int) = o.id := he
  rw [ht.nextId]
  omega

/-- What rests was given no negative id. -/
theorem Tracked.id_nonneg (ht : Tracked s) {x : Order} (hx : s.book.Rests x) : 0 ≤ x.id := by
  obtain ⟨k, o, ho, he, -⟩ := ht.origin x hx
  rw [he, Order.withQty_id]
  exact (ht.issued ho).1

/-- An acknowledged id is that of an accepted order. -/
theorem placed_of_acknowledged (ht : Tracked s) (hs : Settled s) {n : Nat}
    (hn : msgOrderAccepted n ∈ linesOf (text "ORDER_ACCEPTED") s.history) :
    ∃ k, ∃ o : Order, (k, o) ∈ placedOrders s.history ∧ o.id = n := by
  rw [hs.acknowledged, List.mem_map] at hn
  obtain ⟨⟨k, o⟩, ho, hline⟩ := hn
  exact ⟨k, o, ho, msgOrderAccepted_inj (ht.issued ho).1 (Int.natCast_nonneg n) hline⟩

/-- No more rests under an id than was accepted under it. -/
theorem restingQty_le_accepted (ht : Tracked s) (hs : Settled s) {k : Nat} {o : Order}
    (ho : (k, o) ∈ placedOrders s.history) : s.book.restingQty o.id ≤ o.qty := by
  by_cases hrests : ∃ x, s.book.Rests x ∧ x.id = o.id
  · obtain ⟨x, hx, hid⟩ := hrests
    obtain ⟨k', o', ho', he, hle⟩ := ht.origin x hx
    have hsame : (k, o) = (k', o') := by
      refine ht.unique ho ho' ?_
      rw [← hid, he, Order.withQty_id]
    obtain ⟨-, rfl⟩ := Prod.mk.inj hsame
    rw [← hid, ht.chronological.identified.restingQty_of_rests hx]
    exact hle
  · rw [restingQty_of_absent fun x hx he => hrests ⟨x, hx, he⟩]
    exact (hs.positive k o ho).le

/-- In every run the ids are accepted in turn, and from its acceptance on the quantity under an
id only shrinks, to nothing once it is gone; it is cancelled once at most, after which no fill
involves it, and a CANCEL that names no resting order is answered with an error. -/
theorem run_orders_live_and_die_once (kq listenFd : Int) (sends : List SendResult)
    (before during : List Action) (n : Nat) :
    let s := run act (start kq listenFd sends) before
    let s' := run act s during
    linesOf (text "ORDER_ACCEPTED") s.history =
        (List.range (linesOf (text "ORDER_ACCEPTED") s.history).length).map
          (fun n : Nat => msgOrderAccepted n) ∧
      (msgOrderAccepted n ∈ linesOf (text "ORDER_ACCEPTED") s.history →
        (∃ k, ∃ o : Order, .placed k o ∈ s.history ∧ o.id = n) ∧
        (∀ k, ∀ o : Order, .placed k o ∈ s.history → o.id = n →
          s.book.restingQty n ≤ o.qty) ∧
        s'.book.restingQty n ≤ s.book.restingQty n ∧
        ((∀ x, s.book.Rests x → x.id ≠ n) → ∀ x, s'.book.Rests x → x.id ≠ n) ∧
        (linesOf (text "ORDER_CANCELLED") s'.history).count (msgOrderCancelled n) ≤ 1 ∧
        (msgOrderCancelled n ∈ linesOf (text "ORDER_CANCELLED") s.history →
          ∀ ids ∈ outputs act consumed s during, (n : Int) ∉ ids)) ∧
      ∀ fd c line orderId, s.sessions.lookup fd = some c →
        tokenize line = [text "CANCEL", orderId] →
        (∀ i, parseNonnegativeInt orderId = some i → ∀ x, s.book.Rests x → x.id ≠ i) →
        ∃ reason, (s.handleLine fd line).1.history =
          s.history ++ [.received c.conn line, .enqueued c.conn (msgError reason)] ∧
          (s.handleLine fd line).1.book = s.book := by
  intro s s'
  have hs : Reachable s := ⟨kq, listenFd, sends, before, rfl⟩
  have ht := hs.tracked
  have hsettled := hs.settled
  have hnonneg : (0 : Int) ≤ n := Int.natCast_nonneg n
  refine ⟨acceptances_eq (s := s.view) ht hsettled, fun hn => ?_, ?_⟩
  · obtain ⟨k, o, ho, hid⟩ := placed_of_acknowledged ht hsettled hn
    have hlt : (n : Int) < s.book.nextId_ := hid ▸ (ht.issued ho).2
    refine ⟨⟨k, o, mem_placedOrders.mp ho, hid⟩, fun k' o' ho' hid' => ?_,
      run_restingQty_le hs during hlt, fun hgone => (run_absent hs during hlt hgone).1,
      (hs.reaches ⟨during, rfl⟩).settled.once n hnonneg, fun hmem => ?_⟩
    · have hle := restingQty_le_accepted ht hsettled (mem_placedOrders.mpr ho')
      rwa [hid'] at hle
    · exact (run_absent hs during hlt (hsettled.gone n hnonneg hmem).2).2
  · intro fd c line orderId hc hline habsent
    exact cancel_absent_error hs hc hline habsent

end Server

end SocketExchange
