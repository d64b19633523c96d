import SocketExchange.Server.OrderBook
import Mathlib.Logic.Function.Basic

/-!
# The book as a family of queues

A level is named by its instrument, side and price. What an operation does to the
nested maps is stated once, as the queue it leaves at every level; nothing later
looks inside the maps again. The matching loop is described by its three possible
moves: it stops, it consumes the whole front order, or it consumes part of it.
-/

namespace SocketExchange

open Containers

/-- The name of a price level. -/
structure LevelKey where
  instrument : Bytes
  side : Side
  price : Int
  deriving DecidableEq

namespace LevelKey

/-- The level an order at this level trades with. -/
def opposite (k : LevelKey) : LevelKey := { k with side := k.side.opposite }

@[simp] theorem opposite_opposite (k : LevelKey) : k.opposite.opposite = k := by
  obtain ⟨i, s, p⟩ := k
  cases s <;> rfl

/-- A level is never its own opposite. -/
theorem opposite_ne (k : LevelKey) : k.opposite ≠ k := by
  intro h
  have hs := congrArg LevelKey.side h
  obtain ⟨i, s, p⟩ := k
  cases s <;> cases hs

end LevelKey

namespace Order

/-- The level an order rests at. -/
def key (o : Order) : LevelKey := ⟨o.instrument, o.side, o.price⟩

/-- The order with another remaining quantity. -/
def withQty (o : Order) (q : Int) : Order := { o with qty := q }

@[simp] theorem withQty_qty (o : Order) (q : Int) : (o.withQty q).qty = q := rfl
@[simp] theorem withQty_id (o : Order) (q : Int) : (o.withQty q).id = o.id := rfl
@[simp] theorem withQty_side (o : Order) (q : Int) : (o.withQty q).side = o.side := rfl
@[simp] theorem withQty_ownerFd (o : Order) (q : Int) : (o.withQty q).ownerFd = o.ownerFd := rfl
@[simp] theorem withQty_ownerSeq (o : Order) (q : Int) : (o.withQty q).ownerSeq = o.ownerSeq := rfl
@[simp] theorem withQty_key (o : Order) (q : Int) : (o.withQty q).key = o.key := rfl
@[simp] theorem withQty_withQty (o : Order) (q r : Int) :
    (o.withQty q).withQty r = o.withQty r := rfl

/-- A connection may cancel an order only when both owner fields name it. -/
def OwnedBy (o : Order) (fd : Int) (seq : UInt64) : Prop := o.ownerFd = fd ∧ o.ownerSeq = seq

instance (o : Order) (fd : Int) (seq : UInt64) : Decidable (o.OwnedBy fd seq) :=
  inferInstanceAs (Decidable (_ ∧ _))

end Order

/-- The connection a fill names on a side. -/
def Fill.party (f : Fill) : Side → Int × UInt64
  | .buy => (f.buyerFd, f.buyerSeq)
  | .sell => (f.sellFd, f.sellSeq)

/-- There are only two sides. -/
theorem Side.eq_or_eq_opposite (s s' : Side) : s = s' ∨ s = s'.opposite := by
  cases s <;> cases s' <;> simp [Side.opposite]

namespace OrderBook

/-! ## The report of a trade -/

section FillOf

variable (o r : Order) (t : Int)

@[simp] theorem fillOf_qty : (fillOf o r t).qty = t := by unfold fillOf; cases o.side <;> rfl
@[simp] theorem fillOf_instrument : (fillOf o r t).instrument = o.instrument := by
  unfold fillOf; cases o.side <;> rfl
@[simp] theorem fillOf_price : (fillOf o r t).price = o.price := by
  unfold fillOf; cases o.side <;> rfl

/-- On its own side the incoming order is named. -/
@[simp] theorem fillOf_party_own : (fillOf o r t).party o.side = (o.ownerFd, o.ownerSeq) := by
  unfold fillOf; cases o.side <;> rfl

/-- On the other side the resting order is named. -/
@[simp] theorem fillOf_party_opposite :
    (fillOf o r t).party o.side.opposite = (r.ownerFd, r.ownerSeq) := by
  unfold fillOf; cases o.side <;> rfl

end FillOf

/-! ## The matching loop -/

@[simp] theorem fillOf_withQty (o r : Order) (q t : Int) :
    fillOf (o.withQty q) r t = fillOf o r t := by
  unfold fillOf
  cases h : o.side <;> simp only [Order.withQty_side, h] <;> rfl

section Turns

variable {o r : Order} {queue : Queue} {q : Int}

/-- An order with nothing left to fill leaves the queue as it is. -/
theorem matchLoop_of_nonpos (hq : q ≤ 0) :
    matchLoop (o.withQty q) queue = ([], o.withQty q, queue) := by
  cases queue with
  | nil => rfl
  | cons r queue =>
    have hnone : ¬ (o.withQty q).qty > 0 := Int.not_lt.mpr hq
    rw [matchLoop, if_neg hnone]

/-- A front order that is no larger is used up. -/
theorem matchLoop_whole (hpos : 0 < q) (hle : r.qty ≤ q) :
    matchLoop (o.withQty q) (r :: queue) =
      (fillOf o r r.qty :: (matchLoop (o.withQty (q - r.qty)) queue).1,
        (matchLoop (o.withQty (q - r.qty)) queue).2) := by
  have hmin : min (o.withQty q).qty r.qty = r.qty := min_eq_right hle
  have hmore : (o.withQty q).qty > 0 := hpos
  rw [matchLoop, if_pos hmore]
  simp only [hmin, sub_self, if_true, fillOf_withQty]
  rfl

/-- A larger front order takes the whole quantity. -/
theorem matchLoop_part (hpos : 0 < q) (hlt : q < r.qty) :
    matchLoop (o.withQty q) (r :: queue) =
      ([fillOf o r q], o.withQty 0, r.withQty (r.qty - q) :: queue) := by
  have hmin : min q r.qty = q := min_eq_left hlt.le
  have hmore : (o.withQty q).qty > 0 := hpos
  have hleft : ¬ r.qty - q = 0 := by omega
  rw [matchLoop, if_pos hmore]
  simp only [Order.withQty_qty, hmin, if_neg hleft, fillOf_withQty, sub_self]
  rfl

end Turns

/-- What the loop can make of an incoming order and a queue. -/
inductive Matched : Order → Queue → List Fill → Order → Queue → Prop
  /-- Nothing is left to fill, or nobody is left to fill it. -/
  | stop {o : Order} {queue : Queue} (h : o.qty ≤ 0 ∨ queue = []) : Matched o queue [] o queue
  /-- The front order is used up and leaves the queue. -/
  | whole {o o' resting : Order} {queue queue' : Queue} {fills : List Fill} (hpos : 0 < o.qty)
      (hle : resting.qty ≤ o.qty)
      (htail : Matched (o.withQty (o.qty - resting.qty)) queue fills o' queue') :
      Matched o (resting :: queue) (fillOf o resting resting.qty :: fills) o' queue'
  /-- The incoming order is used up inside the front order. -/
  | part {o resting : Order} {queue : Queue} (hpos : 0 < o.qty) (hlt : o.qty < resting.qty) :
      Matched o (resting :: queue) [fillOf o resting o.qty] (o.withQty 0)
        (resting.withQty (resting.qty - o.qty) :: queue)

/-- The loop makes exactly these moves. -/
theorem matchLoop_matched (o : Order) (queue : Queue) :
    Matched o queue (matchLoop o queue).1 (matchLoop o queue).2.1 (matchLoop o queue).2.2 := by
  induction queue generalizing o with
  | nil => exact .stop (Or.inr rfl)
  | cons resting queue ih =>
    simp only [matchLoop]
    by_cases hpos : o.qty > 0
    · rw [if_pos hpos]
      by_cases hle : resting.qty ≤ o.qty
      · rw [min_eq_right hle, if_pos (Int.sub_self _)]
        exact .whole hpos hle (ih _)
      · have hlt : o.qty < resting.qty := by omega
        rw [min_eq_left hlt.le, if_neg (by omega), Int.sub_self]
        exact .part hpos hlt
    · rw [if_neg hpos]
      exact .stop (Or.inl (by omega))

/-- Read as a while loop: one turn trades with the front order and goes round again
with what is left on both sides, popping a front order that has reached zero. -/
theorem matchLoop_turn (o resting : Order) (queue : Queue) (h : o.qty > 0) :
    matchLoop o (resting :: queue) =
      let traded := min o.qty resting.qty
      let r := matchLoop (o.withQty (o.qty - traded))
        (if resting.qty - traded = 0 then queue
          else resting.withQty (resting.qty - traded) :: queue)
      (fillOf o resting traded :: r.1, r.2) := by
  simp only [matchLoop, if_pos h]
  split
  · rfl
  · have hzero : o.qty - min o.qty resting.qty = 0 := by omega
    simp only [matchLoop, hzero, Order.withQty_qty, gt_iff_lt, lt_self_iff_false, if_false]
    rfl

/-- The loop changes nothing in the incoming order but its quantity. -/
theorem Matched.incoming {o o' : Order} {queue queue' : Queue} {fills : List Fill}
    (h : Matched o queue fills o' queue') : o' = o.withQty o'.qty := by
  induction h with
  | stop => rfl
  | whole _ _ _ ih => exact ih
  | part => rfl

/-- Matching does not move the incoming order to another level. -/
theorem Matched.incoming_key {o o' : Order} {queue queue' : Queue} {fills : List Fill}
    (h : Matched o queue fills o' queue') : o'.key = o.key := by
  rw [h.incoming, Order.withQty_key]

/-- Matching keeps the id of the incoming order. -/
theorem Matched.incoming_id {o o' : Order} {queue queue' : Queue} {fills : List Fill}
    (h : Matched o queue fills o' queue') : o'.id = o.id := by
  rw [h.incoming, Order.withQty_id]

/-- A remainder is left only when the queue has been emptied. -/
theorem Matched.exhausted {o o' : Order} {queue queue' : Queue} {fills : List Fill}
    (h : Matched o queue fills o' queue') : o'.qty ≤ 0 ∨ queue' = [] := by
  induction h with
  | stop h => exact h
  | whole _ _ _ ih => exact ih
  | part => exact Or.inl le_rfl

/-- The incoming quantity never goes below zero. -/
theorem Matched.incoming_nonneg {o o' : Order} {queue queue' : Queue} {fills : List Fill}
    (h : Matched o queue fills o' queue') (hq : 0 ≤ o.qty) : 0 ≤ o'.qty := by
  induction h with
  | stop => exact hq
  | whole _ hle _ ih => exact ih (by rw [Order.withQty_qty]; omega)
  | part => exact le_rfl

/-- Against resting orders of positive quantity the incoming quantity never grows. -/
theorem Matched.incoming_le {o o' : Order} {queue queue' : Queue} {fills : List Fill}
    (h : Matched o queue fills o' queue') (hpos : ∀ r ∈ queue, 0 < r.qty) : o'.qty ≤ o.qty := by
  induction h with
  | stop => exact le_rfl
  | whole _ _ _ ih =>
    have hr := hpos _ (List.mem_cons_self ..)
    have htail := ih fun r hr => hpos r (List.mem_cons_of_mem _ hr)
    rw [Order.withQty_qty] at htail
    omega
  | part hpos' _ => exact hpos'.le

/-- What is left of a queue is its back, the front order of it possibly reduced. -/
theorem Matched.queue_cases {o o' : Order} {queue queue' : Queue} {fills : List Fill}
    (h : Matched o queue fills o' queue') :
    ∃ used left, queue = used ++ left ∧
      (queue' = left ∨ ∃ r tail q, left = r :: tail ∧ 0 < q ∧ q < r.qty ∧
        queue' = r.withQty q :: tail) := by
  induction h with
  | stop => exact ⟨[], _, rfl, Or.inl rfl⟩
  | @whole _ _ resting _ _ _ _ _ _ ih =>
    obtain ⟨used, left, rfl, hleft⟩ := ih
    exact ⟨resting :: used, left, rfl, hleft⟩
  | @part o resting queue hpos hlt =>
    exact ⟨[], resting :: queue, rfl, Or.inr ⟨resting, queue, _, rfl, by omega, by omega, rfl⟩⟩

/-! ## Looking up a level -/

/-- The queue stored at a level, if the level exists. -/
def queue? (b : OrderBook) (k : LevelKey) : Option Queue :=
  (b.books_.lookup k.instrument).bind fun ib => (ib.levels k.side).lookup k.price

/-- The orders resting at a level, oldest first. -/
def level (b : OrderBook) (k : LevelKey) : Queue := (b.queue? k).getD []

/-- A level holding no orders is not stored. -/
def stored (queue : Queue) : Option Queue := if queue = [] then none else some queue

@[simp] theorem getD_stored (queue : Queue) : (stored queue).getD [] = queue := by
  unfold stored
  split
  · rename_i h
    exact h.symm
  · rfl

/-- A stored queue is not empty. -/
theorem stored_ne_nil {queue q : Queue} (h : stored queue = some q) : q ≠ [] := by
  unfold stored at h
  split at h
  · cases h
  · rename_i hne
    exact Option.some.inj h ▸ hne

/-- Exactly the empty queue is not stored. -/
theorem stored_eq_none_iff {queue : Queue} : stored queue = none ↔ queue = [] := by
  unfold stored
  split
  · rename_i h
    exact iff_of_true rfl h
  · rename_i h
    exact iff_of_false nofun h

/-- Changing each order of a queue commutes with storing it. -/
theorem map_stored (g : Order → Order) (queue : Queue) :
    (stored queue).map (List.map g) = stored (queue.map g) := by
  unfold stored
  simp only [List.map_eq_nil_iff]
  split <;> rfl

@[simp] theorem levels_withLevels (ib : InstrumentBook) (s : Side) (m : OrderedMap Int Queue) :
    (ib.withLevels s m).levels s = m := by
  cases s <;> rfl

/-- Replacing the levels of one side leaves the other side alone. -/
theorem levels_withLevels_ne (ib : InstrumentBook) {s s' : Side} (h : s' ≠ s)
    (m : OrderedMap Int Queue) : (ib.withLevels s m).levels s' = ib.levels s' := by
  cases s <;> cases s' <;> first | rfl | exact absurd rfl h

@[simp] theorem levels_default (s : Side) : ({} : InstrumentBook).levels s = OrderedMap.empty := by
  cases s <;> rfl

@[simp] theorem lookup_putLevel (m : OrderedMap Int Queue) (p : Int) (queue : Queue) :
    (putLevel m p queue).lookup p = stored queue := by
  unfold putLevel stored
  split
  · exact OrderedMap.lookup_erase ..
  · exact OrderedMap.lookup_insert ..

private theorem lookup_putLevel_ne (m : OrderedMap Int Queue) {p p' : Int} (h : p' ≠ p)
    (queue : Queue) :
    (putLevel m p queue).lookup p' = m.lookup p' := by
  unfold putLevel
  split
  · exact OrderedMap.lookup_erase_ne h ..
  · exact OrderedMap.lookup_insert_ne h ..

@[simp] theorem lookup_rest (m : OrderedMap Int Queue) (o : Order) :
    (rest m o).lookup o.price = some ((m.lookup o.price).getD [] ++ [o]) :=
  OrderedMap.lookup_insert ..

private theorem lookup_rest_ne (m : OrderedMap Int Queue) (o : Order) {p : Int} (h : p ≠ o.price) :
    (rest m o).lookup p = m.lookup p := OrderedMap.lookup_insert_ne h ..

/-! ## Submitting -/

/-- The loop of one `submit`, run on the level the order trades with. -/
def matching (b : OrderBook) (o : Order) : List Fill × Order × Queue :=
  matchLoop o (b.level o.key.opposite)

/-- `matching` matches the order against the level opposite to it. -/
theorem matching_matched (b : OrderBook) (o : Order) :
    Matched o (b.level o.key.opposite) (b.matching o).1 (b.matching o).2.1 (b.matching o).2.2 :=
  matchLoop_matched ..

/-- What an accepted order leaves to rest at its own level. -/
def remainder (o : Order) : Queue := if 0 < o.qty then [o] else []

private theorem matchOpposite_eq (ib : InstrumentBook) (o : Order) :
    (matchOpposite ib o).1 =
        (matchLoop o (((ib.levels o.side.opposite).lookup o.price).getD [])).1 ∧
      (matchOpposite ib o).2.1 =
        (matchLoop o (((ib.levels o.side.opposite).lookup o.price).getD [])).2.1 := by
  simp only [matchOpposite]
  cases h : (ib.levels o.side.opposite).lookup o.price with
  | none => exact ⟨rfl, rfl⟩
  | some queue => exact ⟨rfl, rfl⟩

private theorem lookup_matchOpposite_self (ib : InstrumentBook) (o : Order) :
    ((matchOpposite ib o).2.2.levels o.side.opposite).lookup o.price =
      stored (matchLoop o (((ib.levels o.side.opposite).lookup o.price).getD [])).2.2 := by
  simp only [matchOpposite]
  cases h : (ib.levels o.side.opposite).lookup o.price with
  | none => exact h
  | some queue => simp only [levels_withLevels, lookup_putLevel, Option.getD_some]

private theorem lookup_matchOpposite_ne (ib : InstrumentBook) (o : Order) {s : Side} {p : Int}
    (h : s ≠ o.side.opposite ∨ p ≠ o.price) :
    ((matchOpposite ib o).2.2.levels s).lookup p = (ib.levels s).lookup p := by
  simp only [matchOpposite]
  cases hq : (ib.levels o.side.opposite).lookup o.price with
  | none => rfl
  | some queue =>
    by_cases hs : s = o.side.opposite
    · subst hs
      simp only [levels_withLevels]
      exact lookup_putLevel_ne _ (h.resolve_left fun hne => hne rfl) _
    · simp only [levels_withLevels_ne _ hs]

private theorem lookup_restRemainder_self (ib : InstrumentBook) (o : Order) :
    (((restRemainder ib o).levels o.side).lookup o.price).getD [] =
      ((ib.levels o.side).lookup o.price).getD [] ++ remainder o := by
  unfold restRemainder remainder
  split
  · simp only [levels_withLevels, lookup_rest, Option.getD_some]
  · rw [List.append_nil]

private theorem lookup_restRemainder_ne (ib : InstrumentBook) (o : Order) {s : Side} {p : Int}
    (h : s ≠ o.side ∨ p ≠ o.price) :
    ((restRemainder ib o).levels s).lookup p = (ib.levels s).lookup p := by
  unfold restRemainder
  split
  · by_cases hs : s = o.side
    · subst hs
      rw [levels_withLevels]
      exact lookup_rest_ne _ _ (h.resolve_left fun hne => hne rfl)
    · rw [levels_withLevels_ne _ hs]
  · rfl

/-- Fetching a level of the instrument's book, created empty when it is new. -/
private theorem lookup_getD_default (b : OrderBook) (k : LevelKey) :
    (((b.books_.lookup k.instrument).getD {}).levels k.side).lookup k.price = b.queue? k := by
  unfold queue?
  cases b.books_.lookup k.instrument with
  | none => simp only [Option.getD_none, levels_default, OrderedMap.lookup_empty, Option.bind_none]
  | some ib => rfl

private theorem matchLoop_fetched (b : OrderBook) (o : Order) :
    matchLoop o (((((b.books_.lookup o.instrument).getD {}).levels
      o.side.opposite).lookup o.price).getD []) = b.matching o := by
  rw [matching, level]
  exact congrArg (fun q : Option Queue => matchLoop o (q.getD []))
    (lookup_getD_default b o.key.opposite)

private theorem submit_eq (b : OrderBook) {o : Order} (hpos : 0 < o.qty) :
    b.submit o = ((b.matching o).1, { b with
      books_ := b.books_.insert o.instrument
        (restRemainder (matchOpposite ((b.books_.lookup o.instrument).getD {}) o).2.2
          (b.matching o).2.1) }) := by
  obtain ⟨hfills, hin⟩ := matchOpposite_eq ((b.books_.lookup o.instrument).getD {}) o
  rw [matchLoop_fetched] at hfills hin
  simp only [submit, if_neg (Int.not_le.mpr hpos), ← hfills, ← hin]

/-- An order without quantity changes nothing. -/
theorem submit_of_nonpos (b : OrderBook) {o : Order} (h : o.qty ≤ 0) : b.submit o = ([], b) := by
  rw [submit, if_pos h]

/-- The fills are those of the loop. -/
theorem submit_fills (b : OrderBook) {o : Order} (hpos : 0 < o.qty) :
    (b.submit o).1 = (b.matching o).1 := by
  rw [submit_eq b hpos]

@[simp] theorem submit_nextId_ (b : OrderBook) (o : Order) :
    (b.submit o).2.nextId_ = b.nextId_ := by
  unfold submit
  split <;> rfl

private theorem matching_side (b : OrderBook) (o : Order) : (b.matching o).2.1.side = o.side :=
  congrArg LevelKey.side (b.matching_matched o).incoming_key

private theorem matching_price (b : OrderBook) (o : Order) : (b.matching o).2.1.price = o.price :=
  congrArg LevelKey.price (b.matching_matched o).incoming_key

private theorem key_ne_iff {s : Side} {p : Int} {k : LevelKey}
    (h : (⟨k.instrument, s, p⟩ : LevelKey) ≠ k) : s ≠ k.side ∨ p ≠ k.price := by
  by_contra hc
  push Not at hc
  exact h (by rw [hc.1, hc.2])

/-- Only the two levels of the order's instrument and price are touched. -/
theorem queue?_submit_other (b : OrderBook) (o : Order) {k : LevelKey} (hown : k ≠ o.key)
    (hopp : k ≠ o.key.opposite) : (b.submit o).2.queue? k = b.queue? k := by
  by_cases hpos : 0 < o.qty
  · rw [submit_eq b hpos]
    obtain ⟨i, s, p⟩ := k
    by_cases hi : i = o.instrument
    · subst hi
      have hs : s ≠ o.side ∨ p ≠ o.price := key_ne_iff (k := o.key) hown
      have hs' : s ≠ o.side.opposite ∨ p ≠ o.price := key_ne_iff (k := o.key.opposite) hopp
      simp only [queue?, AList.lookup_insert, Option.bind_some]
      rw [lookup_restRemainder_ne _ _ (by rwa [matching_side, matching_price]),
        lookup_matchOpposite_ne _ _ hs']
      exact lookup_getD_default b ⟨o.instrument, s, p⟩
    · simp only [queue?, AList.lookup_insert_ne hi]
  · rw [submit_of_nonpos b (by omega)]

/-- The opposite level keeps what the loop left in its queue. -/
theorem queue?_submit_opposite (b : OrderBook) {o : Order} (hpos : 0 < o.qty) :
    (b.submit o).2.queue? o.key.opposite = stored (b.matching o).2.2 := by
  rw [submit_eq b hpos]
  simp only [queue?, LevelKey.opposite, Order.key, AList.lookup_insert, Option.bind_some]
  have hs : o.side.opposite ≠ o.side := fun h => o.key.opposite_ne (congrArg
    (fun s => (⟨o.instrument, s, o.price⟩ : LevelKey)) h)
  rw [lookup_restRemainder_ne _ _ (by rw [matching_side]; exact Or.inl hs),
    lookup_matchOpposite_self, matchLoop_fetched]

/-- The order's own level is the old queue with the remainder at its back. -/
theorem level_submit_own (b : OrderBook) {o : Order} (hpos : 0 < o.qty) :
    (b.submit o).2.level o.key = b.level o.key ++ remainder (b.matching o).2.1 := by
  rw [level, submit_eq b hpos]
  simp only [queue?, Order.key, AList.lookup_insert, Option.bind_some]
  have hs : o.side ≠ o.side.opposite := fun h => o.key.opposite_ne (congrArg
    (fun s => (⟨o.instrument, s, o.price⟩ : LevelKey)) h.symm)
  rw [← b.matching_side o, ← b.matching_price o, lookup_restRemainder_self,
    lookup_matchOpposite_ne _ _ (by rw [matching_side]; exact Or.inl hs),
    matching_side, matching_price]
  exact congrArg (fun q : Option Queue => q.getD [] ++ remainder (b.matching o).2.1)
    (lookup_getD_default b o.key)

/-- A level that exists at the order's own key after the submit is not empty. -/
theorem queue?_submit_own (b : OrderBook) {o : Order} (hpos : 0 < o.qty)
    (h : b.queue? o.key ≠ some []) : (b.submit o).2.queue? o.key ≠ some [] := by
  rw [submit_eq b hpos]
  simp only [queue?, Order.key, AList.lookup_insert, Option.bind_some]
  have hs : o.side ≠ o.side.opposite := fun h => o.key.opposite_ne (congrArg
    (fun s => (⟨o.instrument, s, o.price⟩ : LevelKey)) h.symm)
  unfold restRemainder
  split
  · rw [← b.matching_side o, ← b.matching_price o, levels_withLevels, lookup_rest]
    intro he
    exact List.append_ne_nil_of_right_ne_nil _ (List.cons_ne_nil _ _) (Option.some.inj he)
  · rw [lookup_matchOpposite_ne _ _ (Or.inl hs)]
    exact (lookup_getD_default b o.key).symm ▸ h

/-- The opposite level after a submit. -/
theorem level_submit_opposite (b : OrderBook) {o : Order} (hpos : 0 < o.qty) :
    (b.submit o).2.level o.key.opposite = (b.matching o).2.2 := by
  rw [level, queue?_submit_opposite b hpos, getD_stored]

/-- A submit changes no level but the order's own and the opposite one. -/
theorem level_submit_other (b : OrderBook) (o : Order) {k : LevelKey} (hown : k ≠ o.key)
    (hopp : k ≠ o.key.opposite) : (b.submit o).2.level k = b.level k := by
  rw [level, queue?_submit_other b o hown hopp, level]

/-! ## Cancelling -/

/-- The first order with the id decides a queue's search. -/
private theorem cancelQueue_cases (orderId fd : Int) (seq : UInt64)
    (queue : Queue) :
    (cancelQueue orderId fd seq queue = none ∧ ∀ x ∈ queue, x.id ≠ orderId) ∨
      ∃ pre x post, queue = pre ++ x :: post ∧ (∀ y ∈ pre, y.id ≠ orderId) ∧ x.id = orderId ∧
        cancelQueue orderId fd seq queue =
          some (if x.OwnedBy fd seq then .erased (pre ++ post) else .refused) := by
  induction queue with
  | nil => exact Or.inl ⟨rfl, fun x hx => absurd hx List.not_mem_nil⟩
  | cons it queue ih =>
    by_cases hid : it.id = orderId
    · refine Or.inr ⟨[], it, queue, rfl, fun y hy => absurd hy List.not_mem_nil, hid, ?_⟩
      simp only [cancelQueue, hid, ne_eq, not_true_eq_false, if_false, List.nil_append]
      by_cases hfd : it.ownerFd = fd <;> by_cases hseq : it.ownerSeq = seq <;>
        simp [Order.OwnedBy, hfd, hseq]
    · rcases ih with ⟨hnone, hall⟩ | ⟨pre, x, post, rfl, hpre, hx, hsome⟩
      · refine Or.inl ⟨by simp only [cancelQueue, ne_eq, hid, not_false_eq_true, if_true, hnone,
          Option.map_none], ?_⟩
        intro x hx
        rcases List.mem_cons.mp hx with rfl | hx
        · exact hid
        · exact hall x hx
      · refine Or.inr ⟨it :: pre, x, post, rfl, ?_, hx, ?_⟩
        · intro y hy
          rcases List.mem_cons.mp hy with rfl | hy
          · exact hid
          · exact hpre y hy
        · simp only [cancelQueue, ne_eq, hid, not_false_eq_true, if_true, hsome, Option.map_some]
          split <;> rfl

/-- The loop over a side's levels finds no order with the id, or stops at the first. -/
theorem cancelLevels_cases (orderId fd : Int) (seq : UInt64)
    (side : OrderedMap Int Queue) :
    (cancelLevels orderId fd seq side = none ∧
        ∀ p queue, side.lookup p = some queue → ∀ x ∈ queue, x.id ≠ orderId) ∨
      ∃ p pre x post, side.lookup p = some (pre ++ x :: post) ∧ (∀ y ∈ pre, y.id ≠ orderId) ∧
        x.id = orderId ∧ cancelLevels orderId fd seq side =
          some (if x.OwnedBy fd seq then .erased (putLevel side p (pre ++ post))
          else .refused) := by
  cases h : cancelLevels orderId fd seq side with
  | none =>
    refine Or.inl ⟨rfl, fun p queue hq => ?_⟩
    have hnone := List.findSome?_eq_none_iff.mp h _ (OrderedMap.mem_entries_iff.mpr hq)
    rcases cancelQueue_cases orderId fd seq queue with
      ⟨-, hall⟩ | ⟨_, _, _, _, _, _, hsome⟩
    · exact hall
    · rw [hsome] at hnone
      cases hnone
  | some hit =>
    obtain ⟨⟨p, queue⟩, hmem, hhit⟩ := List.exists_of_findSome?_eq_some h
    have hlook := OrderedMap.mem_entries_iff.mp hmem
    rcases cancelQueue_cases orderId fd seq queue with
      ⟨hnone, -⟩ | ⟨pre, x, post, rfl, hpre, hx, hsome⟩
    · rw [hnone] at hhit
      cases hhit
    · refine Or.inr ⟨p, pre, x, post, hlook, hpre, hx, ?_⟩
      rw [hsome, Option.map_some] at hhit
      rw [← Option.some.inj hhit]
      split <;> rfl

private theorem cancelBook_cases (orderId fd : Int) (seq : UInt64)
    (ib : InstrumentBook) :
    (cancelBook orderId fd seq ib = none ∧
        ∀ s p queue, (ib.levels s).lookup p = some queue → ∀ x ∈ queue, x.id ≠ orderId) ∨
      ∃ s p pre x post, (ib.levels s).lookup p = some (pre ++ x :: post) ∧
        (∀ y ∈ pre, y.id ≠ orderId) ∧ x.id = orderId ∧ cancelBook orderId fd seq ib =
          some (if x.OwnedBy fd seq then
            .erased (ib.withLevels s (putLevel (ib.levels s) p (pre ++ post))) else .refused) := by
  cases h : cancelBook orderId fd seq ib with
  | none =>
    refine Or.inl ⟨rfl, fun s => ?_⟩
    have hs : s ∈ [Side.buy, Side.sell] := by cases s <;> decide
    have hnone := List.findSome?_eq_none_iff.mp h s hs
    rcases cancelLevels_cases orderId fd seq (ib.levels s) with
      ⟨-, hall⟩ | ⟨_, _, _, _, _, _, _, hsome⟩
    · exact hall
    · rw [hsome] at hnone
      cases hnone
  | some hit =>
    obtain ⟨s, -, hhit⟩ := List.exists_of_findSome?_eq_some h
    rcases cancelLevels_cases orderId fd seq (ib.levels s) with
      ⟨hnone, -⟩ | ⟨p, pre, x, post, hlook, hpre, hx, hsome⟩
    · rw [hnone] at hhit
      cases hhit
    · refine Or.inr ⟨s, p, pre, x, post, hlook, hpre, hx, ?_⟩
      rw [hsome, Option.map_some] at hhit
      rw [← Option.some.inj hhit]
      split <;> rfl

/-- What a cancel request can come to. -/
inductive Cancels (b : OrderBook) (orderId fd : Int) (seq : UInt64) : Bool × OrderBook → Prop
  /-- No resting order has the id. -/
  | missing (h : ∀ k, ∀ x ∈ b.level k, x.id ≠ orderId) : Cancels b orderId fd seq (false, b)
  /-- The order found belongs to another connection. -/
  | refused {k : LevelKey} {x : Order} (hx : x ∈ b.level k) (hid : x.id = orderId)
      (howner : ¬ x.OwnedBy fd seq) : Cancels b orderId fd seq (false, b)
  /-- The order found is taken out of its queue, and an emptied level with it. -/
  | erased {k : LevelKey} {pre post : Queue} {x : Order} {b' : OrderBook}
      (hlevel : b.level k = pre ++ x :: post) (hpre : ∀ y ∈ pre, y.id ≠ orderId)
      (hid : x.id = orderId) (howner : x.OwnedBy fd seq) (hnext : b'.nextId_ = b.nextId_)
      (hat : b'.queue? k = stored (pre ++ post))
      (hother : ∀ k', k' ≠ k → b'.queue? k' = b.queue? k') :
      Cancels b orderId fd seq (true, b')

private theorem queue?_replace_book (b : OrderBook) {k : LevelKey} {ib : InstrumentBook}
    (hib : b.books_.lookup k.instrument = some ib) (queue : Queue) :
    let b' : OrderBook := { b with
      books_ := b.books_.insert k.instrument
        (ib.withLevels k.side (putLevel (ib.levels k.side) k.price queue)) }
    b'.queue? k = stored queue ∧ ∀ k', k' ≠ k → b'.queue? k' = b.queue? k' := by
  obtain ⟨i, s, p⟩ := k
  refine ⟨?_, fun k' hne => ?_⟩
  · simp only [queue?, AList.lookup_insert, Option.bind_some, levels_withLevels, lookup_putLevel]
  · obtain ⟨i', s', p'⟩ := k'
    by_cases hi : i' = i
    · subst hi
      simp only [queue?, AList.lookup_insert, Option.bind_some, hib]
      by_cases hs : s' = s
      · subst hs
        have hp : p' ≠ p := fun he => hne (by rw [he])
        rw [levels_withLevels, lookup_putLevel_ne _ hp]
      · rw [levels_withLevels_ne _ hs]
    · simp only [queue?, AList.lookup_insert_ne hi]

/-- `cancel` meets its description. -/
theorem cancel_cancels (b : OrderBook) (orderId fd : Int) (seq : UInt64) :
    Cancels b orderId fd seq (b.cancel orderId fd seq) := by
  unfold cancel
  cases h : b.books_.entries.findSome? fun kv =>
      (cancelBook orderId fd seq kv.2).map
        (Hit.map fun ib => ({ b with books_ := b.books_.insert kv.1 ib } : OrderBook)) with
  | none =>
    refine .missing fun k x hx => ?_
    cases hib : b.books_.lookup k.instrument with
    | none =>
      simp only [level, queue?, hib, Option.bind_none, Option.getD_none, List.not_mem_nil] at hx
    | some ib =>
      have hnone := List.findSome?_eq_none_iff.mp h _ (UnorderedMap.mem_entries_iff.mpr hib)
      rcases cancelBook_cases orderId fd seq ib with
        ⟨-, hall⟩ | ⟨_, _, _, _, _, _, _, _, hsome⟩
      · cases hq : (ib.levels k.side).lookup k.price with
        | none => simp only [level, queue?, hib, Option.bind_some, hq, Option.getD_none,
            List.not_mem_nil] at hx
        | some queue =>
          refine hall k.side k.price queue hq x ?_
          simpa only [level, queue?, hib, Option.bind_some, hq, Option.getD_some] using hx
      · rw [hsome] at hnone
        cases hnone
  | some hit =>
    obtain ⟨⟨i, ib⟩, hmem, hhit⟩ := List.exists_of_findSome?_eq_some h
    have hib := UnorderedMap.mem_entries_iff.mp hmem
    rcases cancelBook_cases orderId fd seq ib with
      ⟨hnone, -⟩ | ⟨s, p, pre, x, post, hlook, hpre, hx, hsome⟩
    · rw [hnone] at hhit
      cases hhit
    · have hlevel : b.level ⟨i, s, p⟩ = pre ++ x :: post := by
        simp only [level, queue?, hib, Option.bind_some, hlook, Option.getD_some]
      rw [hsome, Option.map_some] at hhit
      rw [← Option.some.inj hhit]
      by_cases howner : x.OwnedBy fd seq
      · obtain ⟨hat, hother⟩ := queue?_replace_book b (k := ⟨i, s, p⟩) hib (pre ++ post)
        rw [if_pos howner]
        exact .erased hlevel hpre hx howner rfl hat hother
      · rw [if_neg howner]
        exact .refused (hlevel ▸ List.mem_append_right _ (List.mem_cons_self ..)) hx howner

/-! ## Removing a connection's orders, and the rest of the interface -/

/-- The loop over one queue splits it into the ids of the owner's orders and the orders of the
others. -/
theorem removeQueue_eq (fd : Int) (queue : Queue) :
    removeQueue fd queue = ((queue.filter fun x => x.ownerFd = fd).map (·.id),
      queue.filter fun x => x.ownerFd ≠ fd) := by
  induction queue with
  | nil => rfl
  | cons it queue ih =>
    by_cases h : it.ownerFd = fd <;> simp [removeQueue, ih, h]

/-- `remove_orders_of` filters every queue and drops those it leaves empty. -/
theorem queue?_removeOrdersOf (b : OrderBook) (fd : Int) (k : LevelKey) :
    (b.removeOrdersOf fd).2.queue? k =
      (b.queue? k).bind fun queue => stored (queue.filter fun x => x.ownerFd ≠ fd) := by
  simp only [removeOrdersOf, queue?, UnorderedMap.lookup_mapValues]
  cases b.books_.lookup k.instrument with
  | none => rfl
  | some ib =>
    have hside : ((keptBook fd ib).levels k.side) = keptLevels fd (ib.levels k.side) := by
      cases k.side <;> rfl
    simp only [Option.map_some, Option.bind_some, hside, keptLevels, OrderedMap.lookup_filterMap,
      removeQueue_eq, stored]

/-- Every queue keeps exactly the other connections' orders. -/
theorem level_removeOrdersOf (b : OrderBook) (fd : Int) (k : LevelKey) :
    (b.removeOrdersOf fd).2.level k = (b.level k).filter fun x => x.ownerFd ≠ fd := by
  rw [level, queue?_removeOrdersOf, level]
  cases b.queue? k with
  | none => rfl
  | some queue => simp only [Option.bind_some, getD_stored, Option.getD_some]

/-- The iteration order of the instruments, which a rehash may change at any time. -/
def rehash (b : OrderBook) (order : List Bytes) : OrderBook :=
  { b with books_ := UnorderedMap.reorder order b.books_ }

@[simp] theorem queue?_rehash (b : OrderBook) (order : List Bytes) (k : LevelKey) :
    (b.rehash order).queue? k = b.queue? k := by
  simp only [rehash, queue?, UnorderedMap.lookup_reorder]

end OrderBook

end SocketExchange
