import SocketExchange.Book.Levels
import SocketExchange.Library.Runs

/-!
# Runs of the book

A run is any list of the book's operations, with a rehash of the instrument table
allowed between any two of them. What one operation can leave at a level is
bounded once, for contents and for ids; the invariants of every run follow.
-/

namespace SocketExchange

open Containers Runs

/-- One step in the life of a book. -/
inductive BookOp where
  | nextId
  | submit (o : Order)
  | cancel (orderId requesterFd : Int) (requesterSeq : UInt64)
  | removeOrdersOf (ownerFd : Int)
  /-- Not a call: the instrument table is rearranged. -/
  | rehash (order : List Bytes)

/-- What the caller is told. -/
inductive BookReply where
  | id (n : Int)
  | fills (fs : List Fill)
  | cancelled (ok : Bool)
  | removed (ids : List Int)
  | silent

namespace OrderBook

/-- The book that an operation leaves. -/
def apply (b : OrderBook) : BookOp → OrderBook
  | .nextId => b.nextId.2
  | .submit o => (b.submit o).2
  | .cancel orderId fd seq => (b.cancel orderId fd seq).2
  | .removeOrdersOf fd => (b.removeOrdersOf fd).2
  | .rehash order => b.rehash order

/-- What an operation answers. -/
def reply (b : OrderBook) : BookOp → BookReply
  | .nextId => .id b.nextId.1
  | .submit o => .fills (b.submit o).1
  | .cancel orderId fd seq => .cancelled (b.cancel orderId fd seq).1
  | .removeOrdersOf fd => .removed (b.removeOrdersOf fd).1
  | .rehash _ => .silent

/-- An order rests in the book, at whatever level. -/
def Rests (b : OrderBook) (x : Order) : Prop := ∃ k, x ∈ b.level k

@[simp] theorem level_empty (k : LevelKey) : ({} : OrderBook).level k = [] := rfl
@[simp] theorem queue?_empty (k : LevelKey) : ({} : OrderBook).queue? k = none := rfl

@[simp] theorem level_nextId (b : OrderBook) (k : LevelKey) : b.nextId.2.level k = b.level k := rfl

@[simp] theorem level_rehash (b : OrderBook) (order : List Bytes) (k : LevelKey) :
    (b.rehash order).level k = b.level k := by
  rw [level, queue?_rehash, level]

@[simp] theorem cancel_nextId_ (b : OrderBook) (orderId fd : Int) (seq : UInt64) :
    (b.cancel orderId fd seq).2.nextId_ = b.nextId_ := by
  generalize hr : b.cancel orderId fd seq = r
  have h := hr ▸ b.cancel_cancels orderId fd seq
  cases h with
  | missing => rfl
  | refused => rfl
  | erased _ _ _ _ hnext => exact hnext

/-- Only `next_id` moves the id counter, and by one. -/
theorem apply_nextId_ (b : OrderBook) (op : BookOp) :
    (b.apply op).nextId_ = b.nextId_ + (match op with | .nextId => 1 | _ => 0) := by
  cases op with
  | nextId => rfl
  | submit o => simp only [apply, submit_nextId_, add_zero]
  | cancel orderId fd seq => simp only [apply, cancel_nextId_, add_zero]
  | removeOrdersOf fd => exact (add_zero _).symm
  | rehash order => exact (add_zero _).symm

/-- A cancel leaves every queue as it was, or with one order taken out. -/
theorem level_cancel_sublist (b : OrderBook) (orderId fd : Int) (seq : UInt64) (k : LevelKey) :
    ((b.cancel orderId fd seq).2.level k).Sublist (b.level k) := by
  generalize hr : b.cancel orderId fd seq = r
  have h := hr ▸ b.cancel_cancels orderId fd seq
  cases h with
  | missing => exact List.Sublist.refl _
  | refused => exact List.Sublist.refl _
  | @erased k' pre post x b' hlevel _ _ _ _ hat hother =>
    by_cases hk : k = k'
    · subst hk
      rw [hlevel, level, hat, getD_stored]
      exact List.Sublist.append_left (List.sublist_cons_self x post) pre
    · rw [level, hother k hk, level]

/-- The levels an operation does not submit to only lose orders. -/
theorem level_apply_sublist (b : OrderBook) (op : BookOp) (hop : ∀ o, op ≠ .submit o)
    (k : LevelKey) : ((b.apply op).level k).Sublist (b.level k) := by
  cases op with
  | nextId => exact List.Sublist.refl _
  | submit o => exact absurd rfl (hop o)
  | cancel orderId fd seq => exact b.level_cancel_sublist orderId fd seq k
  | removeOrdersOf fd =>
    rw [apply, level_removeOrdersOf]
    exact List.filter_sublist
  | rehash order => rw [apply, level_rehash]

/-! ## What a submit leaves at a level -/

/-- Every order left in the queue was in it, with no less to fill. -/
theorem Matched.mem_queue {o o' x : Order} {queue queue' : Queue} {fills : List Fill}
    (h : Matched o queue fills o' queue') (hx : x ∈ queue') :
    ∃ r ∈ queue, x = r.withQty x.qty ∧ x.qty ≤ r.qty ∧ (0 < r.qty → 0 < x.qty) := by
  obtain ⟨used, left, rfl, rfl | ⟨r, tail, q, rfl, hq, hlt, rfl⟩⟩ := h.queue_cases
  · exact ⟨x, List.mem_append_right _ hx, rfl, le_rfl, id⟩
  · rcases List.mem_cons.mp hx with rfl | hx
    · exact ⟨r, List.mem_append_right _ (List.mem_cons_self ..), rfl, hlt.le, fun _ => hq⟩
    · exact ⟨x, List.mem_append_right _ (List.mem_cons_of_mem _ hx), rfl, le_rfl, id⟩

/-- The ids left are the back of the ids there were. -/
theorem Matched.ids_suffix {o o' : Order} {queue queue' : Queue} {fills : List Fill}
    (h : Matched o queue fills o' queue') : queue'.map (·.id) <:+ queue.map (·.id) := by
  obtain ⟨used, left, rfl, rfl | ⟨r, tail, q, rfl, -, -, rfl⟩⟩ := h.queue_cases
  · rw [List.map_append]
    exact List.suffix_append _ _
  · rw [List.map_append]
    exact List.suffix_append _ _

/-- The fills name, one after the other, the orders at the front of the queue. -/
theorem Matched.counterparties {o o' : Order} {queue queue' : Queue} {fills : List Fill}
    (h : Matched o queue fills o' queue') :
    ∃ trades : List (Fill × Order), fills = trades.map (·.1) ∧ trades.map (·.2) <+: queue ∧
      ∀ t ∈ trades, ∃ q, t.1 = fillOf o t.2 q := by
  induction h with
  | stop => exact ⟨[], rfl, List.nil_prefix, fun t ht => by cases ht⟩
  | @whole o o' resting queue queue' fills _ _ _ ih =>
    obtain ⟨trades, rfl, hprefix, hfills⟩ := ih
    refine ⟨(fillOf o resting resting.qty, resting) :: trades, rfl,
      (List.prefix_cons_inj resting).mpr hprefix, ?_⟩
    intro t ht
    rcases List.mem_cons.mp ht with rfl | ht
    · exact ⟨_, rfl⟩
    · obtain ⟨q, hq⟩ := hfills t ht
      exact ⟨q, hq.trans (fillOf_withQty ..)⟩
  | @part o resting queue =>
    refine ⟨[(fillOf o resting o.qty, resting)], rfl,
      (List.prefix_cons_inj resting).mpr List.nil_prefix, ?_⟩
    intro t ht
    rw [List.mem_singleton.mp ht]
    exact ⟨_, rfl⟩

/-- What an order leaves to rest is the order itself, when its quantity is positive. -/
theorem mem_remainder {o x : Order} : x ∈ remainder o ↔ x = o ∧ 0 < o.qty := by
  unfold remainder
  split
  · rename_i h
    simp only [List.mem_singleton, h, and_true]
  · rename_i h
    simp only [List.not_mem_nil, h, and_false]

/-- An order resting after a submit rested before it with no less to fill, or is
the submitted order's remainder. -/
theorem mem_level_submit {b : OrderBook} {o x : Order} {k : LevelKey}
    (hx : x ∈ (b.submit o).2.level k) :
    (∃ r ∈ b.level k, x = r.withQty x.qty ∧ x.qty ≤ r.qty ∧ (0 < r.qty → 0 < x.qty)) ∨
      (k = o.key ∧ x = (b.matching o).2.1 ∧ 0 < x.qty) := by
  by_cases hpos : 0 < o.qty
  · by_cases hown : k = o.key
    · subst hown
      rw [level_submit_own b hpos, List.mem_append] at hx
      rcases hx with hx | hx
      · exact Or.inl ⟨x, hx, rfl, le_rfl, id⟩
      · obtain ⟨rfl, hq⟩ := mem_remainder.mp hx
        exact Or.inr ⟨rfl, rfl, hq⟩
    · by_cases hopp : k = o.key.opposite
      · subst hopp
        rw [level_submit_opposite b hpos] at hx
        exact Or.inl ((b.matching_matched o).mem_queue hx)
      · rw [level_submit_other b o hown hopp] at hx
        exact Or.inl ⟨x, hx, rfl, le_rfl, id⟩
  · rw [submit_of_nonpos b (by omega)] at hx
    exact Or.inl ⟨x, hx, rfl, le_rfl, id⟩

/-- The ids an operation can bring to a level. -/
def newIds (k : LevelKey) : BookOp → List Int
  | .submit o => if k = o.key then [o.id] else []
  | _ => []

/-- An operation keeps the order of the ids at a level and adds at most the id
submitted there, at the back. -/
theorem ids_apply_sublist (b : OrderBook) (op : BookOp) (k : LevelKey) :
    (((b.apply op).level k).map (·.id)).Sublist ((b.level k).map (·.id) ++ newIds k op) := by
  by_cases hop : ∃ o, op = .submit o
  · obtain ⟨o, rfl⟩ := hop
    by_cases hpos : 0 < o.qty
    · by_cases hown : k = o.key
      · subst hown
        simp only [apply, newIds, if_true, level_submit_own b hpos, List.map_append]
        refine List.Sublist.append_left ?_ _
        unfold remainder
        split
        · simp only [List.map_cons, List.map_nil, (b.matching_matched o).incoming_id,
            List.Sublist.refl]
        · exact List.nil_sublist _
      · simp only [apply, newIds, if_neg hown, List.append_nil]
        by_cases hopp : k = o.key.opposite
        · subst hopp
          rw [level_submit_opposite b hpos]
          exact (b.matching_matched o).ids_suffix.sublist
        · rw [level_submit_other b o hown hopp]
    · rw [apply, submit_of_nonpos b (by omega)]
      exact List.sublist_append_left ..
  · have hsub := (b.level_apply_sublist op (fun o he => hop ⟨o, he⟩) k).map (·.id)
    exact hsub.trans (List.sublist_append_left ..)

/-! ## The shape of every book -/

/-- What holds of any book, whatever its callers do. -/
structure Shape (b : OrderBook) : Prop where
  /-- No level is stored without orders. -/
  nonempty : ∀ k, b.queue? k ≠ some []
  /-- An order rests at the level its own fields name. -/
  filed : ∀ k, ∀ x ∈ b.level k, x.key = k
  /-- What rests has something left to fill. -/
  positive : ∀ k, ∀ x ∈ b.level k, 0 < x.qty
  /-- Levels that could trade with each other are not both occupied. -/
  uncrossed : ∀ k, b.level k = [] ∨ b.level k.opposite = []

/-- The empty book is in shape. -/
theorem shape_empty : Shape {} where
  nonempty _ := by rw [queue?_empty]; exact nofun
  filed k x hx := by rw [level_empty] at hx; cases hx
  positive k x hx := by rw [level_empty] at hx; cases hx
  uncrossed _ := Or.inl rfl

/-- Losing orders harms no part of the shape. -/
theorem Shape.of_sublist {b b' : OrderBook} (h : Shape b)
    (hsub : ∀ k, (b'.level k).Sublist (b.level k)) (hne : ∀ k, b'.queue? k ≠ some []) :
    Shape b' where
  nonempty := hne
  filed k x hx := h.filed k x ((hsub k).subset hx)
  positive k x hx := h.positive k x ((hsub k).subset hx)
  uncrossed k := by
    rcases h.uncrossed k with he | he
    · exact Or.inl (List.sublist_nil.mp (he ▸ hsub k))
    · exact Or.inr (List.sublist_nil.mp (he ▸ hsub k.opposite))

/-- After a submit the order's own level and the level it traded with are not both
occupied: a remainder rests only once the opposite queue is exhausted. -/
theorem Shape.uncrossed_submit {b : OrderBook} (h : Shape b) {o : Order} (hpos : 0 < o.qty) :
    (b.submit o).2.level o.key = [] ∨ (b.submit o).2.level o.key.opposite = [] := by
  rw [level_submit_own b hpos, level_submit_opposite b hpos]
  have hm := b.matching_matched o
  rcases hm.exhausted with hdone | hempty
  · rcases h.uncrossed o.key with hown | hopp
    · refine Or.inl ?_
      rw [hown, remainder, if_neg (by omega), List.append_nil]
    · refine Or.inr ?_
      obtain ⟨used, left, hsplit, hleft⟩ := hm.queue_cases
      rw [hopp] at hsplit
      obtain ⟨-, rfl⟩ := List.append_eq_nil_iff.mp hsplit.symm
      rcases hleft with hleft | ⟨r, tail, q, hcons, -⟩
      · exact hleft
      · cases hcons
  · exact Or.inr hempty

/-- A submit stores no level without orders. -/
theorem nonempty_submit {b : OrderBook} (h : ∀ k, b.queue? k ≠ some []) (o : Order)
    (k : LevelKey) : (b.submit o).2.queue? k ≠ some [] := by
  by_cases hpos : 0 < o.qty
  swap
  · rw [submit_of_nonpos b (by omega)]
    exact h k
  by_cases hown : k = o.key
  · subst hown
    exact queue?_submit_own b hpos (h _)
  · by_cases hopp : k = o.key.opposite
    · subst hopp
      rw [queue?_submit_opposite b hpos]
      exact fun he => stored_ne_nil he rfl
    · rw [queue?_submit_other b o hown hopp]
      exact h k

/-- No operation stores a level without orders. -/
theorem nonempty_apply {b : OrderBook} (h : ∀ k, b.queue? k ≠ some []) (op : BookOp)
    (k : LevelKey) : (b.apply op).queue? k ≠ some [] := by
  cases op with
  | nextId => exact h k
  | submit o => exact nonempty_submit h o k
  | cancel orderId fd seq =>
    rw [OrderBook.apply]
    generalize hr : b.cancel orderId fd seq = r
    have hc := hr ▸ b.cancel_cancels orderId fd seq
    cases hc with
    | missing => exact h k
    | refused => exact h k
    | @erased k' pre post x b' _ _ _ _ _ hat hother =>
      by_cases hk : k = k'
      · subst hk
        rw [hat]
        exact fun he => stored_ne_nil he rfl
      · rw [hother k hk]
        exact h k
  | removeOrdersOf fd =>
    rw [OrderBook.apply, queue?_removeOrdersOf]
    cases b.queue? k with
    | none => exact nofun
    | some queue => exact fun he => stored_ne_nil he rfl
  | rehash order =>
    rw [OrderBook.apply, queue?_rehash]
    exact h k

/-- A submit keeps the shape, whatever the order. -/
theorem Shape.submit {b : OrderBook} (h : Shape b) (o : Order) : Shape (b.submit o).2 := by
  by_cases hpos : 0 < o.qty
  swap
  · rwa [submit_of_nonpos b (by omega)]
  refine ⟨nonempty_submit h.nonempty o, fun k x hx => ?_, fun k x hx => ?_, fun k => ?_⟩
  · rcases mem_level_submit hx with ⟨r, hr, he, -⟩ | ⟨rfl, rfl, -⟩
    · rw [he, Order.withQty_key]
      exact h.filed k r hr
    · exact (b.matching_matched o).incoming_key
  · rcases mem_level_submit hx with ⟨r, hr, -, -, hq⟩ | ⟨-, -, hq⟩
    · exact hq (h.positive k r hr)
    · exact hq
  · by_cases hown : k = o.key
    · subst hown
      exact h.uncrossed_submit hpos
    · by_cases hopp : k = o.key.opposite
      · subst hopp
        rw [LevelKey.opposite_opposite]
        exact (h.uncrossed_submit hpos).symm
      · have hopp' : k.opposite ≠ o.key := fun he => hopp (by rw [← he, k.opposite_opposite])
        have hown' : k.opposite ≠ o.key.opposite := fun he => hown (by
          rw [← k.opposite_opposite, he, LevelKey.opposite_opposite])
        rw [level_submit_other b o hown hopp, level_submit_other b o hopp' hown']
        exact h.uncrossed k

/-- Every operation keeps the shape. -/
theorem Shape.apply {b : OrderBook} (h : Shape b) (op : BookOp) : Shape (b.apply op) := by
  have hnonempty := nonempty_apply h.nonempty op
  cases op with
  | nextId => exact ⟨hnonempty, h.filed, h.positive, h.uncrossed⟩
  | submit o => exact h.submit o
  | cancel orderId fd seq => exact h.of_sublist (b.level_cancel_sublist orderId fd seq) hnonempty
  | removeOrdersOf fd =>
    exact h.of_sublist (b.level_apply_sublist (.removeOrdersOf fd) (by rintro _ ⟨⟩)) hnonempty
  | rehash order =>
    exact h.of_sublist (b.level_apply_sublist (.rehash order) (by rintro _ ⟨⟩)) hnonempty

/-- Every run leaves a book in shape. -/
theorem shape_run (ops : List BookOp) : Shape (run apply {} ops) :=
  run_invariant (fun _ op h => h.apply op) shape_empty ops

/-- In a book of this shape a level exists exactly when orders rest there. -/
theorem Shape.queue?_eq_none_iff {b : OrderBook} (h : Shape b) (k : LevelKey) :
    b.queue? k = none ↔ b.level k = [] := by
  unfold level
  cases hq : b.queue? k with
  | none => simp only [Option.getD_none]
  | some queue =>
    have hne : queue ≠ [] := fun he => h.nonempty k (by rw [hq, he])
    simp only [reduceCtorEq, Option.getD_some, hne]

/-- In a book in shape no stored queue is empty. -/
theorem Shape.queue?_eq_stored {b : OrderBook} (h : Shape b) (k : LevelKey) :
    b.queue? k = stored (b.level k) := by
  unfold stored
  split
  · rename_i hempty
    exact (h.queue?_eq_none_iff k).mpr hempty
  · rename_i hne
    unfold level at hne ⊢
    cases hq : b.queue? k with
    | none =>
      rw [hq] at hne
      exact absurd rfl hne
    | some queue => rfl

/-- The book never misses a match: no run leaves both sides of an instrument
resting at one price. -/
theorem run_never_misses_match (ops : List BookOp) :
    let b := run apply {} ops
    (∀ instrument price, b.queue? ⟨instrument, .buy, price⟩ = none ∨
      b.queue? ⟨instrument, .sell, price⟩ = none) ∧
    ∀ x y, b.Rests x → b.Rests y → x.side = .buy → y.side = .sell →
      ¬ (x.instrument = y.instrument ∧ x.price = y.price) := by
  intro b
  have h : Shape b := shape_run ops
  refine ⟨fun instrument price => ?_, ?_⟩
  · rw [h.queue?_eq_none_iff, h.queue?_eq_none_iff]
    exact h.uncrossed ⟨instrument, .buy, price⟩
  · rintro x y ⟨k, hx⟩ ⟨k', hy⟩ hbuy hsell ⟨hi, hp⟩
    have hk := h.filed k x hx
    have hk' := h.filed k' y hy
    have hopp : k' = k.opposite := by
      rw [← hk, ← hk', Order.key, Order.key, LevelKey.opposite, hbuy, hsell, hi, hp]
      rfl
    rcases h.uncrossed k with he | he
    · rw [he] at hx
      cases hx
    · rw [hopp, he] at hy
      cases hy

end OrderBook

end SocketExchange
