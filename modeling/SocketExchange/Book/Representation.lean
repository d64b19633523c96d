import SocketExchange.Book.Resting
import SocketExchange.Common.Parsing

/-!
# The representation of the book

What every reader of the book relies on: levels are never empty, orders stand where
their fields say, in the order of their ids, with fields in range and owners that exist.
Each operation keeps all of it, and the fills that a submit returns are in range too.
-/

namespace SocketExchange

open Runs

/-- A quantity or a price as the wire allows it. -/
def InRange (n : Int) : Prop := 1 ≤ n ∧ n ≤ maxValue

/-- What a submitted order has to satisfy, up to its id and its owner. -/
structure Order.Valid (o : Order) : Prop where
  instrument : isValidInstrument o.instrument = true
  qty : InRange o.qty
  price : InRange o.price

namespace OrderBook

/-- The representation invariant; `given` holds of the sequence numbers that have been given to
connections. -/
structure Represents (given : UInt64 → Prop) (b : OrderBook) : Prop where
  /-- No price level is empty. -/
  nonempty : ∀ k, b.queue? k ≠ some []
  /-- An order rests under its own instrument, side and price. -/
  filed : ∀ k, ∀ x ∈ b.level k, x.key = k
  valid : ∀ k, ∀ x ∈ b.level k, x.Valid
  /-- No two levels share an id. -/
  apart : ∀ k k' x y, x ∈ b.level k → y ∈ b.level k' → x.id = y.id → k = k'
  issued : ∀ k, ∀ x ∈ b.level k, 0 ≤ x.id ∧ x.id < b.nextId_
  /-- Ids strictly increase from the front of a queue to its back. -/
  increasing : ∀ k, ((b.level k).map (·.id)).Pairwise (· < ·)
  owned : ∀ k, ∀ x ∈ b.level k, given x.ownerSeq

variable {given given' : UInt64 → Prop} {b b' : OrderBook}

/-- The empty book is represented. -/
theorem represents_empty (given : UInt64 → Prop) : Represents given {} where
  nonempty _ := by rw [queue?_empty]; exact nofun
  filed k x hx := by rw [level_empty] at hx; cases hx
  valid k x hx := by rw [level_empty] at hx; cases hx
  apart k _ x _ hx := by rw [level_empty] at hx; cases hx
  issued k x hx := by rw [level_empty] at hx; cases hx
  increasing _ := .nil
  owned k x hx := by rw [level_empty] at hx; cases hx

/-- More connections may have been given a number meanwhile. -/
theorem Represents.mono (h : Represents given b) (hgiven : ∀ seq, given seq → given' seq) :
    Represents given' b where
  nonempty := h.nonempty
  filed := h.filed
  valid := h.valid
  apart := h.apart
  issued := h.issued
  increasing := h.increasing
  owned k x hx := hgiven _ (h.owned k x hx)

/-- All resting ids are distinct, over the whole book. -/
theorem Represents.nodup (h : Represents given b) : (b.orders.map (·.id)).Nodup := by
  have hdistinct : Distinct b := ⟨fun k => (h.increasing k).imp ne_of_lt, h.apart⟩
  exact hdistinct.nodup_orders

/-- Losing orders keeps the rest in place. -/
theorem Represents.of_sublist (h : Represents given b)
    (hsub : ∀ k, (b'.level k).Sublist (b.level k)) (hnonempty : ∀ k, b'.queue? k ≠ some [])
    (hnext : b.nextId_ ≤ b'.nextId_) : Represents given b' where
  nonempty := hnonempty
  filed k x hx := h.filed k x ((hsub k).subset hx)
  valid k x hx := h.valid k x ((hsub k).subset hx)
  apart k k' x y hx hy he := h.apart k k' x y ((hsub k).subset hx) ((hsub k').subset hy) he
  issued k x hx := by
    obtain ⟨hnonneg, hlt⟩ := h.issued k x ((hsub k).subset hx)
    exact ⟨hnonneg, hlt.trans_le hnext⟩
  increasing k := (h.increasing k).sublist ((hsub k).map _)
  owned k x hx := h.owned k x ((hsub k).subset hx)

/-- Every operation but a submit keeps the representation. -/
theorem Represents.apply (h : Represents given b) (op : BookOp) (hop : ∀ o, op ≠ .submit o) :
    Represents given (b.apply op) := by
  refine h.of_sublist (b.level_apply_sublist op hop) (nonempty_apply h.nonempty op) ?_
  rw [apply_nextId_]
  split <;> omega

/-! ## Submitting -/

/-- The order may be submitted: its fields are in range, its id is the newest, and its owner's
number has been given out. -/
structure Submittable (given : UInt64 → Prop) (b : OrderBook) (o : Order) : Prop where
  valid : o.Valid
  issued : 0 ≤ o.id ∧ o.id < b.nextId_
  newest : ∀ k, ∀ x ∈ b.level k, x.id < o.id
  owned : given o.ownerSeq

/-- An order that takes over another one's fields but its quantity is valid if its quantity is in
range. -/
private theorem valid_withQty {o x : Order} (h : o.Valid) (he : x = o.withQty x.qty)
    (hpos : 0 < x.qty) (hle : x.qty ≤ o.qty) : x.Valid := by
  rw [he]
  exact ⟨h.instrument, ⟨hpos, hle.trans h.qty.2⟩, h.price⟩

/-- An order that rests after a submit is one that rested, or the submitted one, with no more to
fill than before. -/
private theorem Represents.rests_submit (h : Represents given b) {o x : Order} {k : LevelKey}
    (hx : x ∈ (b.submit o).2.level k) :
    ∃ r, (r ∈ b.level k ∨ (r = o ∧ k = o.key)) ∧ x = r.withQty x.qty ∧ 0 < x.qty ∧
      x.qty ≤ r.qty := by
  have hpositive : ∀ k, ∀ r ∈ b.level k, 0 < r.qty := fun k r hr => (h.valid k r hr).qty.1
  rcases mem_level_submit hx with ⟨r, hr, he, hle, hpos⟩ | ⟨rfl, rfl, hpos⟩
  · exact ⟨r, Or.inl hr, he, hpos (hpositive k r hr), hle⟩
  · have hmatched := b.matching_matched o
    exact ⟨o, Or.inr ⟨rfl, rfl⟩, hmatched.incoming, hpos, hmatched.incoming_le (hpositive _)⟩

/-- A submit of an order that may be submitted keeps the invariant. -/
theorem Represents.submit (h : Represents given b) {o : Order} (ho : Submittable given b o) :
    Represents given (b.submit o).2 where
  nonempty := nonempty_submit h.nonempty o
  filed k x hx := by
    obtain ⟨r, hr | ⟨rfl, rfl⟩, he, -⟩ := h.rests_submit hx
    · rw [he, Order.withQty_key]
      exact h.filed k r hr
    · rw [he, Order.withQty_key]
  valid k x hx := by
    obtain ⟨r, hr | ⟨rfl, -⟩, he, hpos, hle⟩ := h.rests_submit hx
    · exact valid_withQty (h.valid k r hr) he hpos hle
    · exact valid_withQty ho.valid he hpos hle
  apart k k' x y hx hy heq := by
    obtain ⟨r, hr, he, -⟩ := h.rests_submit hx
    obtain ⟨r', hr', he', -⟩ := h.rests_submit hy
    rw [he, he', Order.withQty_id, Order.withQty_id] at heq
    rcases hr with hr | ⟨rfl, rfl⟩ <;> rcases hr' with hr' | ⟨rfl, rfl⟩
    · exact h.apart k k' r r' hr hr' heq
    · exact absurd heq (ho.newest k r hr).ne
    · exact absurd heq (ho.newest k' r' hr').ne'
    · rfl
  issued k x hx := by
    rw [submit_nextId_]
    obtain ⟨r, hr | ⟨rfl, -⟩, he, -⟩ := h.rests_submit hx
    · rw [he, Order.withQty_id]
      exact h.issued k r hr
    · rw [he, Order.withQty_id]
      exact ho.issued
  increasing k := by
    refine List.Pairwise.sublist (b.ids_apply_sublist (.submit o) k) ?_
    refine List.pairwise_append.mpr ⟨h.increasing k, ?_, fun i hi j hj => ?_⟩
    · rw [newIds]
      split
      · exact List.pairwise_singleton _ _
      · exact .nil
    · obtain ⟨_, he, -, rfl⟩ := mem_newIds.mp hj
      obtain ⟨x, hx, rfl⟩ := List.mem_map.mp hi
      cases he
      exact ho.newest k x hx
  owned k x hx := by
    obtain ⟨r, hr | ⟨rfl, -⟩, he, -⟩ := h.rests_submit hx
    · rw [he, Order.withQty_ownerSeq]
      exact h.owned k r hr
    · rw [he, Order.withQty_ownerSeq]
      exact ho.owned

/-- The quantity of a fill is positive and no more than the incoming order's. -/
theorem Matched.fill_qty {o o' : Order} {queue queue' : Queue} {fills : List Fill}
    (h : Matched o queue fills o' queue') (hpos : ∀ r ∈ queue, 0 < r.qty) {f : Fill}
    (hf : f ∈ fills) : 0 < f.qty ∧ f.qty ≤ o.qty ∧ f.price = o.price := by
  induction h with
  | stop => cases hf
  | @whole o o' resting queue queue' fills ho hle _ ih =>
    obtain ⟨hr, hqueue⟩ := List.forall_mem_cons.mp hpos
    rcases List.mem_cons.mp hf with rfl | hf
    · rw [fillOf_qty, fillOf_price]
      exact ⟨hr, hle, rfl⟩
    · obtain ⟨hf, hle', hprice⟩ := ih hqueue hf
      rw [Order.withQty_qty] at hle'
      exact ⟨hf, by omega, hprice⟩
  | part ho =>
    rw [List.mem_singleton.mp hf, fillOf_qty, fillOf_price]
    exact ⟨ho, le_rfl, rfl⟩

/-- The fills of a submit are in range, and what is left of the order is not negative. -/
theorem Represents.fills (h : Represents given b) {o : Order} (ho : o.Valid) :
    (∀ f ∈ (b.submit o).1, InRange f.qty ∧ InRange f.price) ∧ 0 ≤ (b.matching o).2.1.qty := by
  have hmatched := b.matching_matched o
  refine ⟨fun f hf => ?_, hmatched.incoming_nonneg (le_of_lt ho.qty.1)⟩
  rw [submit_fills b ho.qty.1] at hf
  obtain ⟨hpos, hle, hprice⟩ := hmatched.fill_qty (fun r hr => (h.valid _ r hr).qty.1) hf
  rw [hprice]
  exact ⟨⟨hpos, hle.trans ho.qty.2⟩, ho.price⟩

end OrderBook

end SocketExchange
