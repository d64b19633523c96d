import SocketExchange.Book.Identity

/-!
# The quantity that rests under an id

The orders of a book as one list, level by level. No id occurs twice in it, so the
quantity resting under an id is that of one order, or nothing.
-/

namespace SocketExchange

open Containers

namespace OrderBook

/-- The levels stored in the book. -/
def levelKeys (b : OrderBook) : List LevelKey :=
  b.books_.entries.flatMap fun kv =>
    [Side.buy, Side.sell].flatMap fun side =>
      (kv.2.levels side).entries.map fun lvl => ⟨kv.1, side, lvl.1⟩

/-- All resting orders. -/
def orders (b : OrderBook) : List Order := b.levelKeys.flatMap b.level

/-- The total quantity resting under an id. -/
def restingQty (b : OrderBook) (orderId : Int) : Int :=
  ((b.orders.filter fun x => x.id = orderId).map (·.qty)).sum

/-- The ids of the two orders of each fill of a submit: the fills go along the queue. -/
def tradedIds (b : OrderBook) (o : Order) : List Int :=
  ((b.submit o).1.zip (b.level o.key.opposite)).flatMap fun p => [o.id, p.2.id]

variable {b b' : OrderBook} {d d' : Issued} {x : Order}

private theorem mem_levelKeys {k : LevelKey} {queue : Queue} (h : b.queue? k = some queue) :
    k ∈ b.levelKeys := by
  obtain ⟨ib, hib, hqueue⟩ := Option.bind_eq_some_iff.mp h
  refine List.mem_flatMap.mpr ⟨⟨k.instrument, ib⟩, UnorderedMap.mem_entries_iff.mpr hib, ?_⟩
  refine List.mem_flatMap.mpr ⟨k.side, ?_, ?_⟩
  · cases k.side <;> decide
  · exact List.mem_map.mpr ⟨⟨k.price, queue⟩, OrderedMap.mem_entries_iff.mpr hqueue, rfl⟩

/-- The orders of the book are those that rest. -/
theorem mem_orders : x ∈ b.orders ↔ b.Rests x := by
  constructor
  · intro hx
    obtain ⟨k, -, hx⟩ := List.mem_flatMap.mp hx
    exact ⟨k, hx⟩
  · rintro ⟨k, hx⟩
    refine List.mem_flatMap.mpr ⟨k, ?_, hx⟩
    unfold level at hx
    cases hqueue : b.queue? k with
    | none =>
      rw [hqueue] at hx
      cases hx
    | some queue => exact mem_levelKeys hqueue

private theorem nodup_levelKeys (b : OrderBook) : b.levelKeys.Nodup := by
  refine List.nodup_flatMap.mpr ⟨fun kv _ => List.nodup_flatMap.mpr ⟨fun side _ => ?_, ?_⟩, ?_⟩
  · have hkeys := List.nodupKeys_iff_pairwise.mp (kv.2.levels side).nodupKeys
    rw [List.Nodup, List.pairwise_map]
    exact hkeys.imp fun hne he => hne (LevelKey.mk.inj he).2.2
  · refine List.Pairwise.cons ?_ (List.pairwise_singleton ..)
    intro side hside k hk hk'
    rw [List.mem_singleton.mp hside] at hk'
    obtain ⟨lvl, -, rfl⟩ := List.mem_map.mp hk
    obtain ⟨lvl', -, he⟩ := List.mem_map.mp hk'
    cases (LevelKey.mk.inj he).2.1
  · have hkeys := List.nodupKeys_iff_pairwise.mp b.books_.nodupKeys
    refine hkeys.imp fun {kv kv'} hne => ?_
    intro k hk hk'
    obtain ⟨side, -, hk⟩ := List.mem_flatMap.mp hk
    obtain ⟨side', -, hk'⟩ := List.mem_flatMap.mp hk'
    obtain ⟨lvl, -, rfl⟩ := List.mem_map.mp hk
    obtain ⟨lvl', -, he⟩ := List.mem_map.mp hk'
    exact hne (LevelKey.mk.inj he).1.symm

/-- No id occurs twice among the resting orders. -/
theorem Distinct.nodup_orders (h : Distinct b) : (b.orders.map (·.id)).Nodup := by
  rw [orders, List.map_flatMap]
  refine List.nodup_flatMap.mpr ⟨fun k _ => h.nodup k, ?_⟩
  refine b.nodup_levelKeys.imp fun {k k'} hne => ?_
  intro i hi hi'
  obtain ⟨x, hx, rfl⟩ := List.mem_map.mp hi
  obtain ⟨y, hy, he⟩ := List.mem_map.mp hi'
  exact hne (h.apart k k' x y hx hy he.symm)

private theorem filter_id_eq {l : List Order} (hnodup : (l.map (·.id)).Nodup) (hmem : x ∈ l) :
    (l.filter fun y => y.id = x.id) = [x] := by
  induction l with
  | nil => cases hmem
  | cons y l ih =>
    rw [List.map_cons, List.nodup_cons] at hnodup
    obtain ⟨hnot, hnodup⟩ := hnodup
    rw [List.filter_cons]
    rcases List.mem_cons.mp hmem with rfl | hmem
    · have hrest : (l.filter fun y => y.id = x.id) = [] := by
        refine List.filter_eq_nil_iff.mpr fun y hy he => hnot ?_
        exact List.mem_map.mpr ⟨y, hy, of_decide_eq_true he⟩
      rw [if_pos (decide_eq_true rfl), hrest]
    · have hne : ¬ decide (y.id = x.id) = true := fun he =>
        hnot (List.mem_map.mpr ⟨x, hmem, (of_decide_eq_true he).symm⟩)
      rw [if_neg hne]
      exact ih hnodup hmem

/-- The quantity under the id of a resting order is that order's. -/
theorem Identified.restingQty_of_rests (h : Identified b d) (hx : b.Rests x) :
    b.restingQty x.id = x.qty := by
  rw [restingQty, filter_id_eq h.distinct.nodup_orders (mem_orders.mpr hx), List.map_singleton,
    List.sum_singleton]

/-- Nothing rests under an id that no resting order has. -/
theorem restingQty_of_absent {orderId : Int} (h : ∀ x, b.Rests x → x.id ≠ orderId) :
    b.restingQty orderId = 0 := by
  have hnone : (b.orders.filter fun x => x.id = orderId) = [] :=
    List.filter_eq_nil_iff.mpr fun x hx he => h x (mem_orders.mp hx) (of_decide_eq_true he)
  rw [restingQty, hnone, List.map_nil, List.sum_nil]

private theorem Identified.restingQty_nonneg (h : Identified b d) (hshape : Shape b)
    (orderId : Int) :
    0 ≤ b.restingQty orderId := by
  by_cases hrests : ∃ x, b.Rests x ∧ x.id = orderId
  · obtain ⟨x, hx, rfl⟩ := hrests
    rw [h.restingQty_of_rests hx]
    obtain ⟨k, hx⟩ := hx
    exact (hshape.positive k x hx).le
  · rw [restingQty_of_absent fun x hx he => hrests ⟨x, hx, he⟩]

/-- If what rests under an id goes back to what rested under it before, with no less to fill,
the quantity under the id has not grown. -/
theorem Identified.restingQty_le (h : Identified b d) (hshape : Shape b) (h' : Identified b' d')
    {orderId : Int} (hback : ∀ x, b'.Rests x → x.id = orderId →
      ∃ r, b.Rests r ∧ r.id = orderId ∧ x.qty ≤ r.qty) :
    b'.restingQty orderId ≤ b.restingQty orderId := by
  by_cases hrests : ∃ x, b'.Rests x ∧ x.id = orderId
  · obtain ⟨x, hx, rfl⟩ := hrests
    obtain ⟨r, hr, hid, hle⟩ := hback x hx rfl
    rw [h'.restingQty_of_rests hx, ← hid, h.restingQty_of_rests hr]
    exact hle
  · rw [restingQty_of_absent fun x hx he => hrests ⟨x, hx, he⟩]
    exact h.restingQty_nonneg hshape orderId

/-! ## The orders of a fill -/

/-- A fill involves the submitted order and orders that rested in the book. -/
theorem mem_tradedIds {o : Order} {i : Int} (h : i ∈ b.tradedIds o) :
    i = o.id ∨ ∃ x, b.Rests x ∧ x.id = i := by
  obtain ⟨p, hp, hi⟩ := List.mem_flatMap.mp h
  rcases List.mem_cons.mp hi with rfl | hi
  · exact Or.inl rfl
  · rw [List.mem_singleton.mp hi]
    exact Or.inr ⟨p.2, ⟨_, (List.of_mem_zip hp).2⟩, rfl⟩

end OrderBook

end SocketExchange
