import SocketExchange.Book.Distinct

/-!
# Relabelling the orders of a book

Rewrite every order of a book in fields that matching only passes on, and perhaps let the
two sides change places. A submit into the rewritten book then gives the rewritten fills
and leaves the rewritten book.
-/

namespace SocketExchange

open Containers

private theorem InstrumentBook.ext_levels {ib ib' : InstrumentBook}
    (h : ∀ s, ib.levels s = ib'.levels s) :
    ib = ib' := by
  have hbuys : ib.buys = ib'.buys := h .buy
  have hsells : ib.sells = ib'.sells := h .sell
  cases ib
  cases ib'
  rw [InstrumentBook.mk.injEq]
  exact ⟨hbuys, hsells⟩

/-- A rewriting of orders that matching does not notice. -/
structure Relabelling where
  order : Order → Order
  fill : Fill → Fill
  side : Side → Side
  side_side : ∀ s, side (side s) = s
  side_opposite : ∀ s, side s.opposite = (side s).opposite
  order_id : ∀ o, (order o).id = o.id
  order_side : ∀ o, (order o).side = side o.side
  order_instrument : ∀ o, (order o).instrument = o.instrument
  order_price : ∀ o, (order o).price = o.price
  order_qty : ∀ o, (order o).qty = o.qty
  order_withQty : ∀ o q, order (o.withQty q) = (order o).withQty q
  fillOf_order : ∀ o r t, OrderBook.fillOf (order o) (order r) t = fill (OrderBook.fillOf o r t)

namespace Relabelling

open OrderBook

variable (g : Relabelling)

/-- A queue with its orders relabelled. -/
def queue (queue : Queue) : Queue := queue.map g.order

/-- The queues of one side, relabelled. -/
def levels (m : OrderedMap Int Queue) : OrderedMap Int Queue := OrderedMap.mapValues g.queue m

/-- The rewritten sides, perhaps in each other's place. -/
def instrumentBook (ib : InstrumentBook) : InstrumentBook where
  buys := g.levels (ib.levels (g.side .buy))
  sells := g.levels (ib.levels (g.side .sell))

/-- The book, relabelled. -/
def book (b : OrderBook) : OrderBook :=
  { b with books_ := UnorderedMap.mapValues g.instrumentBook b.books_ }

/-- An operation with the order that it brings relabelled. -/
def op : BookOp → BookOp
  | .submit o => .submit (g.order o)
  | op => op

private theorem levels_instrumentBook (ib : InstrumentBook) (s : Side) :
    (g.instrumentBook ib).levels (g.side s) = g.levels (ib.levels s) := by
  have hback := g.side_side s
  cases hs : g.side s with
  | buy =>
    rw [hs] at hback
    rw [InstrumentBook.levels, instrumentBook, hback]
  | sell =>
    rw [hs] at hback
    rw [InstrumentBook.levels, instrumentBook, hback]

private theorem instrumentBook_default : g.instrumentBook {} = {} :=
  InstrumentBook.ext_levels fun s => by
    rw [← g.side_side s, levels_instrumentBook, levels_default, levels_default]
    exact OrderedMap.mapValues_empty _

private theorem instrumentBook_withLevels (ib : InstrumentBook) (s : Side)
    (m : OrderedMap Int Queue) :
    g.instrumentBook (ib.withLevels s m) =
      (g.instrumentBook ib).withLevels (g.side s) (g.levels m) := by
  refine InstrumentBook.ext_levels fun s' => ?_
  rw [← g.side_side s']
  by_cases hs : g.side s' = s
  · rw [hs, levels_instrumentBook, levels_withLevels, levels_withLevels]
  · have hne : g.side (g.side s') ≠ g.side s := by
      intro he
      have hback := congrArg g.side he
      rw [g.side_side, g.side_side] at hback
      exact hs hback
    rw [levels_instrumentBook, levels_withLevels_ne _ hs, levels_withLevels_ne _ hne,
      levels_instrumentBook]

private theorem lookup_levels (m : OrderedMap Int Queue) (p : Int) :
    (g.levels m).lookup p = (m.lookup p).map g.queue := OrderedMap.lookup_mapValues ..

private theorem levels_putLevel (m : OrderedMap Int Queue) (p : Int) (queue : Queue) :
    g.levels (putLevel m p queue) = putLevel (g.levels m) p (g.queue queue) := by
  have hempty : g.queue queue = [] ↔ queue = [] := List.map_eq_nil_iff
  unfold putLevel
  by_cases h : queue = []
  · rw [if_pos h, if_pos (hempty.mpr h)]
    exact OrderedMap.mapValues_erase ..
  · rw [if_neg h, if_neg (mt hempty.mp h)]
    exact OrderedMap.mapValues_insert ..

private theorem levels_rest (m : OrderedMap Int Queue) (o : Order) :
    g.levels (rest m o) = rest (g.levels m) (g.order o) := by
  have hinsert := OrderedMap.mapValues_insert g.queue o.price ((m.lookup o.price).getD [] ++ [o]) m
  rw [rest, rest, g.order_price, lookup_levels]
  refine hinsert.trans (congrArg (fun queue => (g.levels m).insert o.price queue) ?_)
  rw [queue, List.map_append]
  cases m.lookup o.price <;> rfl

/-- Where a level of the book stands in the rewritten one. -/
def key (k : LevelKey) : LevelKey := ⟨k.instrument, g.side k.side, k.price⟩

private theorem key_key (k : LevelKey) : g.key (g.key k) = k := by
  rw [key, key, g.side_side]

private theorem queue?_book (b : OrderBook) (k : LevelKey) :
    (g.book b).queue? (g.key k) = (b.queue? k).map g.queue := by
  unfold queue?
  rw [book, key, UnorderedMap.lookup_mapValues]
  cases b.books_.lookup k.instrument with
  | none => rfl
  | some ib => exact (congrArg _ (g.levels_instrumentBook ib k.side)).trans (g.lookup_levels _ _)

private theorem level_book (b : OrderBook) (k : LevelKey) :
    (g.book b).level (g.key k) = g.queue (b.level k) := by
  rw [level, queue?_book, level]
  cases b.queue? k <;> rfl

/-- What rests in the rewritten book is rewritten from what rests. -/
theorem rests_book (b : OrderBook) (y : Order) :
    (g.book b).Rests y ↔ ∃ x, b.Rests x ∧ g.order x = y := by
  constructor
  · rintro ⟨k, hy⟩
    rw [← g.key_key k, level_book] at hy
    obtain ⟨x, hx, rfl⟩ := List.mem_map.mp hy
    exact ⟨x, ⟨_, hx⟩, rfl⟩
  · rintro ⟨x, ⟨k, hx⟩, rfl⟩
    refine ⟨g.key k, ?_⟩
    rw [level_book]
    exact List.mem_map_of_mem hx

/-- Rewriting keeps the ids, and so keeps them distinct. -/
theorem distinct_book {b : OrderBook} (h : Distinct b) : Distinct (g.book b) where
  nodup k := by
    have hids : (g.queue (b.level (g.key k))).map (·.id) = (b.level (g.key k)).map (·.id) := by
      rw [queue, List.map_map]
      exact List.map_congr_left fun x _ => g.order_id x
    rw [← g.key_key k, level_book, hids]
    exact h.nodup _
  apart k k' x y hx hy hid := by
    rw [← g.key_key k, level_book] at hx
    rw [← g.key_key k', level_book] at hy
    obtain ⟨x₀, hx₀, rfl⟩ := List.mem_map.mp hx
    obtain ⟨y₀, hy₀, rfl⟩ := List.mem_map.mp hy
    rw [g.order_id, g.order_id] at hid
    rw [← g.key_key k, h.apart _ _ x₀ y₀ hx₀ hy₀ hid, g.key_key]

/-- Relabelling does not see the order of the table. -/
theorem rehash_book (b : OrderBook) (order : List Bytes) :
    (g.book b).rehash order = g.book (b.rehash order) := by
  simp only [book, rehash, UnorderedMap.mapValues_reorder]

/-! ## Submitting -/

private theorem matchLoop_withQty (o : Order) (q : Int) (queue : Queue) :
    matchLoop ((g.order o).withQty q) (g.queue queue) =
      ((matchLoop (o.withQty q) queue).1.map g.fill, g.order (matchLoop (o.withQty q) queue).2.1,
        g.queue (matchLoop (o.withQty q) queue).2.2) := by
  induction queue generalizing q with
  | nil =>
    rw [← g.order_withQty]
    rfl
  | cons r queue ih =>
    have hcons : g.queue (r :: queue) = g.order r :: g.queue queue := rfl
    rw [hcons]
    by_cases hpos : 0 < q
    · by_cases hle : r.qty ≤ q
      · have hle' : (g.order r).qty ≤ q := by rwa [g.order_qty]
        rw [matchLoop_whole hpos hle, matchLoop_whole hpos hle', g.order_qty, ih, g.fillOf_order]
        rfl
      · have hlt : q < r.qty := Int.not_le.mp hle
        have hlt' : q < (g.order r).qty := by rwa [g.order_qty]
        rw [matchLoop_part hpos hlt, matchLoop_part hpos hlt', g.order_qty, g.fillOf_order,
          ← g.order_withQty, ← g.order_withQty]
        rfl
    · have hnone : q ≤ 0 := Int.not_lt.mp hpos
      rw [matchLoop_of_nonpos hnone, matchLoop_of_nonpos hnone, ← g.order_withQty]
      rfl

/-- The loop does the same to rewritten orders. -/
theorem matchLoop_order (o : Order) (queue : Queue) :
    matchLoop (g.order o) (g.queue queue) = ((matchLoop o queue).1.map g.fill,
      g.order (matchLoop o queue).2.1, g.queue (matchLoop o queue).2.2) := by
  have hself : (g.order o).withQty o.qty = g.order o := (g.order_withQty o o.qty).symm
  have hloop := g.matchLoop_withQty o o.qty queue
  rw [hself] at hloop
  exact hloop

private theorem matchOpposite_order (ib : InstrumentBook) (o : Order) :
    matchOpposite (g.instrumentBook ib) (g.order o) = ((matchOpposite ib o).1.map g.fill,
      g.order (matchOpposite ib o).2.1, g.instrumentBook (matchOpposite ib o).2.2) := by
  have hside : (g.order o).side.opposite = g.side o.side.opposite := by
    rw [g.order_side, g.side_opposite]
  unfold matchOpposite
  rw [hside, levels_instrumentBook, g.order_price, lookup_levels]
  cases (ib.levels o.side.opposite).lookup o.price with
  | none => rfl
  | some queue =>
    simp only [Option.map_some, matchLoop_order, instrumentBook_withLevels, levels_putLevel]

private theorem restRemainder_order (ib : InstrumentBook) (o : Order) :
    restRemainder (g.instrumentBook ib) (g.order o) = g.instrumentBook (restRemainder ib o) := by
  unfold restRemainder
  rw [g.order_qty]
  split
  · rw [instrumentBook_withLevels, g.order_side, levels_instrumentBook, levels_rest]
  · rfl

/-- A submit into the rewritten book. -/
theorem submit_order (b : OrderBook) (o : Order) :
    (g.book b).submit (g.order o) = ((b.submit o).1.map g.fill, g.book (b.submit o).2) := by
  unfold submit
  rw [g.order_qty]
  split
  · rfl
  · have hfetched : ((g.book b).books_.lookup (g.order o).instrument).getD {} =
        g.instrumentBook ((b.books_.lookup o.instrument).getD {}) := by
      rw [book, UnorderedMap.lookup_mapValues, g.order_instrument]
      cases b.books_.lookup o.instrument with
      | none => exact g.instrumentBook_default.symm
      | some ib => rfl
    simp only [hfetched, matchOpposite_order, restRemainder_order]
    rw [book, book, g.order_instrument, UnorderedMap.mapValues_insert]

/-! ## Cancelling -/

/-- A search in rewritten orders finds nothing if the search in the orders does, and takes out
the same as it does. -/
def Follows {α β : Type} (f : α → β) (h : Option (Hit α)) (h' : Option (Hit β)) : Prop :=
  (h = none → h' = none) ∧ ∀ a, h = some (.erased a) → h' = some (.erased (f a))

/-- A hit follows another through two functions that commute. -/
theorem Follows.map {α β γ δ : Type} {f : α → β} {f' : γ → δ} {l : α → γ} {l' : β → δ}
    {h : Option (Hit α)} {h' : Option (Hit β)} (hfollows : Follows f h h')
    (hcommute : ∀ a, l' (f a) = f' (l a)) :
    Follows f' (h.map (Hit.map l)) (h'.map (Hit.map l')) := by
  constructor
  · intro hnone
    rw [hfollows.1 (Option.map_eq_none_iff.mp hnone), Option.map_none]
  · intro c hc
    obtain ⟨hit, hhit, he⟩ := Option.map_eq_some_iff.mp hc
    cases hit with
    | refused => cases he
    | erased a =>
      obtain rfl := Hit.erased.inj he
      rw [hfollows.2 a hhit, Option.map_some, Hit.map, hcommute]

/-- A search along a list. -/
theorem Follows.findSome? {α β γ δ : Type} {f : γ → δ} {φ : α → β} {F : α → Option (Hit γ)}
    {G : β → Option (Hit δ)} {l : List α} (h : ∀ x ∈ l, Follows f (F x) (G (φ x))) :
    Follows f (l.findSome? F) ((l.map φ).findSome? G) := by
  induction l with
  | nil => exact ⟨fun _ => rfl, nofun⟩
  | cons x l ih =>
    have hx := h x List.mem_cons_self
    have hl := ih fun y hy => h y (List.mem_cons_of_mem x hy)
    rw [List.map_cons, List.findSome?_cons, List.findSome?_cons]
    cases hF : F x with
    | none =>
      rw [hx.1 hF]
      exact hl
    | some hit =>
      refine ⟨nofun, fun c hc => ?_⟩
      obtain rfl := Option.some.inj hc
      rw [hx.2 c hF]

/-- The sides may be searched in their new order if that is the old one, or if there is nothing
to be found on one of them. -/
theorem findSome?_sides {γ : Type} {F : Side → Option γ} (h : g.side = id ∨ ∃ s, F s = none) :
    ([Side.buy, Side.sell].map g.side).findSome? F = [Side.buy, Side.sell].findSome? F := by
  rcases h with hid | ⟨s, hs⟩
  · rw [hid, List.map_id]
  · have hopposite : g.side .sell = (g.side .buy).opposite := g.side_opposite .buy
    rw [List.map_cons, List.map_cons, List.map_nil, hopposite]
    cases g.side .buy with
    | buy => rfl
    | sell =>
      simp only [Side.opposite, List.findSome?_cons, List.findSome?_nil]
      cases s with
      | buy => rw [hs]
      | sell => rw [hs]

section Cancel

variable {orderId fd fd' : Int} {seq seq' : UInt64}
  (howner : ∀ x : Order, x.OwnedBy fd seq → (g.order x).OwnedBy fd' seq')

include howner

private theorem cancelQueue_order (queue : Queue) :
    Follows g.queue (cancelQueue orderId fd seq queue)
      (cancelQueue orderId fd' seq' (g.queue queue)) := by
  induction queue with
  | nil => exact ⟨fun _ => rfl, by simp [cancelQueue]⟩
  | cons x queue ih =>
    have hcons : g.queue (x :: queue) = g.order x :: g.queue queue := rfl
    rw [hcons, cancelQueue, cancelQueue, g.order_id]
    by_cases hid : x.id = orderId
    · rw [if_neg (not_not.mpr hid), if_neg (not_not.mpr hid)]
      by_cases hown : x.OwnedBy fd seq
      · obtain ⟨hfd, hseq⟩ := hown
        obtain ⟨hfd', hseq'⟩ := howner x ⟨hfd, hseq⟩
        rw [if_neg (not_not.mpr hfd), if_neg (not_not.mpr hseq), if_neg (not_not.mpr hfd'),
          if_neg (not_not.mpr hseq')]
        refine ⟨by simp, fun left hleft => ?_⟩
        obtain rfl := Hit.erased.inj (Option.some.inj hleft)
        rfl
      · have hrefused : (if x.ownerFd ≠ fd then some (Hit.refused : Hit Queue)
            else if x.ownerSeq ≠ seq then some .refused else some (.erased queue)) =
              some .refused := by
          split
          · rfl
          · split
            · rfl
            · rename_i hfd hseq
              exact absurd ⟨not_not.mp hfd, not_not.mp hseq⟩ hown
        rw [hrefused]
        exact ⟨by simp, by simp⟩
    · rw [if_pos hid, if_pos hid]
      exact ih.map fun _ => rfl

private theorem cancelLevels_order (m : OrderedMap Int Queue) :
    Follows g.levels (cancelLevels orderId fd seq m)
      (cancelLevels orderId fd' seq' (g.levels m)) := by
  refine Follows.findSome? fun lvl _ => ?_
  exact (g.cancelQueue_order howner lvl.2).map fun queue => (g.levels_putLevel ..).symm

/-- The search of an instrument meets the rewritten sides in their new places. -/
theorem cancelBook_order {ib : InstrumentBook}
    (hsearch : g.side = id ∨
      ∃ s, cancelLevels orderId fd' seq' ((g.instrumentBook ib).levels s) = none) :
    Follows g.instrumentBook (cancelBook orderId fd seq ib)
      (cancelBook orderId fd' seq' (g.instrumentBook ib)) := by
  let found (s : Side) : Option (Hit InstrumentBook) :=
    (cancelLevels orderId fd' seq' ((g.instrumentBook ib).levels s)).map
      (Hit.map fun m => (g.instrumentBook ib).withLevels s m)
  have hswap : ([Side.buy, Side.sell].map g.side).findSome? found =
      [Side.buy, Side.sell].findSome? found := by
    refine g.findSome?_sides (hsearch.imp_right ?_)
    rintro ⟨s, hs⟩
    refine ⟨s, ?_⟩
    simp only [found, hs, Option.map_none]
  have hfound : cancelBook orderId fd' seq' (g.instrumentBook ib) =
      ([Side.buy, Side.sell].map g.side).findSome? found := hswap.symm
  rw [cancelBook, hfound]
  refine Follows.findSome? fun s _ => ?_
  simp only [found, levels_instrumentBook]
  exact (g.cancelLevels_order howner (ib.levels s)).map fun m =>
    (g.instrumentBook_withLevels ib s m).symm

/-- A cancel that succeeds also succeeds in the rewritten book, and leaves it rewritten. -/
theorem cancel_order {b : OrderBook}
    (hsearch : g.side = id ∨ ∀ i ib, b.books_.lookup i = some ib →
      ∃ s, cancelLevels orderId fd' seq' ((g.instrumentBook ib).levels s) = none)
    (hok : (b.cancel orderId fd seq).1 = true) :
    (g.book b).cancel orderId fd' seq' = (true, g.book (b.cancel orderId fd seq).2) := by
  have hfollows : Follows g.book
      (b.books_.entries.findSome? fun kv => (cancelBook orderId fd seq kv.2).map
        (Hit.map fun ib => ({ b with books_ := b.books_.insert kv.1 ib } : OrderBook)))
      ((g.book b).books_.entries.findSome? fun kv => (cancelBook orderId fd' seq' kv.2).map
        (Hit.map fun ib =>
          ({ g.book b with books_ := (g.book b).books_.insert kv.1 ib } : OrderBook))) := by
    refine Follows.findSome? fun kv hkv => ?_
    have hib := UnorderedMap.mem_entries_iff.mp hkv
    refine (g.cancelBook_order howner (hsearch.imp_right fun h => h kv.1 kv.2 hib)).map fun ib => ?_
    simp only [book, UnorderedMap.mapValues_insert]
  unfold cancel at hok ⊢
  cases hhit : b.books_.entries.findSome? fun kv => (cancelBook orderId fd seq kv.2).map
      (Hit.map fun ib => ({ b with books_ := b.books_.insert kv.1 ib } : OrderBook)) with
  | none =>
    rw [hhit] at hok
    cases hok
  | some hit =>
    cases hit with
    | refused =>
      rw [hhit] at hok
      cases hok
    | erased b' => rw [hfollows.2 b' hhit]

end Cancel

/-! ## Removing -/

section Remove

variable {fd fd' : Int} (howner : ∀ x, (g.order x).ownerFd = fd' ↔ x.ownerFd = fd)

include howner

private theorem removeQueue_order (queue : Queue) :
    removeQueue fd' (g.queue queue) =
      ((removeQueue fd queue).1, g.queue (removeQueue fd queue).2) := by
  induction queue with
  | nil => rfl
  | cons it rest ih =>
    have hcons : g.queue (it :: rest) = g.order it :: g.queue rest := rfl
    rw [hcons, removeQueue, removeQueue, ih]
    by_cases h : it.ownerFd = fd
    · simp only [if_pos h, if_pos ((howner it).mpr h), g.order_id]
    · simp only [if_neg h, if_neg (mt (howner it).mp h)]
      rfl

private theorem removedLevels_order (m : OrderedMap Int Queue) :
    removedLevels fd' (g.levels m) = removedLevels fd m := by
  simp only [removedLevels, levels, OrderedMap.mapValues, List.flatMap_map,
    g.removeQueue_order howner]

private theorem keptLevels_order (m : OrderedMap Int Queue) :
    g.levels (keptLevels fd m) = keptLevels fd' (g.levels m) := by
  refine OrderedMap.mapValues_filterMap (fun queue => ?_) m
  have hempty : g.queue (removeQueue fd queue).2 = [] ↔ (removeQueue fd queue).2 = [] :=
    List.map_eq_nil_iff
  simp only [g.removeQueue_order howner, hempty]
  split <;> rfl

private theorem keptBook_order (hside : g.side = id) (ib : InstrumentBook) :
    g.instrumentBook (keptBook fd ib) = keptBook fd' (g.instrumentBook ib) := by
  have hlevels : ∀ ib s, (g.instrumentBook ib).levels s = g.levels (ib.levels s) := by
    intro ib s
    have hat := g.levels_instrumentBook ib s
    rwa [hside] at hat
  have hkept : ∀ fd ib s, (keptBook fd ib).levels s = keptLevels fd (ib.levels s) := by
    intro fd ib s
    cases s <;> rfl
  refine InstrumentBook.ext_levels fun s => ?_
  rw [hlevels, hkept, hkept, hlevels, g.keptLevels_order howner]

/-- If the rewriting tells the owner's orders from the others, a removal takes the same orders
out of the rewritten book. -/
theorem removeOrdersOf_order (hside : g.side = id) (b : OrderBook) :
    (g.book b).removeOrdersOf fd' =
      ((b.removeOrdersOf fd).1, g.book (b.removeOrdersOf fd).2) := by
  rw [removeOrdersOf, removeOrdersOf, Prod.mk.injEq]
  constructor
  · have hbuys : ∀ ib, (g.instrumentBook ib).buys = g.levels ib.buys := by
      intro ib
      rw [instrumentBook, hside]
      rfl
    have hsells : ∀ ib, (g.instrumentBook ib).sells = g.levels ib.sells := by
      intro ib
      rw [instrumentBook, hside]
      rfl
    simp only [book, UnorderedMap.mapValues, List.flatMap_map, hbuys, hsells,
      g.removedLevels_order howner]
  · simp only [book, OrderBook.mk.injEq, true_and]
    apply AList.ext
    simp only [UnorderedMap.mapValues, List.map_map]
    refine List.map_congr_left fun kv _ => ?_
    simp only [Function.comp_apply, g.keptBook_order howner hside]

end Remove

end Relabelling

end SocketExchange
