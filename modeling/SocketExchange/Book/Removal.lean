import SocketExchange.Book.Resting
import SocketExchange.Library.Erasing

/-!
# Removing a connection's orders

The source removes orders with two nested loops that erase what they stand on. The
loops are stated here as they run, iterator by iterator, and come to the walk of the
book's definition, which takes out exactly the orders of one descriptor.
-/

namespace SocketExchange

open Containers Runs Erasing

namespace OrderBook

/-! ## The loops -/

section Loops

variable (ownerFd : Int)

/-- The loop over one queue. -/
def queueLoop (removed : List Int) (queue : Queue) : List Int × Queue :=
  eraseLoop (fun removed it =>
    if it.ownerFd = ownerFd then (removed ++ [it.id], none) else (removed, some it))
    removed queue 0

/-- The loop over the price levels of one side. -/
def levelLoop (removed : List Int) (side : List (Σ _ : Int, Queue)) :
    List Int × List (Σ _ : Int, Queue) :=
  eraseLoop (fun removed lvl =>
    let (removed, queue) := queueLoop ownerFd removed lvl.2
    if queue = [] then (removed, none) else (removed, some ⟨lvl.1, queue⟩))
    removed side 0

/-- What the loops see of an instrument: its name and the levels of both sides. -/
abbrev Table := Bytes × List (Σ _ : Int, Queue) × List (Σ _ : Int, Queue)

/-- The loop over the instruments, which goes through the BUYs and the SELLs of each. -/
def bookLoop (removed : List Int) : List Table → List Int × List Table
  | [] => (removed, [])
  | (instrument, buys, sells) :: tables =>
    let (removed, buys) := levelLoop ownerFd removed buys
    let (removed, sells) := levelLoop ownerFd removed sells
    let (removed, tables) := bookLoop removed tables
    (removed, (instrument, buys, sells) :: tables)

end Loops

/-- The tables of a book. -/
def tables (b : OrderBook) : List Table :=
  b.books_.entries.map fun kv => (kv.1, kv.2.buys.entries, kv.2.sells.entries)

variable {b : OrderBook}

private theorem queueLoop_eq (fd : Int) (removed : List Int) (queue : Queue) :
    queueLoop fd removed queue =
      (removed ++ (removeQueue fd queue).1, (removeQueue fd queue).2) := by
  let emit (it : Order) : List Int := if it.ownerFd = fd then [it.id] else []
  let keep (it : Order) : Option Order := if it.ownerFd = fd then none else some it
  have hwalk : removeQueue fd queue = (queue.flatMap emit, queue.filterMap keep) := by
    induction queue with
    | nil => rfl
    | cons it queue ih => by_cases h : it.ownerFd = fd <;> simp [removeQueue, emit, keep, ih, h]
  rw [queueLoop, eraseLoop_eq emit keep, hwalk]
  intro removed it
  by_cases h : it.ownerFd = fd <;> simp [emit, keep, h]

private theorem levelLoop_eq (fd : Int) (removed : List Int) (side : OrderedMap Int Queue) :
    levelLoop fd removed side.entries =
      (removed ++ removedLevels fd side, (keptLevels fd side).entries) := by
  let keep (lvl : Σ _ : Int, Queue) : Option (Σ _ : Int, Queue) :=
    (stored (removeQueue fd lvl.2).2).map fun queue => ⟨lvl.1, queue⟩
  rw [levelLoop, eraseLoop_eq (fun lvl => (removeQueue fd lvl.2).1) keep]
  · rfl
  · intro removed lvl
    by_cases h : (removeQueue fd lvl.2).2 = [] <;> simp [queueLoop_eq, keep, stored, h]

/-- The loops of the source do what the walk over the book says. -/
theorem bookLoop_eq (b : OrderBook) (fd : Int) :
    bookLoop fd [] b.tables = ((b.removeOrdersOf fd).1, (b.removeOrdersOf fd).2.tables) := by
  have hfrom : ∀ (removed : List Int) (l : List (Σ _ : Bytes, InstrumentBook)),
      bookLoop fd removed (l.map fun kv => (kv.1, kv.2.buys.entries, kv.2.sells.entries)) =
        (removed ++ l.flatMap fun kv => removedLevels fd kv.2.buys ++ removedLevels fd kv.2.sells,
          l.map fun kv => (kv.1, (keptLevels fd kv.2.buys).entries,
            (keptLevels fd kv.2.sells).entries)) := by
    intro removed l
    induction l generalizing removed with
    | nil => simp [bookLoop]
    | cons kv l ih => simp [bookLoop, levelLoop_eq, ih]
  rw [tables, hfrom]
  simp [removeOrdersOf, tables, UnorderedMap.mapValues, keptBook]

/-! ## What is removed and what is kept -/

/-- The orders of the book, instrument by instrument, its BUYs before its SELLs, each side in
price order. -/
theorem orders_eq (b : OrderBook) :
    b.orders = b.books_.entries.flatMap fun kv =>
      kv.2.buys.entries.flatMap (·.2) ++ kv.2.sells.entries.flatMap (·.2) := by
  have hside : ∀ kv ∈ b.books_.entries, ∀ side : Side,
      ((kv.2.levels side).entries.map fun lvl => (⟨kv.1, side, lvl.1⟩ : LevelKey)).flatMap b.level =
        (kv.2.levels side).entries.flatMap (·.2) := by
    intro kv hkv side
    rw [List.flatMap_map]
    refine List.flatMap_congr fun lvl hlvl => ?_
    have hbook : b.books_.lookup kv.1 = some kv.2 := UnorderedMap.mem_entries_iff.mp hkv
    have hqueue : (kv.2.levels side).lookup lvl.1 = some lvl.2 := OrderedMap.mem_entries_iff.mp hlvl
    simp [level, queue?, hbook, hqueue]
  rw [orders, levelKeys, List.flatMap_assoc]
  refine List.flatMap_congr fun kv hkv => ?_
  simp only [List.flatMap_cons, List.flatMap_nil, List.append_nil, List.flatMap_append]
  rw [hside kv hkv .buy, hside kv hkv .sell]
  rfl

private theorem removedLevels_eq (fd : Int) (side : OrderedMap Int Queue) :
    removedLevels fd side =
      ((side.entries.flatMap (·.2)).filter fun x => x.ownerFd = fd).map (·.id) := by
  simp [removedLevels, removeQueue_eq, List.filter_flatMap, List.map_flatMap]

private theorem keptLevels_flatMap (fd : Int) (side : OrderedMap Int Queue) :
    (keptLevels fd side).entries.flatMap (·.2) =
      (side.entries.flatMap (·.2)).filter fun x => x.ownerFd ≠ fd := by
  obtain ⟨l, hl⟩ := side
  simp only [keptLevels, OrderedMap.filterMap, OrderedMap.filterMapEntries]
  clear hl
  induction l with
  | nil => rfl
  | cons lvl l ih =>
    have hkept : (removeQueue fd lvl.2).2 = lvl.2.filter fun x => x.ownerFd ≠ fd :=
      congrArg Prod.snd (removeQueue_eq fd lvl.2)
    rw [List.filterMap_cons, List.flatMap_cons, List.filter_append, ← ih, ← hkept]
    by_cases h : (removeQueue fd lvl.2).2 = [] <;> simp [h]

/-- The ids returned are those of the orders of the descriptor, one for each. -/
theorem removeOrdersOf_ids (b : OrderBook) (fd : Int) :
    (b.removeOrdersOf fd).1 = (b.orders.filter fun x => x.ownerFd = fd).map (·.id) := by
  simp [removeOrdersOf, orders_eq, removedLevels_eq, List.filter_flatMap, List.map_flatMap]

/-- The orders left are those of the other descriptors, in the order they had. -/
theorem orders_removeOrdersOf (b : OrderBook) (fd : Int) :
    (b.removeOrdersOf fd).2.orders = b.orders.filter fun x => x.ownerFd ≠ fd := by
  rw [orders_eq, orders_eq]
  simp only [removeOrdersOf, UnorderedMap.mapValues, List.flatMap_map, keptBook,
    keptLevels_flatMap, List.filter_flatMap, List.filter_append]

/-! ## Repeated removals -/

private theorem keptLevels_eq (fd : Int) (side : OrderedMap Int Queue) :
    keptLevels fd side =
      side.filterMap fun queue => stored (queue.filter fun x => x.ownerFd ≠ fd) := by
  simp only [keptLevels, removeQueue_eq, stored]

/-- The levels that stay when two descriptors' orders go. -/
theorem keptLevels_keptLevels (fd fd' : Int) (side : OrderedMap Int Queue) :
    keptLevels fd' (keptLevels fd side) = side.filterMap fun queue =>
      stored (queue.filter fun x => x.ownerFd ≠ fd ∧ x.ownerFd ≠ fd') := by
  rw [keptLevels_eq, keptLevels_eq, OrderedMap.filterMap_filterMap]
  congr 1
  funext queue
  by_cases h : (queue.filter fun x => x.ownerFd ≠ fd) = []
  · have hboth : (queue.filter fun x => x.ownerFd ≠ fd ∧ x.ownerFd ≠ fd') = [] := by
      rw [List.filter_eq_nil_iff] at h ⊢
      simp_all
    rw [h, hboth]
    rfl
  · have hswap : (fun x : Order => decide (x.ownerFd ≠ fd') && decide (x.ownerFd ≠ fd)) =
        fun x => decide (x.ownerFd ≠ fd ∧ x.ownerFd ≠ fd') := by
      funext x
      rw [Bool.decide_and, Bool.and_comm]
    rw [stored, if_neg h, Option.bind_some, List.filter_filter, hswap]

private theorem keptBook_comm (fd fd' : Int) (ib : InstrumentBook) :
    keptBook fd' (keptBook fd ib) = keptBook fd (keptBook fd' ib) := by
  simp only [keptBook, keptLevels_keptLevels, and_comm]

private theorem keptBook_idem (fd : Int) (ib : InstrumentBook) :
    keptBook fd (keptBook fd ib) = keptBook fd ib := by
  simp only [keptBook, keptLevels_keptLevels, and_self, ← keptLevels_eq]

/-- Orders of different descriptors may be removed in either order. -/
theorem removeOrdersOf_comm (b : OrderBook) (fd fd' : Int) :
    ((b.removeOrdersOf fd).2.removeOrdersOf fd').2 =
      ((b.removeOrdersOf fd').2.removeOrdersOf fd).2 := by
  simp only [removeOrdersOf, UnorderedMap.mapValues_mapValues, keptBook_comm fd fd']

/-- Nothing is left for a second removal. -/
theorem removeOrdersOf_idem (b : OrderBook) (fd : Int) :
    (b.removeOrdersOf fd).2.removeOrdersOf fd = ([], (b.removeOrdersOf fd).2) := by
  apply Prod.ext
  · rw [removeOrdersOf_ids, orders_removeOrdersOf, List.filter_filter, List.map_eq_nil_iff,
      List.filter_eq_nil_iff]
    simp
  · simp only [removeOrdersOf, UnorderedMap.mapValues_mapValues, keptBook_idem]

/-- After any run of the book, removing a descriptor's orders leaves the orders of the others, as
they are and where they are, and no level without orders; it returns the id of every order removed,
once for each; a second removal finds nothing, and removals for two descriptors commute. The loops
of the source compute just that. -/
theorem run_remove_exact (ops : List BookOp) (fd : Int) :
    let b := run apply {} ops
    let r := b.removeOrdersOf fd
    bookLoop fd [] b.tables = (r.1, r.2.tables) ∧
      (r.2.orders = b.orders.filter fun x => x.ownerFd ≠ fd) ∧
      (∀ k, r.2.level k = (b.level k).filter fun x => x.ownerFd ≠ fd) ∧
      (∀ k, r.2.queue? k ≠ some []) ∧ r.2.nextId_ = b.nextId_ ∧
      r.1 = (b.orders.filter fun x => x.ownerFd = fd).map (·.id) ∧
      (DistinctIds ops → r.1.Nodup) ∧
      r.2.removeOrdersOf fd = ([], r.2) ∧
      ∀ fd', (r.2.removeOrdersOf fd').2 = ((b.removeOrdersOf fd').2.removeOrdersOf fd).2 := by
  intro b r
  refine ⟨bookLoop_eq b fd, orders_removeOrdersOf b fd, level_removeOrdersOf b fd,
    nonempty_apply (shape_run ops).nonempty (.removeOrdersOf fd), rfl, removeOrdersOf_ids b fd,
    fun hops => ?_, removeOrdersOf_idem b fd, removeOrdersOf_comm b fd⟩
  have hnodup : (b.orders.map (·.id)).Nodup := (distinct_run hops).nodup_orders
  have hids : r.1 = (b.orders.filter fun x => x.ownerFd = fd).map (·.id) := removeOrdersOf_ids b fd
  rw [hids]
  exact hnodup.sublist (List.filter_sublist.map _)

end OrderBook

end SocketExchange
