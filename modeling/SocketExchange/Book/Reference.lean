import SocketExchange.Book.Identity

/-!
# The flat reference book

The reference keeps one chronological list of resting orders. An incoming order
trades again and again with the oldest listed order of its instrument, the other
side and exactly its price. The nested book refines it: both give the same
answers, and each level is the part of the list that belongs there.
-/

namespace SocketExchange

open Runs OrderBook

/-- The resting orders, oldest first, and the id counter. -/
structure Reference where
  nextId_ : Int := 0
  orders : List Order := []

namespace Reference

/-- The resting order has the incoming order's instrument, the other side and exactly
its price. -/
def Eligible (o r : Order) : Prop :=
  r.instrument = o.instrument ∧ r.side = o.side.opposite ∧ r.price = o.price

instance (o r : Order) : Decidable (Eligible o r) := inferInstanceAs (Decidable (_ ∧ _))

/-- The report of a trade between a buyer's and a seller's order. -/
def tradeFill (buyer seller : Order) (traded : Int) : Fill where
  instrument := buyer.instrument
  qty := traded
  price := buyer.price
  buyerFd := buyer.ownerFd
  buyerSeq := buyer.ownerSeq
  sellFd := seller.ownerFd
  sellSeq := seller.ownerSeq

/-- One trade with the oldest eligible order, which is dropped when it reaches zero. -/
def tradeOldest (o : Order) : List Order → Option (Fill × Order × List Order)
  | [] => none
  | r :: rs =>
    if Eligible o r then
      let traded := min o.qty r.qty
      some (if o.side = .buy then tradeFill o r traded else tradeFill r o traded,
        o.withQty (o.qty - traded),
        if r.qty - traded = 0 then rs else r.withQty (r.qty - traded) :: rs)
    else (tradeOldest o rs).map fun t => (t.1, t.2.1, r :: t.2.2)

/-- How many trades are still possible at most. -/
def pending (o : Order) (rs : List Order) : Nat := rs.length + if 0 < o.qty then 1 else 0

/-- A trade uses up pending quantity, so trading ends. -/
theorem tradeOldest_pending {o o' : Order} {rs rs' : List Order} {f : Fill} (hpos : 0 < o.qty)
    (h : tradeOldest o rs = some (f, o', rs')) : pending o' rs' < pending o rs := by
  induction rs generalizing rs' with
  | nil => cases h
  | cons r rs ih =>
    rw [tradeOldest] at h
    split at h
    · obtain ⟨-, rfl, rfl⟩ := by simpa only [Option.some.injEq, Prod.mk.injEq] using h
      by_cases hzero : r.qty - min o.qty r.qty = 0
      · have hle : (if 0 < (o.withQty (o.qty - min o.qty r.qty)).qty then 1 else 0) ≤ 1 := by
          split <;> omega
        simp only [pending, if_pos hzero, if_pos hpos, List.length_cons]
        omega
      · have hdone : ¬ 0 < (o.withQty (o.qty - min o.qty r.qty)).qty := by
          rw [Order.withQty_qty]
          omega
        simp only [pending, if_neg hzero, if_neg hdone, if_pos hpos, List.length_cons]
        omega
    · obtain ⟨⟨f', o'', rs''⟩, ht, he⟩ := Option.map_eq_some_iff.mp h
      obtain ⟨rfl, rfl, rfl⟩ := by simpa only [Prod.mk.injEq] using he
      have := ih ht
      simp only [pending, List.length_cons] at this ⊢
      omega

/-- Trade with the oldest eligible order until there is none or nothing is left to fill. -/
def trade (o : Order) (rs : List Order) : List Fill × Order × List Order :=
  if _ : 0 < o.qty then
    match _ : tradeOldest o rs with
    | none => ([], o, rs)
    | some (f, o', rs') =>
      let t := trade o' rs'
      (f :: t.1, t.2)
  else ([], o, rs)
termination_by pending o rs
decreasing_by exact tradeOldest_pending ‹0 < o.qty› ‹tradeOldest o rs = some (f, o', rs')›

/-- Trade with the listed orders, and list what is left. -/
def submit (r : Reference) (o : Order) : List Fill × Reference :=
  if o.qty ≤ 0 then ([], r)
  else
    let t := trade o r.orders
    (t.1, { r with orders := if 0 < t.2.1.qty then t.2.2 ++ [t.2.1] else t.2.2 })

/-- Drop the order with the id if both owner fields match. -/
def cancel (r : Reference) (orderId fd : Int) (seq : UInt64) : Bool × Reference :=
  match r.orders.find? fun x => x.id = orderId with
  | none => (false, r)
  | some x =>
    if x.OwnedBy fd seq then
      (true, { r with orders := r.orders.filter fun y => y.id ≠ orderId })
    else (false, r)

/-- The list that an operation leaves. -/
def apply (r : Reference) : BookOp → Reference
  | .nextId => { r with nextId_ := r.nextId_ + 1 }
  | .submit o => (r.submit o).2
  | .cancel orderId fd seq => (r.cancel orderId fd seq).2
  | .removeOrdersOf fd => { r with orders := r.orders.filter fun x => x.ownerFd ≠ fd }
  | .rehash _ => r

/-- What an operation answers. -/
def reply (r : Reference) : BookOp → BookReply
  | .nextId => .id r.nextId_
  | .submit o => .fills (r.submit o).1
  | .cancel orderId fd seq => .cancelled (r.cancel orderId fd seq).1
  | .removeOrdersOf fd => .removed ((r.orders.filter fun x => x.ownerFd = fd).map (·.id))
  | .rehash _ => .silent

/-- The part of a list that belongs at a level. -/
def levelOf (k : LevelKey) (rs : List Order) : List Order := rs.filter fun x => x.key = k

/-! ## Trading in the list and in the queue -/

private theorem eligible_iff {o r : Order} : Eligible o r ↔ r.key = o.key.opposite := by
  simp only [Eligible, Order.key, LevelKey.opposite, LevelKey.mk.injEq]

private theorem tradeFill_eq {o r : Order} (h : Eligible o r) (t : Int) :
    (if o.side = .buy then tradeFill o r t else tradeFill r o t) = fillOf o r t := by
  obtain ⟨hi, -, hp⟩ := h
  cases hs : o.side <;> simp only [fillOf, tradeFill, hs, hi, hp, if_true, reduceCtorEq, if_false]

/-- Without an eligible order nothing trades; else the oldest one does, and the list
changes at its place only. -/
theorem tradeOldest_cases (o : Order) (rs : List Order) :
    (tradeOldest o rs = none ∧ levelOf o.key.opposite rs = []) ∨
      ∃ pre r post, rs = pre ++ r :: post ∧ levelOf o.key.opposite pre = [] ∧
        r.key = o.key.opposite ∧
        tradeOldest o rs = some (fillOf o r (min o.qty r.qty),
          o.withQty (o.qty - min o.qty r.qty), pre ++ (if r.qty - min o.qty r.qty = 0 then post
            else r.withQty (r.qty - min o.qty r.qty) :: post)) := by
  induction rs with
  | nil => exact Or.inl ⟨rfl, rfl⟩
  | cons r rs ih =>
    by_cases h : Eligible o r
    · refine Or.inr ⟨[], r, rs, rfl, rfl, eligible_iff.mp h, ?_⟩
      simp only [tradeOldest, if_pos h, tradeFill_eq h, List.nil_append]
    · have hkey : r.key ≠ o.key.opposite := fun he => h (eligible_iff.mpr he)
      rcases ih with ⟨hnone, hlevel⟩ | ⟨pre, r', post, rfl, hpre, hr', hsome⟩
      · refine Or.inl ⟨by rw [tradeOldest, if_neg h, hnone, Option.map_none], ?_⟩
        rwa [levelOf, List.filter_cons_of_neg (by simpa using hkey)]
      · refine Or.inr ⟨r :: pre, r', post, rfl, ?_, hr', ?_⟩
        · rwa [levelOf, List.filter_cons_of_neg (by simpa using hkey)]
        · rw [tradeOldest, if_neg h, hsome, Option.map_some, List.cons_append]

private theorem levelOf_append (k : LevelKey) (rs rs' : List Order) :
    levelOf k (rs ++ rs') = levelOf k rs ++ levelOf k rs' := List.filter_append ..

private theorem levelOf_cons_of_eq {k : LevelKey} {r : Order} (h : r.key = k) (rs : List Order) :
    levelOf k (r :: rs) = r :: levelOf k rs := List.filter_cons_of_pos (by simpa using h)

private theorem levelOf_cons_of_ne {k : LevelKey} {r : Order} (h : r.key ≠ k) (rs : List Order) :
    levelOf k (r :: rs) = levelOf k rs := List.filter_cons_of_neg (by simpa using h)

private theorem levelOf_reduced {k : LevelKey} {r : Order} (h : r.key = k) (q : Int)
    (post : List Order) :
    levelOf k (if q = 0 then post else r.withQty q :: post) =
      if q = 0 then levelOf k post else r.withQty q :: levelOf k post := by
  split
  · rfl
  · exact levelOf_cons_of_eq (by rwa [Order.withQty_key]) post

private theorem levelOf_reduced_ne {k : LevelKey} {r : Order} (h : r.key ≠ k) (q : Int)
    (post : List Order) :
    levelOf k (if q = 0 then post else r.withQty q :: post) = levelOf k post := by
  split
  · rfl
  · exact levelOf_cons_of_ne (by rwa [Order.withQty_key]) post

/-- An order with nothing left does not trade. -/
theorem trade_of_nonpos {o : Order} (h : ¬ 0 < o.qty) (rs : List Order) :
    trade o rs = ([], o, rs) := by
  rw [trade, dif_neg h]

/-- An order with nobody to trade with does not trade. -/
theorem trade_none {o : Order} {rs : List Order} (h : tradeOldest o rs = none) :
    trade o rs = ([], o, rs) := by
  rw [trade]
  split
  · split
    · rfl
    · rename_i hsome
      rw [h] at hsome
      cases hsome
  · rfl

/-- Otherwise it trades with the oldest, and what is left of it trades on. -/
theorem trade_some {o o' : Order} {rs rs' : List Order} {f : Fill} (hpos : 0 < o.qty)
    (h : tradeOldest o rs = some (f, o', rs')) :
    trade o rs = (f :: (trade o' rs').1, (trade o' rs').2) := by
  rw [trade, dif_pos hpos]
  split
  · rename_i hnone
    rw [h] at hnone
    cases hnone
  · rename_i hsome
    obtain ⟨rfl, rfl, rfl⟩ := by simpa only [h, Option.some.injEq, Prod.mk.injEq] using hsome
    rfl

/-- Trading in the list is the matching loop on the level's part of it, and leaves every
other level's part alone. -/
theorem trade_levelOf (o : Order) (rs : List Order) :
    matchLoop o (levelOf o.key.opposite rs) =
        ((trade o rs).1, (trade o rs).2.1, levelOf o.key.opposite (trade o rs).2.2) ∧
      ∀ k, k ≠ o.key.opposite → levelOf k (trade o rs).2.2 = levelOf k rs := by
  induction o, rs using trade.induct with
  | case1 o rs hpos hnone =>
    rw [trade_none hnone]
    rcases tradeOldest_cases o rs with ⟨-, hlevel⟩ | ⟨_, _, _, _, _, _, hsome⟩
    · simp only [hlevel, matchLoop, implies_true, and_self]
    · rw [hsome] at hnone
      cases hnone
  | case2 o rs hpos f o' rs' hsome ih =>
    rw [trade_some hpos hsome]
    rcases tradeOldest_cases o rs with ⟨hnone, -⟩ | ⟨pre, r, post, rfl, hpre, hr, hsome'⟩
    · rw [hnone] at hsome
      cases hsome
    · obtain ⟨rfl, rfl, rfl⟩ := by
        simpa only [hsome', Option.some.injEq, Prod.mk.injEq] using hsome
      obtain ⟨hloop, hother⟩ := ih
      simp only [Order.withQty_key] at hloop hother
      rw [levelOf_append, hpre, List.nil_append, levelOf_reduced hr] at hloop
      refine ⟨?_, fun k hk => ?_⟩
      · rw [levelOf_append, hpre, List.nil_append, levelOf_cons_of_eq hr,
          matchLoop_turn o r _ hpos]
        simp only [hloop]
      · have hrk : r.key ≠ k := fun he => hk (he ▸ hr)
        rw [hother k hk, levelOf_append, levelOf_append, levelOf_reduced_ne hrk,
          levelOf_cons_of_ne hrk]
  | case3 o rs hpos =>
    rw [trade_of_nonpos hpos]
    refine ⟨?_, fun _ _ => rfl⟩
    cases hl : levelOf o.key.opposite rs with
    | nil => rfl
    | cons r queue => rw [matchLoop, if_neg hpos]

/-! ## The refinement -/

/-- The book holds at every level the level's part of the reference list. -/
structure Refines (b : OrderBook) (r : Reference) : Prop where
  next : b.nextId_ = r.nextId_
  level : ∀ k, b.level k = levelOf k r.orders

/-- The empty book refines the empty reference. -/
theorem refines_empty : Refines {} {} := ⟨rfl, fun _ => rfl⟩

/-- Every listed order rests at its own level. -/
theorem Refines.mem_level {b : OrderBook} {r : Reference} (h : Refines b r) {x : Order}
    (hx : x ∈ r.orders) : x ∈ b.level x.key := by
  rw [h.level, levelOf]
  exact List.mem_filter.mpr ⟨hx, by simp⟩

/-- What rests in the book is among the orders of the reference. -/
theorem Refines.mem_orders {b : OrderBook} {r : Reference} (h : Refines b r) {x : Order}
    {k : LevelKey} (hx : x ∈ b.level k) : x ∈ r.orders := by
  rw [h.level] at hx
  exact List.mem_of_mem_filter hx

/-- The book and the reference return the same fills. -/
theorem Refines.submit_fills {b : OrderBook} {r : Reference} (h : Refines b r) (o : Order) :
    (b.submit o).1 = (r.submit o).1 := by
  by_cases hpos : 0 < o.qty
  · rw [OrderBook.submit_fills b hpos, Reference.submit, if_neg (by omega), matching, h.level,
      (trade_levelOf o r.orders).1]
  · rw [submit_of_nonpos b (by omega), Reference.submit, if_pos (by omega)]

/-- A submit keeps the refinement. -/
theorem Refines.submit {b : OrderBook} {r : Reference} (h : Refines b r) (o : Order) :
    Refines (b.submit o).2 (r.submit o).2 := by
  by_cases hpos : 0 < o.qty
  swap
  · rw [submit_of_nonpos b (by omega), Reference.submit, if_pos (by omega)]
    exact h
  obtain ⟨hloop, hother⟩ := trade_levelOf o r.orders
  have hmatch : b.matching o = ((trade o r.orders).1, (trade o r.orders).2.1,
      levelOf o.key.opposite (trade o r.orders).2.2) := by rw [matching, h.level, hloop]
  have hin : (trade o r.orders).2.1.key = o.key := by
    have := (b.matching_matched o).incoming_key
    rwa [hmatch] at this
  have horders : (r.submit o).2.orders =
      (trade o r.orders).2.2 ++ remainder (trade o r.orders).2.1 := by
    simp only [Reference.submit, if_neg (Int.not_le.mpr hpos), remainder]
    split
    · rfl
    · rw [List.append_nil]
  have hrem : ∀ k, k ≠ o.key → levelOf k (remainder (trade o r.orders).2.1) = [] := by
    intro k hk
    unfold remainder
    split
    · exact levelOf_cons_of_ne (by rw [hin]; exact hk.symm) []
    · rfl
  refine ⟨?_, fun k => ?_⟩
  · rw [submit_nextId_, h.next, Reference.submit, if_neg (by omega)]
  · rw [horders, levelOf_append]
    by_cases hown : k = o.key
    · subst hown
      rw [level_submit_own b hpos, hmatch, hother _ o.key.opposite_ne.symm, h.level]
      congr 1
      unfold remainder
      split
      · exact (levelOf_cons_of_eq hin []).symm
      · rfl
    · rw [hrem k hown, List.append_nil]
      by_cases hopp : k = o.key.opposite
      · subst hopp
        rw [level_submit_opposite b hpos, hmatch]
      · rw [level_submit_other b o hown hopp, hother k hopp, h.level]

/-- The order the reference finds under an id is the one the book holds. -/
theorem Refines.find?_eq {b : OrderBook} {r : Reference} {d : Issued} (h : Refines b r)
    (hid : Identified b d) {k : LevelKey} {x : Order} (hx : x ∈ b.level k) :
    r.orders.find? (fun y => y.id = x.id) = some x := by
  cases hf : r.orders.find? fun y => y.id = x.id with
  | none =>
    have := List.find?_eq_none.mp hf x (h.mem_orders hx)
    simp at this
  | some y =>
    have hy : y.id = x.id := by simpa using List.find?_some hf
    rw [hid.unique (h.mem_level (List.mem_of_find?_eq_some hf)) hx hy]

/-- A cancel answers the same and keeps the refinement, as long as no two orders share an id. -/
theorem Refines.cancel {b : OrderBook} {r : Reference} {d : Issued} (h : Refines b r)
    (hid : Identified b d) (orderId fd : Int) (seq : UInt64) :
    (b.cancel orderId fd seq).1 = (r.cancel orderId fd seq).1 ∧
      Refines (b.cancel orderId fd seq).2 (r.cancel orderId fd seq).2 := by
  cases hok : (b.cancel orderId fd seq).1 with
  | true =>
    obtain ⟨x, ⟨k, hx⟩, rfl, howner⟩ := hid.cancel_iff.mp hok
    rw [Reference.cancel, h.find?_eq hid hx]
    simp only [if_pos howner]
    refine ⟨trivial, ?_, fun k' => ?_⟩
    · exact ((b.apply_nextId_ (.cancel x.id fd seq)).trans (add_zero _)).trans h.next
    · rw [hid.level_cancel hok, h.level, levelOf, levelOf, List.filter_comm]
  | false =>
    rw [cancel_eq_of_refused hok, Reference.cancel]
    cases hf : r.orders.find? fun x => x.id = orderId with
    | none => exact ⟨rfl, h⟩
    | some x =>
      have hx : x.id = orderId := by simpa using List.find?_some hf
      have howner : ¬ x.OwnedBy fd seq := by
        intro howner
        have hrests : b.Rests x := ⟨x.key, h.mem_level (List.mem_of_find?_eq_some hf)⟩
        rw [hid.cancel_iff.mpr ⟨x, hrests, hx, howner⟩] at hok
        cases hok
      simp only [if_neg howner]
      exact ⟨trivial, h⟩

/-- The calls the reference is compared on. -/
def IsCall : BookOp → Prop
  | .removeOrdersOf _ => False
  | _ => True

instance : ∀ op, Decidable (IsCall op)
  | .removeOrdersOf _ => .isFalse id
  | .nextId => .isTrue trivial
  | .submit _ => .isTrue trivial
  | .cancel .. => .isTrue trivial
  | .rehash _ => .isTrue trivial

/-- One call of the server answers the same and keeps the refinement. -/
theorem Refines.apply {b : OrderBook} {r : Reference} {d : Issued} (h : Refines b r)
    (hid : Identified b d) {op : BookOp} (hop : IsCall op) :
    Refines (b.apply op) (r.apply op) ∧ b.reply op = r.reply op := by
  cases op with
  | nextId =>
    exact ⟨⟨congrArg (· + 1) h.next, h.level⟩, congrArg BookReply.id h.next⟩
  | submit o => exact ⟨h.submit o, congrArg BookReply.fills (h.submit_fills o)⟩
  | cancel orderId fd seq =>
    obtain ⟨hok, hrel⟩ := h.cancel hid orderId fd seq
    exact ⟨hrel, congrArg BookReply.cancelled hok⟩
  | removeOrdersOf fd => exact hop.elim
  | rehash order =>
    exact ⟨⟨h.next, fun k => (level_rehash b order k).trans (h.level k)⟩, rfl⟩

/-- The nested book refines the flat list: over any run whose submitted ids are freshly
drawn both answer every call alike, and after every step of it each level is the
subsequence of the reference list that belongs there. -/
theorem run_refines_reference (ops : List BookOp) (hfresh : FreshIds ops)
    (hcalls : ∀ op ∈ ops, IsCall op) :
    outputs OrderBook.apply OrderBook.reply {} ops =
        outputs Reference.apply Reference.reply {} ops ∧
      ∀ done rest, ops = done ++ rest → ∀ k,
        (run OrderBook.apply {} done).level k =
          (run Reference.apply {} done).orders.filter fun x => x.key = k := by
  -- The ids issued so far run beside the reference, and with them the invariant on ids.
  have hsim : ∀ {is : List BookOp}, FreshIds is → (∀ op ∈ is, IsCall op) →
      Refines (run OrderBook.apply {} is) (run Reference.apply {} is) ∧
        outputs OrderBook.apply OrderBook.reply {} is =
          outputs Reference.apply Reference.reply {} is := by
    intro is his hcalls
    have hadm : Admissible (fun (p : Reference × Issued) op => UsesIssued p.2 op ∧ IsCall op)
        (both Reference.apply Issued.step) ({}, {}) is :=
      admissible_and.mpr ⟨admissible_both.mpr his, hcalls⟩
    obtain ⟨⟨hrel, -⟩, hout⟩ := simulation (f := OrderBook.apply) OrderBook.reply
      (fun p : Reference × Issued => p.1.reply)
      (R := fun b p => Refines b p.1 ∧ Identified b p.2)
      (fun b p op h hok => ⟨(h.1.apply h.2 hok.2).1, h.2.apply op hok.1⟩)
      (fun b p op h hok => (h.1.apply h.2 hok.2).2) ⟨refines_empty, identified_empty⟩ hadm
    rw [run_both] at hrel
    rw [outputs_both] at hout
    exact ⟨hrel, hout⟩
  refine ⟨(hsim hfresh hcalls).2, ?_⟩
  rintro done rest rfl k
  have hdone : FreshIds done := (admissible_append.mp hfresh).1
  exact (hsim hdone fun op hop => hcalls op (List.mem_append_left _ hop)).1.level k

/-- A SELL that takes part of a resting BUY, whose rest its owner then cancels. -/
theorem run_refines_reference_partial_fill_cancel :
    let ops : List BookOp :=
      [.nextId, .submit ⟨0, .buy, text "JNST", 100, 50, 7, 1⟩,
        .nextId, .submit ⟨1, .sell, text "JNST", 60, 50, 8, 2⟩, .cancel 0 7 1]
    outputs OrderBook.apply OrderBook.reply {} ops =
        outputs Reference.apply Reference.reply {} ops ∧
      ∀ done rest, ops = done ++ rest → ∀ k,
        (run OrderBook.apply {} done).level k =
          (run Reference.apply {} done).orders.filter fun x => x.key = k :=
  run_refines_reference _ (by decide) (by decide)

end Reference

end SocketExchange
