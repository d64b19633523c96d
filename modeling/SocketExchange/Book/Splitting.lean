import SocketExchange.Book.Operations

/-!
# Splitting an order

One order, or the same quantity in two orders one after the other: the resting orders
trade the same amounts, at most one of them in two fills, and the same quantity is left
to rest. A resting order is known by how many orders stand behind it, which no trade
changes, as trades take orders from the front.
-/

namespace SocketExchange

open Runs

/-- The order with another id. -/
def Order.withId (o : Order) (i : Int) : Order := { o with id := i }

/-- The same fill over another quantity. -/
def Fill.withQty (f : Fill) (q : Int) : Fill := { f with qty := q }

namespace OrderBook

/-! ## Merging fills -/

/-- The places of the orders of a queue: how many stand behind each. -/
def places : Queue → List Nat
  | [] => []
  | _ :: queue => queue.length :: places queue

/-- The fills of a submit, each with the place of the order it is against. -/
def trades (b : OrderBook) (o : Order) : List (Nat × Fill) :=
  (places (b.level o.key.opposite)).zip (b.submit o).1

/-- Put a fill in front, into the first one if both are against the same resting order and
say the same but for the quantity. -/
def mergeInto (p : Nat × Fill) : List (Nat × Fill) → List (Nat × Fill)
  | [] => [p]
  | p' :: ps =>
    if p'.1 = p.1 ∧ p'.2 = p.2.withQty p'.2.qty then
      (p.1, p.2.withQty (p.2.qty + p'.2.qty)) :: ps
    else p :: p' :: ps

/-- Adjacent fills against the same resting order are one fill of their total. -/
def merged (ps : List (Nat × Fill)) : List (Nat × Fill) := ps.foldr mergeInto []

section Merging

variable {queue : Queue} {fills : List Fill} {p : Nat × Fill} {ps : List (Nat × Fill)}

private theorem lt_of_mem_places {n : Nat} (h : n ∈ places queue) : n < queue.length := by
  induction queue with
  | nil => cases h
  | cons r queue ih =>
    rw [List.length_cons]
    rcases List.mem_cons.mp h with rfl | h
    · exact Nat.lt_succ_self _
    · exact (ih h).trans (Nat.lt_succ_self _)

private theorem mergeInto_of_ne (h : ∀ p' ∈ ps, p'.1 ≠ p.1) : mergeInto p ps = p :: ps := by
  cases ps with
  | nil => rfl
  | cons p' ps =>
    rw [mergeInto, if_neg]
    exact fun hsame => h p' List.mem_cons_self hsame.1

private theorem zip_front (r : Order) (f : Fill) :
    (places (r :: queue)).zip [f] = [(queue.length, f)] := by
  rw [places, List.zip_cons_cons, List.zip_nil_right]

/-- The front order of a queue stands behind none of the others. -/
theorem mergeInto_zip (f : Fill) : mergeInto (queue.length, f) ((places queue).zip fills) =
    (queue.length, f) :: (places queue).zip fills := by
  refine mergeInto_of_ne fun p hp => ?_
  exact (lt_of_mem_places (List.of_mem_zip hp).1).ne

/-- The fills of one submit are all against different orders. -/
theorem merged_zip : merged ((places queue).zip fills) = (places queue).zip fills := by
  induction queue generalizing fills with
  | nil => rfl
  | cons r queue ih =>
    cases fills with
    | nil => rfl
    | cons f fills =>
      have htail : merged ((places queue).zip fills) = (places queue).zip fills := ih
      rw [places, List.zip_cons_cons, merged, List.foldr_cons, ← merged, htail, mergeInto_zip]

end Merging

/-! ## The loop on two parts -/

section Loop

variable {queue : Queue}

private theorem fillOf_resting (o r : Order) (q t : Int) :
    fillOf o (r.withQty q) t = fillOf o r t := by
  unfold fillOf
  cases o.side <;> rfl

private theorem mergeInto_same (o r : Order) (n : Nat) (s t : Int) (ps : List (Nat × Fill)) :
    mergeInto (n, fillOf o r s) ((n, fillOf o r t) :: ps) = (n, fillOf o r (s + t)) :: ps := by
  have hwith : ∀ q, (fillOf o r s).withQty q = fillOf o r q := by
    intro q
    unfold fillOf Fill.withQty
    cases o.side <;> rfl
  rw [mergeInto, hwith, hwith, fillOf_qty, fillOf_qty, if_pos ⟨rfl, rfl⟩]

/-- Two loops, the second on the queue that the first leaves, come to what one loop comes to. -/
structure SameTrades (queue : Queue) (first second whole : List Fill × Order × Queue) : Prop where
  behind : second.2.2 = whole.2.2
  left : first.2.1.qty + second.2.1.qty = whole.2.1.qty
  fills : merged ((places queue).zip first.1 ++ (places first.2.2).zip second.1) =
    (places queue).zip whole.1

/-- The cut falls into the front order: the first part leaves some of it, to which the second
turns next. -/
theorem matchLoop_split_front {a c : Int} (o : Order) {r : Order} (queue : Queue) (ha : 0 < a)
    (hc : 0 < c) (hlt : a < r.qty) :
    SameTrades (r :: queue) (matchLoop (o.withQty a) (r :: queue))
      (matchLoop (o.withQty c) (matchLoop (o.withQty a) (r :: queue)).2.2)
      (matchLoop (o.withQty (a + c)) (r :: queue)) := by
  rw [matchLoop_part ha hlt]
  by_cases hle : r.qty - a ≤ c
  · have hshift : c - (r.qty - a) = a + c - r.qty := by omega
    have hfill : fillOf o (r.withQty (r.qty - a)) (r.qty - a) = fillOf o r (r.qty - a) :=
      fillOf_resting ..
    have hqty : (r.withQty (r.qty - a)).qty = r.qty - a := rfl
    have hsecond : matchLoop (o.withQty c) (r.withQty (r.qty - a) :: queue) =
        (fillOf o (r.withQty (r.qty - a)) (r.withQty (r.qty - a)).qty ::
          (matchLoop (o.withQty (c - (r.withQty (r.qty - a)).qty)) queue).1,
          (matchLoop (o.withQty (c - (r.withQty (r.qty - a)).qty)) queue).2) :=
      matchLoop_whole hc hle
    rw [hqty, hfill, hshift] at hsecond
    rw [hsecond, matchLoop_whole (by omega) (by omega)]
    refine ⟨rfl, zero_add _, ?_⟩
    have htotal : a + (r.qty - a) = r.qty := by omega
    have hrests : merged ((places queue).zip (matchLoop (o.withQty (a + c - r.qty)) queue).1) =
        (places queue).zip (matchLoop (o.withQty (a + c - r.qty)) queue).1 := merged_zip
    rw [zip_front, List.singleton_append, places, List.zip_cons_cons, merged, List.foldr_cons,
      List.foldr_cons, ← merged, hrests, mergeInto_zip, mergeInto_same, htotal, places,
      List.zip_cons_cons]
  · have hlt' : c < r.qty - a := Int.not_le.mp hle
    have hfill : fillOf o (r.withQty (r.qty - a)) c = fillOf o r c := fillOf_resting ..
    have hqty : (r.withQty (r.qty - a)).qty = r.qty - a := rfl
    have hsecond : matchLoop (o.withQty c) (r.withQty (r.qty - a) :: queue) =
        ([fillOf o (r.withQty (r.qty - a)) c], o.withQty 0,
          (r.withQty (r.qty - a)).withQty ((r.withQty (r.qty - a)).qty - c) :: queue) :=
      matchLoop_part hc hlt'
    rw [hqty, hfill, Order.withQty_withQty, Int.sub_sub] at hsecond
    rw [hsecond, matchLoop_part (by omega) (by omega)]
    refine ⟨rfl, rfl, ?_⟩
    rw [zip_front, zip_front, zip_front, List.singleton_append, merged, List.foldr_cons,
      List.foldr_cons, List.foldr_nil]
    exact mergeInto_same ..

/-- Two parts, one after the other, do what the whole does. -/
theorem matchLoop_split (o : Order) {a c : Int} (ha : 0 ≤ a) (hc : 0 < c)
    (hqueue : ∀ r ∈ queue, 0 < r.qty) :
    SameTrades queue (matchLoop (o.withQty a) queue)
      (matchLoop (o.withQty c) (matchLoop (o.withQty a) queue).2.2)
      (matchLoop (o.withQty (a + c)) queue) := by
  induction queue generalizing a with
  | nil => exact ⟨rfl, rfl, rfl⟩
  | cons r queue ih =>
    have hrest : ∀ x ∈ queue, 0 < x.qty := fun x hx => hqueue x (List.mem_cons_of_mem r hx)
    rcases ha.eq_or_lt with hzero | ha
    · -- The first part is nothing.
      rw [← hzero, zero_add, matchLoop_of_nonpos le_rfl]
      exact ⟨rfl, zero_add _, merged_zip⟩
    by_cases hle : r.qty ≤ a
    · -- The first part uses up the front order, as the whole does.
      have hshift : a + c - r.qty = a - r.qty + c := by omega
      have htail := ih (a := a - r.qty) (by omega) hrest
      rw [matchLoop_whole ha hle, matchLoop_whole (by omega) (by omega), hshift]
      refine ⟨htail.behind, htail.left, ?_⟩
      have hmerged := htail.fills
      rw [places, List.zip_cons_cons, List.zip_cons_cons, List.cons_append, merged,
        List.foldr_cons, ← merged, hmerged, mergeInto_zip]
    exact matchLoop_split_front o queue ha hc (Int.not_le.mp hle)

/-- The loop does not look at the id of the incoming order. -/
theorem matchLoop_withId (o : Order) (i q : Int) (queue : Queue) :
    matchLoop ((o.withId i).withQty q) queue = ((matchLoop (o.withQty q) queue).1,
      (matchLoop (o.withQty q) queue).2.1.withId i, (matchLoop (o.withQty q) queue).2.2) := by
  have hfill : ∀ r t, fillOf (o.withId i) r t = fillOf o r t := by
    intro r t
    unfold fillOf Order.withId
    cases o.side <;> rfl
  induction queue generalizing q with
  | nil => rfl
  | cons r queue ih =>
    by_cases hpos : 0 < q
    · by_cases hle : r.qty ≤ q
      · rw [matchLoop_whole hpos hle, matchLoop_whole hpos hle, ih, hfill]
      · have hlt : q < r.qty := Int.not_le.mp hle
        rw [matchLoop_part hpos hlt, matchLoop_part hpos hlt, hfill]
        rfl
    · have hnone : q ≤ 0 := Int.not_lt.mp hpos
      rw [matchLoop_of_nonpos hnone, matchLoop_of_nonpos hnone]
      rfl

end Loop

private theorem sum_remainder {o : Order} (hq : 0 ≤ o.qty) :
    ((remainder o).map (·.qty)).sum = o.qty := by
  unfold remainder
  split
  · rw [List.map_singleton, List.sum_singleton]
  · rw [List.map_nil, List.sum_nil]
    omega

/-- What an incoming order leaves to rest is at most one order, which is its own. -/
theorem remainder_own {o o' : Order} {queue queue' : Queue} {fills : List Fill}
    (h : Matched o queue fills o' queue') :
    (remainder o').length ≤ 1 ∧ ∀ x ∈ remainder o', 0 < x.qty ∧ x = o.withQty x.qty := by
  constructor
  · unfold remainder
    split
    · exact le_rfl
    · exact Nat.zero_le _
  · intro x hx
    obtain ⟨rfl, hpos⟩ := mem_remainder.mp hx
    exact ⟨hpos, h.incoming⟩

/-- What two parts of an order leave to rest is as much as the whole leaves, in at most one order
of each. -/
theorem remainder_split (o : Order) (i : Int) {a c : Int} (ha : 0 < a) (hc : 0 < c)
    {queue : Queue} (hqueue : ∀ r ∈ queue, 0 < r.qty) :
    let later := (o.withId i).withQty c
    let m := matchLoop (o.withQty (a + c)) queue
    let m₁ := matchLoop (o.withQty a) queue
    let m₂ := matchLoop (o.withQty c) m₁.2.2
    let one := remainder m.2.1
    let two := remainder m₁.2.1 ++ remainder (m₂.2.1.withId i)
    (one.map (·.qty)).sum = (two.map (·.qty)).sum ∧ one.length ≤ 1 ∧ two.length ≤ 2 ∧
      (∀ x ∈ one, 0 < x.qty ∧ x = o.withQty x.qty) ∧
      ∀ x ∈ two, 0 < x.qty ∧ (x = o.withQty x.qty ∨ x = later.withQty x.qty) := by
  intro later m m₁ m₂ one two
  have hac : 0 < a + c := by omega
  have hsplit : SameTrades queue m₁ m₂ m := matchLoop_split o ha.le hc hqueue
  have hm : Matched (o.withQty (a + c)) queue m.1 m.2.1 m.2.2 := matchLoop_matched ..
  have hm₁ : Matched (o.withQty a) queue m₁.1 m₁.2.1 m₁.2.2 := matchLoop_matched ..
  have hm₂ : Matched later m₁.2.2 m₂.1 (m₂.2.1.withId i) m₂.2.2 := by
    have hmatched := matchLoop_matched later m₁.2.2
    rwa [matchLoop_withId] at hmatched
  obtain ⟨hlength, hrest⟩ := remainder_own hm
  obtain ⟨hlength₁, hrest₁⟩ := remainder_own hm₁
  obtain ⟨hlength₂, hrest₂⟩ := remainder_own hm₂
  refine ⟨?_, hlength, ?_, hrest, fun x hx => ?_⟩
  · rw [List.map_append, List.sum_append, sum_remainder (hm.incoming_nonneg hac.le),
      sum_remainder (hm₁.incoming_nonneg ha.le), sum_remainder (hm₂.incoming_nonneg hc.le)]
    exact hsplit.left.symm
  · rw [List.length_append]
    omega
  · rcases List.mem_append.mp hx with hx | hx
    · exact ⟨(hrest₁ x hx).1, Or.inl (hrest₁ x hx).2⟩
    · exact ⟨(hrest₂ x hx).1, Or.inr (hrest₂ x hx).2⟩

/-- An order and the same quantity in two orders have the same effect: the opposite queue ends up
the same, the fills are the same once those against one resting order are merged, and the same
quantity joins the own queue, in one order or in two. -/
theorem run_submit_split (ops : List BookOp) (o : Order) (i : Int) {a c : Int} (ha : 0 < a)
    (hc : 0 < c) :
    let b := run apply {} ops
    let whole := b.submit (o.withQty (a + c))
    let first := b.submit (o.withQty a)
    let later := (o.withId i).withQty c
    let second := first.2.submit later
    second.2.queue? o.key.opposite = whole.2.queue? o.key.opposite ∧
      merged (b.trades (o.withQty a) ++ first.2.trades later) = b.trades (o.withQty (a + c)) ∧
      (∃ one two : Queue, whole.2.level o.key = b.level o.key ++ one ∧
        second.2.level o.key = b.level o.key ++ two ∧
        (one.map (·.qty)).sum = (two.map (·.qty)).sum ∧ one.length ≤ 1 ∧ two.length ≤ 2 ∧
        (∀ x ∈ one, 0 < x.qty ∧ x = o.withQty x.qty) ∧
        ∀ x ∈ two, 0 < x.qty ∧ (x = o.withQty x.qty ∨ x = later.withQty x.qty)) ∧
      ∀ k, k ≠ o.key → k ≠ o.key.opposite → second.2.queue? k = whole.2.queue? k := by
  intro b whole first later second
  have hb : Shape b := shape_run ops
  have hac : 0 < a + c := by omega
  let queue := b.level o.key.opposite
  let m := matchLoop (o.withQty (a + c)) queue
  let m₁ := matchLoop (o.withQty a) queue
  let m₂ := matchLoop (o.withQty c) m₁.2.2
  have hsplit : SameTrades queue m₁ m₂ m := matchLoop_split o ha.le hc (hb.positive _)
  have hfirst : first.2.level o.key.opposite = m₁.2.2 := level_submit_opposite b ha
  have hlater : first.2.matching later = (m₂.1, m₂.2.1.withId i, m₂.2.2) := by
    have hloop : first.2.matching later = matchLoop later (first.2.level o.key.opposite) := rfl
    rw [hloop, hfirst]
    exact matchLoop_withId o i c _
  have hopposite : second.2.level o.key.opposite = (first.2.matching later).2.2 :=
    level_submit_opposite first.2 hc
  have hopposite' : whole.2.level o.key.opposite = m.2.2 := level_submit_opposite b hac
  refine ⟨?_, ?_, ?_, fun k hown hopp => ?_⟩
  · rw [((hb.submit _).submit later).queue?_eq_stored, (hb.submit _).queue?_eq_stored,
      hopposite, hopposite', hlater, hsplit.behind]
  · have hfills₁ : b.trades (o.withQty a) = (places queue).zip m₁.1 :=
      congrArg (places queue).zip (submit_fills b ha)
    have hfills₂ : first.2.trades later = (places m₁.2.2).zip m₂.1 := by
      have hsecond : second.1 = (first.2.matching later).1 := submit_fills first.2 hc
      rw [hlater] at hsecond
      have htrades : first.2.trades later =
          (places (first.2.level o.key.opposite)).zip second.1 := rfl
      rw [htrades, hfirst, hsecond]
    have hfills : b.trades (o.withQty (a + c)) = (places queue).zip m.1 :=
      congrArg (places queue).zip (submit_fills b hac)
    rw [hfills₁, hfills₂, hfills]
    exact hsplit.fills
  · have hwhole : whole.2.level o.key = b.level o.key ++ remainder m.2.1 := level_submit_own b hac
    have hown₁ : first.2.level o.key = b.level o.key ++ remainder m₁.2.1 := level_submit_own b ha
    have hown₂ : second.2.level o.key =
        first.2.level o.key ++ remainder (first.2.matching later).2.1 := level_submit_own first.2 hc
    rw [hlater] at hown₂
    refine ⟨_, _, hwhole, ?_, remainder_split o i ha hc (hb.positive _)⟩
    rw [hown₂, hown₁, List.append_assoc]
  · have hsecond : second.2.queue? k = first.2.queue? k :=
      queue?_submit_other first.2 later hown hopp
    have hfirst' : first.2.queue? k = b.queue? k := queue?_submit_other b (o.withQty a) hown hopp
    have hwhole : whole.2.queue? k = b.queue? k :=
      queue?_submit_other b (o.withQty (a + c)) hown hopp
    rw [hsecond, hfirst', hwhole]

/-- The first part ends inside the second SELL, whose two fills are merged. -/
theorem run_submit_split_inside :
    let ops : List BookOp :=
      [.submit ⟨0, .sell, text "JNST", 60, 50, 8, 2⟩, .submit ⟨1, .sell, text "JNST", 40, 50, 9, 3⟩]
    let o : Order := ⟨2, .buy, text "JNST", 0, 50, 7, 1⟩
    let b := run apply {} ops
    merged (b.trades (o.withQty 70) ++
        (b.submit (o.withQty 70)).2.trades ((o.withId 3).withQty 50)) = b.trades (o.withQty 120) ∧
      (b.trades (o.withQty 120)).map (·.2.qty) = [60, 40] := by
  intro ops o b
  have h := run_submit_split ops o 3 (a := 70) (c := 50) (by decide) (by decide)
  exact ⟨h.2.1, by decide⟩

end OrderBook

end SocketExchange
