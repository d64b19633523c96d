import SocketExchange.Book.Operations

/-!
# A submit in closed form

An incoming order sweeps the opposite level from its front. What it trades with each
resting order, where it stops and what it leaves there are told by the sums of the
quantities resting in front.
-/

namespace SocketExchange

open Runs

namespace OrderBook

/-- The quantity resting in the first orders of a queue. -/
def prefixQty (queue : Queue) (n : Nat) : Int := ((queue.take n).map (·.qty)).sum

/-- How many orders of a queue an incoming quantity reaches: those with less in front. -/
def reached (q : Int) (queue : Queue) : Nat :=
  (List.range queue.length).countP fun n => prefixQty queue n < q

/-- How many orders of a queue an incoming quantity uses up. -/
def usedUp (q : Int) (queue : Queue) : Nat :=
  (List.range queue.length).countP fun n => prefixQty queue (n + 1) ≤ q

/-- The queue that has lost a quantity from its front. -/
def swept (q : Int) (queue : Queue) : Queue :=
  match queue.drop (usedUp q queue) with
  | [] => []
  | r :: left => r.withQty (prefixQty queue (usedUp q queue + 1) - q) :: left

/-! ## Sums along a queue -/

private theorem countP_range_succ (p : Nat → Bool) (n : Nat) :
    (List.range (n + 1)).countP p =
      (List.range n).countP (fun i => p (i + 1)) + if p 0 = true then 1 else 0 := by
  rw [List.range_succ_eq_map, List.countP_cons, List.countP_map]
  rfl

section Sums

variable {q : Int} {r : Order} {queue : Queue} {n : Nat}

@[simp] theorem prefixQty_zero (queue : Queue) : prefixQty queue 0 = 0 := rfl

@[simp] theorem prefixQty_cons : prefixQty (r :: queue) (n + 1) = r.qty + prefixQty queue n := by
  rw [prefixQty, List.take_succ_cons, List.map_cons, List.sum_cons, prefixQty]

private theorem prefixQty_nonneg (hpos : ∀ r ∈ queue, 0 < r.qty) (n : Nat) :
    0 ≤ prefixQty queue n := by
  induction queue generalizing n with
  | nil => simp only [prefixQty, List.take_nil, List.map_nil, List.sum_nil, le_refl]
  | cons r queue ih =>
    cases n with
    | zero => exact le_rfl
    | succ n =>
      have hr := hpos r List.mem_cons_self
      have hsum := ih (fun x hx => hpos x (List.mem_cons_of_mem r hx)) n
      rw [prefixQty_cons]
      omega

private theorem reached_cons :
    reached q (r :: queue) = reached (q - r.qty) queue + if 0 < q then 1 else 0 := by
  have hshift : ∀ n, prefixQty (r :: queue) (n + 1) < q ↔ prefixQty queue n < q - r.qty := by
    intro n
    rw [prefixQty_cons]
    omega
  have hfront : decide (prefixQty (r :: queue) 0 < q) = true ↔ 0 < q := decide_eq_true_iff
  rw [reached, List.length_cons, countP_range_succ, reached]
  simp only [hshift, hfront]

private theorem usedUp_cons :
    usedUp q (r :: queue) = usedUp (q - r.qty) queue + if r.qty ≤ q then 1 else 0 := by
  have hshift : ∀ n,
      prefixQty (r :: queue) (n + 1 + 1) ≤ q ↔ prefixQty queue (n + 1) ≤ q - r.qty := by
    intro n
    rw [prefixQty_cons]
    omega
  have hfront : prefixQty (r :: queue) (0 + 1) = r.qty := by
    rw [prefixQty_cons, prefixQty_zero, add_zero]
  rw [usedUp, List.length_cons, countP_range_succ, usedUp]
  simp only [hshift, hfront, decide_eq_true_eq]

/-- Nothing is reached without a quantity. -/
theorem reached_of_nonpos (hpos : ∀ r ∈ queue, 0 < r.qty) (hq : q ≤ 0) : reached q queue = 0 := by
  rw [reached, List.countP_eq_zero]
  intro n _ hlt
  have hsum := prefixQty_nonneg hpos n
  have hlt' : prefixQty queue n < q := of_decide_eq_true hlt
  omega

private theorem usedUp_of_nonpos (hpos : ∀ r ∈ queue, 0 < r.qty) (hq : q ≤ 0) :
    usedUp q queue = 0 := by
  rw [usedUp, List.countP_eq_zero]
  intro n hn hle
  cases queue with
  | nil => cases hn
  | cons r queue =>
    have hle' : prefixQty (r :: queue) (n + 1) ≤ q := of_decide_eq_true hle
    have hr := hpos r List.mem_cons_self
    have hsum := prefixQty_nonneg (fun x hx => hpos x (List.mem_cons_of_mem r hx)) n
    rw [prefixQty_cons] at hle'
    omega

/-- Taking nothing leaves the queue. -/
theorem swept_zero (hpos : ∀ r ∈ queue, 0 < r.qty) : swept 0 queue = queue := by
  rw [swept, usedUp_of_nonpos hpos le_rfl, List.drop_zero]
  cases queue with
  | nil => rfl
  | cons r queue =>
    rw [prefixQty_cons, prefixQty_zero, add_zero, sub_zero]
    rfl

/-- A front order that is used up leaves the queue. -/
theorem swept_whole (hle : r.qty ≤ q) : swept q (r :: queue) = swept (q - r.qty) queue := by
  rw [swept, swept, usedUp_cons, if_pos hle, List.drop_succ_cons]
  cases queue.drop (usedUp (q - r.qty) queue) with
  | nil => rfl
  | cons r' left =>
    have hleft : prefixQty (r :: queue) (usedUp (q - r.qty) queue + 1 + 1) - q =
        prefixQty queue (usedUp (q - r.qty) queue + 1) - (q - r.qty) := by
      rw [prefixQty_cons]
      omega
    simp only [hleft]

/-- A front order that is not used up keeps its place with what is left of it. -/
theorem swept_part (hpos : ∀ x ∈ queue, 0 < x.qty) (hlt : q < r.qty) :
    swept q (r :: queue) = r.withQty (r.qty - q) :: queue := by
  have hnone : usedUp (q - r.qty) queue = 0 := usedUp_of_nonpos hpos (by omega)
  have hused : usedUp q (r :: queue) = 0 := by
    rw [usedUp_cons, hnone, if_neg (by omega)]
  rw [swept, hused, List.drop_zero]
  simp only [prefixQty_cons, prefixQty_zero, add_zero]

end Sums

/-! ## The loop -/

section Loop

variable {o o' : Order} {queue queue' : Queue} {fills : List Fill}

private theorem Matched.length_fills (h : Matched o queue fills o' queue')
    (hpos : ∀ r ∈ queue, 0 < r.qty) : fills.length = reached o.qty queue := by
  induction h with
  | @stop o queue hstop =>
    rcases hstop with hq | rfl
    · exact (reached_of_nonpos hpos hq).symm
    · rfl
  | whole hq _ _ ih =>
    have htail := ih fun r hr => hpos r (List.mem_cons_of_mem _ hr)
    rw [List.length_cons, htail, reached_cons, if_pos hq]
    rfl
  | @part o resting queue hq hlt =>
    have hnone : reached (o.qty - resting.qty) queue = 0 :=
      reached_of_nonpos (fun r hr => hpos r (List.mem_cons_of_mem _ hr)) (by omega)
    rw [reached_cons, hnone, if_pos hq]
    rfl

/-- Each fill is with the order at its place in the queue, for what is left by those in front. -/
theorem Matched.getElem?_fills (h : Matched o queue fills o' queue') {n : Nat} {f : Fill}
    (hf : fills[n]? = some f) : ∃ resting, queue[n]? = some resting ∧
      f = fillOf o resting (min resting.qty (o.qty - prefixQty queue n)) := by
  induction h generalizing n with
  | stop => cases hf
  | @whole o o' resting queue queue' fills hq hle _ ih =>
    cases n with
    | zero =>
      refine ⟨resting, rfl, ?_⟩
      rw [prefixQty_zero, sub_zero, min_eq_left hle]
      exact (Option.some.inj hf).symm
    | succ n =>
      obtain ⟨resting', hresting, rfl⟩ := ih hf
      refine ⟨resting', hresting, ?_⟩
      rw [fillOf_withQty, Order.withQty_qty, prefixQty_cons, sub_sub]
  | @part o resting queue hq hlt =>
    cases n with
    | zero =>
      refine ⟨resting, rfl, ?_⟩
      rw [prefixQty_zero, sub_zero, min_eq_right hlt.le]
      exact (Option.some.inj hf).symm
    | succ n => cases hf

/-- What is executed is the smaller of what comes in and what rests. -/
theorem Matched.executed (h : Matched o queue fills o' queue') (hpos : ∀ r ∈ queue, 0 < r.qty)
    (hq : 0 ≤ o.qty) : (fills.map (·.qty)).sum = min o.qty (prefixQty queue queue.length) ∧
      o'.qty = o.qty - (fills.map (·.qty)).sum := by
  induction h with
  | @stop o queue hstop =>
    have hsum := prefixQty_nonneg hpos queue.length
    rcases hstop with hzero | rfl
    · simp only [List.map_nil, List.sum_nil, sub_zero, and_true]
      omega
    · simp only [List.map_nil, List.sum_nil, List.length_nil, prefixQty_zero, sub_zero, and_true]
      omega
  | @whole o o' resting queue queue' fills _ hle _ ih =>
    have htail := ih (fun r hr => hpos r (List.mem_cons_of_mem _ hr))
      (by rw [Order.withQty_qty]; omega)
    rw [Order.withQty_qty] at htail
    simp only [List.map_cons, List.sum_cons, fillOf_qty, List.length_cons, prefixQty_cons]
    omega
  | @part o resting queue hpos' hlt =>
    have hsum := prefixQty_nonneg (fun r hr => hpos r (List.mem_cons_of_mem _ hr)) queue.length
    simp only [List.map_cons, List.sum_cons, fillOf_qty, List.map_nil, List.sum_nil,
      List.length_cons, prefixQty_cons, Order.withQty_qty]
    omega

private theorem Matched.swept (h : Matched o queue fills o' queue') (hpos : ∀ r ∈ queue, 0 < r.qty)
    (hq : 0 ≤ o.qty) : queue' = swept o.qty queue := by
  induction h with
  | @stop o queue hstop =>
    rcases hstop with hzero | rfl
    · rw [Int.le_antisymm hzero hq, swept_zero hpos]
    · rfl
  | @whole o o' resting queue queue' fills _ hle _ ih =>
    rw [swept_whole hle]
    exact ih (fun r hr => hpos r (List.mem_cons_of_mem _ hr)) (by rw [Order.withQty_qty]; omega)
  | @part o resting queue _ hlt =>
    exact (swept_part (fun r hr => hpos r (List.mem_cons_of_mem _ hr)) hlt).symm

end Loop

/-- A submit trades with the opposite queue from its front: as many fills as there are orders with
less than the incoming quantity in front of them, each for the smaller of what the order holds and
what those in front have left. The queue loses exactly what is executed, a remainder joins the
back of the order's own queue, and every other level stays. -/
theorem run_submit_closed_form (ops : List BookOp) (o : Order) :
    let b := run apply {} ops
    let queue := b.level o.key.opposite
    let total := prefixQty queue queue.length
    let r := b.submit o
    (o.qty ≤ 0 → r = ([], b)) ∧
      (0 < o.qty →
        r.1.length = reached o.qty queue ∧
        (∀ n f, r.1[n]? = some f → ∃ resting, queue[n]? = some resting ∧
          f.qty = min resting.qty (o.qty - prefixQty queue n) ∧
          f.instrument = o.instrument ∧ f.price = o.price ∧
          f.party o.side = (o.ownerFd, o.ownerSeq) ∧
          f.party resting.side = (resting.ownerFd, resting.ownerSeq)) ∧
        (r.1.map (·.qty)).sum = min o.qty total ∧
        r.2.queue? o.key.opposite = stored (swept o.qty queue) ∧
        r.2.queue? o.key =
          stored (b.level o.key ++ if total < o.qty then [o.withQty (o.qty - total)] else []) ∧
        r.2.nextId_ = b.nextId_ ∧
        ∀ k, k ≠ o.key → k ≠ o.key.opposite → r.2.queue? k = b.queue? k) := by
  intro b queue total r
  have hb : Shape b := shape_run ops
  have hmatched : Matched o queue (b.matching o).1 (b.matching o).2.1 (b.matching o).2.2 :=
    b.matching_matched o
  have hresting : ∀ x ∈ queue, 0 < x.qty := hb.positive _
  refine ⟨submit_of_nonpos b, fun hpos => ?_⟩
  have hfills : r.1 = (b.matching o).1 := submit_fills b hpos
  have hr : Shape r.2 := hb.submit o
  obtain ⟨hexecuted, hleft⟩ := hmatched.executed hresting hpos.le
  refine ⟨?_, fun n f hf => ?_, ?_, ?_, ?_, submit_nextId_ b o, fun k => queue?_submit_other b o⟩
  · rw [hfills]
    exact hmatched.length_fills hresting
  · rw [hfills] at hf
    obtain ⟨resting, hat, rfl⟩ := hmatched.getElem?_fills hf
    have hside : resting.side = o.side.opposite :=
      congrArg LevelKey.side (hb.filed _ resting (List.mem_of_getElem? hat))
    refine ⟨resting, hat, fillOf_qty .., fillOf_instrument .., fillOf_price ..,
      fillOf_party_own .., ?_⟩
    rw [hside]
    exact fillOf_party_opposite ..
  · rw [hfills]
    exact hexecuted
  · have hopposite : r.2.queue? o.key.opposite = stored (b.matching o).2.2 :=
      queue?_submit_opposite b hpos
    rw [hopposite, hmatched.swept hresting hpos.le]
  · have hown : r.2.level o.key = b.level o.key ++ remainder (b.matching o).2.1 :=
      level_submit_own b hpos
    have hremainder : remainder (b.matching o).2.1 =
        if total < o.qty then [o.withQty (o.qty - total)] else [] := by
      rw [hexecuted] at hleft
      rw [remainder, hmatched.incoming, Order.withQty_qty, hleft]
      by_cases hmore : total < o.qty
      · rw [if_pos hmore, min_eq_right hmore.le, if_pos (by omega)]
      · rw [if_neg hmore, min_eq_left (Int.not_lt.mp hmore), if_neg (by omega)]
    rw [hr.queue?_eq_stored, hown, hremainder]

end OrderBook

end SocketExchange
