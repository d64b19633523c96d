import SocketExchange.Book.Identity
import Mathlib.Algebra.BigOperators.Group.List.Basic

/-!
# Conservation of quantity

The books are kept by account: one owner on one side of one instrument at one
price. What the owner submits to the account is either executed, or still resting,
or has been taken out again. Each fill is entered twice, to the buyer's account and
to the seller's, even where both belong to one connection.
-/

namespace SocketExchange

open Runs OrderBook

/-- One owner's dealings at one level. -/
structure Account where
  fd : Int
  seq : UInt64
  key : LevelKey
  deriving DecidableEq

/-- The account a fill is entered in on a side. -/
def Fill.account (f : Fill) (s : Side) : Account :=
  ⟨(f.party s).1, (f.party s).2, ⟨f.instrument, s, f.price⟩⟩

/-- The fills a caller is told of. -/
def BookReply.fillList : BookReply → List Fill
  | .fills fs => fs
  | _ => []

namespace Account

/-- The fill names the account's owner on the account's side, at its instrument and price. -/
def NamedBy (a : Account) (f : Fill) : Prop :=
  f.party a.key.side = (a.fd, a.seq) ∧ f.instrument = a.key.instrument ∧ f.price = a.key.price

instance (a : Account) (f : Fill) : Decidable (a.NamedBy f) :=
  inferInstanceAs (Decidable (_ ∧ _))

/-- What a fill executes for the account. -/
def executed (a : Account) (f : Fill) : Int := if a.NamedBy f then f.qty else 0

/-- The quantity of an order at the account's level, if it is the owner's. -/
def share (a : Account) (x : Order) : Int := if x.OwnedBy a.fd a.seq then x.qty else 0

/-- The quantity an operation submits to the account. -/
def submitted (a : Account) : BookOp → Int
  | .submit o => if o.key = a.key then a.share o else 0
  | _ => 0

/-- The quantity a reply's fills execute for the account. -/
def filled (a : Account) (r : BookReply) : Int := (r.fillList.map a.executed).sum

/-- The quantity resting for the account. -/
def resting (a : Account) (b : OrderBook) : Int := ((b.level a.key).map a.share).sum

/-- The remaining quantity of the account's orders that an operation takes out of the book. -/
def withdrawn (a : Account) (b : OrderBook) : BookOp → Int
  | .cancel orderId fd seq =>
    if (b.cancel orderId fd seq).1 = true then
      (((b.level a.key).filter fun x => x.id = orderId).map a.share).sum
    else 0
  | .removeOrdersOf fd => (((b.level a.key).filter fun x => x.ownerFd = fd).map a.share).sum
  | _ => 0

/-! ## What one fill executes -/

variable {a : Account} {o r : Order} {t : Int}

@[simp] theorem share_withQty (q : Int) :
    a.share (o.withQty q) = if o.OwnedBy a.fd a.seq then q else 0 := rfl

/-- At the incoming order's own level its owner is credited. -/
theorem executed_own (h : a.key = o.key) :
    a.executed (fillOf o r t) = if o.OwnedBy a.fd a.seq then t else 0 := by
  have hnamed : a.NamedBy (fillOf o r t) ↔ o.OwnedBy a.fd a.seq := by
    simp only [NamedBy, h, Order.key, fillOf_party_own, fillOf_instrument, fillOf_price,
      Prod.mk.injEq, and_self, and_true, Order.OwnedBy]
  simp only [executed, hnamed, fillOf_qty]

/-- At the level traded with the resting order's owner is credited. -/
theorem executed_opposite (h : a.key = o.key.opposite) :
    a.executed (fillOf o r t) = if r.OwnedBy a.fd a.seq then t else 0 := by
  have hnamed : a.NamedBy (fillOf o r t) ↔ r.OwnedBy a.fd a.seq := by
    simp only [NamedBy, h, Order.key, LevelKey.opposite, fillOf_party_opposite, fillOf_instrument,
      fillOf_price, Prod.mk.injEq, and_self, and_true, Order.OwnedBy]
  simp only [executed, hnamed, fillOf_qty]

/-- No other level is concerned. -/
theorem executed_other (hown : a.key ≠ o.key) (hopp : a.key ≠ o.key.opposite) :
    a.executed (fillOf o r t) = 0 := by
  refine if_neg ?_
  rintro ⟨-, hi, hp⟩
  rw [fillOf_instrument] at hi
  rw [fillOf_price] at hp
  rcases a.key.side.eq_or_eq_opposite o.side with hs | hs
  · exact hown (by rw [Order.key, hi, hp, ← hs])
  · exact hopp (by rw [Order.key, LevelKey.opposite, hi, hp, ← hs])

end Account

/-! ## What the matching loop executes -/

namespace OrderBook

/-- Against resting orders of positive quantity every fill is a trade of at least one. -/
theorem Matched.mem_fills {o o' : Order} {queue queue' : Queue} {fills : List Fill}
    (h : Matched o queue fills o' queue') (hpos : ∀ r ∈ queue, 0 < r.qty) {f : Fill}
    (hf : f ∈ fills) : ∃ r ∈ queue, ∃ t, f = fillOf o r t ∧ 1 ≤ t := by
  induction h with
  | stop => cases hf
  | @whole o o' resting queue queue' fills _ _ _ ih =>
    rcases List.mem_cons.mp hf with rfl | hf
    · exact ⟨resting, List.mem_cons_self .., _, rfl, hpos _ (List.mem_cons_self ..)⟩
    · obtain ⟨r, hr, t, rfl, ht⟩ := ih (fun r hr => hpos r (List.mem_cons_of_mem _ hr)) hf
      exact ⟨r, List.mem_cons_of_mem _ hr, t, fillOf_withQty .., ht⟩
  | @part o resting queue hqty _ =>
    obtain rfl := List.mem_singleton.mp hf
    exact ⟨resting, List.mem_cons_self .., _, rfl, hqty⟩

/-- The incoming order's quantity goes into the fills and the remainder. -/
theorem Matched.incoming_conserved {o o' : Order} {queue queue' : Queue} {fills : List Fill}
    (h : Matched o queue fills o' queue') : o.qty = (fills.map (·.qty)).sum + o'.qty := by
  induction h with
  | stop => simp only [List.map_nil, List.sum_nil, zero_add]
  | whole _ _ _ ih =>
    rw [Order.withQty_qty] at ih
    simp only [List.map_cons, List.sum_cons, fillOf_qty]
    omega
  | part => simp only [List.map_cons, List.map_nil, List.sum_cons, List.sum_nil, fillOf_qty,
      Order.withQty_qty]; omega

/-- What one owner has resting in the queue goes into the owner's fills and the queue left. -/
theorem Matched.queue_conserved {a : Account} {o o' : Order} {queue queue' : Queue}
    {fills : List Fill} (h : Matched o queue fills o' queue') (ha : a.key = o.key.opposite) :
    (queue.map a.share).sum = (fills.map a.executed).sum + (queue'.map a.share).sum := by
  induction h with
  | stop => simp only [List.map_nil, List.sum_nil, zero_add]
  | @whole o _ resting _ _ _ _ _ _ ih =>
    have htail := ih (by rwa [Order.withQty_key])
    simp only [List.map_cons, List.sum_cons, Account.executed_opposite ha, Account.share]
    omega
  | @part o resting queue =>
    simp only [List.map_cons, List.map_nil, List.sum_cons, List.sum_nil,
      Account.executed_opposite ha, Account.share_withQty]
    rw [Account.share]
    split <;> omega

/-- Every fill of a submit trades at least one. -/
theorem Shape.submit_fills_pos {b : OrderBook} (h : Shape b) (o : Order) :
    ∀ f ∈ (b.submit o).1, 1 ≤ f.qty := by
  intro f hf
  by_cases hpos : 0 < o.qty
  · rw [submit_fills b hpos] at hf
    obtain ⟨r, -, t, rfl, ht⟩ := (b.matching_matched o).mem_fills (h.positive _) hf
    rwa [fillOf_qty]
  · rw [submit_of_nonpos b (by omega)] at hf
    cases hf

end OrderBook

/-! ## The balance of one step and of a run -/

namespace Account

variable {a : Account} {b : OrderBook} {d : Issued}

private theorem resting_split (p : Order → Bool) (xs : List Order) :
    (xs.map a.share).sum =
      ((xs.filter fun x => ! p x).map a.share).sum + ((xs.filter p).map a.share).sum := by
  induction xs with
  | nil => rfl
  | cons x xs ih =>
    cases hp : p x <;> simp [hp] <;> omega

/-- A submit moves its quantity into fills and into the book. -/
theorem submit_balance (h : Shape b) {o : Order} (hpos : 0 < o.qty) :
    a.submitted (.submit o) + a.resting b =
      a.filled (.fills (b.submit o).1) + a.resting (b.submit o).2 := by
  have hm := b.matching_matched o
  simp only [submitted, resting, filled, BookReply.fillList, submit_fills b hpos]
  by_cases hown : a.key = o.key
  · -- The account is the incoming order's: its quantity is filled or rests at the back.
    have hfills : ((b.matching o).1.map a.executed).sum =
        if o.OwnedBy a.fd a.seq then ((b.matching o).1.map (·.qty)).sum else 0 := by
      have heach : ∀ f ∈ (b.matching o).1,
          a.executed f = if o.OwnedBy a.fd a.seq then f.qty else 0 := by
        intro f hf
        obtain ⟨r, -, t, rfl, -⟩ := hm.mem_fills (h.positive _) hf
        rw [executed_own hown, fillOf_qty]
      rw [List.map_congr_left heach]
      split
      · rfl
      · simp
    have hrem : ((remainder (b.matching o).2.1).map a.share).sum =
        if o.OwnedBy a.fd a.seq then (b.matching o).2.1.qty else 0 := by
      have hnonneg := hm.incoming_nonneg hpos.le
      rw [hm.incoming, remainder, Order.withQty_qty]
      split
      · simp only [List.map_cons, List.map_nil, List.sum_cons, List.sum_nil, share_withQty,
          add_zero]
      · have hzero : (b.matching o).2.1.qty = 0 := by omega
        simp only [List.map_nil, List.sum_nil, hzero, ite_self]
    have hin := hm.incoming_conserved
    rw [if_pos hown.symm, hown, level_submit_own b hpos, List.map_append, List.sum_append, hfills,
      hrem, share]
    split <;> omega
  · rw [if_neg (Ne.symm hown), zero_add]
    by_cases hopp : a.key = o.key.opposite
    · -- The account rests at the level traded with.
      have hqueue := hm.queue_conserved hopp
      rwa [hopp, level_submit_opposite b hpos]
    · have hfills : ((b.matching o).1.map a.executed).sum = 0 := by
        refine List.sum_eq_zero fun q hq => ?_
        obtain ⟨f, hf, rfl⟩ := List.mem_map.mp hq
        obtain ⟨r, -, t, rfl, -⟩ := hm.mem_fills (h.positive _) hf
        exact executed_other hown hopp
      rw [hfills, zero_add, level_submit_other b o hown hopp]

/-- One operation of positive quantity turns what is submitted and what rested into what
is executed or withdrawn and what rests. -/
theorem apply_balance (h : Shape b) (hid : Identified b d) {op : BookOp}
    (hop : ∀ o, op = .submit o → 0 < o.qty) :
    a.submitted op + a.resting b =
      (a.filled (b.reply op) + a.withdrawn b op) + a.resting (b.apply op) := by
  cases op with
  | nextId => simp only [submitted, filled, reply, BookReply.fillList, withdrawn, List.map_nil,
      List.sum_nil, zero_add, resting, apply, level_nextId]
  | submit o =>
    rw [submit_balance h (hop o rfl)]
    simp only [reply, withdrawn, add_zero, apply]
  | cancel orderId fd seq =>
    simp only [submitted, filled, reply, BookReply.fillList, withdrawn, List.map_nil,
      List.sum_nil, zero_add, resting, apply]
    cases hok : (b.cancel orderId fd seq).1 with
    | true =>
      have hsplit := resting_split (a := a) (fun x => x.id = orderId) (b.level a.key)
      simp only [hid.level_cancel hok, if_true, ne_eq, decide_not]
      omega
    | false => rw [cancel_eq_of_refused hok, if_neg Bool.false_ne_true, zero_add]
  | removeOrdersOf fd =>
    have hsplit := resting_split (a := a) (fun x => x.ownerFd = fd) (b.level a.key)
    simp only [submitted, filled, reply, BookReply.fillList, withdrawn, List.map_nil,
      List.sum_nil, zero_add, resting, apply, level_removeOrdersOf, ne_eq, decide_not]
    omega
  | rehash order => simp only [submitted, filled, reply, BookReply.fillList, withdrawn,
      List.map_nil, List.sum_nil, zero_add, resting, apply, level_rehash]

/-- Quantity is conserved over every run of orders with fresh ids and positive quantity:
what an owner submitted to an account is what all fills together executed for it, what
rests for it in the end, and what was taken out for it. No fill is empty, and each is
entered with its whole quantity once on each side, whoever the two parties are. -/
theorem run_conserves_quantity (ops : List BookOp) (hfresh : FreshIds ops)
    (hqty : ∀ o, .submit o ∈ ops → 0 < o.qty) :
    (∀ a : Account, (ops.map a.submitted).sum =
      (((outputs OrderBook.apply OrderBook.reply {} ops).flatMap BookReply.fillList).map
        a.executed).sum + a.resting (run OrderBook.apply {} ops) +
      (outputs OrderBook.apply a.withdrawn {} ops).sum) ∧
    ∀ f ∈ (outputs OrderBook.apply OrderBook.reply {} ops).flatMap BookReply.fillList,
      1 ≤ f.qty ∧ ∀ s, (f.account s).executed f = f.qty := by
  constructor
  · intro a
    have hadm : Admissible (fun (p : OrderBook × Issued) op =>
        UsesIssued p.2 op ∧ ∀ o, op = .submit o → 0 < o.qty)
        (both OrderBook.apply Issued.step) ({}, {}) ops :=
      admissible_and.mpr ⟨admissible_both.mpr hfresh, fun op hop o he => hqty o (he ▸ hop)⟩
    have hbal := admissible_balance
      (P := fun p : OrderBook × Issued => Shape p.1 ∧ Identified p.1 p.2)
      (fun p => a.resting p.1) (fun _ => a.submitted)
      (fun p op => a.filled (p.1.reply op) + a.withdrawn p.1 op)
      (fun p op h hok => ⟨h.1.apply op, h.2.apply op hok.1⟩)
      (fun p op h hok => apply_balance h.1 h.2 hok.2) ⟨shape_empty, identified_empty⟩ hadm
    have hfilled : (outputs OrderBook.apply (fun b op => a.filled (b.reply op)) {} ops).sum =
        (((outputs OrderBook.apply OrderBook.reply {} ops).flatMap BookReply.fillList).map
          a.executed).sum := by
      rw [outputs_map a.filled, List.map_flatMap, List.flatMap, List.sum_flatten, List.map_map]
      rfl
    rw [outputs_of_input, outputs_both fun b op => a.filled (b.reply op) + a.withdrawn b op,
      run_both, sum_outputs_add, hfilled] at hbal
    simp only [resting, level_empty, List.map_nil, List.sum_nil, add_zero] at hbal
    rw [hbal, add_right_comm]
    rfl
  · intro f hf
    obtain ⟨r, hr, hf⟩ := List.mem_flatMap.mp hf
    obtain ⟨done, op, todo, rfl, rfl⟩ := mem_outputs.mp hr
    cases op with
    | submit o => exact ⟨(shape_run done).submit_fills_pos o f hf, fun _ => if_pos ⟨rfl, rfl, rfl⟩⟩
    | _ => cases hf

/-- A BUY traded with its own connection and with another, whose remainder is removed. -/
theorem run_conserves_quantity_self_trade :
    let ops : List BookOp :=
      [.nextId, .submit ⟨0, .buy, text "JNST", 100, 50, 7, 1⟩,
        .nextId, .submit ⟨1, .sell, text "JNST", 60, 50, 7, 1⟩,
        .nextId, .submit ⟨2, .sell, text "JNST", 70, 50, 8, 2⟩, .removeOrdersOf 8]
    (∀ a : Account, (ops.map a.submitted).sum =
      (((outputs OrderBook.apply OrderBook.reply {} ops).flatMap BookReply.fillList).map
        a.executed).sum + a.resting (run OrderBook.apply {} ops) +
      (outputs OrderBook.apply a.withdrawn {} ops).sum) ∧
    ∀ f ∈ (outputs OrderBook.apply OrderBook.reply {} ops).flatMap BookReply.fillList,
      1 ≤ f.qty ∧ ∀ s, (f.account s).executed f = f.qty := by
  refine run_conserves_quantity _ (by decide) fun o ho => ?_
  simp only [List.mem_cons, reduceCtorEq, false_or, BookOp.submit.injEq, List.not_mem_nil,
    or_false] at ho
  rcases ho with rfl | rfl | rfl <;> decide

end Account

end SocketExchange
