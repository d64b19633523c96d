import SocketExchange.Book.Distinct
import SocketExchange.Book.Reference
import SocketExchange.Book.Relabelling

/-!
# The mirror image of a book

Let every BUY be a SELL and every SELL a BUY. A run of mirrored submits and the same
cancels ends in the mirrored book and answers with the mirrored fills. A cancel searches the
BUYs before the SELLs in both, which makes no difference as long as no id rests twice.
-/

namespace SocketExchange

open Containers Runs OrderBook

/-- The same order on the other side. -/
def Order.mirror (o : Order) : Order := { o with side := o.side.opposite }

/-- The buyer and the seller have changed places. -/
def Fill.mirror (f : Fill) : Fill :=
  { f with buyerFd := f.sellFd, buyerSeq := f.sellSeq, sellFd := f.buyerFd, sellSeq := f.buyerSeq }

/-- The levels of one side as levels of the other. -/
def mirrorLevels (m : OrderedMap Int Queue) : OrderedMap Int Queue :=
  OrderedMap.mapValues (List.map Order.mirror) m

/-- An instrument's book with its sides exchanged. -/
def InstrumentBook.mirror (ib : InstrumentBook) : InstrumentBook where
  buys := mirrorLevels ib.sells
  sells := mirrorLevels ib.buys

/-- The book with all sides exchanged. -/
def OrderBook.mirror (b : OrderBook) : OrderBook :=
  { b with books_ := UnorderedMap.mapValues InstrumentBook.mirror b.books_ }

/-- The submit of the mirrored order; any other operation is its own mirror image. -/
def BookOp.mirror : BookOp → BookOp
  | .submit o => .submit o.mirror
  | op => op

/-- A reply with the sides of its fills exchanged. -/
def BookReply.mirror : BookReply → BookReply
  | .fills fs => .fills (fs.map Fill.mirror)
  | reply => reply

/-- The opposite of the opposite side is the side. -/
theorem Side.opposite_opposite (s : Side) : s.opposite.opposite = s := by
  cases s <;> rfl

/-- Mirroring as a relabelling of the book. -/
def mirroring : Relabelling where
  order := Order.mirror
  fill := Fill.mirror
  side := Side.opposite
  side_side := Side.opposite_opposite
  side_opposite _ := rfl
  order_id _ := rfl
  order_side _ := rfl
  order_instrument _ := rfl
  order_price _ := rfl
  order_qty _ := rfl
  order_withQty _ _ := rfl
  fillOf_order o r t := by
    unfold fillOf Order.mirror Fill.mirror
    cases o.side <;> rfl

namespace OrderBook

private theorem submit_mirror (b : OrderBook) (o : Order) :
    b.mirror.submit o.mirror = ((b.submit o).1.map Fill.mirror, (b.submit o).2.mirror) :=
  mirroring.submit_order b o

private theorem rests_mirror (b : OrderBook) (y : Order) :
    b.mirror.Rests y ↔ ∃ x, b.Rests x ∧ x.mirror = y := mirroring.rests_book b y

private theorem Distinct.mirror {b : OrderBook} (h : Distinct b) : Distinct b.mirror :=
  mirroring.distinct_book h

/-- A cancel by its owner succeeds in the mirrored book, and leaves it mirrored. -/
theorem Distinct.cancel_mirror {b : OrderBook} (h : Distinct b) {orderId fd : Int} {seq : UInt64}
    (hok : (b.cancel orderId fd seq).1 = true) :
    b.mirror.cancel orderId fd seq = (true, (b.cancel orderId fd seq).2.mirror) := by
  refine mirroring.cancel_order (fun x hx => hx) (Or.inr fun i ib hib => ?_) hok
  refine h.mirror.side_clear (i := i) ?_
  rw [OrderBook.mirror, UnorderedMap.lookup_mapValues, hib]
  rfl

/-- Each call answers with the mirror image and leaves the mirror image. -/
theorem Distinct.apply_mirror {b : OrderBook} (h : Distinct b) {op : BookOp}
    (hop : Reference.IsCall op) :
    b.mirror.reply op.mirror = (b.reply op).mirror ∧
      b.mirror.apply op.mirror = (b.apply op).mirror := by
  cases op with
  | nextId => exact ⟨rfl, rfl⟩
  | submit o =>
    have hsubmit := submit_mirror b o
    have hfills : (b.mirror.submit o.mirror).1 = (b.submit o).1.map Fill.mirror :=
      congrArg Prod.fst hsubmit
    exact ⟨congrArg BookReply.fills hfills, congrArg Prod.snd hsubmit⟩
  | cancel orderId fd seq =>
    cases hok : (b.cancel orderId fd seq).1 with
    | true =>
      have hmirror := h.cancel_mirror hok
      have hreply : (b.mirror.cancel orderId fd seq).1 = (b.cancel orderId fd seq).1 := by
        rw [hmirror, hok]
      exact ⟨congrArg BookReply.cancelled hreply, congrArg Prod.snd hmirror⟩
    | false =>
      have hrefused : (b.mirror.cancel orderId fd seq).1 = false := by
        rw [← Bool.not_eq_true, h.mirror.cancel_iff]
        rintro ⟨y, hy, hid, howner⟩
        obtain ⟨x, hx, rfl⟩ := (rests_mirror b y).mp hy
        have hsucceeds := h.cancel_iff.mpr ⟨x, hx, hid, howner⟩
        rw [hok] at hsucceeds
        cases hsucceeds
      have hreply : (b.mirror.cancel orderId fd seq).1 = (b.cancel orderId fd seq).1 := by
        rw [hrefused, hok]
      refine ⟨congrArg BookReply.cancelled hreply, ?_⟩
      have hsame : (b.mirror.cancel orderId fd seq).2 = b.mirror := cancel_eq_of_refused hrefused
      have hsame' : (b.cancel orderId fd seq).2 = b := cancel_eq_of_refused hok
      rw [OrderBook.apply, hsame']
      exact hsame
  | removeOrdersOf fd => exact hop.elim
  | rehash order => exact ⟨rfl, mirroring.rehash_book b order⟩

/-- The mirrored calls give the mirrored answers, and after every one of them the mirrored book. -/
theorem run_mirror (ops : List BookOp) (hcalls : ∀ op ∈ ops, Reference.IsCall op)
    (hops : DistinctIds ops) :
    outputs apply reply {} (ops.map BookOp.mirror) =
        (outputs apply reply {} ops).map BookReply.mirror ∧
      ∀ done rest, ops = done ++ rest →
        run apply {} (done.map BookOp.mirror) = (run apply {} done).mirror := by
  have hsim : ∀ {is : List BookOp}, (∀ op ∈ is, Reference.IsCall op) → DistinctIds is →
      run apply {} (is.map BookOp.mirror) = (run apply {} is).mirror ∧
        outputs apply reply {} (is.map BookOp.mirror) =
          (outputs apply reply {} is).map BookReply.mirror := by
    intro is hcalls his
    obtain ⟨⟨hbook, -⟩, hout⟩ := simulation (f := fun b op => OrderBook.apply b (BookOp.mirror op))
      (g := OrderBook.apply) (fun b op => b.reply op.mirror) (fun b op => (b.reply op).mirror)
      (R := fun b' b => b' = b.mirror ∧ Distinct b) (s := {}) (t := {})
      (fun b' b op h hop => ⟨by rw [h.1, (h.2.apply_mirror hop.2).2], h.2.apply hop.1⟩)
      (fun b' b op h hop => by rw [h.1, (h.2.apply_mirror hop.2).1]) ⟨rfl, distinct_empty⟩
      (admissible_and.mpr ⟨admissible_fresh_empty his, hcalls⟩)
    rw [run_map, outputs_map_inputs, ← outputs_map]
    exact ⟨hbook, hout⟩
  refine ⟨(hsim hcalls hops).2, ?_⟩
  rintro done rest rfl
  have hdone : DistinctIds done := by
    rw [DistinctIds, submittedIds, List.filterMap_append] at hops
    exact (List.nodup_append.mp hops).1
  exact (hsim (fun op hop => hcalls op (List.mem_append_left _ hop)) hdone).1

/-- A SELL takes part of a BUY, whose owner then cancels the rest. -/
theorem run_mirror_partial_fill_cancel :
    let ops : List BookOp :=
      [.submit ⟨0, .buy, text "JNST", 100, 50, 7, 1⟩, .submit ⟨1, .sell, text "JNST", 60, 50, 8, 2⟩,
        .cancel 0 7 1]
    outputs apply reply {} (ops.map BookOp.mirror) =
        (outputs apply reply {} ops).map BookReply.mirror ∧
      ∀ done rest, ops = done ++ rest →
        run apply {} (done.map BookOp.mirror) = (run apply {} done).mirror :=
  run_mirror _ (by decide) (by decide)

end OrderBook

end SocketExchange
