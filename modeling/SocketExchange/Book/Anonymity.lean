import SocketExchange.Book.Relabelling
import SocketExchange.Book.Renaming

/-!
# Matching does not look at owners

Two runs of the book whose orders differ in their owners alone, whose cancels succeed alike
and whose removals hit the same orders, keep books that differ in the owners alone, and return
fills that do.
-/

namespace SocketExchange

open Containers Runs OrderBook

/-- Owners without names. -/
def Renaming.nobody : Renaming := fun _ => (0, 0)

/-- All that is left of an owner is whether it has the descriptor. -/
def Renaming.marking (fd : Int) : Renaming := fun p => (if p.1 = fd then 1 else 0, 0)

/-- The order without its owner. -/
def Order.anonymous (o : Order) : Order := o.renamed .nobody

/-- A fill that names nobody. -/
def Fill.anonymous (f : Fill) : Fill := f.renamed .nobody

/-- An instrument's queues with every owner renamed. -/
def InstrumentBook.renamed (g : Renaming) (ib : InstrumentBook) : InstrumentBook where
  buys := OrderedMap.mapValues (List.map (Order.renamed g)) ib.buys
  sells := OrderedMap.mapValues (List.map (Order.renamed g)) ib.sells

/-- The book with every owner renamed. -/
def OrderBook.renamed (g : Renaming) (b : OrderBook) : OrderBook :=
  { b with books_ := UnorderedMap.mapValues (InstrumentBook.renamed g) b.books_ }

/-- A book in which nobody owns anything. -/
def OrderBook.anonymous (b : OrderBook) : OrderBook := b.renamed .nobody

/-- A reply whose fills name nobody. -/
def BookReply.anonymous : BookReply → BookReply
  | .fills fs => .fills (fs.map Fill.anonymous)
  | reply => reply

/-- Renaming the owners, as a relabelling of the book. -/
def Renaming.relabelling (g : Renaming) : Relabelling where
  order := Order.renamed g
  fill := Fill.renamed g
  side := id
  side_side _ := rfl
  side_opposite _ := rfl
  order_id _ := rfl
  order_side _ := rfl
  order_instrument _ := rfl
  order_price _ := rfl
  order_qty _ := rfl
  order_withQty _ _ := rfl
  fillOf_order o r t := by
    unfold fillOf Order.renamed Fill.renamed
    cases o.side <;> rfl

/-- The operations agree but for the owner of a submitted order, the requester of a cancel and
the owner whose orders are removed. -/
inductive BookOp.Resembles : BookOp → BookOp → Prop
  | nextId : Resembles .nextId .nextId
  | submit {o o' : Order} (h : o.anonymous = o'.anonymous) : Resembles (.submit o) (.submit o')
  | cancel (orderId fd fd' : Int) (seq seq' : UInt64) :
      Resembles (.cancel orderId fd seq) (.cancel orderId fd' seq')
  | removeOrdersOf (fd fd' : Int) : Resembles (.removeOrdersOf fd) (.removeOrdersOf fd')
  | rehash (order : List Bytes) : Resembles (.rehash order) (.rehash order)

namespace OrderBook

/-- Whether a cancel succeeds. -/
def cancelled? (b : OrderBook) : BookOp → Option Bool
  | .cancel orderId fd seq => some (b.cancel orderId fd seq).1
  | _ => none

/-- The book with the orders marked that a removal hits, and no other owner told. -/
def marked? (b : OrderBook) : BookOp → Option OrderBook
  | .removeOrdersOf fd => some (b.renamed (.marking fd))
  | _ => none

private theorem submit_anonymous (b : OrderBook) (o : Order) :
    b.anonymous.submit o.anonymous =
      ((b.submit o).1.map Fill.anonymous, (b.submit o).2.anonymous) :=
  (Renaming.relabelling .nobody).submit_order b o

/-- A cancel that succeeds takes the order that has the id in the book without owners. -/
theorem cancel_anonymous {b : OrderBook} {orderId fd : Int} {seq : UInt64}
    (hok : (b.cancel orderId fd seq).1 = true) :
    b.anonymous.cancel orderId 0 0 = (true, (b.cancel orderId fd seq).2.anonymous) :=
  (Renaming.relabelling .nobody).cancel_order (fun _ _ => ⟨rfl, rfl⟩) (Or.inl rfl) hok

/-- What names the renamed orders have tells what names the orders have. -/
theorem anonymous_renamed (b : OrderBook) (g : Renaming) :
    (b.renamed g).anonymous = b.anonymous := by
  have hside : ∀ m : OrderedMap Int Queue, OrderedMap.mapValues (List.map (Order.renamed .nobody))
      (OrderedMap.mapValues (List.map (Order.renamed g)) m) =
        OrderedMap.mapValues (List.map (Order.renamed .nobody)) m := by
    intro m
    simp only [OrderedMap.mapValues, OrderedMap.mk.injEq, List.map_map]
    refine List.map_congr_left fun lvl _ => ?_
    simp only [Function.comp_apply, List.map_map]
    rfl
  simp only [anonymous, renamed, OrderBook.mk.injEq, true_and]
  apply AList.ext
  simp only [UnorderedMap.mapValues, List.map_map]
  refine List.map_congr_left fun kv _ => ?_
  simp only [Function.comp_apply, InstrumentBook.renamed, hside]

/-- A removal is decided by the marks. -/
theorem removeOrdersOf_marked (b : OrderBook) (fd : Int) :
    (b.renamed (.marking fd)).removeOrdersOf 1 =
      ((b.removeOrdersOf fd).1, (b.removeOrdersOf fd).2.renamed (.marking fd)) := by
  refine (Renaming.relabelling (.marking fd)).removeOrdersOf_order (fun x => ?_) rfl b
  change (if x.ownerFd = fd then (1 : Int) else 0) = 1 ↔ x.ownerFd = fd
  split_ifs with h
  · exact iff_of_true rfl h
  · exact iff_of_false (by decide) h

/-- One step leaves the books alike and answers alike. -/
theorem apply_anonymous {b₁ b₂ : OrderBook} (h : b₁.anonymous = b₂.anonymous) {op₁ op₂ : BookOp}
    (hops : op₁.Resembles op₂) (hcancel : b₁.cancelled? op₁ = b₂.cancelled? op₂)
    (hmarked : b₁.marked? op₁ = b₂.marked? op₂) :
    (b₁.apply op₁).anonymous = (b₂.apply op₂).anonymous ∧
      (b₁.reply op₁).anonymous = (b₂.reply op₂).anonymous := by
  cases hops with
  | nextId =>
    have hnext' : b₁.anonymous.nextId_ = b₂.anonymous.nextId_ := congrArg OrderBook.nextId_ h
    have hnext : b₁.nextId_ = b₂.nextId_ := hnext'
    have hbooks : b₁.anonymous.books_ = b₂.anonymous.books_ := congrArg OrderBook.books_ h
    refine ⟨?_, congrArg BookReply.id hnext⟩
    simp only [OrderBook.apply, nextId, anonymous, renamed, OrderBook.mk.injEq, hnext, true_and]
    exact hbooks
  | @submit o o' hsame =>
    have hsubmit := submit_anonymous b₁ o
    rw [h, hsame, submit_anonymous b₂ o'] at hsubmit
    obtain ⟨hfills, hbook⟩ := Prod.mk.inj hsubmit
    exact ⟨hbook.symm, congrArg BookReply.fills hfills.symm⟩
  | cancel orderId fd fd' seq seq' =>
    have hreply : (b₁.cancel orderId fd seq).1 = (b₂.cancel orderId fd' seq').1 :=
      Option.some.inj hcancel
    refine ⟨?_, congrArg BookReply.cancelled hreply⟩
    rw [apply, apply]
    cases hok : (b₁.cancel orderId fd seq).1 with
    | true =>
      have hbook := cancel_anonymous hok
      rw [h, cancel_anonymous (hreply.symm.trans hok)] at hbook
      exact (congrArg Prod.snd hbook).symm
    | false =>
      rw [cancel_eq_of_refused hok, cancel_eq_of_refused (hreply.symm.trans hok)]
      exact h
  | removeOrdersOf fd fd' =>
    have hmarks : b₁.renamed (.marking fd) = b₂.renamed (.marking fd') := Option.some.inj hmarked
    have hremoved := removeOrdersOf_marked b₁ fd
    rw [hmarks, removeOrdersOf_marked b₂ fd'] at hremoved
    obtain ⟨hids, hbook⟩ := Prod.mk.inj hremoved
    refine ⟨?_, congrArg BookReply.removed hids.symm⟩
    rw [apply, apply, ← anonymous_renamed _ (.marking fd), ← hbook, anonymous_renamed]
  | rehash order =>
    refine ⟨?_, rfl⟩
    have hrehash₁ : b₁.anonymous.rehash order = (b₁.rehash order).anonymous :=
      (Renaming.relabelling .nobody).rehash_book b₁ order
    have hrehash₂ : b₂.anonymous.rehash order = (b₂.rehash order).anonymous :=
      (Renaming.relabelling .nobody).rehash_book b₂ order
    rw [apply, apply, ← hrehash₁, ← hrehash₂, h]

/-- After every step the books are alike, and so are the answers. -/
theorem run_anonymous {b₁ b₂ : OrderBook} (h : b₁.anonymous = b₂.anonymous)
    {ops₁ ops₂ : List BookOp} (hops : List.Forall₂ BookOp.Resembles ops₁ ops₂)
    (hcancels : outputs apply cancelled? b₁ ops₁ = outputs apply cancelled? b₂ ops₂)
    (hremovals : outputs apply marked? b₁ ops₁ = outputs apply marked? b₂ ops₂) :
    (outputs apply reply b₁ ops₁).map BookReply.anonymous =
        (outputs apply reply b₂ ops₂).map BookReply.anonymous ∧
      ∀ n, (run apply b₁ (ops₁.take n)).anonymous = (run apply b₂ (ops₂.take n)).anonymous := by
  induction hops generalizing b₁ b₂ with
  | nil => exact ⟨rfl, fun n => by rw [List.take_nil]; exact h⟩
  | cons hop _ ih =>
    obtain ⟨hcancel, hcancels⟩ := List.cons.inj hcancels
    obtain ⟨hmarked, hremovals⟩ := List.cons.inj hremovals
    obtain ⟨hbook, hreply⟩ := apply_anonymous h hop hcancel hmarked
    obtain ⟨hreplies, hbooks⟩ := ih hbook hcancels hremovals
    refine ⟨?_, fun n => ?_⟩
    · rw [outputs, outputs, List.map_cons, List.map_cons, hreply, hreplies]
    · cases n with
      | zero => exact h
      | succ n => exact hbooks n

end OrderBook

end SocketExchange
