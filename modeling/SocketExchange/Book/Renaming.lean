import SocketExchange.Book.Reference

/-!
# Renaming owners

Matching copies the owner fields of orders into fills and never looks at them; a cancel
compares them with the requester's. Orders whose owners go by other names therefore
trade alike, and their fills carry the other names.
-/

namespace SocketExchange

/-- Another descriptor and sequence number for each owner. -/
abbrev Renaming := Int × UInt64 → Int × UInt64

/-- The order with its owner renamed. -/
def Order.renamed (g : Renaming) (o : Order) : Order :=
  { o with ownerFd := (g (o.ownerFd, o.ownerSeq)).1, ownerSeq := (g (o.ownerFd, o.ownerSeq)).2 }

/-- The fill with the owners of both sides renamed. -/
def Fill.renamed (g : Renaming) (f : Fill) : Fill :=
  { f with
    buyerFd := (g (f.buyerFd, f.buyerSeq)).1, buyerSeq := (g (f.buyerFd, f.buyerSeq)).2
    sellFd := (g (f.sellFd, f.sellSeq)).1, sellSeq := (g (f.sellFd, f.sellSeq)).2 }

/-- Owners without descriptors. -/
def Renaming.seqOnly : Renaming := fun p => (0, p.2)

namespace Reference

variable (g : Renaming)

/-- The reference book with every owner renamed. -/
def renamed (r : Reference) : Reference := { r with orders := r.orders.map (Order.renamed g) }

/-- One trade does not depend on the names. -/
theorem tradeOldest_renamed (o : Order) (rs : List Order) :
    tradeOldest (o.renamed g) (rs.map (Order.renamed g)) =
      (tradeOldest o rs).map fun t =>
        (t.1.renamed g, t.2.1.renamed g, t.2.2.map (Order.renamed g)) := by
  induction rs with
  | nil => rfl
  | cons r rs ih =>
    have heligible : Eligible (o.renamed g) (r.renamed g) ↔ Eligible o r := Iff.rfl
    rw [List.map_cons, tradeOldest, tradeOldest]
    by_cases h : Eligible o r
    · rw [if_pos (heligible.mpr h), if_pos h]
      have hside : (o.renamed g).side = o.side := rfl
      have hqty : (o.renamed g).qty = o.qty ∧ (r.renamed g).qty = r.qty := ⟨rfl, rfl⟩
      simp only [hside, hqty, Option.map_some, Option.some.injEq, Prod.mk.injEq]
      refine ⟨?_, rfl, ?_⟩
      · split <;> rfl
      · split <;> rfl
    · rw [if_neg (mt heligible.mp h), if_neg h, ih, Option.map_map, Option.map_map]
      rfl

private theorem trade_renamed (o : Order) (rs : List Order) :
    trade (o.renamed g) (rs.map (Order.renamed g)) =
      ((trade o rs).1.map (Fill.renamed g), (trade o rs).2.1.renamed g,
        (trade o rs).2.2.map (Order.renamed g)) := by
  induction o, rs using trade.induct with
  | case1 o rs hpos hnone =>
    rw [trade_none hnone, trade_none]
    · rfl
    · rw [tradeOldest_renamed, hnone, Option.map_none]
  | case2 o rs hpos f o' rs' hsome ih =>
    have hsome' : tradeOldest (o.renamed g) (rs.map (Order.renamed g)) =
        some (f.renamed g, o'.renamed g, rs'.map (Order.renamed g)) := by
      rw [tradeOldest_renamed, hsome, Option.map_some]
    have hpos' : 0 < (o.renamed g).qty := hpos
    rw [trade_some hpos hsome, trade_some hpos' hsome', ih]
    rfl
  | case3 o rs hpos =>
    have hpos' : ¬ 0 < (o.renamed g).qty := hpos
    rw [trade_of_nonpos hpos, trade_of_nonpos hpos']
    rfl

/-- Submitting under other names gives the fills and the orders under those names. -/
theorem submit_renamed (r : Reference) (o : Order) :
    (r.renamed g).submit (o.renamed g) =
      ((r.submit o).1.map (Fill.renamed g), (r.submit o).2.renamed g) := by
  have hqty : (o.renamed g).qty = o.qty := rfl
  rw [submit, submit, hqty]
  split
  · rfl
  · have hleft : ((trade o r.orders).2.1.renamed g).qty = (trade o r.orders).2.1.qty := rfl
    simp only [trade_renamed, hleft, renamed]
    split
    · simp only [List.map_append, List.map_cons, List.map_nil]
    · rfl

/-- If the names tell the requester's orders from others as before, a cancel ends as before. -/
theorem cancel_renamed (r : Reference) {orderId fd fd' : Int} {seq seq' : UInt64}
    (h : ∀ x ∈ r.orders, x.OwnedBy fd seq ↔ (x.renamed g).OwnedBy fd' seq') :
    (r.renamed g).cancel orderId fd' seq' =
      ((r.cancel orderId fd seq).1, (r.cancel orderId fd seq).2.renamed g) := by
  have hfind : (r.renamed g).orders.find? (fun x => x.id = orderId) =
      (r.orders.find? fun x => x.id = orderId).map (Order.renamed g) := List.find?_map ..
  rw [cancel, cancel, hfind]
  cases hx : r.orders.find? fun x => x.id = orderId with
  | none => rfl
  | some x =>
    have howner := h x (List.mem_of_find?_eq_some hx)
    simp only [Option.map_some]
    by_cases hown : x.OwnedBy fd seq
    · rw [if_pos hown, if_pos (howner.mp hown)]
      have hfilter : (r.renamed g).orders.filter (fun y => y.id ≠ orderId) =
          (r.orders.filter fun y => y.id ≠ orderId).map (Order.renamed g) := List.filter_map ..
      rw [hfilter]
      rfl
    · rw [if_neg hown, if_neg (mt howner.mpr hown)]

/-- Renaming keeps every order on its level. -/
theorem levelOf_renamed (k : LevelKey) (rs : List Order) :
    levelOf k (rs.map (Order.renamed g)) = (levelOf k rs).map (Order.renamed g) :=
  List.filter_map ..

end Reference

end SocketExchange
