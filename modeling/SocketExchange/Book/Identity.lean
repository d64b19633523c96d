import SocketExchange.Book.Distinct

/-!
# Order ids

An id is issued by `nextId`, used by at most one submit, and from then on names
at most one resting order in the whole book. The state that says which ids are
still unused belongs to the callers; it runs beside the book.
-/

namespace SocketExchange

open Runs

/-- The ids issued so far: the next one, and those no submit has used yet. -/
structure Issued where
  next : Int := 0
  unused : List Int := []

/-- A call of `nextId` issues an id, a submit uses one up. -/
def Issued.step (d : Issued) : BookOp → Issued
  | .nextId => ⟨d.next + 1, d.next :: d.unused⟩
  | .submit o => { d with unused := d.unused.erase o.id }
  | _ => d

/-- A submit brings an id that was issued and not used before. -/
def UsesIssued (d : Issued) : BookOp → Prop
  | .submit o => o.id ∈ d.unused
  | _ => True

instance (d : Issued) : ∀ op, Decidable (UsesIssued d op)
  | .submit o => inferInstanceAs (Decidable (o.id ∈ d.unused))
  | .nextId => .isTrue trivial
  | .cancel .. => .isTrue trivial
  | .removeOrdersOf _ => .isTrue trivial
  | .rehash _ => .isTrue trivial

/-- Every submitted id of the run is freshly drawn from `nextId`. -/
def FreshIds (ops : List BookOp) : Prop := Admissible UsesIssued Issued.step {} ops

instance (ops : List BookOp) : Decidable (FreshIds ops) :=
  inferInstanceAs (Decidable (Admissible ..))

namespace OrderBook

/-- The ids in the book, seen against the ids issued. -/
structure Identified (b : OrderBook) (d : Issued) : Prop where
  next : b.nextId_ = d.next
  /-- No level holds an id twice. -/
  nodup : ∀ k, ((b.level k).map (·.id)).Nodup
  /-- No two levels share an id. -/
  apart : ∀ k k' x y, x ∈ b.level k → y ∈ b.level k' → x.id = y.id → k = k'
  /-- Only issued ids rest. -/
  below : ∀ k, ∀ x ∈ b.level k, x.id < d.next
  /-- An unused id does not rest. -/
  absent : ∀ k, ∀ x ∈ b.level k, x.id ∉ d.unused
  unused_nodup : d.unused.Nodup
  unused_below : ∀ i ∈ d.unused, i < d.next

/-- In the empty book nothing rests and nothing has been issued. -/
theorem identified_empty : Identified {} {} where
  next := rfl
  nodup _ := List.nodup_nil
  apart k _ x _ hx := by rw [level_empty] at hx; cases hx
  below k x hx := by rw [level_empty] at hx; cases hx
  absent k x hx := by rw [level_empty] at hx; cases hx
  unused_nodup := List.nodup_nil
  unused_below i hi := by cases hi

/-- Identified orders have distinct ids. -/
theorem Identified.distinct {b : OrderBook} {d : Issued} (h : Identified b d) : Distinct b :=
  ⟨h.nodup, h.apart⟩

/-- Two resting orders with one id are the same order. -/
theorem Identified.unique {b : OrderBook} {d : Issued} (h : Identified b d) {k k' : LevelKey}
    {x y : Order} (hx : x ∈ b.level k) (hy : y ∈ b.level k') (he : x.id = y.id) : x = y :=
  h.distinct.unique hx hy he

/-- Every admissible operation keeps the ids apart. -/
theorem Identified.apply {b : OrderBook} {d : Issued} (h : Identified b d) (op : BookOp)
    (hop : UsesIssued d op) : Identified (b.apply op) (d.step op) := by
  have hnext : d.next ≤ (d.step op).next := by cases op <;> simp only [Issued.step] <;> omega
  have hnew : ∀ o, op = .submit o → o.id ∈ d.unused := by rintro o rfl; exact hop
  have hdistinct : Distinct (b.apply op) := h.distinct.apply fun o ho x ⟨k, hx⟩ he =>
    h.absent k x hx (he ▸ hnew o ho)
  refine ⟨?_, fun k => ?_, ?_, ?_, ?_, ?_, ?_⟩
  · rw [apply_nextId_, h.next]
    cases op <;> simp only [Issued.step, add_zero]
  · exact hdistinct.nodup k
  · exact hdistinct.apart
  · intro k x hx
    rcases mem_ids_apply hx with ⟨y, hy, he⟩ | hx'
    · exact he ▸ (h.below k y hy).trans_le hnext
    · obtain ⟨o, rfl, -, ho⟩ := mem_newIds.mp hx'
      exact ho ▸ (h.unused_below o.id (hnew o rfl)).trans_le hnext
  · intro k x hx hmem
    rcases mem_ids_apply hx with ⟨y, hy, he⟩ | hx'
    · have hy' := h.absent k y hy
      cases op with
      | nextId =>
        rcases List.mem_cons.mp hmem with heq | hmem
        · have hlt := h.below k y hy
          omega
        · exact hy' (he ▸ hmem)
      | submit o => exact hy' (he ▸ List.mem_of_mem_erase hmem)
      | _ => exact hy' (he ▸ hmem)
    · obtain ⟨o, rfl, -, ho⟩ := mem_newIds.mp hx'
      exact (List.Nodup.not_mem_erase h.unused_nodup) (ho ▸ hmem)
  · cases op with
    | nextId =>
      exact List.nodup_cons.mpr ⟨fun hm => absurd (h.unused_below _ hm) (lt_irrefl _),
        h.unused_nodup⟩
    | submit o => exact h.unused_nodup.erase _
    | _ => exact h.unused_nodup
  · intro i hi
    cases op with
    | nextId =>
      rcases List.mem_cons.mp hi with rfl | hi
      · exact lt_add_one _
      · exact (h.unused_below i hi).trans (lt_add_one _)
    | submit o => exact h.unused_below i (List.mem_of_mem_erase hi)
    | _ => exact h.unused_below i hi

/-- CANCEL succeeds exactly on a resting order of its caller. -/
theorem Identified.cancel_iff {b : OrderBook} {d : Issued} (h : Identified b d) {orderId fd : Int}
    {seq : UInt64} : (b.cancel orderId fd seq).1 = true ↔
      ∃ x, b.Rests x ∧ x.id = orderId ∧ x.OwnedBy fd seq := h.distinct.cancel_iff

/-- A successful cancel takes the order with that id out of every level, and nothing else. -/
theorem Identified.level_cancel {b : OrderBook} {d : Issued} (h : Identified b d)
    {orderId fd : Int} {seq : UInt64} (hok : (b.cancel orderId fd seq).1 = true) (k : LevelKey) :
    (b.cancel orderId fd seq).2.level k = (b.level k).filter fun x => x.id ≠ orderId :=
  h.distinct.level_cancel hok k

end OrderBook

end SocketExchange
