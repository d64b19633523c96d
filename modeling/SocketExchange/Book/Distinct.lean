import SocketExchange.Book.Operations

/-!
# Distinct ids

As long as no id is submitted twice, no two resting orders have the same id, wherever in
the book they rest. A cancel then finds the one order with the id, whichever way the
instruments happen to be arranged, and takes nothing else out of the book.
-/

namespace SocketExchange

open Runs

/-- The id an operation submits. -/
def BookOp.submittedId? : BookOp → Option Int
  | .submit o => some o.id
  | _ => none

/-- The ids submitted in a run. -/
def submittedIds (ops : List BookOp) : List Int := ops.filterMap BookOp.submittedId?

/-- No id is submitted twice. -/
def DistinctIds (ops : List BookOp) : Prop := (submittedIds ops).Nodup

instance (ops : List BookOp) : Decidable (DistinctIds ops) :=
  inferInstanceAs (Decidable (List.Nodup _))

namespace OrderBook

/-- No two resting orders have the same id. -/
structure Distinct (b : OrderBook) : Prop where
  nodup : ∀ k, ((b.level k).map (·.id)).Nodup
  apart : ∀ k k' x y, x ∈ b.level k → y ∈ b.level k' → x.id = y.id → k = k'

/-- The empty book has distinct ids. -/
theorem distinct_empty : Distinct {} where
  nodup _ := List.nodup_nil
  apart k _ x _ hx := by
    rw [level_empty] at hx
    cases hx

/-- An id at a level after an operation was there before or has just been submitted. -/
theorem mem_ids_apply {b : OrderBook} {op : BookOp} {k : LevelKey} {x : Order}
    (hx : x ∈ (b.apply op).level k) :
    (∃ y ∈ b.level k, y.id = x.id) ∨ x.id ∈ newIds k op := by
  have hmem := (b.ids_apply_sublist op k).subset (List.mem_map_of_mem hx)
  exact (List.mem_append.mp hmem).imp_left List.mem_map.mp

/-- A call introduces on a level the id of the order it submits there. -/
theorem mem_newIds {k : LevelKey} {op : BookOp} {i : Int} :
    i ∈ newIds k op ↔ ∃ o, op = .submit o ∧ k = o.key ∧ i = o.id := by
  cases op with
  | submit o =>
    simp only [newIds, BookOp.submit.injEq, exists_eq_left']
    split
    · rename_i h
      simp only [List.mem_singleton, h, true_and]
    · rename_i h
      simp only [List.not_mem_nil, h, false_and]
  | _ => simp only [newIds, List.not_mem_nil, reduceCtorEq, false_and, exists_false]

/-- The operation submits no id that rests. -/
def Fresh (b : OrderBook) (op : BookOp) : Prop := ∀ o, op = .submit o → ∀ x, b.Rests x → x.id ≠ o.id

/-- A fresh operation keeps the ids distinct. -/
theorem Distinct.apply {b : OrderBook} (h : Distinct b) {op : BookOp} (hop : b.Fresh op) :
    Distinct (b.apply op) where
  nodup k := by
    refine (b.ids_apply_sublist op k).nodup (List.nodup_append.mpr ⟨h.nodup k, ?_, ?_⟩)
    · cases op with
      | submit o =>
        rw [newIds]
        split
        · exact List.nodup_singleton _
        · exact List.nodup_nil
      | _ => exact List.nodup_nil
    · intro i hi j hj
      obtain ⟨o, ho, -, rfl⟩ := mem_newIds.mp hj
      obtain ⟨x, hx, rfl⟩ := List.mem_map.mp hi
      exact hop o ho x ⟨k, hx⟩
  apart k k' x y hx hy he := by
    rcases mem_ids_apply hx with ⟨x', hx', hxe⟩ | hx' <;>
      rcases mem_ids_apply hy with ⟨y', hy', hye⟩ | hy'
    · exact h.apart k k' x' y' hx' hy' (by rw [hxe, hye, he])
    · obtain ⟨o, ho, -, hid⟩ := mem_newIds.mp hy'
      exact absurd (hxe.trans (he.trans hid)) (hop o ho x' ⟨k, hx'⟩)
    · obtain ⟨o, ho, -, hid⟩ := mem_newIds.mp hx'
      exact absurd (hye.trans (he.symm.trans hid)) (hop o ho y' ⟨k', hy'⟩)
    · obtain ⟨o, rfl, rfl, -⟩ := mem_newIds.mp hx'
      obtain ⟨o', ho', rfl, -⟩ := mem_newIds.mp hy'
      cases ho'
      rfl

/-- A resting id was there before the operation or is the one it submits. -/
theorem id_of_rests_apply {b : OrderBook} {op : BookOp} {x : Order} (hx : (b.apply op).Rests x) :
    (∃ y, b.Rests y ∧ y.id = x.id) ∨ op.submittedId? = some x.id := by
  obtain ⟨k, hx⟩ := hx
  rcases mem_ids_apply hx with ⟨y, hy, he⟩ | hx'
  · exact Or.inl ⟨y, ⟨k, hy⟩, he⟩
  · obtain ⟨o, rfl, -, he⟩ := mem_newIds.mp hx'
    exact Or.inr (congrArg some he.symm)

/-- The ids a run submits are those of its first operation and those of the others. -/
theorem submittedIds_cons (op : BookOp) (ops : List BookOp) :
    submittedIds (op :: ops) = op.submittedId?.toList ++ submittedIds ops := by
  rw [submittedIds, submittedIds, List.filterMap_cons]
  cases op.submittedId? <;> rfl

/-- An id that rests after a run rested before it or was submitted in it. -/
theorem id_of_rests_run {b : OrderBook} {ops : List BookOp} {x : Order}
    (hx : (run apply b ops).Rests x) :
    (∃ y, b.Rests y ∧ y.id = x.id) ∨ x.id ∈ submittedIds ops := by
  induction ops generalizing b with
  | nil => exact Or.inl ⟨x, hx, rfl⟩
  | cons op ops ih =>
    rw [submittedIds_cons, List.mem_append]
    rcases ih hx with ⟨y, hy, he⟩ | hmem
    · rcases id_of_rests_apply hy with hold | hnew
      · rw [he] at hold
        exact Or.inl hold
      · rw [hnew, ← he]
        exact Or.inr (Or.inl List.mem_cons_self)
    · exact Or.inr (Or.inr hmem)

private theorem not_rests_empty (x : Order) : ¬ ({} : OrderBook).Rests x := by
  rintro ⟨k, hx⟩
  rw [level_empty] at hx
  cases hx

/-- Every resting order was submitted. -/
theorem submitted_of_rests_run {ops : List BookOp} {x : Order}
    (hx : (run apply {} ops).Rests x) : x.id ∈ submittedIds ops :=
  (id_of_rests_run hx).resolve_left fun ⟨y, hy, _⟩ => not_rests_empty y hy

/-- If no id is submitted twice, every operation is fresh where it is carried out. -/
theorem admissible_fresh {b : OrderBook} {ops : List BookOp}
    (hfresh : ∀ x, b.Rests x → x.id ∉ submittedIds ops) (hops : DistinctIds ops) :
    Admissible Fresh apply b ops := by
  induction ops generalizing b with
  | nil => exact trivial
  | cons op ops ih =>
    rw [submittedIds_cons] at hfresh
    rw [DistinctIds, submittedIds_cons] at hops
    obtain ⟨-, hrest, hnew⟩ := List.nodup_append.mp hops
    refine ⟨fun o ho x hx he => hfresh x hx ?_, ih (fun x hx => ?_) hrest⟩
    · rw [ho, he]
      exact List.mem_append_left _ List.mem_cons_self
    · rcases id_of_rests_apply hx with ⟨y, hy, he⟩ | hsubmitted
      · rw [← he]
        exact fun hmem => hfresh y hy (List.mem_append_right _ hmem)
      · intro hmem
        have hself : x.id ∈ op.submittedId?.toList := by
          rw [hsubmitted]
          exact List.mem_cons_self
        exact hnew _ hself _ hmem rfl

/-- A run that never submits an id twice never submits one that rests. -/
theorem admissible_fresh_empty {ops : List BookOp} (hops : DistinctIds ops) :
    Admissible Fresh apply {} ops :=
  admissible_fresh (fun x hx => absurd hx (not_rests_empty x)) hops

/-- A run that never submits an id twice leaves a book with distinct ids. -/
theorem distinct_run {ops : List BookOp} (hops : DistinctIds ops) : Distinct (run apply {} ops) :=
  admissible_invariant (fun _ _ h hop => h.apply hop) distinct_empty (admissible_fresh_empty hops)

/-! ## Cancelling by id -/

section Cancel

variable {b : OrderBook} {orderId fd : Int} {seq : UInt64}

/-- An id names one resting order. -/
theorem Distinct.unique (h : Distinct b) {k k' : LevelKey} {x y : Order} (hx : x ∈ b.level k)
    (hy : y ∈ b.level k') (he : x.id = y.id) : x = y := by
  obtain rfl := h.apart k k' x y hx hy he
  exact List.inj_on_of_nodup_map (h.nodup k) hx hy he

/-- An instrument holds the id on one side at most. -/
theorem Distinct.side_clear (h : Distinct b) {i : Bytes} {ib : InstrumentBook}
    (hib : b.books_.lookup i = some ib) :
    ∃ s, cancelLevels orderId fd seq (ib.levels s) = none := by
  rcases cancelLevels_cases orderId fd seq (ib.levels .buy) with
    ⟨hnone, -⟩ | ⟨p, pre, x, post, hbuy, -, hx, -⟩
  · exact ⟨.buy, hnone⟩
  rcases cancelLevels_cases orderId fd seq (ib.levels .sell) with
    ⟨hnone, -⟩ | ⟨p', pre', y, post', hsell, -, hy, -⟩
  · exact ⟨.sell, hnone⟩
  have hrests : ∀ {s : Side} {p : Int} {queue : Queue},
      (ib.levels s).lookup p = some queue → b.level ⟨i, s, p⟩ = queue := by
    intro s p queue hqueue
    simp only [level, queue?, hib, Option.bind_some, hqueue, Option.getD_some]
  have hxmem : x ∈ b.level ⟨i, .buy, p⟩ := hrests hbuy ▸ List.mem_append_right _ List.mem_cons_self
  have hymem : y ∈ b.level ⟨i, .sell, p'⟩ :=
    hrests hsell ▸ List.mem_append_right _ List.mem_cons_self
  cases h.apart _ _ x y hxmem hymem (hx.trans hy.symm)

/-- A cancel succeeds exactly for an order that rests under the id and belongs to the
requester. -/
theorem Distinct.cancel_iff (h : Distinct b) :
    (b.cancel orderId fd seq).1 = true ↔ ∃ x, b.Rests x ∧ x.id = orderId ∧ x.OwnedBy fd seq := by
  generalize hres : b.cancel orderId fd seq = res
  have hc := hres ▸ b.cancel_cancels orderId fd seq
  cases hc with
  | missing hall =>
    refine ⟨nofun, ?_⟩
    rintro ⟨x, ⟨k, hx⟩, hid, -⟩
    exact absurd hid (hall k x hx)
  | @refused k x hx hid howner =>
    refine ⟨nofun, ?_⟩
    rintro ⟨y, ⟨k', hy⟩, hid', howner'⟩
    exact absurd (h.unique hy hx (hid'.trans hid.symm) ▸ howner') howner
  | @erased k pre post x b' hlevel _ hid howner =>
    have hx : x ∈ b.level k := hlevel ▸ List.mem_append_right _ (List.mem_cons_self ..)
    exact ⟨fun _ => ⟨x, ⟨k, hx⟩, hid, howner⟩, fun _ => rfl⟩

/-- A cancel of a resting order succeeds exactly for its owner. -/
theorem Distinct.cancel_iff_ownedBy (h : Distinct b) {x : Order} (hx : b.Rests x) :
    (b.cancel x.id fd seq).1 = true ↔ x.OwnedBy fd seq := by
  rw [h.cancel_iff]
  constructor
  · rintro ⟨y, ⟨k, hy⟩, hid, howner⟩
    obtain ⟨k', hx⟩ := hx
    exact h.unique hy hx hid ▸ howner
  · intro howner
    exact ⟨x, hx, rfl, howner⟩

/-- A refused cancel changes nothing. -/
theorem cancel_eq_of_refused (hno : (b.cancel orderId fd seq).1 = false) :
    (b.cancel orderId fd seq).2 = b := by
  generalize hres : b.cancel orderId fd seq = res at hno
  have hc := hres ▸ b.cancel_cancels orderId fd seq
  cases hc with
  | missing => rfl
  | refused => rfl
  | erased => cases hno

/-- A successful cancel takes out of every queue what has the id. -/
theorem Distinct.level_cancel (h : Distinct b) (hok : (b.cancel orderId fd seq).1 = true)
    (k : LevelKey) :
    (b.cancel orderId fd seq).2.level k = (b.level k).filter fun x => x.id ≠ orderId := by
  generalize hres : b.cancel orderId fd seq = res at hok
  have hc := hres ▸ b.cancel_cancels orderId fd seq
  cases hc with
  | missing => cases hok
  | refused => cases hok
  | @erased k' pre post x b' hlevel hpre hid howner _ hat hother =>
    subst hid
    have hx : x ∈ b.level k' := hlevel ▸ List.mem_append_right _ (List.mem_cons_self ..)
    by_cases hk : k = k'
    · subst hk
      have hnodup := h.nodup k
      rw [hlevel, List.map_append, List.map_cons, List.nodup_middle, List.nodup_cons,
        List.mem_append, not_or] at hnodup
      have hpost : ∀ y ∈ post, y.id ≠ x.id := fun y hy he =>
        hnodup.1.2 (he ▸ List.mem_map_of_mem hy)
      rw [level, hat, getD_stored, hlevel, List.filter_append,
        List.filter_cons_of_neg (by simp), List.filter_eq_self.mpr (by simpa using hpre),
        List.filter_eq_self.mpr (by simpa using hpost)]
    · rw [level, hother k hk, ← level, eq_comm, List.filter_eq_self]
      intro y hy
      have hne : y.id ≠ x.id := fun he => hk (h.apart k k' y x hy hx he)
      simpa using hne

/-- Where the instruments stand in the table makes no difference to a cancel. -/
theorem Distinct.cancel_congr {b' : OrderBook} (h : Distinct b) (h' : Distinct b')
    (hsame : ∀ k, b'.level k = b.level k) :
    (b'.cancel orderId fd seq).1 = (b.cancel orderId fd seq).1 ∧
      ∀ k, (b'.cancel orderId fd seq).2.level k = (b.cancel orderId fd seq).2.level k := by
  have hrests : ∀ x, b'.Rests x ↔ b.Rests x := fun x => by simp only [Rests, hsame]
  have hreply : (b'.cancel orderId fd seq).1 = (b.cancel orderId fd seq).1 := by
    rw [Bool.eq_iff_iff, h'.cancel_iff, h.cancel_iff]
    simp only [hrests]
  refine ⟨hreply, fun k => ?_⟩
  cases hok : (b.cancel orderId fd seq).1 with
  | true => rw [h.level_cancel hok, h'.level_cancel (hreply.trans hok), hsame]
  | false => rw [cancel_eq_of_refused hok, cancel_eq_of_refused (hreply.trans hok), hsame]

end Cancel

/-- A cancel takes the caller's order out of the book if it rests there, and nothing else; else it
changes nothing. The arrangement of the instruments does not matter. -/
theorem run_cancel_exact (ops : List BookOp) (hops : DistinctIds ops) (orderId fd : Int)
    (seq : UInt64) :
    let b := run apply {} ops
    let r := b.cancel orderId fd seq
    (r.1 = true ↔ ∃ x, b.Rests x ∧ x.id = orderId ∧ x.OwnedBy fd seq) ∧
      (r.1 = true → ∃ k pre x post, b.level k = pre ++ x :: post ∧ x.id = orderId ∧
        x.OwnedBy fd seq ∧ r.2.level k = pre ++ post ∧ (r.2.queue? k = none ↔ b.level k = [x]) ∧
        (∀ k', k' ≠ k → r.2.queue? k' = b.queue? k') ∧ r.2.nextId_ = b.nextId_) ∧
      (r.1 = false → r.2 = b) ∧
      ∀ order, let r' := (b.rehash order).cancel orderId fd seq
        r'.1 = r.1 ∧ r'.2.nextId_ = r.2.nextId_ ∧ ∀ k, r'.2.queue? k = r.2.queue? k := by
  intro b r
  have hb : Distinct b := distinct_run hops
  have hshape : Shape b := shape_run ops
  refine ⟨hb.cancel_iff, fun hok => ?_, cancel_eq_of_refused, fun order => ?_⟩
  · have hr : r = b.cancel orderId fd seq := rfl
    have hcancels := b.cancel_cancels orderId fd seq
    rw [← hr] at hcancels
    clear_value r
    cases hcancels with
    | missing => cases hok
    | refused => cases hok
    | @erased k pre post x b' hlevel _ hid howner hnext hat hother =>
      have hleft : b'.level k = pre ++ post := by rw [level, hat, getD_stored]
      refine ⟨k, pre, x, post, hlevel, hid, howner, hleft, ?_, hother, hnext⟩
      rw [hat, hlevel, stored_eq_none_iff, List.append_eq_nil_iff]
      constructor
      · rintro ⟨rfl, rfl⟩
        rfl
      · intro halone
        have hlength := congrArg List.length halone
        rw [List.length_append, List.length_cons, List.length_singleton] at hlength
        exact ⟨List.length_eq_zero_iff.mp (by omega), List.length_eq_zero_iff.mp (by omega)⟩
  · intro r'
    have hrehash : Distinct (b.apply (.rehash order)) := hb.apply fun o he => by cases he
    obtain ⟨hreply, hlevels⟩ : r'.1 = r.1 ∧ ∀ k, r'.2.level k = r.2.level k :=
      hb.cancel_congr hrehash (level_rehash b order)
    have hnext : r'.2.nextId_ = (b.rehash order).nextId_ := cancel_nextId_ ..
    have hnext' : r.2.nextId_ = b.nextId_ := cancel_nextId_ ..
    have hshape₁ : Shape r.2 := hshape.apply (.cancel orderId fd seq)
    have hshape₂ : Shape r'.2 := (hshape.apply (.rehash order)).apply (.cancel orderId fd seq)
    refine ⟨hreply, ?_, fun k => ?_⟩
    · rw [hnext, hnext']
      rfl
    · rw [hshape₂.queue?_eq_stored, hshape₁.queue?_eq_stored, hlevels]

/-- A SELL with a BUY at another price: the BUY is cancelled and its level goes with it. -/
theorem run_cancel_exact_two_levels :
    let ops : List BookOp :=
      [.submit ⟨4, .sell, text "JNST", 60, 51, 8, 2⟩, .submit ⟨2, .buy, text "JNST", 100, 50, 7, 1⟩]
    let b := run apply {} ops
    let r := b.cancel 2 7 1
    r.1 = true ∧ ∃ k pre x post, b.level k = pre ++ x :: post ∧ x.id = 2 ∧ x.OwnedBy 7 1 ∧
      r.2.level k = pre ++ post ∧ (r.2.queue? k = none ↔ b.level k = [x]) ∧
      (∀ k', k' ≠ k → r.2.queue? k' = b.queue? k') ∧ r.2.nextId_ = b.nextId_ := by
  intro ops b r
  have h := run_cancel_exact ops (by decide) 2 7 1
  have hok : r.1 = true := by decide
  exact ⟨hok, h.2.1 hok⟩

end OrderBook

end SocketExchange
