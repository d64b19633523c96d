import Mathlib.Data.List.Infix

/-!
# Sequences made of terminated segments

A terminator ends a segment. A sequence is its terminated segments, each with its
terminator, followed by a rest that has none; taking the first `k` of them off leaves
what follows the `k`-th terminator.
-/

namespace Segments

universe u

variable {α : Type u} (sep : α)

/-- The sequence of these segments, each with its terminator. -/
def terminated (segs : List (List α)) : List α := segs.flatMap (· ++ [sep])

variable [BEq α]

/-- The terminated segments of a sequence, in order and without their terminators. -/
def segments (s : List α) : List (List α) := (s.splitOn sep).dropLast

/-- What follows the `k`-th terminator. -/
def after : Nat → List α → List α
  | 0, s => s
  | _ + 1, [] => []
  | k + 1, a :: s => if a == sep then after k s else after (k + 1) s

variable {sep} {s t : List α} {segs segs' : List (List α)}

section Terminated

omit [BEq α]

@[simp] theorem terminated_nil : terminated sep [] = [] := rfl

@[simp] theorem terminated_cons : terminated sep (s :: segs) = s ++ sep :: terminated sep segs := by
  simp [terminated]

/-- Terminating two lists of segments is terminating them one after the other. -/
theorem terminated_append :
    terminated sep (segs ++ segs') = terminated sep segs ++ terminated sep segs' :=
  List.flatMap_append

end Terminated

variable [LawfulBEq α]

@[simp] theorem segments_of_not_mem (h : sep ∉ s) : segments sep s = [] := by
  rw [segments, List.splitOn_eq_singleton h, List.dropLast_singleton]

/-- A segment and its separator come first. -/
theorem segments_append (h : sep ∉ s) :
    segments sep (s ++ sep :: t) = s :: segments sep t := by
  rw [segments, List.splitOn_append_cons_self_of_not_mem h,
    List.dropLast_cons_of_ne_nil (List.splitOn_ne_nil sep t), segments]

/-- Every sequence begins with a terminated segment or has no terminator. -/
theorem exists_segment (sep : α) (s : List α) :
    (∃ seg t, sep ∉ seg ∧ s = seg ++ sep :: t) ∨ sep ∉ s := by
  by_cases hmem : sep ∈ s
  · obtain ⟨seg, t, hs, hseg⟩ := List.eq_append_cons_of_mem hmem
    exact Or.inl ⟨seg, t, hseg, hs⟩
  · exact Or.inr hmem

/-- Every sequence is made of terminated segments and a rest without a terminator. -/
theorem exists_terminated (sep : α) (s : List α) :
    ∃ segs rest, (∀ seg ∈ segs, sep ∉ seg) ∧ sep ∉ rest ∧ s = terminated sep segs ++ rest := by
  induction hn : s.length using Nat.strong_induction_on generalizing s with
  | h n ih =>
    rcases exists_segment sep s with ⟨seg, t, hseg, rfl⟩ | hno
    · have hless : t.length < n := by
        simp only [← hn, List.length_append, List.length_cons]
        omega
      obtain ⟨segs, rest, hsegs, hrest, rfl⟩ := ih t.length hless t rfl
      exact ⟨seg :: segs, rest, List.forall_mem_cons.mpr ⟨hseg, hsegs⟩, hrest, by simp⟩
    · exact ⟨[], s, by simp, hno, by simp⟩

/-- Cutting what was terminated gives the segments back, before those of the rest. -/
theorem segments_terminated_append (h : ∀ seg ∈ segs, sep ∉ seg) (t : List α) :
    segments sep (terminated sep segs ++ t) = segs ++ segments sep t := by
  induction segs with
  | nil => simp
  | cons seg segs ih =>
    obtain ⟨hseg, hsegs⟩ := List.forall_mem_cons.mp h
    rw [terminated_cons, List.append_assoc, List.cons_append, segments_append hseg, ih hsegs,
      List.cons_append]

/-- A sequence of segments with their terminators is cut into these segments. -/
@[simp] theorem segments_terminated (h : ∀ seg ∈ segs, sep ∉ seg) :
    segments sep (terminated sep segs) = segs := by
  simpa using segments_terminated_append h []

/-- No segment holds a terminator. -/
theorem not_mem_of_mem_segments {seg : List α} (h : seg ∈ segments sep s) : sep ∉ seg := by
  obtain ⟨segs, rest, hsegs, hrest, rfl⟩ := exists_terminated sep s
  rw [segments_terminated_append hsegs, segments_of_not_mem hrest, List.append_nil] at h
  exact hsegs seg h

/-- There are as many separators as segments. -/
theorem count_terminated (h : ∀ seg ∈ segs, sep ∉ seg) :
    (terminated sep segs).count sep = segs.length := by
  induction segs with
  | nil => simp
  | cons seg segs ih =>
    obtain ⟨hseg, hsegs⟩ := List.forall_mem_cons.mp h
    simp [List.count_append, List.count_eq_zero.mpr hseg, ih hsegs]

/-- Past the first separator one fewer is to be passed. -/
theorem after_append {k : Nat} (h : sep ∉ s) (t : List α) :
    after sep (k + 1) (s ++ sep :: t) = after sep k t := by
  induction s with
  | nil => simp [after]
  | cons a s ih =>
    rw [List.mem_cons, not_or] at h
    obtain ⟨hne, hs⟩ := h
    rw [List.cons_append, after, if_neg fun he => hne (beq_iff_eq.mp he).symm, ih hs]

/-- Behind the segments of a sequence stands what follows as many terminators. -/
theorem after_terminated_append (h : ∀ seg ∈ segs, sep ∉ seg) (t : List α) :
    after sep segs.length (terminated sep segs ++ t) = t := by
  induction segs with
  | nil => simp [after]
  | cons seg segs ih =>
    obtain ⟨hseg, hsegs⟩ := List.forall_mem_cons.mp h
    rw [terminated_cons, List.append_assoc, List.cons_append, List.length_cons, after_append hseg,
      ih hsegs]

end Segments
