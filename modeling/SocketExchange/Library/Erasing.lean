import Mathlib.Data.List.Basic

/-!
# Erasing while iterating

A loop walks a sequence with an iterator. At each element its body collects something
and says either what the element becomes, and the iterator steps past it, or that the
element is erased, and the iterator stays, since the elements behind it have moved up.
Such a loop neither skips nor meets twice any element.
-/

namespace Erasing

universe u v w

variable {α : Type u} {β : Type v}

/-- The loop with its iterator at position `i`. -/
def eraseLoop (body : β → α → β × Option α) (acc : β) (xs : List α) (i : Nat) : β × List α :=
  if h : i < xs.length then
    match body acc xs[i] with
    | (acc, some x) => eraseLoop body acc (xs.set i x) (i + 1)
    | (acc, none) => eraseLoop body acc (xs.eraseIdx i) i
  else (acc, xs)
termination_by xs.length - i
decreasing_by
  · rw [List.length_set]
    omega
  · rw [List.length_eraseIdx_of_lt h]
    omega

variable {body : β → α → β × Option α} {acc acc' : β} {x x' : α} {done todo : List α}

/-- At the end of the sequence the loop ends. -/
theorem eraseLoop_end : eraseLoop body acc done done.length = (acc, done) := by
  rw [eraseLoop, dif_neg (Nat.lt_irrefl _)]

/-- An element that stays is passed. -/
theorem eraseLoop_keep (h : body acc x = (acc', some x')) :
    eraseLoop body acc (done ++ x :: todo) done.length =
      eraseLoop body acc' ((done ++ [x']) ++ todo) (done ++ [x']).length := by
  rw [eraseLoop, dif_pos (by simp)]
  simp [h]

/-- An element that goes makes room for the next. -/
theorem eraseLoop_erase (h : body acc x = (acc', none)) :
    eraseLoop body acc (done ++ x :: todo) done.length =
      eraseLoop body acc' (done ++ todo) done.length := by
  rw [eraseLoop, dif_pos (by simp)]
  simp [h, List.eraseIdx_append_of_length_le]

section Collecting

variable {γ : Type w} {body : List γ → α → List γ × Option α} (emit : α → List γ)
  (keep : α → Option α)

private theorem eraseLoop_from (hbody : ∀ acc x, body acc x = (acc ++ emit x, keep x))
    (acc : List γ)
    (done todo : List α) :
    eraseLoop body acc (done ++ todo) done.length =
      (acc ++ todo.flatMap emit, done ++ todo.filterMap keep) := by
  induction todo generalizing acc done with
  | nil => simp [eraseLoop_end]
  | cons x todo ih =>
    have hx := hbody acc x
    cases hkeep : keep x with
    | none =>
      rw [hkeep] at hx
      simp [eraseLoop_erase hx, ih, hkeep]
    | some x' =>
      rw [hkeep] at hx
      rw [eraseLoop_keep hx, ih]
      simp [hkeep]

/-- A loop whose body looks at the element alone collects from every element, in order, and
leaves what every element becomes. -/
theorem eraseLoop_eq (hbody : ∀ acc x, body acc x = (acc ++ emit x, keep x)) (acc : List γ)
    (xs : List α) :
    eraseLoop body acc xs 0 = (acc ++ xs.flatMap emit, xs.filterMap keep) :=
  eraseLoop_from emit keep hbody acc [] xs

end Collecting

end Erasing
