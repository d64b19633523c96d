import Mathlib.Data.Int.CardIntervalMod
import Mathlib.Data.List.Nodup

/-!
# Taking turns

Each turn belongs to somebody. When the members of a list take turns in their order, over and
over, nobody is ever ahead of the others by more than one turn.
-/

namespace Turns

universe u

variable {α : Type u} [DecidableEq α]

/-- How many of the first `n` turns belong to `a`. -/
def taken (turn : ℕ → α) (a : α) (n : ℕ) : ℕ := Nat.count (fun i => turn i = a) n

variable {turn : ℕ → α} {a : α} {xs : List α}

@[simp] theorem taken_zero : taken turn a 0 = 0 := Nat.count_zero _

private theorem taken_succ (n : ℕ) :
    taken turn a (n + 1) = taken turn a n + if turn n = a then 1 else 0 :=
  Nat.count_succ ..

/-- The turns taken are counted in the list of all turns so far. -/
theorem taken_eq_countP (n : ℕ) : taken turn a n = ((List.range n).map turn).countP (· = a) := by
  induction n with
  | zero => rfl
  | succ n ih =>
    rw [taken_succ, ih, List.range_succ, List.map_append, List.countP_append, List.map_singleton,
      List.countP_singleton]
    simp only [decide_eq_true_eq]

/-- The turns belong to the members of a list, which starts again at its end. -/
def RoundRobin (turn : ℕ → α) (xs : List α) : Prop := ∀ n, xs[n % xs.length]? = some (turn n)

namespace RoundRobin

omit [DecidableEq α] in
private theorem length_pos (h : RoundRobin turn xs) : 0 < xs.length := by
  obtain ⟨hlt, -⟩ := List.getElem?_eq_some_iff.mp (h 0)
  omega

omit [DecidableEq α] in
/-- Distinct members have the same turn only where they are as far from the start. -/
theorem eq_iff (h : RoundRobin turn xs) (hxs : xs.Nodup) {i n : ℕ} :
    turn i = turn n ↔ i ≡ n [MOD xs.length] := by
  have hlt := Nat.mod_lt i h.length_pos
  rw [← Option.some_inj, ← h i, ← h n]
  exact List.getElem?_inj hlt hxs

/-- Whoever's turn it is has had an equal share of the turns before. -/
theorem taken_turn (h : RoundRobin turn xs) (hxs : xs.Nodup) (n : ℕ) :
    taken turn (turn n) n = n / xs.length := by
  have hcount := Nat.count_modEq_card n h.length_pos n
  rw [if_neg (Nat.lt_irrefl _), add_zero] at hcount
  simp only [taken, h.eq_iff hxs, hcount]

end RoundRobin

end Turns
