import Mathlib.Data.Nat.Digits.Defs
import Mathlib.Data.Nat.Digits.Lemmas

/-!
# Decimal numerals as byte strings

A natural number is printed without leading zeros, most significant digit
first, and a digit string is read by Horner's rule, which gives its value in base
ten. Reading inverts printing, so printing is injective.
-/

namespace Decimal

/-- The ASCII digits. -/
def isDigit (b : UInt8) : Bool := 48 ≤ b && b ≤ 57

/-- The ASCII byte of a digit below ten. -/
def digitByte (d : Nat) : UInt8 := UInt8.ofNat (48 + d)

/-- The value of a string of digits, read from the left. -/
def value (s : List UInt8) : Nat := s.foldl (fun v b => 10 * v + (b.toNat - 48)) 0

/-- The digits of a string, the least significant first. -/
def digits (s : List UInt8) : List Nat := (s.map fun b => b.toNat - 48).reverse

/-- The decimal numeral of a number. -/
def print (n : Nat) : List UInt8 :=
  if n = 0 then [48] else ((Nat.digits 10 n).reverse).map digitByte

private theorem toNat_digitByte {d : Nat} (h : d < 10) : (digitByte d).toNat = 48 + d := by
  rw [digitByte, UInt8.toNat_ofNat']
  omega

private theorem isDigit_digitByte {d : Nat} (h : d < 10) : isDigit (digitByte d) = true := by
  have hd := toNat_digitByte h
  simp only [isDigit, Bool.and_eq_true, decide_eq_true_eq, UInt8.le_iff_toNat_le, hd]
  constructor
  · exact Nat.le_add_right 48 d
  · change 48 + d ≤ 57
    omega

/-- A printed number consists of digits. -/
theorem isDigit_print (n : Nat) : ∀ b ∈ print n, isDigit b = true := by
  unfold print
  split
  · intro b hb
    obtain rfl := List.mem_singleton.mp hb
    decide
  · intro b hb
    obtain ⟨d, hd, rfl⟩ := List.mem_map.mp hb
    exact isDigit_digitByte (Nat.digits_lt_base (by decide) (List.mem_reverse.mp hd))

/-- A printed number has at least one digit. -/
theorem print_ne_nil (n : Nat) : print n ≠ [] := by
  unfold print
  split
  · exact List.cons_ne_nil _ _
  · rename_i h
    rw [Ne, List.map_eq_nil_iff, List.reverse_eq_nil_iff]
    exact Nat.digits_ne_nil_iff_ne_zero.mpr h

/-- Horner's rule gives the sum of the digits times the powers of ten. -/
theorem value_eq_ofDigits (s : List UInt8) : value s = Nat.ofDigits 10 (digits s) := by
  -- The rule ends with the least significant digit, so the induction is from the right.
  induction s using List.reverseRecOn with
  | nil => rfl
  | append_singleton s b ih =>
    have hdigits : digits (s ++ [b]) = (b.toNat - 48) :: digits s := by
      rw [digits, List.map_append, List.reverse_append, List.map_singleton, List.reverse_singleton,
        List.singleton_append, ← digits]
    have hvalue : value (s ++ [b]) = 10 * value s + (b.toNat - 48) := by
      rw [value, List.foldl_append, List.foldl_cons, List.foldl_nil, ← value]
    rw [hdigits, Nat.ofDigits_cons, hvalue, ih]
    exact Nat.add_comm _ _

private theorem digits_print {n : Nat} (h : n ≠ 0) : digits (print n) = Nat.digits 10 n := by
  have hback : ∀ d ∈ Nat.digits 10 n, (digitByte d).toNat - 48 = d := by
    intro d hd
    rw [toNat_digitByte (Nat.digits_lt_base (by decide) hd), Nat.add_sub_cancel_left]
  rw [print, if_neg h, digits, List.map_map, List.map_reverse, List.reverse_reverse]
  exact (List.map_congr_left hback).trans (List.map_id' _)

/-- Reading a printed number gives the number back. -/
@[simp] theorem value_print (n : Nat) : value (print n) = n := by
  by_cases h : n = 0
  · rw [h]
    rfl
  · rw [value_eq_ofDigits, digits_print h, Nat.ofDigits_digits]

/-- Different numbers are printed differently. -/
theorem print_injective : Function.Injective print :=
  Function.LeftInverse.injective value_print

end Decimal
