import Mathlib.Data.List.TakeWhile
import SocketExchange.Common.NetUtils

/-!
# What the parsers accept

A word is a run of bytes without white space. Tokens are words, and a line made of
words cut by single blanks has them for its tokens. A number is accepted exactly when
it is a run of digits whose value is in range; an order id is printed as such a run.
-/

namespace SocketExchange

/-- A nonempty run of bytes that are no white space. -/
structure IsWord (w : Bytes) : Prop where
  nonempty : w ≠ []
  solid : ∀ b ∈ w, isSpace b = false

instance (w : Bytes) : Decidable (IsWord w) :=
  -- By the bytes of the word, not by all bytes there are.
  have : Decidable (∀ b ∈ w, isSpace b = false) := List.decidableBAll _ w
  decidable_of_iff (w ≠ [] ∧ ∀ b ∈ w, isSpace b = false)
    ⟨fun h => ⟨h.1, h.2⟩, fun h => ⟨h.nonempty, h.solid⟩⟩

/-- No byte ends a line or is a carriage return. -/
def Plain (s : Bytes) : Prop := ∀ b ∈ s, b ≠ 10 ∧ b ≠ 13

instance (s : Bytes) : Decidable (Plain s) := List.decidableBAll _ s

/-! ## Tokens -/

/-- Solid bytes are added to the word that is being read. -/
theorem tokenizeFrom_append {w v rest : Bytes} (hv : ∀ b ∈ v, isSpace b = false) :
    tokenizeFrom w (v ++ rest) = tokenizeFrom (w ++ v) rest := by
  induction v generalizing w with
  | nil => rw [List.nil_append, List.append_nil]
  | cons b v ih =>
    obtain ⟨hb, hv⟩ := List.forall_mem_cons.mp hv
    rw [List.cons_append, tokenizeFrom, hb, if_neg Bool.false_ne_true, ih hv, List.append_assoc,
      List.singleton_append]

/-- A word alone is its only token. -/
theorem tokenize_word {w : Bytes} (hw : IsWord w) : tokenize w = [w] := by
  have happend : tokenizeFrom [] (w ++ []) = tokenizeFrom ([] ++ w) [] :=
    tokenizeFrom_append hw.solid
  rw [List.append_nil, List.nil_append] at happend
  rw [tokenize, happend, tokenizeFrom, if_neg hw.nonempty]

/-- A word and a blank are followed by the tokens of the rest. -/
theorem tokenize_cons {w rest : Bytes} (hw : IsWord w) :
    tokenize (w ++ 32 :: rest) = w :: tokenize rest := by
  have hblank : isSpace 32 = true := rfl
  rw [tokenize, tokenizeFrom_append hw.solid, List.nil_append, tokenizeFrom, hblank, if_pos rfl,
    if_neg hw.nonempty, tokenize]

private theorem tokenizeFrom_append_space {w line : Bytes} {b : UInt8} (hb : isSpace b = true) :
    tokenizeFrom w (line ++ [b]) = tokenizeFrom w line := by
  induction line generalizing w with
  | nil => by_cases hw : w = [] <;> simp [tokenizeFrom, hb, hw]
  | cons a line ih => simp only [List.cons_append, tokenizeFrom, ih]

/-- White space at the end of a line makes no difference. -/
theorem tokenize_append_space {line : Bytes} {b : UInt8} (hb : isSpace b = true) :
    tokenize (line ++ [b]) = tokenize line := tokenizeFrom_append_space hb

/-- A line and the same line without its carriage return have the same tokens. -/
theorem tokenize_stripCr (line : Bytes) : tokenize (stripCr line) = tokenize line := by
  unfold stripCr
  split
  · rename_i h
    obtain ⟨hne, hlast⟩ := h
    obtain ⟨rest, rfl⟩ := List.getLast?_eq_some_iff.mp hlast
    rw [List.dropLast_concat, tokenize_append_space (by decide)]
  · rfl

private theorem mem_tokenizeFrom {line v w : Bytes} (hv : ∀ b ∈ v, isSpace b = false)
    (h : w ∈ tokenizeFrom v line) : IsWord w := by
  induction line generalizing v with
  | nil =>
    rw [tokenizeFrom] at h
    split_ifs at h with hnil
    · cases h
    · rw [List.mem_singleton.mp h]
      exact ⟨hnil, hv⟩
  | cons b line ih =>
    rw [tokenizeFrom] at h
    split_ifs at h with hspace hnil
    · exact ih (List.forall_mem_nil _) h
    · rcases List.mem_cons.mp h with rfl | h
      · exact ⟨hnil, hv⟩
      · exact ih (List.forall_mem_nil _) h
    · have hsolid : isSpace b = false := Bool.eq_false_iff.mpr hspace
      exact ih (List.forall_mem_append.mpr ⟨hv, List.forall_mem_singleton.mpr hsolid⟩) h

/-- Every token is a word. -/
theorem isWord_of_mem_tokenize {line w : Bytes} (h : w ∈ tokenize line) : IsWord w :=
  mem_tokenizeFrom (List.forall_mem_nil _) h

/-! ## Plain texts -/

/-- Two plain texts make a plain text. -/
theorem Plain.append {s t : Bytes} (hs : Plain s) (ht : Plain t) : Plain (s ++ t) :=
  List.forall_mem_append.mpr ⟨hs, ht⟩

/-- A word is plain. -/
theorem IsWord.plain {w : Bytes} (h : IsWord w) : Plain w := by
  intro b hb
  have hsolid := h.solid b hb
  constructor <;> rintro rfl <;> cases hsolid

/-! ## Numbers -/

private theorem takeWhile_digits {s : Bytes} (h : s.all Decimal.isDigit = true) :
    s.takeWhile Decimal.isDigit = s :=
  List.takeWhile_eq_self_iff.mpr fun b hb => List.all_eq_true.mp h b hb

/-- A number is accepted exactly when it is a run of digits with a value in range. -/
theorem parseNonnegativeInt_eq_some {s : Bytes} {n : Int} :
    parseNonnegativeInt s = some n ↔
      s ≠ [] ∧ s.all Decimal.isDigit = true ∧ (Decimal.value s : Int) = n ∧ n ≤ maxValue := by
  have hmax : maxValue = 2147483647 := rfl
  unfold parseNonnegativeInt fromChars
  by_cases hnil : s = []
  · simp only [hnil, if_true, reduceCtorEq, ne_eq, not_true_eq_false, false_and]
  by_cases hall : s.all Decimal.isDigit = true
  swap
  · simp only [if_neg hnil, hall, Bool.false_eq_true, if_false, reduceCtorEq, false_and, and_false]
  simp only [if_neg hnil, if_pos hall, takeWhile_digits hall]
  by_cases hlong : Decimal.value s ≤ 2 ^ 63 - 1
  · rw [if_pos hlong]
    dsimp only
    constructor
    · intro h
      split_ifs at h with hgt
      have heq := Option.some.inj h
      exact ⟨hnil, hall, heq, by omega⟩
    · rintro ⟨-, -, heq, hle⟩
      rw [if_neg (by omega), heq]
  · rw [if_neg hlong]
    refine ⟨nofun, ?_⟩
    rintro ⟨-, -, heq, hle⟩
    omega

private theorem parsePositiveInt_eq_some_iff_pos {s : Bytes} {n : Int} :
    parsePositiveInt s = some n ↔ parseNonnegativeInt s = some n ∧ 1 ≤ n := by
  unfold parsePositiveInt
  cases parseNonnegativeInt s with
  | none => simp only [reduceCtorEq, false_and]
  | some out =>
    simp only [Option.ite_none_right_eq_some, gt_iff_lt, Option.some.injEq]
    constructor
    · rintro ⟨hpos, rfl⟩
      exact ⟨rfl, hpos⟩
    · rintro ⟨rfl, hpos⟩
      exact ⟨hpos, rfl⟩

/-- `parse_positive_int` accepts exactly the digits of a number from 1 to the largest `int`. -/
theorem parsePositiveInt_eq_some {s : Bytes} {n : Int} :
    parsePositiveInt s = some n ↔
      s.all Decimal.isDigit = true ∧ (Decimal.value s : Int) = n ∧ 1 ≤ n ∧ n ≤ maxValue := by
  rw [parsePositiveInt_eq_some_iff_pos, parseNonnegativeInt_eq_some]
  constructor
  · rintro ⟨⟨-, hall, heq, hle⟩, hpos⟩
    exact ⟨hall, heq, hpos, hle⟩
  · rintro ⟨hall, heq, hpos, hle⟩
    refine ⟨⟨?_, hall, heq, hle⟩, hpos⟩
    rintro rfl
    rw [← heq] at hpos
    exact absurd hpos (by decide)

/-! ## Printed ids -/

/-- `std::to_string` prints a natural number in decimal. -/
theorem stdToString_natCast (n : Nat) : stdToString n = Decimal.print n := by
  rw [stdToString, if_neg (Int.not_lt.mpr (Int.natCast_nonneg n)), Int.natAbs_natCast]

/-- A printed number is a word. -/
theorem isWord_print (n : Nat) : IsWord (Decimal.print n) where
  nonempty := Decimal.print_ne_nil n
  solid b hb := by
    have hdigit := Decimal.isDigit_print n b hb
    simp only [Decimal.isDigit, Bool.and_eq_true, decide_eq_true_eq, UInt8.le_iff_toNat_le]
      at hdigit
    have hlow : 48 ≤ b.toNat := hdigit.1
    rw [isSpace, Bool.or_eq_false_iff, Bool.and_eq_false_iff]
    refine ⟨?_, Or.inr ?_⟩
    · rw [beq_eq_false_iff_ne]
      rintro rfl
      exact absurd hlow (by decide)
    · rw [decide_eq_false_iff_not, UInt8.le_iff_toNat_le]
      exact fun hle => absurd (hlow.trans hle) (by decide)

/-- A printed id is read back as long as it is in range. -/
theorem parseNonnegativeInt_print (n : Nat) :
    parseNonnegativeInt (Decimal.print n) =
      if (n : Int) ≤ maxValue then some (n : Int) else none := by
  have hall : (Decimal.print n).all Decimal.isDigit = true :=
    List.all_eq_true.mpr (Decimal.isDigit_print n)
  split_ifs with hle
  · refine parseNonnegativeInt_eq_some.mpr ⟨Decimal.print_ne_nil n, hall, ?_, hle⟩
    rw [Decimal.value_print]
  · refine Option.eq_none_iff_forall_ne_some.mpr fun m hm => hle ?_
    obtain ⟨-, -, heq, hm⟩ := parseNonnegativeInt_eq_some.mp hm
    rwa [Decimal.value_print, ← heq] at *

/-- The integer parsers accept the runs of digits whose value is in range, with that value,
and read back every number in range that `std::to_string` prints. -/
theorem parse_int_grammar :
    (∀ s out, parseNonnegativeInt s = some out ↔
      s ≠ [] ∧ (∀ b ∈ s, Decimal.isDigit b = true) ∧
        ∃ n : Nat, n = Nat.ofDigits 10 (Decimal.digits s) ∧ n ≤ 2147483647 ∧ out = n) ∧
    (∀ s out, parsePositiveInt s = some out ↔ parseNonnegativeInt s = some out ∧ 1 ≤ out) ∧
    ∀ n : Nat, parseNonnegativeInt (stdToString n) =
      if n ≤ 2147483647 then some (n : Int) else none := by
  have hmax : maxValue = 2147483647 := rfl
  refine ⟨fun s out => ?_, fun s out => parsePositiveInt_eq_some_iff_pos, fun n => ?_⟩
  · rw [parseNonnegativeInt_eq_some, List.all_eq_true]
    have hvalue := Decimal.value_eq_ofDigits s
    constructor
    · rintro ⟨hne, hall, heq, hle⟩
      exact ⟨hne, hall, Decimal.value s, hvalue, by omega, heq.symm⟩
    · rintro ⟨hne, hall, n, hn, hle, heq⟩
      have hn : n = Decimal.value s := hn.trans hvalue.symm
      exact ⟨hne, hall, by omega, by omega⟩
  · have hrange : (n : Int) ≤ maxValue ↔ n ≤ 2147483647 := by omega
    rw [stdToString_natCast, parseNonnegativeInt_print]
    exact if_congr hrange rfl rfl

/-- A printed integer is plain. -/
theorem plain_stdToString (n : Int) : Plain (stdToString n) := by
  have hprint := (isWord_print n.natAbs).plain
  rw [stdToString]
  split
  · exact Plain.append (by decide) hprint
  · exact hprint

end SocketExchange
