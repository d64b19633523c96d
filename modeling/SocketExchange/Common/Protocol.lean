import SocketExchange.Library.Decimal

/-!
# The wire protocol

Strings are sequences of bytes. A command line is cut into words at white space;
numbers are plain runs of decimal digits no larger than `maxValue`; every reply
and report is built by one of the `msg` functions, which neither add nor expect a
line terminator.
-/

namespace SocketExchange

/-- A `std::string`. -/
abbrev Bytes := List UInt8

/-- The bytes of an ASCII literal. -/
def text (s : String) : Bytes := s.toList.map fun c => UInt8.ofNat c.toNat

/-- The single source of truth for tradable instruments. -/
def instruments : List Bytes := [text "JNST", text "IMCT"]

/-- The text is one of the instruments that are traded. -/
def isValidInstrument (s : Bytes) : Bool := instruments.any fun i => s == i

/-- The largest value a quantity, a price or an order id may have on the wire. -/
def maxValue : Int := 2147483647

/-- `std::from_chars` for a `long long`: the longest run of digits, or failure when
there is none or when its value exceeds the type's range. -/
def fromChars (s : Bytes) : Option Int :=
  let digits := s.takeWhile Decimal.isDigit
  if digits = [] then none
  else if Decimal.value digits ≤ 2 ^ 63 - 1 then some (Decimal.value digits) else none

/-- A number in 0..2147483647, written in digits only. -/
def parseNonnegativeInt (s : Bytes) : Option Int :=
  if s = [] then none
  else if s.all Decimal.isDigit then
    match fromChars s with
    | none => none
    | some out => if out > maxValue then none else some out
  else none

/-- A number in 1..2147483647, written in digits only. -/
def parsePositiveInt (s : Bytes) : Option Int :=
  match parseNonnegativeInt s with
  | none => none
  | some out => if out > 0 then some out else none

private theorem fromChars_nonneg {s : Bytes} {n : Int} (h : fromChars s = some n) : 0 ≤ n := by
  simp only [fromChars] at h
  split_ifs at h with hnil hle
  rw [← Option.some.inj h]
  exact Int.natCast_nonneg _

/-- `parse_nonnegative_int` gives no negative number. -/
theorem parseNonnegativeInt_nonneg {s : Bytes} {n : Int} (h : parseNonnegativeInt s = some n) :
    0 ≤ n := by
  unfold parseNonnegativeInt at h
  split_ifs at h with hnil hall
  split at h
  · cases h
  · rename_i out hout
    split_ifs at h with hmax
    exact Option.some.inj h ▸ fromChars_nonneg hout

/-- `parse_positive_int` gives only positive ones. -/
theorem parsePositiveInt_pos {s : Bytes} {n : Int} (h : parsePositiveInt s = some n) : 0 < n := by
  unfold parsePositiveInt at h
  split at h
  · cases h
  · split at h
    · rename_i hpos
      exact Option.some.inj h ▸ hpos
    · cases h

/-- `isspace` in the classic locale: blank, tab, newline, vertical tab, form feed
and carriage return. -/
def isSpace (b : UInt8) : Bool := b == 32 || (9 ≤ b && b ≤ 13)

/-- Stream extraction with the word `w` read so far. -/
def tokenizeFrom (w : Bytes) : Bytes → List Bytes
  | [] => if w = [] then [] else [w]
  | b :: line =>
    if isSpace b then
      if w = [] then tokenizeFrom [] line else w :: tokenizeFrom [] line
    else tokenizeFrom (w ++ [b]) line

/-- The words of a line, in order; no word is empty. -/
def tokenize (line : Bytes) : List Bytes := tokenizeFrom [] line

/-- `std::to_string` of a `long long`. -/
def stdToString (n : Int) : Bytes :=
  if n < 0 then text "-" ++ Decimal.print n.natAbs else Decimal.print n.natAbs

/-- The reply to LOGIN, SUBSCRIBE and UNSUBSCRIBE. -/
def msgOk : Bytes := text "OK"
/-- The reply to a line that is refused. -/
def msgError (reason : Bytes) : Bytes := text "ERROR " ++ reason
/-- The reply to an order. -/
def msgOrderAccepted (id : Int) : Bytes := text "ORDER_ACCEPTED " ++ stdToString id
/-- The reply to a CANCEL that took an order out of the book. -/
def msgOrderCancelled (id : Int) : Bytes := text "ORDER_CANCELLED " ++ stdToString id
/-- The report of a fill to the buyer. -/
def msgBought (i : Bytes) (q p : Int) : Bytes :=
  text "BOUGHT " ++ i ++ text " " ++ stdToString q ++ text " " ++ stdToString p
/-- The report of a fill to the seller. -/
def msgSold (i : Bytes) (q p : Int) : Bytes :=
  text "SOLD " ++ i ++ text " " ++ stdToString q ++ text " " ++ stdToString p
/-- The report of a fill to the market-data clients. -/
def msgTrade (i : Bytes) (q p : Int) : Bytes :=
  text "TRADE " ++ i ++ text " " ++ stdToString q ++ text " " ++ stdToString p

example : tokenize (text "  LOGIN   alice  ") = [text "LOGIN", text "alice"] := by decide

/-- The word a message begins with, by which a reader tells the messages apart. -/
def firstWord (line : Bytes) : Bytes := line.takeWhile fun b => !isSpace b

@[simp] theorem firstWord_msgOk : firstWord msgOk = text "OK" := rfl
@[simp] theorem firstWord_msgError (r : Bytes) : firstWord (msgError r) = text "ERROR" := rfl
@[simp] theorem firstWord_msgOrderAccepted (id : Int) :
    firstWord (msgOrderAccepted id) = text "ORDER_ACCEPTED" := rfl
@[simp] theorem firstWord_msgOrderCancelled (id : Int) :
    firstWord (msgOrderCancelled id) = text "ORDER_CANCELLED" := rfl
@[simp] theorem firstWord_msgBought (i : Bytes) (q p : Int) :
    firstWord (msgBought i q p) = text "BOUGHT" := rfl
@[simp] theorem firstWord_msgSold (i : Bytes) (q p : Int) :
    firstWord (msgSold i q p) = text "SOLD" := rfl
@[simp] theorem firstWord_msgTrade (i : Bytes) (q p : Int) :
    firstWord (msgTrade i q p) = text "TRADE" := rfl

/-- A printed order id names one order only. -/
theorem stdToString_injOn {a b : Int} (ha : 0 ≤ a) (hb : 0 ≤ b)
    (h : stdToString a = stdToString b) : a = b := by
  rw [stdToString, stdToString, if_neg (by omega), if_neg (by omega)] at h
  have := Decimal.print_injective h
  omega

end SocketExchange
