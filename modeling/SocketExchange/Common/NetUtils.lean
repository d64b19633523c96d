import SocketExchange.Common.Protocol

/-!
# Line framing

A receiver appends whatever bytes arrive to a buffer and takes complete lines off
its front.
-/

namespace SocketExchange

/-- Bytes received and not yet consumed as a line. -/
structure LineBuffer where
  buf_ : Bytes := []
  deriving DecidableEq

/-- Append freshly received bytes. -/
def LineBuffer.feed (b : LineBuffer) (data : Bytes) : LineBuffer := ⟨b.buf_ ++ data⟩

/-- Drop one trailing carriage return. -/
def stripCr (out : Bytes) : Bytes :=
  if out ≠ [] ∧ out.getLast? = some 13 then out.dropLast else out

/-- Take the first complete line, without its terminator, if there is one. -/
def LineBuffer.nextLine (b : LineBuffer) : Option (Bytes × LineBuffer) :=
  match b.buf_.findIdx? (· == 10) with
  | none => none
  | some pos => some (stripCr (b.buf_.take pos), ⟨b.buf_.drop (pos + 1)⟩)

/-- `next_line(out)`: what it returns, what `out` holds afterwards, and the buffer. -/
def LineBuffer.nextLineInto (b : LineBuffer) (out : Bytes) : Bool × Bytes × LineBuffer :=
  match b.buf_.findIdx? (· == 10) with
  | none => (false, out, b)
  | some pos =>
    let out := b.buf_.take pos
    let b : LineBuffer := ⟨b.buf_.drop (pos + 1)⟩
    let out := if out ≠ [] ∧ out.getLast? = some 13 then out.dropLast else out
    (true, out, b)

/-- Every line taken shortens the buffer by at least its terminator. -/
theorem LineBuffer.nextLine_shorter {b rest : LineBuffer} {line : Bytes}
    (h : b.nextLine = some (line, rest)) : rest.buf_.length < b.buf_.length := by
  unfold LineBuffer.nextLine at h
  split at h
  · cases h
  · rename_i pos hpos
    obtain ⟨-, rfl⟩ := Prod.mk.inj (Option.some.inj h)
    have hlt : pos < b.buf_.length := (List.findIdx?_eq_some_iff_findIdx_eq.mp hpos).1
    simp only [List.length_drop]
    omega

end SocketExchange
