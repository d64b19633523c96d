import Mathlib.Data.List.ReduceOption
import SocketExchange.Common.Framing
import SocketExchange.Library.Runs
import SocketExchange.Library.Segments

/-!
# Feeding and reading in any order

The bytes of a stream are fed in chunks, and lines are asked for in between, with or
without success. Whatever the order, the lines returned so far are the first terminated
segments of all that has been fed, and the buffer holds what follows the last of them.
-/

namespace SocketExchange

open Runs Segments

/-- A call on a line buffer. -/
inductive BufferCall where
  | feed (data : Bytes)
  /-- The argument is what the caller's string holds. -/
  | nextLine (out : Bytes)

namespace LineBuffer

/-- The buffer after a call. -/
def call (b : LineBuffer) : BufferCall → LineBuffer
  | .feed data => b.feed data
  | .nextLine out => (b.nextLineInto out).2.2

/-- The line that a call returns, if it is a successful `next_line`. -/
def returned (b : LineBuffer) : BufferCall → Option Bytes
  | .feed _ => none
  | .nextLine out =>
    match b.nextLineInto out with
    | (true, line, _) => some line
    | (false, _, _) => none

end LineBuffer

/-- The bytes that a call feeds. -/
def BufferCall.data : BufferCall → Bytes
  | .feed data => data
  | .nextLine _ => []

/-- Everything fed in these calls. -/
def bytesFed (calls : List BufferCall) : Bytes := calls.flatMap BufferCall.data

/-- The lines returned in these calls on a fresh buffer. -/
def linesReturned (calls : List BufferCall) : List Bytes :=
  (outputs LineBuffer.call LineBuffer.returned {} calls).reduceOption

namespace LineBuffer

/-! ## One call -/

private theorem stripCr_append (s : Bytes) : stripCr (s ++ [13]) = s := by simp [stripCr]

private theorem stripCr_of_not_cr {s : Bytes} (h : s.getLast? ≠ some 13) : stripCr s = s := by
  simp [stripCr, h]

/-- The result and the caller's string are those of the next line, if there is one. -/
theorem nextLineInto_eq (b : LineBuffer) (out : Bytes) :
    b.nextLineInto out =
      match b.nextLine with
      | none => (false, out, b)
      | some (line, rest) => (true, line, rest) := by
  unfold nextLineInto nextLine
  cases b.buf_.findIdx? (· == 10) with
  | none => rfl
  | some pos => rfl

/-- Without a terminator a call fails and changes nothing. -/
theorem nextLineInto_of_not_mem {b : LineBuffer} (h : 10 ∉ b.buf_) (out : Bytes) :
    b.nextLineInto out = (false, out, b) := by
  rw [nextLineInto_eq, nextLine_eq_none.mpr h]

/-- The first segment is returned and leaves the buffer. -/
theorem nextLineInto_append {s : Bytes} (hs : 10 ∉ s) (t out : Bytes) :
    nextLineInto ⟨s ++ 10 :: t⟩ out = (true, stripCr s, ⟨t⟩) := by
  rw [nextLineInto_eq, nextLine_append hs]

/-! ## Any sequence of calls -/

/-- The stream fed so far is made of the segments returned, in order, and of what is buffered. -/
def Framed (fed : Bytes) (lines : List Bytes) (b : LineBuffer) : Prop :=
  ∃ segs, (∀ s ∈ segs, 10 ∉ s) ∧ lines = segs.map stripCr ∧ fed = terminated 10 segs ++ b.buf_

/-- One call keeps what is fed, what is returned and what is buffered together. -/
theorem Framed.call {fed : Bytes} {lines : List Bytes} {b : LineBuffer} (h : Framed fed lines b)
    (c : BufferCall) :
    Framed (fed ++ c.data) (lines ++ (b.returned c).toList) (b.call c) := by
  obtain ⟨segs, hsegs, rfl, rfl⟩ := h
  cases c with
  | feed data =>
    refine ⟨segs, hsegs, by simp [returned], ?_⟩
    simp [BufferCall.data, LineBuffer.call, feed]
  | nextLine out =>
    rcases b.exists_line with ⟨s, t, hs, rfl⟩ | hno
    · refine ⟨segs ++ [s], ?_, ?_, ?_⟩
      · exact List.forall_mem_append.mpr ⟨hsegs, List.forall_mem_singleton.mpr hs⟩
      · simp [returned, nextLineInto_append hs]
      · simp [BufferCall.data, LineBuffer.call, nextLineInto_append hs, terminated_append]
    · refine ⟨segs, hsegs, ?_, ?_⟩
      · simp [returned, nextLineInto_of_not_mem hno]
      · simp [BufferCall.data, LineBuffer.call, nextLineInto_of_not_mem hno]

/-- A whole sequence of calls keeps them together. -/
theorem Framed.run {fed : Bytes} {lines : List Bytes} {b : LineBuffer} (h : Framed fed lines b)
    (calls : List BufferCall) :
    Framed (fed ++ bytesFed calls)
      (lines ++ (outputs LineBuffer.call returned b calls).reduceOption)
      (Runs.run LineBuffer.call b calls) := by
  induction calls generalizing fed lines b with
  | nil => simpa [bytesFed, outputs] using h
  | cons c calls ih =>
    have hrest := ih (h.call c)
    rw [List.append_assoc, List.append_assoc] at hrest
    have hreturned : (b.returned c).toList ++
        (outputs LineBuffer.call returned (b.call c) calls).reduceOption =
        (outputs LineBuffer.call returned b (c :: calls)).reduceOption := by
      rw [outputs]
      cases b.returned c <;> rfl
    rwa [hreturned] at hrest

/-- What the calls on a fresh buffer have come to. -/
theorem framed_run (calls : List BufferCall) :
    Framed (bytesFed calls) (linesReturned calls) (Runs.run LineBuffer.call {} calls) := by
  have hfresh : Framed [] [] {} := ⟨[], by simp, rfl, rfl⟩
  simpa [linesReturned] using hfresh.run calls

/-- The buffer holds a terminator exactly when more have been fed than lines returned. -/
theorem Framed.mem_iff {fed : Bytes} {lines : List Bytes} {b : LineBuffer}
    (h : Framed fed lines b) : 10 ∈ b.buf_ ↔ lines.length + 1 ≤ fed.count 10 := by
  obtain ⟨segs, hsegs, rfl, rfl⟩ := h
  rw [← List.count_pos_iff, List.count_append, count_terminated hsegs, List.length_map]
  omega

/-- In every sequence of feeds and reads on a fresh buffer, the `k` lines returned are the first
`k` terminated segments fed, without their terminator and one trailing carriage return; the buffer
holds the bytes behind the `k`-th terminator; and the next read fails exactly when no more than `k`
have been fed, in which case it changes nothing. -/
theorem run_framing_exact (calls : List BufferCall) (out : Bytes) :
    let b := Runs.run LineBuffer.call {} calls
    let fed := bytesFed calls
    let lines := linesReturned calls
    let k := lines.length
    k ≤ (segments 10 fed).length ∧ lines = ((segments 10 fed).take k).map stripCr ∧
      b.buf_ = after 10 k fed ∧ fed = terminated 10 ((segments 10 fed).take k) ++ b.buf_ ∧
      ((b.nextLineInto out).1 = false ↔ fed.count 10 < k + 1) ∧
      ((b.nextLineInto out).1 = false → (b.nextLineInto out).2 = (out, b)) ∧
      (∀ s ∈ segments 10 fed, 10 ∉ s) ∧
      (∀ s, stripCr (s ++ [13]) = s) ∧ ∀ s, s.getLast? ≠ some 13 → stripCr s = s := by
  intro b fed lines k
  have hframed : Framed fed lines b := framed_run calls
  have hmem := hframed.mem_iff
  obtain ⟨segs, hsegs, hlines, hfed⟩ := hframed
  have hk : segs.length = k := by simp [k, hlines]
  have hsegments : segments 10 fed = segs ++ segments 10 b.buf_ := by
    rw [hfed, segments_terminated_append hsegs]
  have htake : (segments 10 fed).take k = segs := by
    rw [hsegments, ← hk, List.take_left]
  refine ⟨?_, ?_, ?_, ?_, ?_, fun hfails => ?_, fun s => not_mem_of_mem_segments, stripCr_append,
    fun s => stripCr_of_not_cr⟩
  · rw [hsegments, List.length_append]
    omega
  · rw [htake, hlines]
  · rw [hfed, ← hk, after_terminated_append hsegs]
  · rw [htake, ← hfed]
  · rw [← not_iff_not, Bool.not_eq_false, Nat.not_lt, ← hmem]
    rcases b.exists_line with ⟨s, t, hs, hb⟩ | hno
    · simp [hb, nextLineInto_append hs]
    · simp [hno, nextLineInto_of_not_mem hno]
  · rcases b.exists_line with ⟨s, t, hs, hb⟩ | hno
    · rw [hb, nextLineInto_append hs] at hfails
      cases hfails
    · rw [nextLineInto_of_not_mem hno]

/-- An empty line, a line with a carriage return to drop, and one that holds a carriage return. -/
example :
    linesReturned [.feed (text "\nQUIT\r"), .nextLine [], .feed (text "\nPAR\rTIAL"), .nextLine [],
      .nextLine [], .feed (text "\n"), .nextLine []] = [[], text "QUIT", text "PAR\rTIAL"] := by
  decide

end LineBuffer

end SocketExchange
