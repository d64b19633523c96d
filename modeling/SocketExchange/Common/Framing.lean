import SocketExchange.Common.NetUtils
import SocketExchange.Library.Segments

/-!
# Reading a stream line by line

A reader takes all complete lines off its buffer each time bytes have arrived. What it
has taken when all bytes are there does not depend on how they arrived: the lines are those
of the whole stream, and the bytes behind the last terminator are left.
-/

namespace SocketExchange

open Segments

/-- The lines of a stream: its terminated segments, without one trailing carriage return. -/
def framedLines (stream : Bytes) : List Bytes := (segments 10 stream).map stripCr

namespace LineBuffer

/-- Take complete lines, at most `fuel` of them. -/
def drain : Nat → LineBuffer → List Bytes × LineBuffer
  | 0, b => ([], b)
  | fuel + 1, b =>
    match b.nextLine with
    | none => ([], b)
    | some (line, rest) =>
      let r := drain fuel rest
      (line :: r.1, r.2)

/-- All complete lines and what is left; no line is shorter than its terminator. -/
def lines (b : LineBuffer) : List Bytes × LineBuffer := b.drain b.buf_.length

/-- The loop of both clients: each chunk is fed, and all complete lines are taken. -/
def receive (b : LineBuffer) : List Bytes → List Bytes × LineBuffer
  | [] => ([], b)
  | chunk :: chunks =>
    let r := (b.feed chunk).lines
    let r' := r.2.receive chunks
    (r.1 ++ r'.1, r'.2)

/-! ## One line -/

/-- There is no line to take exactly when no LF has been buffered. -/
theorem nextLine_eq_none {b : LineBuffer} : b.nextLine = none ↔ 10 ∉ b.buf_ := by
  have hfind : b.buf_.findIdx? (· == 10) = none ↔ 10 ∉ b.buf_ := by
    rw [List.findIdx?_eq_none_iff]
    constructor
    · intro h hmem
      exact absurd (h 10 hmem) (by decide)
    · intro h x hx
      exact beq_eq_false_iff_ne.mpr fun he => h (he ▸ hx)
  rw [← hfind, nextLine]
  cases b.buf_.findIdx? (· == 10) <;> simp only [reduceCtorEq]

/-- The first terminator ends the first line. -/
theorem nextLine_append {s : Bytes} (hs : 10 ∉ s) (t : Bytes) :
    nextLine ⟨s ++ 10 :: t⟩ = some (stripCr s, ⟨t⟩) := by
  have hfind : (s ++ 10 :: t).findIdx? (· == 10) = some s.length := by
    rw [List.findIdx?_append, List.findIdx?_eq_none_iff.mpr, List.findIdx?_cons, if_pos]
    · rw [Option.none_or, Option.map_some, Nat.zero_add]
    · rfl
    · intro x hx
      exact beq_eq_false_iff_ne.mpr fun he => hs (he ▸ hx)
  have hrest : (s ++ 10 :: t).drop (s.length + 1) = t := by
    rw [List.drop_append, List.drop_of_length_le (Nat.le_succ _)]
    simp only [Nat.add_sub_cancel_left, List.drop_succ_cons, List.drop_zero, List.nil_append]
  simp only [nextLine, hfind, List.take_left, hrest]

/-- A buffer either begins with a complete line or holds no terminator. -/
theorem exists_line (b : LineBuffer) :
    (∃ s t, 10 ∉ s ∧ b = ⟨s ++ 10 :: t⟩) ∨ 10 ∉ b.buf_ := by
  by_cases hmem : 10 ∈ b.buf_
  · obtain ⟨s, t, hbytes, hs⟩ := List.eq_append_cons_of_mem hmem
    exact Or.inl ⟨s, t, hs, congrArg LineBuffer.mk hbytes⟩
  · exact Or.inr hmem

/-! ## All lines -/

/-- Enough fuel takes all lines. -/
theorem drain_eq_lines {fuel : Nat} {b : LineBuffer} (h : b.buf_.length ≤ fuel) :
    b.drain fuel = b.lines := by
  suffices hsame : ∀ n fuel fuel' b, b.buf_.length ≤ n → n ≤ fuel → n ≤ fuel' →
      drain fuel b = drain fuel' b from hsame _ _ _ b le_rfl h le_rfl
  intro n
  induction n with
  | zero =>
    intro fuel fuel' b hn _ _
    have hnone : b.nextLine = none := by
      rw [nextLine_eq_none, List.eq_nil_of_length_eq_zero (Nat.le_zero.mp hn)]
      exact List.not_mem_nil
    cases fuel <;> cases fuel' <;> simp only [drain, hnone]
  | succ n ih =>
    intro fuel fuel' b hn hfuel hfuel'
    obtain ⟨fuel, rfl⟩ := Nat.exists_eq_add_of_le' hfuel
    obtain ⟨fuel', rfl⟩ := Nat.exists_eq_add_of_le' hfuel'
    rw [← Nat.add_assoc, ← Nat.add_assoc, drain, drain]
    cases hline : b.nextLine with
    | none => rfl
    | some taken =>
      obtain ⟨line, rest⟩ := taken
      have hshorter := nextLine_shorter hline
      have hrest := ih (fuel + n) (fuel' + n) rest (by omega) (by omega) (by omega)
      simp only [hrest]

@[simp] theorem lines_none {b : LineBuffer} (h : 10 ∉ b.buf_) : b.lines = ([], b) := by
  rw [lines]
  cases b.buf_.length with
  | zero => rfl
  | succ n => rw [drain, nextLine_eq_none.mpr h]

/-- The bytes up to the first LF are the first line, less a CR at its end. -/
theorem lines_cons {s : Bytes} (hs : 10 ∉ s) (t : Bytes) :
    lines ⟨s ++ 10 :: t⟩ = (stripCr s :: (lines ⟨t⟩).1, (lines ⟨t⟩).2) := by
  have hlength : (s ++ 10 :: t).length = (s.length + t.length) + 1 := by
    rw [List.length_append, List.length_cons, Nat.add_assoc]
  rw [lines, hlength, drain, nextLine_append hs]
  dsimp only
  rw [drain_eq_lines (Nat.le_add_left ..)]

/-- Every buffer is made of complete lines and a rest without a terminator. -/
theorem lines_induction {P : LineBuffer → Prop} (hnone : ∀ b, 10 ∉ b.buf_ → P b)
    (hcons : ∀ s t, 10 ∉ s → P ⟨t⟩ → P ⟨s ++ 10 :: t⟩) (b : LineBuffer) : P b := by
  induction hn : b.buf_.length using Nat.strong_induction_on generalizing b with
  | h n ih =>
    rcases b.exists_line with ⟨s, t, hs, rfl⟩ | hno
    · refine hcons s t hs (ih t.length ?_ ⟨t⟩ rfl)
      rw [← hn, List.length_append, List.length_cons]
      omega
    · exact hnone b hno

/-- The lines are the pieces between the terminators, and what is left is the last piece. -/
theorem lines_eq_splitOn (b : LineBuffer) :
    b.lines = ((b.buf_.splitOn 10).dropLast.map stripCr, ⟨(b.buf_.splitOn 10).getLastD []⟩) := by
  induction b using lines_induction with
  | hnone b h =>
    rw [lines_none h, List.splitOn_eq_singleton h, List.dropLast_singleton, List.getLastD_cons]
    rfl
  | hcons s t hs ih =>
    rw [lines_cons hs, ih, List.splitOn_append_cons_self_of_not_mem hs]
    have hne : t.splitOn 10 ≠ [] := List.splitOn_ne_nil 10 t
    rw [List.dropLast_cons_of_ne_nil hne, List.map_cons, List.getLastD_cons]
    have hlast : (t.splitOn 10).getLastD [] = (t.splitOn 10).getLastD s := by
      rw [List.getLastD_eq_getLast?, List.getLastD_eq_getLast?, List.getLast?_eq_some_getLast hne]
      rfl
    rw [hlast]

/-- What is left holds no complete line. -/
theorem lines_left (b : LineBuffer) : 10 ∉ b.lines.2.buf_ := by
  induction b using lines_induction with
  | hnone b h => rwa [lines_none h]
  | hcons s t hs ih => rwa [lines_cons hs]

/-- Bytes that arrive later complete what is left, and nothing else. -/
theorem lines_feed (b : LineBuffer) (data : Bytes) :
    (b.feed data).lines =
      (b.lines.1 ++ (b.lines.2.feed data).lines.1, (b.lines.2.feed data).lines.2) := by
  induction b using lines_induction with
  | hnone b h => rw [lines_none h, List.nil_append]
  | hcons s t hs ih =>
    have hfeed : feed ⟨s ++ 10 :: t⟩ data = ⟨s ++ 10 :: (feed ⟨t⟩ data).buf_⟩ := by
      rw [feed, feed, List.append_assoc, List.cons_append]
    rw [hfeed, lines_cons hs, lines_cons hs, ih, List.cons_append]

/-- All complete lines of a buffer are those of its bytes. -/
theorem lines_eq_framed (b : LineBuffer) : b.lines.1 = framedLines b.buf_ := by
  rw [lines_eq_splitOn, framedLines, segments]

/-- However the bytes are cut, the lines taken are those of the whole stream. -/
theorem receive_eq {b : LineBuffer} (h : 10 ∉ b.buf_) (chunks : List Bytes) :
    b.receive chunks = (b.feed chunks.flatten).lines := by
  induction chunks generalizing b with
  | nil =>
    rw [receive, List.flatten_nil, feed, List.append_nil, lines_none h]
  | cons chunk chunks ih =>
    have hfeed : b.feed (chunk :: chunks).flatten = (b.feed chunk).feed chunks.flatten := by
      rw [List.flatten_cons, feed, feed, feed, List.append_assoc]
    rw [receive, hfeed, lines_feed (b.feed chunk), ih (lines_left _)]

end LineBuffer

/-- Without an LF there is no line. -/
theorem framedLines_of_not_mem {stream : Bytes} (h : 10 ∉ stream) : framedLines stream = [] := by
  rw [framedLines, segments_of_not_mem h, List.map_nil]

/-- Later bytes complete what a buffer has left over. -/
theorem framedLines_append (b : LineBuffer) (later : Bytes) :
    framedLines (b.buf_ ++ later) = b.lines.1 ++ framedLines (b.lines.2.buf_ ++ later) := by
  have hlines := congrArg Prod.fst (b.lines_feed later)
  rwa [(b.feed later).lines_eq_framed, (b.lines.2.feed later).lines_eq_framed] at hlines

end SocketExchange
