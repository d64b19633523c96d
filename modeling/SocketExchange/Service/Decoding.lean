import SocketExchange.Service.Replies
import SocketExchange.Service.Representation

/-!
# Reports read back

A report names its kind, an instrument, a quantity and a price. Its line is cut into
just these four words, and the server's own parsers recover the instrument and both
numbers; so no two different reports look alike on the wire.
-/

namespace SocketExchange

open Containers ClientSession Runs OrderBook

/-- What a report tells. -/
inductive ReportKind where
  | bought
  | sold
  | trade
  deriving DecidableEq, Repr

/-- The word that begins a report. -/
def ReportKind.word : ReportKind → Bytes
  | .bought => text "BOUGHT"
  | .sold => text "SOLD"
  | .trade => text "TRADE"

/-- The line of a report, as the server builds it. -/
def ReportKind.line : ReportKind → Bytes → Int → Int → Bytes
  | .bought => msgBought
  | .sold => msgSold
  | .trade => msgTrade

/-- A report that the server may emit. -/
structure Report where
  kind : ReportKind
  instrument : Bytes
  qty : Int
  price : Int
  tradable : isValidInstrument instrument = true
  qty_inRange : InRange qty
  price_inRange : InRange price

namespace Report

/-- The line of a report. -/
def line (r : Report) : Bytes := r.kind.line r.instrument r.qty r.price

/-- The kind that a word announces. -/
def kindOf (word : Bytes) : Option ReportKind :=
  [ReportKind.bought, .sold, .trade].find? fun kind => kind.word = word

/-- Read a line with the server's tokenizer and its number parser. -/
def read (line : Bytes) : Option Report :=
  match tokenize line with
  | [word, instrument, quantity, limit] =>
    match kindOf word with
    | none => none
    | some kind =>
      if tradable : isValidInstrument instrument = true then
        match hqty : parsePositiveInt quantity, hprice : parsePositiveInt limit with
        | some qty, some price => some
          { kind := kind, instrument := instrument, qty := qty, price := price
            tradable := tradable
            qty_inRange := (parsePositiveInt_eq_some.mp hqty).2.2
            price_inRange := (parsePositiveInt_eq_some.mp hprice).2.2 }
        | _, _ => none
      else none
  | _ => none

end Report

/-! ## One line -/

@[simp] theorem kindOf_word (kind : ReportKind) : Report.kindOf kind.word = some kind := by
  cases kind <;> decide

private theorem isWord_word (kind : ReportKind) : IsWord kind.word := by cases kind <;> decide

private theorem isWord_of_isValidInstrument {i : Bytes} (h : isValidInstrument i = true) :
    IsWord i := by
  obtain ⟨j, hj, hij⟩ := List.any_eq_true.mp h
  have hwords : ∀ j ∈ instruments, IsWord j := by decide
  rw [eq_of_beq hij]
  exact hwords j hj

/-- A line is its four words, cut by single blanks. -/
theorem line_eq_words (kind : ReportKind) (i : Bytes) (q p : Int) :
    kind.line i q p = kind.word ++ 32 :: (i ++ 32 :: (stdToString q ++ 32 :: stdToString p)) := by
  have hblank : text " " = [32] := rfl
  have hbought : text "BOUGHT " = text "BOUGHT" ++ [32] := rfl
  have hsold : text "SOLD " = text "SOLD" ++ [32] := rfl
  have htrade : text "TRADE " = text "TRADE" ++ [32] := rfl
  cases kind <;>
    simp [ReportKind.line, ReportKind.word, msgBought, msgSold, msgTrade, hblank, hbought, hsold,
      htrade]

private theorem stdToString_of_inRange {n : Int} (h : InRange n) :
    stdToString n = Decimal.print n.toNat := by
  obtain ⟨hpos, -⟩ := h
  obtain ⟨m, rfl⟩ := Int.eq_ofNat_of_zero_le (by omega : 0 ≤ n)
  exact stdToString_natCast m

/-- A number in range is read back from its printed form. -/
theorem parsePositiveInt_stdToString {n : Int} (h : InRange n) :
    parsePositiveInt (stdToString n) = some n := by
  have hnat : (n.toNat : Int) = n := Int.toNat_of_nonneg (by have := h.1; omega)
  rw [stdToString_of_inRange h]
  refine parsePositiveInt_eq_some.mpr ⟨?_, ?_, h⟩
  · exact List.all_eq_true.mpr (Decimal.isDigit_print _)
  · rw [Decimal.value_print, hnat]

/-- The tokens of a report are its four words. -/
theorem tokenize_line (kind : ReportKind) {i : Bytes} {q p : Int}
    (hi : isValidInstrument i = true) (hq : InRange q) (hp : InRange p) :
    tokenize (kind.line i q p) = [kind.word, i, stdToString q, stdToString p] := by
  have hnumber : ∀ {n : Int}, InRange n → IsWord (stdToString n) := by
    intro n hn
    rw [stdToString_of_inRange hn]
    exact isWord_print _
  rw [line_eq_words, tokenize_cons (isWord_word kind),
    tokenize_cons (isWord_of_isValidInstrument hi), tokenize_cons (hnumber hq),
    tokenize_word (hnumber hp)]

namespace Report

/-- Every report is read back from its line. -/
theorem read_line (r : Report) : read r.line = some r := by
  obtain ⟨kind, i, q, p, hi, hq, hp⟩ := r
  simp only [read, line, tokenize_line kind hi hq hp, kindOf_word, hi, dite_true]
  split
  · rename_i q' p' hq' hp'
    rw [parsePositiveInt_stdToString hq, Option.some.injEq] at hq'
    rw [parsePositiveInt_stdToString hp, Option.some.injEq] at hp'
    subst hq' hp'
    rfl
  · rename_i hnone
    exact absurd (parsePositiveInt_stdToString hp)
      (hnone q p (parsePositiveInt_stdToString hq))

/-- Different reports have different lines. -/
theorem line_injective : Function.Injective line := by
  intro r r' h
  have hread : read r.line = read r'.line := congrArg read h
  rw [read_line, read_line] at hread
  exact Option.some.inj hread

end Report

/-! ## The reports of a run -/

/-- What a fill has to satisfy so that its reports can be read back. -/
structure Fill.Reportable (f : Fill) : Prop where
  instrument : isValidInstrument f.instrument = true
  qty : InRange f.qty
  price : InRange f.price

/-- The report of a fill, of each kind. -/
def Fill.report (f : Fill) (h : f.Reportable) (kind : ReportKind) : Report where
  kind := kind
  instrument := f.instrument
  qty := f.qty
  price := f.price
  tradable := h.instrument
  qty_inRange := h.qty
  price_inRange := h.price

/-- The line of a fill's report. -/
def Fill.line (f : Fill) (kind : ReportKind) : Bytes := kind.line f.instrument f.qty f.price

/-- The fills of a valid order can be reported. -/
theorem OrderBook.Represents.reportable {given : UInt64 → Prop} {b : OrderBook}
    (h : Represents given b) {o : Order} (ho : o.Valid) {f : Fill} (hf : f ∈ (b.submit o).1) :
    f.Reportable := by
  obtain ⟨hqty, hprice⟩ := (h.fills ho).1 f hf
  rw [submit_fills b ho.qty.1] at hf
  obtain ⟨trades, hfills, -, htrades⟩ := (b.matching_matched o).counterparties
  rw [hfills] at hf
  obtain ⟨t, ht, rfl⟩ := List.mem_map.mp hf
  obtain ⟨q, hq⟩ := htrades t ht
  refine ⟨?_, hqty, hprice⟩
  rw [hq, fillOf_instrument]
  exact ho.instrument

namespace Server

variable {s s' : Server} {a : Action}

/-- Every fill so far can be reported, and every report so far is of such a fill. -/
structure Legible (s : Server) : Prop where
  fills : ∀ f, .filled f ∈ s.history → f.Reportable
  lines : ∀ k line, .enqueued k line ∈ s.history → firstWord line ∈ reportWords →
    ∃ f kind, .filled f ∈ s.history ∧ line = f.line kind

/-- New entries of the right kind keep the history legible. -/
theorem Legible.append (h : Legible s) {obs : List Obs} (hhistory : s'.history = s.history ++ obs)
    (hfills : ∀ f, .filled f ∈ obs → f.Reportable)
    (hlines : ∀ k line, .enqueued k line ∈ obs → firstWord line ∈ reportWords →
      ∃ f kind, .filled f ∈ obs ∧ line = f.line kind) : Legible s' where
  fills f hf := by
    rw [hhistory, List.mem_append] at hf
    exact hf.elim (h.fills f) (hfills f)
  lines k line hline hword := by
    rw [hhistory, List.mem_append] at hline
    rw [hhistory]
    rcases hline with hline | hline
    · obtain ⟨f, kind, hf, he⟩ := h.lines k line hline hword
      exact ⟨f, kind, List.mem_append_left _ hf, he⟩
    · obtain ⟨f, kind, hf, he⟩ := hlines k line hline hword
      exact ⟨f, kind, List.mem_append_right _ hf, he⟩

/-- The line for either side of a fill is one of its reports. -/
theorem reportLine_eq (f : Fill) (side : Side) : ∃ kind, reportLine f side = f.line kind := by
  cases side with
  | buy => exact ⟨.bought, rfl⟩
  | sell => exact ⟨.sold, rfl⟩

/-- The lines of a fill are its reports. -/
theorem line_of_mem_fillVoice {f : Fill} {k : Nat} {line : Bytes}
    (h : .enqueued k line ∈ s.fillVoice f) : ∃ kind, line = f.line kind := by
  rcases mem_fillVoice h with he | ⟨k', side, he⟩ | ⟨k', he⟩
  · cases he
  · obtain ⟨-, rfl⟩ := Obs.enqueued.inj he
    exact reportLine_eq f side
  · obtain ⟨-, rfl⟩ := Obs.enqueued.inj he
    exact ⟨.trade, rfl⟩

/-- The lines of an order are its acceptance and the reports of its fills. -/
theorem line_of_mem_orderVoice {k k' : Nat} {o : Order} {line : Bytes}
    (h : .enqueued k' line ∈ s.orderVoice k o) : line = msgOrderAccepted o.id ∨
      ∃ f kind, .filled f ∈ s.orderVoice k o ∧ line = f.line kind := by
  rcases List.mem_append.mp h with hline | hline
  · simp only [List.mem_cons, reduceCtorEq, List.not_mem_nil, or_false, false_or,
      Obs.enqueued.injEq] at hline
    exact Or.inl hline.2
  · obtain ⟨f, hf, hmem⟩ := List.mem_flatMap.mp hline
    obtain ⟨kind, he⟩ := line_of_mem_fillVoice hmem
    exact Or.inr ⟨f, kind, filled_mem_orderVoice.mpr hf, he⟩

private theorem Legible.moves (h : Legible s) (hb : Bookkept s) (hm : Moves s a s') :
    Legible s' := by
  obtain ⟨obs, hhistory, heffect⟩ := hm.effect
  generalize s'.book = book at heffect
  refine h.append hhistory (fun f hf => ?_) fun k line hline hword => ?_
  · cases heffect with
    | quiet hobs => exact (hobs _ hf).elim
    | rehashed order => cases hf
    | @placed fd c line o hsession hplaces hid howner =>
      rw [List.mem_cons, or_iff_right (by simp), filled_mem_orderVoice] at hf
      exact (Represents.drawn hb.represents).reportable hplaces.valid hf
    | cancelled => simp at hf
  · cases heffect with
    | quiet hobs =>
      have hquiet : firstWord line ∉ orderWords := hobs _ hline
      have hsub : reportWords ⊆ orderWords := by decide
      exact absurd (hsub hword) hquiet
    | rehashed order => cases hline
    | @placed fd c line' o hsession hplaces hid howner =>
      rw [List.mem_cons, or_iff_right (by simp)] at hline
      rcases line_of_mem_orderVoice hline with rfl | ⟨f, kind, hf, he⟩
      · rw [firstWord_msgOrderAccepted] at hword
        exact absurd hword (by decide)
      · exact ⟨f, kind, List.mem_cons_of_mem _ hf, he⟩
    | @cancelled fd c line' oid =>
      simp only [List.mem_cons, reduceCtorEq, List.not_mem_nil, or_false, false_or,
        Obs.enqueued.injEq] at hline
      rw [hline.2, firstWord_msgOrderCancelled] at hword
      exact absurd hword (by decide)

/-- In a reachable state the fills can be reported, and the reports are of such fills. -/
theorem Reachable.legible (h : Reachable s) : Legible s := by
  have hlegible : Legible s.view := by
    refine h.view_invariant (fun kq listenFd sends => ⟨?_, ?_⟩) fun s a hs hl hm =>
      hl.moves hs.bookkept hm
    · exact fun f hf => by cases hf
    · exact fun k line hline => by cases hline
  exact ⟨hlegible.fills, hlegible.lines⟩

/-- The book has returned the fill, or it returns it for a valid order that comes now. -/
def Returns (s : Server) (f : Fill) : Prop :=
  .filled f ∈ s.history ∨ ∃ o : Order, o.Valid ∧ f ∈ (s.book.submit o).1

private theorem Reachable.reportable (h : Reachable s) {f : Fill} (hf : s.Returns f) :
    f.Reportable := by
  rcases hf with hf | ⟨o, ho, hf⟩
  · exact h.legible.fills f hf
  · have hrepresents : Represents s.Given s.book := h.bookkept.represents
    exact hrepresents.reportable ho hf

/-- In every run, each report of each fill is cut into its word, the instrument, and two words
from which the server's parser recovers the quantity and the price; every line enqueued that begins
like a report is one of these; and two of them, even of different runs, are the same line only if
kind, instrument, quantity and price agree. -/
theorem run_reports_decode (kq listenFd : Int) (sends : List SendResult)
    (actions : List Action) :
    let s := run act (start kq listenFd sends) actions
    (∀ f, s.Returns f → ∀ kind, ∃ quantity limit,
      tokenize (f.line kind) = [kind.word, f.instrument, quantity, limit] ∧
        isValidInstrument f.instrument = true ∧ parsePositiveInt quantity = some f.qty ∧
        parsePositiveInt limit = some f.price) ∧
      (∀ k line, .enqueued k line ∈ s.history → firstWord line ∈ reportWords →
        ∃ f kind, .filled f ∈ s.history ∧ line = f.line kind) ∧
      ∀ kq' listenFd' sends' actions' f f' kind kind', s.Returns f →
        (run act (start kq' listenFd' sends') actions').Returns f' →
        f.line kind = f'.line kind' →
        kind = kind' ∧ f.instrument = f'.instrument ∧ f.qty = f'.qty ∧ f.price = f'.price := by
  intro s
  have hs : Reachable s := ⟨kq, listenFd, sends, actions, rfl⟩
  refine ⟨fun f hf kind => ?_, hs.legible.lines, ?_⟩
  · obtain ⟨hinstrument, hqty, hprice⟩ := hs.reportable hf
    exact ⟨_, _, tokenize_line kind hinstrument hqty hprice, hinstrument,
      parsePositiveInt_stdToString hqty, parsePositiveInt_stdToString hprice⟩
  · intro kq' listenFd' sends' actions' f f' kind kind' hf hf' hsame
    have hs' : Reachable (run act (start kq' listenFd' sends') actions') :=
      ⟨kq', listenFd', sends', actions', rfl⟩
    have hreport : f.report (hs.reportable hf) kind = f'.report (hs'.reportable hf') kind' :=
      Report.line_injective hsame
    exact ⟨congrArg Report.kind hreport, congrArg Report.instrument hreport,
      congrArg Report.qty hreport, congrArg Report.price hreport⟩

end Server

end SocketExchange
