import SocketExchange.Book.Levels
import SocketExchange.Common.Parsing
import SocketExchange.Server.ExchangeServer

/-!
# What a line asks for

A line that asks for something in the book asks for one order, or for one order to be
cancelled. What is echoed of a line cannot break the line that echoes it.
-/

namespace SocketExchange

/-- The command word of a line; a blank line has none. -/
def commandWord (line : Bytes) : Bytes := (tokenize line).headD []

variable {line cmd : Bytes} {args : List Bytes}

/-- A blank line has no command word. -/
theorem commandWord_blank (hline : tokenize line = []) : commandWord line = [] := by
  rw [commandWord, hline, List.headD_nil]

/-- The command word is the first word of the line. -/
theorem commandWord_eq (hline : tokenize line = cmd :: args) : commandWord line = cmd := by
  rw [commandWord, hline, List.headD_cons]

/-- A line whose first word is not QUIT does not quit. -/
theorem commandWord_ne (hline : tokenize line = cmd :: args) (hcmd : cmd ≠ text "QUIT") :
    commandWord line ≠ text "QUIT" := by
  rwa [commandWord_eq hline]

/-! ## Orders -/

/-- The line is a well-formed order command, and this is the order it asks for. -/
def Places (line : Bytes) (o : Order) : Prop :=
  ∃ quantity limit,
    tokenize line =
      [text (if o.side = .buy then "BUY" else "SELL"), o.instrument, quantity, limit] ∧
    isValidInstrument o.instrument = true ∧ parsePositiveInt quantity = some o.qty ∧
    parsePositiveInt limit = some o.price

/-- Only positive quantities are placed. -/
theorem Places.qty_pos {o : Order} (h : Places line o) : 0 < o.qty := by
  obtain ⟨quantity, limit, -, -, hqty, -⟩ := h
  exact parsePositiveInt_pos hqty

/-- Only BUY and SELL ask for orders. -/
theorem Places.word {o : Order} (h : Places line o) :
    commandWord line = text (if o.side = .buy then "BUY" else "SELL") := by
  obtain ⟨quantity, limit, hline, -⟩ := h
  exact commandWord_eq hline

/-- An order is a trader's command. -/
theorem Places.traderCmd {o : Order} (h : Places line o) :
    Server.traderCmd (commandWord line) = true := by
  rw [h.word]
  cases o.side <;> rfl

/-- A line asks for one order, up to what the server adds. -/
theorem Places.unique {o o' : Order} (h : Places line o) (h' : Places line o') :
    o'.key = o.key ∧ o'.qty = o.qty := by
  obtain ⟨quantity, limit, hline, -, hqty, hprice⟩ := h
  obtain ⟨quantity', limit', hline', -, hqty', hprice'⟩ := h'
  rw [hline] at hline'
  simp only [List.cons.injEq, and_true] at hline'
  obtain ⟨hword, hinstrument, rfl, rfl⟩ := hline'
  have hside : o'.side = o.side := by
    cases hs : o.side <;> cases hs' : o'.side <;> rw [hs, hs'] at hword
    · exact absurd hword (by decide)
    · exact absurd hword (by decide)
  have hprice'' : o'.price = o.price := Option.some.inj (hprice'.symm.trans hprice)
  refine ⟨?_, Option.some.inj (hqty'.symm.trans hqty)⟩
  rw [Order.key, Order.key, hside, hprice'', hinstrument]

/-- No other command places an order. -/
theorem not_places (hline : tokenize line = cmd :: args) (hcmd : cmd ∉ [text "BUY", text "SELL"])
    (o : Order) : ¬ Places line o := by
  intro h
  have hword := h.word
  rw [commandWord_eq hline] at hword
  refine hcmd ?_
  rw [hword]
  cases o.side <;> decide

/-- The line of an order names its instrument, its quantity and its limit. -/
theorem places_args {side : Side} {o : Order}
    (hline : tokenize line = text (if side = .buy then "BUY" else "SELL") :: args)
    (h : Places line o) :
    ∃ quantity limit, args = [o.instrument, quantity, limit] ∧
      isValidInstrument o.instrument = true ∧ parsePositiveInt quantity = some o.qty ∧
      parsePositiveInt limit = some o.price := by
  obtain ⟨quantity, limit, hplaces, hvalid⟩ := h
  rw [hline] at hplaces
  exact ⟨quantity, limit, (List.cons.inj hplaces).2, hvalid⟩

/-! ## Cancels -/

/-- The line is a well-formed request to cancel the order with the id. -/
def Withdraws (line : Bytes) (oid : Int) : Prop :=
  ∃ orderId, tokenize line = [text "CANCEL", orderId] ∧ parseNonnegativeInt orderId = some oid

/-- A line that withdraws an order says CANCEL. -/
theorem Withdraws.word {oid : Int} (h : Withdraws line oid) :
    commandWord line = text "CANCEL" := by
  obtain ⟨orderId, hline, -⟩ := h
  exact commandWord_eq hline

/-- No other command withdraws one. -/
theorem not_withdraws (hline : tokenize line = cmd :: args) (hcmd : cmd ≠ text "CANCEL")
    (oid : Int) : ¬ Withdraws line oid := by
  intro h
  exact hcmd ((commandWord_eq hline).symm.trans h.word)

/-! ## Echoes -/

/-- The first argument is a word of the line. -/
theorem arg_mem_tokenize {arg : Bytes} (hline : tokenize line = cmd :: arg :: args) :
    arg ∈ tokenize line := by
  rw [hline]
  exact List.mem_cons_of_mem _ List.mem_cons_self

/-- What is echoed of a line is plain. -/
theorem plain_echo {usage w : Bytes} (husage : Plain usage) (hw : w ∈ tokenize line) :
    Plain (usage ++ w) := husage.append (isWord_of_mem_tokenize hw).plain

/-- An ERROR that quotes the instrument of a command is plain text. -/
theorem plain_instrument {instrument : Bytes} (hline : tokenize line = [cmd, instrument]) :
    Plain (text "unknown instrument " ++ instrument) :=
  plain_echo (by decide) (arg_mem_tokenize hline)

end SocketExchange
