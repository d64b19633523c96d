import SocketExchange.Service.Requests

/-!
# Decisions

What a line comes to is decided from little: the session's role, whether it is logged in,
which usernames are taken and which orders it may cancel. The decision is a function
of these and of the line, and what justifies it is found out here, away from the server.
-/

namespace SocketExchange

/-- What a line comes to. -/
inductive Decision where
  | rejected (reason : Bytes)
  | loggedIn (name : Bytes)
  | placed (side : Side) (instrument : Bytes) (qty price : Int)
  | cancelled (oid : Int)
  | subscribed (instrument : Bytes)
  | unsubscribed (instrument : Bytes)
  | quit

/-- What the handlers look at before they act. -/
@[ext] structure Standing where
  role : Role
  loggedIn : Bool
  /-- Another session has the username. -/
  taken : Bytes → Bool
  /-- The session may cancel the order with the id. -/
  owns : Int → Bool

namespace Standing

variable (st : Standing)

/-- The decision on a LOGIN. -/
def login : List Bytes → Decision
  | [name] =>
    if st.loggedIn then .rejected (text "already logged in")
    else if st.taken name then .rejected (text "username already in use")
    else .loggedIn name
  | _ => .rejected (text "usage: LOGIN <username>")

/-- The decision on a BUY or a SELL. -/
def order (cmd : Bytes) : List Bytes → Decision
  | [instrument, quantity, limit] =>
    if !isValidInstrument instrument then .rejected (text "unknown instrument " ++ instrument)
    else
      match parsePositiveInt quantity with
      | none => .rejected (text "quantity must be an integer in 1..2147483647")
      | some qty =>
        match parsePositiveInt limit with
        | none => .rejected (text "price must be an integer in 1..2147483647")
        | some price => .placed (if cmd = text "BUY" then .buy else .sell) instrument qty price
  | _ => .rejected (text "usage: " ++ cmd ++ text " <instrument> <quantity> <price>")

/-- The decision on a CANCEL. -/
def cancel : List Bytes → Decision
  | [orderId] =>
    match parseNonnegativeInt orderId with
    | none => .rejected (text "order id must be an integer in 0..2147483647")
    | some oid =>
      if st.owns oid then .cancelled oid else .rejected (text "cannot cancel order " ++ orderId)
  | _ => .rejected (text "usage: CANCEL <order_id>")

/-- SUBSCRIBE and UNSUBSCRIBE are decided alike. -/
def topic (cmd : Bytes) (act : Bytes → Decision) : List Bytes → Decision
  | [instrument] =>
    if !isValidInstrument instrument then .rejected (text "unknown instrument " ++ instrument)
    else act instrument
  | _ => .rejected (text "usage: " ++ cmd ++ text " <instrument>")

/-- The decision on a line with a command word, by the role of its session. -/
def command (cmd : Bytes) (args : List Bytes) : Decision :=
  if Server.traderCmd cmd && st.role ≠ .trader then
    .rejected (text "market-data clients cannot send " ++ cmd)
  else if Server.mdCmd cmd && st.role ≠ .marketData then
    .rejected (text "traders cannot send " ++ cmd)
  else if cmd = text "LOGIN" then st.login args
  else if cmd = text "BUY" || cmd = text "SELL" then order cmd args
  else if cmd = text "CANCEL" then st.cancel args
  else if cmd = text "SUBSCRIBE" then topic cmd .subscribed args
  else if cmd = text "UNSUBSCRIBE" then topic cmd .unsubscribed args
  else if cmd = text "QUIT" then .quit
  else .rejected (text "unknown command")

/-- The decision on a line. -/
def decision (line : Bytes) : Decision :=
  match tokenize line with
  | [] => .rejected (text "empty")
  | cmd :: args => st.command cmd args

/-- The decision is the right one on the line. -/
inductive Justifies (line : Bytes) : Decision → Prop
  /-- Nothing else is due, and what is echoed breaks no line. -/
  | rejected {reason : Bytes} (hword : commandWord line ≠ text "QUIT") (hreason : Plain reason)
      (horder : st.role = .trader → ∀ o, ¬ Places line o)
      (hcancel : st.role = .trader → ∀ oid, Withdraws line oid → st.owns oid = false) :
    Justifies line (.rejected reason)
  | loggedIn {name : Bytes} (hline : tokenize line = [text "LOGIN", name])
      (hrole : st.role = .trader) (hnew : st.loggedIn = false) (hfree : st.taken name = false) :
    Justifies line (.loggedIn name)
  | placed {side : Side} {instrument quantity limit : Bytes} {qty price : Int}
      (hline : tokenize line =
        [text (if side = .buy then "BUY" else "SELL"), instrument, quantity, limit])
      (hrole : st.role = .trader) (hinstrument : isValidInstrument instrument = true)
      (hqty : parsePositiveInt quantity = some qty) (hprice : parsePositiveInt limit = some price) :
    Justifies line (.placed side instrument qty price)
  | cancelled {orderId : Bytes} {oid : Int} (hline : tokenize line = [text "CANCEL", orderId])
      (hrole : st.role = .trader) (hoid : parseNonnegativeInt orderId = some oid)
      (howns : st.owns oid = true) :
    Justifies line (.cancelled oid)
  | subscribed {instrument : Bytes} (hline : tokenize line = [text "SUBSCRIBE", instrument])
      (hrole : st.role = .marketData) (hinstrument : isValidInstrument instrument = true) :
    Justifies line (.subscribed instrument)
  | unsubscribed {instrument : Bytes} (hline : tokenize line = [text "UNSUBSCRIBE", instrument])
      (hrole : st.role = .marketData) (hinstrument : isValidInstrument instrument = true) :
    Justifies line (.unsubscribed instrument)
  | quit (hword : commandWord line = text "QUIT") : Justifies line .quit

section Justified

variable {st} {line cmd : Bytes} {args : List Bytes}

/-- A rejected line of a command that asks for nothing in the book. -/
private theorem rejects (hline : tokenize line = cmd :: args)
    (hcmd : cmd ∉ [text "BUY", text "SELL", text "CANCEL", text "QUIT"]) {reason : Bytes}
    (hreason : Plain reason) : st.Justifies line (.rejected reason) := by
  simp only [List.mem_cons, List.not_mem_nil, or_false, not_or] at hcmd
  obtain ⟨hbuy, hsell, hcancel, hquit⟩ := hcmd
  refine .rejected (commandWord_ne hline hquit) hreason (fun _ => not_places hline ?_)
    fun _ oid ho => absurd ho (not_withdraws hline hcancel oid)
  simp only [List.mem_cons, List.not_mem_nil, or_false, not_or]
  exact ⟨hbuy, hsell⟩

private theorem login_justified (hline : tokenize line = text "LOGIN" :: args)
    (hrole : st.role = .trader) : st.Justifies line (st.login args) := by
  have hcmd : text "LOGIN" ∉ [text "BUY", text "SELL", text "CANCEL", text "QUIT"] := by decide
  unfold login
  split
  · rename_i name
    split_ifs with hlogged htaken
    · exact rejects hline hcmd (by decide)
    · exact rejects hline hcmd (by decide)
    · exact .loggedIn hline hrole (Bool.eq_false_iff.mpr hlogged) (Bool.eq_false_iff.mpr htaken)
  · exact rejects hline hcmd (by decide)

private theorem order_justified (side : Side)
    (hline : tokenize line = text (if side = .buy then "BUY" else "SELL") :: args)
    (hrole : st.role = .trader) :
    st.Justifies line (order (text (if side = .buy then "BUY" else "SELL")) args) := by
  have hword : commandWord line ≠ text "QUIT" :=
    commandWord_ne hline (by cases side <;> decide)
  have hrejects : ∀ {reason : Bytes}, Plain reason → (∀ o, ¬ Places line o) →
      st.Justifies line (.rejected reason) := by
    intro reason hreason hnot
    refine .rejected hword hreason (fun _ => hnot) fun _ oid ho => absurd ho ?_
    exact not_withdraws hline (by cases side <;> decide) oid
  unfold order
  split
  swap
  · rename_i hargs
    refine hrejects ?_ fun o ho => ?_
    · refine Plain.append (Plain.append (by decide) ?_) (by decide)
      cases side <;> decide
    · obtain ⟨quantity, limit, he, -⟩ := places_args hline ho
      exact hargs _ _ _ he
  rename_i instrument quantity limit
  split
  · rename_i hinvalid
    refine hrejects (plain_echo (by decide) (arg_mem_tokenize hline)) fun o ho => ?_
    obtain ⟨_, _, he, hvalid, -⟩ := places_args hline ho
    rw [(List.cons.inj he).1, hvalid] at hinvalid
    cases hinvalid
  rename_i hvalid
  have hinstrument : isValidInstrument instrument = true := by simpa using hvalid
  split
  · rename_i hqty
    refine hrejects (by decide) fun o ho => ?_
    obtain ⟨_, _, he, -, hsome, -⟩ := places_args hline ho
    rw [(List.cons.inj (List.cons.inj he).2).1, hsome] at hqty
    cases hqty
  rename_i qty hqty
  split
  · rename_i hprice
    refine hrejects (by decide) fun o ho => ?_
    obtain ⟨_, _, he, -, -, hsome⟩ := places_args hline ho
    rw [(List.cons.inj (List.cons.inj (List.cons.inj he).2).2).1, hsome] at hprice
    cases hprice
  rename_i price hprice
  have hside : (if text (if side = .buy then "BUY" else "SELL") = text "BUY" then Side.buy
      else Side.sell) = side := by cases side <;> rfl
  rw [hside]
  exact .placed hline hrole hinstrument hqty hprice

private theorem cancel_justified (hline : tokenize line = text "CANCEL" :: args)
    (hrole : st.role = .trader) : st.Justifies line (st.cancel args) := by
  have hrejects : ∀ {reason : Bytes}, Plain reason →
      (∀ oid, Withdraws line oid → st.owns oid = false) →
      st.Justifies line (.rejected reason) := by
    intro reason hreason hno
    refine .rejected (commandWord_ne hline (by decide)) hreason ?_ fun _ => hno
    exact fun _ => not_places hline (by decide)
  unfold cancel
  split
  swap
  · rename_i hargs
    refine hrejects (by decide) fun oid ho => ?_
    obtain ⟨orderId, hwithdraws, -⟩ := ho
    rw [hline] at hwithdraws
    exact absurd (List.cons.inj hwithdraws).2 (hargs orderId)
  rename_i orderId
  have hsame : ∀ oid, Withdraws line oid → parseNonnegativeInt orderId = some oid := by
    rintro oid ⟨orderId', hwithdraws, hoid⟩
    rw [hline] at hwithdraws
    rwa [(List.cons.inj (List.cons.inj hwithdraws).2).1]
  split
  · rename_i hnone
    refine hrejects (by decide) fun oid ho => ?_
    rw [hsame oid ho] at hnone
    cases hnone
  rename_i oid hoid
  split
  · rename_i howns
    exact .cancelled hline hrole hoid howns
  · rename_i hno
    refine hrejects (plain_echo (by decide) (arg_mem_tokenize hline)) fun oid' ho => ?_
    rw [hoid] at hsame
    rw [← Option.some.inj (hsame oid' ho)]
    exact Bool.eq_false_iff.mpr hno

private theorem topic_justified {act : Bytes → Decision} (hline : tokenize line = cmd :: args)
    (hcmd : cmd ∉ [text "BUY", text "SELL", text "CANCEL", text "QUIT"])
    (hact : ∀ instrument, tokenize line = [cmd, instrument] →
      isValidInstrument instrument = true → st.Justifies line (act instrument)) :
    st.Justifies line (topic cmd act args) := by
  have hmem : cmd ∈ tokenize line := by
    rw [hline]
    exact List.mem_cons_self
  unfold topic
  split
  · rename_i instrument
    split
    · exact rejects hline hcmd (plain_instrument hline)
    · rename_i hvalid
      exact hact instrument hline (by simpa using hvalid)
  · exact rejects hline hcmd ((plain_echo (by decide) hmem).append (by decide))

/-- The commands of a role are decided on for sessions of that role alone. -/
theorem command_justified (hline : tokenize line = cmd :: args) :
    st.Justifies line (st.command cmd args) := by
  have hmem : cmd ∈ tokenize line := by
    rw [hline]
    exact List.mem_cons_self
  unfold command
  by_cases htrader : (Server.traderCmd cmd && st.role ≠ .trader) = true
  · rw [if_pos htrader]
    rw [Bool.and_eq_true, decide_eq_true_eq] at htrader
    refine .rejected (commandWord_ne hline ?_) (plain_echo (by decide) hmem)
      (fun hrole => absurd hrole htrader.2) fun hrole => absurd hrole htrader.2
    rintro rfl
    exact absurd htrader.1 (by decide)
  by_cases hmd : (Server.mdCmd cmd && st.role ≠ .marketData) = true
  · rw [if_neg htrader, if_pos hmd]
    rw [Bool.and_eq_true] at hmd
    refine rejects hline ?_ (plain_echo (by decide) hmem)
    intro hword
    simp only [List.mem_cons, List.not_mem_nil, or_false] at hword
    rcases hword with rfl | rfl | rfl | rfl <;> exact absurd hmd.1 (by decide)
  have hrole : Server.traderCmd cmd = true → st.role = .trader := by simpa using htrader
  have hrole' : Server.mdCmd cmd = true → st.role = .marketData := by simpa using hmd
  rw [if_neg htrader, if_neg hmd]
  split_ifs with hlogin horder hcancel hsub hunsub hquit
  · subst hlogin
    exact login_justified hline (hrole rfl)
  · rcases (by simpa using horder : cmd = text "BUY" ∨ cmd = text "SELL") with rfl | rfl
    · exact order_justified .buy hline (hrole rfl)
    · exact order_justified .sell hline (hrole rfl)
  · subst hcancel
    exact cancel_justified hline (hrole rfl)
  · subst hsub
    exact topic_justified hline (by decide) fun _ hline' => .subscribed hline' (hrole' rfl)
  · subst hunsub
    exact topic_justified hline (by decide) fun _ hline' => .unsubscribed hline' (hrole' rfl)
  · refine .quit ?_
    rw [commandWord_eq hline, hquit]
  · refine rejects hline ?_ (by decide)
    simp only [Bool.or_eq_true, decide_eq_true_eq, not_or] at horder
    simp only [List.mem_cons, List.not_mem_nil, or_false, not_or]
    exact ⟨horder.1, horder.2, hcancel, hquit⟩

/-- Every line is decided on rightly. -/
theorem decision_justified (st : Standing) (line : Bytes) :
    st.Justifies line (st.decision line) := by
  unfold decision
  cases hline : tokenize line with
  | nil =>
    have hword : commandWord line = [] := commandWord_blank hline
    have hother : ∀ cmd : Bytes, cmd ≠ [] → commandWord line ≠ cmd :=
      fun cmd hne he => hne (he.symm.trans hword)
    refine .rejected (hother _ (by decide)) (by decide) (fun _ o ho => ?_) fun _ oid ho => ?_
    · refine absurd ho.word (hother _ ?_)
      cases o.side <;> decide
    · exact absurd ho.word (hother _ (by decide))
  | cons cmd args => exact command_justified hline

end Justified

end Standing

end SocketExchange
