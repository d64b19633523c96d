import SocketExchange.Service.Handlers

/-!
# What one line can do

Handling a line comes to one of seven things: it is rejected with an error, or it is
a command that is carried out. Each is stated once, on the view, with the conditions
under which it happens.
-/

namespace SocketExchange

open Containers ClientSession

namespace Server

/-- The outcome of a line for a session whose role is settled. -/
inductive Handled (s : Server) (fd : Int) (c : ClientSession) (line : Bytes) :
    Server × Bool → Prop
  /-- An error is answered and nothing else happens. -/
  | rejected (reason : Bytes) (hword : commandWord line ≠ text "QUIT") :
    Handled s fd c line (s.log [.enqueued c.conn (msgError reason)], true)
  /-- The username is set; no other session has it. -/
  | loggedIn {name : Bytes} (hline : tokenize line = [text "LOGIN", name])
      (hrole : c.role = .trader) (hnew : c.username = [])
      (hfree : ∀ fd' c', s.sessions.lookup fd' = some c' → fd' ≠ c.fd → c'.username ≠ name) :
    Handled s fd c line
      ((s.update fd (setUsername name)).log [.enqueued c.conn msgOk], true)
  /-- The order is accepted under the next id and submitted. -/
  | placed {side : Side} {instrument quantity limit : Bytes} {qty price : Int}
      (hline : tokenize line =
        [text (if side = .buy then "BUY" else "SELL"), instrument, quantity, limit])
      (hrole : c.role = .trader) (hinstrument : isValidInstrument instrument = true)
      (hqty : parsePositiveInt quantity = some qty) (hprice : parsePositiveInt limit = some price) :
    Handled s fd c line
      (s.accept c ⟨s.book.nextId_, side, instrument, qty, price, c.fd, c.sessionSeq⟩, true)
  /-- The order is found, is the session's own and leaves the book. -/
  | cancelled {orderId : Bytes} {oid : Int} (hline : tokenize line = [text "CANCEL", orderId])
      (hrole : c.role = .trader) (hoid : parseNonnegativeInt orderId = some oid)
      (hok : (s.book.cancel oid c.fd c.sessionSeq).1 = true) :
    Handled s fd c line
      ((s.withBook (s.book.cancel oid c.fd c.sessionSeq).2).log
        [.enqueued c.conn (msgOrderCancelled oid)], true)
  | subscribed {instrument : Bytes} (hline : tokenize line = [text "SUBSCRIBE", instrument])
      (hrole : c.role = .marketData) (hinstrument : isValidInstrument instrument = true) :
    Handled s fd c line
      ((s.update fd (subscribe instrument)).log
        [.subscribed c.conn instrument, .enqueued c.conn msgOk], true)
  | unsubscribed {instrument : Bytes} (hline : tokenize line = [text "UNSUBSCRIBE", instrument])
      (hrole : c.role = .marketData) (hinstrument : isValidInstrument instrument = true) :
    Handled s fd c line
      ((s.update fd (unsubscribe instrument)).log
        [.unsubscribed c.conn instrument, .enqueued c.conn msgOk], true)
  /-- The session is closed without a reply. -/
  | quit (hword : commandWord line = text "QUIT") :
    Handled s fd c line (s.forget c.fd, false)

/-- What a justified decision comes to in the view. -/
theorem carryOut_handled {s : Server} {fd : Int} {c : ClientSession} {line : Bytes} {d : Decision}
    (hd : (s.standing c).Justifies line d) : Handled s fd c line (s.carryOut fd c d) := by
  cases hd with
  | @rejected reason hword => exact .rejected reason hword
  | @loggedIn name hline hrole hnew hfree =>
    have hnew' : c.loggedIn = false := hnew
    refine .loggedIn hline hrole (by simpa [loggedIn] using hnew') fun fd' c' hc' hne hname => ?_
    exact Bool.eq_false_iff.mp hfree ((taken_iff rfl name).mpr ⟨fd', c', hc', hne, hname⟩)
  | placed hline hrole hinstrument hqty hprice =>
    exact .placed hline hrole hinstrument hqty hprice
  | cancelled hline hrole hoid howns => exact .cancelled hline hrole hoid howns
  | subscribed hline hrole hinstrument => exact .subscribed hline hrole hinstrument
  | unsubscribed hline hrole hinstrument => exact .unsubscribed hline hrole hinstrument
  | quit hword => exact .quit hword

/-- `handle_line` carries out the command of its line for the session, after the role has been
inferred. -/
theorem handleLine_handled {s : Server} {fd : Int} {c : ClientSession}
    (hc : s.sessions.lookup fd = some c) (line : Bytes) :
    Handled (s.view.noted fd c.profile line) fd (inferRole (commandWord line) c.profile) line
      ((s.handleLine fd line).1.view, (s.handleLine fd line).2) := by
  rw [handleLine_view hc]
  exact carryOut_handled (Standing.decision_justified _ line)

/-! ## All complete lines are handled -/

private theorem buffered_of_lookup {s : Server} {fd : Int} {c : ClientSession}
    (hc : s.sessions.lookup fd = some c) : s.buffered fd = c.inbuf.buf_.length := by
  rw [buffered, hc, Option.map_some, Option.getD_some]

@[simp] theorem buffered_view (s : Server) (fd : Int) : s.view.buffered fd = s.buffered fd := by
  rw [buffered, lookup_view, Option.map_map]
  rfl

private theorem buffered_update {s : Server} {fd : Int} {f : ClientSession → ClientSession}
    (hf : ∀ c, (f c).inbuf = c.inbuf) : (s.update fd f).buffered fd = s.buffered fd := by
  have hlength : (fun c => (f c).inbuf.buf_.length) =
      fun c : ClientSession => c.inbuf.buf_.length := funext fun c => by rw [hf]
  rw [buffered, lookup_update_self, Option.map_map]
  exact congrArg (fun g => ((s.sessions.lookup fd).map g).getD 0) hlength

/-- Acting on a line leaves the input of a session that stays as it was. -/
theorem Handled.buffered {s : Server} {fd : Int} {c : ClientSession} {line : Bytes}
    {r : Server × Bool} (h : Handled s fd c line r) (hstays : r.2 = true) :
    r.1.buffered fd = s.buffered fd := by
  cases h with
  | rejected reason hword => rfl
  | loggedIn hline hrole hnew hfree => exact buffered_update fun _ => rfl
  | placed hline hrole hinstrument hqty hprice => rfl
  | cancelled hline hrole hoid hok => rfl
  | subscribed hline hrole hinstrument => exact buffered_update fun _ => rfl
  | unsubscribed hline hrole hinstrument => exact buffered_update fun _ => rfl
  | quit hword => cases hstays

private theorem handleLine_buffered {s : Server} {fd : Int} {line : Bytes}
    (hstays : (s.handleLine fd line).2 = true) :
    (s.handleLine fd line).1.buffered fd = s.buffered fd := by
  cases hc : s.sessions.lookup fd with
  | none => simp only [handleLine, hc]
  | some c =>
    have hhandled := (handleLine_handled hc line).buffered hstays
    rw [buffered_view, noted, buffered_update (inferRole_inbuf _)] at hhandled
    exact hhandled.trans (buffered_view s fd)

/-- Taking a line is handling the next of the session's buffer. -/
theorem takeLine_eq {s : Server} {fd : Int} {c : ClientSession} {line : Bytes}
    {inbuf : LineBuffer} (hc : s.sessions.lookup fd = some c)
    (hline : c.inbuf.nextLine = some (line, inbuf)) :
    s.takeLine fd = some ((s.update fd (setInbuf inbuf)).handleLine fd line) := by
  simp only [takeLine, hc, hline]

/-- There is no complete line to take, or the next one is taken and handled. -/
theorem takeLine_cases (s : Server) (fd : Int) :
    s.takeLine fd = none ∨ ∃ c line inbuf, s.sessions.lookup fd = some c ∧
      c.inbuf.nextLine = some (line, inbuf) ∧
      (s.update fd (setInbuf inbuf)).sessions.lookup fd = some (setInbuf inbuf c) ∧
      s.takeLine fd = some ((s.update fd (setInbuf inbuf)).handleLine fd line) := by
  cases hc : s.sessions.lookup fd with
  | none => exact Or.inl (by simp only [takeLine, hc])
  | some c =>
    cases hline : c.inbuf.nextLine with
    | none => exact Or.inl (by simp only [takeLine, hc, hline])
    | some taken =>
      refine Or.inr ⟨c, taken.1, taken.2, rfl, hline, lookup_update_of hc _, ?_⟩
      exact takeLine_eq hc hline

/-- A round of the loop over the lines shortens the session's input. -/
theorem takeLine_shorter {s s' : Server} {fd : Int} (h : s.takeLine fd = some (s', true)) :
    s'.buffered fd < s.buffered fd := by
  obtain hnone | ⟨c, line, inbuf, hc, hline, hset, htaken⟩ := s.takeLine_cases fd
  · rw [hnone] at h
    cases h
  · have hhandled := Option.some.inj (htaken.symm.trans h)
    have hkept := handleLine_buffered (congrArg Prod.snd hhandled)
    rw [hhandled, buffered_of_lookup hset] at hkept
    rw [hkept, buffered_of_lookup hc]
    exact LineBuffer.nextLine_shorter hline

private theorem takeLine_of_buffered_eq_zero {s : Server} {fd : Int} (h : s.buffered fd = 0) :
    s.takeLine fd = none := by
  cases hc : s.sessions.lookup fd with
  | none => simp only [takeLine, hc]
  | some c =>
    rw [buffered_of_lookup hc, List.length_eq_zero_iff] at h
    simp only [takeLine, hc, LineBuffer.nextLine, h, List.findIdx?_nil]

/-- The loop over the lines ends only when the session is gone or no complete line is left. -/
theorem handleLines_takes_all {s : Server} {fd : Int} {fuel : Nat} (hfuel : s.buffered fd ≤ fuel)
    (hstays : (handleLines fuel s fd).2 = true) :
    (handleLines fuel s fd).1.takeLine fd = none := by
  induction fuel generalizing s with
  | zero => exact takeLine_of_buffered_eq_zero (Nat.le_zero.mp hfuel)
  | succ fuel ih =>
    rw [handleLines] at hstays ⊢
    cases h : s.takeLine fd with
    | none => exact h
    | some r =>
      obtain ⟨s', alive⟩ := r
      rw [h] at hstays
      cases alive with
      | true =>
        have hless := takeLine_shorter h
        exact ih (by omega) hstays
      | false => cases hstays

end Server

end SocketExchange
