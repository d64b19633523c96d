import SocketExchange.Service.Connections

/-!
# What one line does to the whole server

The view leaves the output aside; here it is kept. Handling a line is one of seven
short sequences of calls, and which one it is depends on the line, the session's role
and the book. An order command is rejected only if it is no well-formed order, or the
session is no trader; what a rejection echoes cannot break a line.
-/

namespace SocketExchange

open Containers ClientSession

namespace Server

/-- The outcome of a line for a session whose role is settled, output included. -/
inductive Outcome (s : Server) (fd : Int) (c : ClientSession) (line : Bytes) :
    Server × Bool → Prop
  | rejected {reason : Bytes} (hword : commandWord line ≠ text "QUIT") (hreason : Plain reason)
      (horder : c.role = .trader → ∀ o, ¬ Places line o)
      (hcancel : c.role = .trader → ∀ oid, Withdraws line oid →
        (s.book.cancel oid c.fd c.sessionSeq).1 = false) :
    Outcome s fd c line (s.enqueue fd (msgError reason), true)
  | loggedIn {name : Bytes} (hword : commandWord line = text "LOGIN") (hrole : c.role = .trader)
      (hname : name ≠ []) :
    Outcome s fd c line ((s.update fd (setUsername name)).enqueue fd msgOk, true)
  | placed {o : Order} (hplaces : Places line o) (hrole : c.role = .trader)
      (hid : o.id = s.book.nextId_) (howner : o.OwnedBy c.fd c.sessionSeq) :
    Outcome s fd c line (s.place fd c o, true)
  | cancelled {oid : Int} (hline : Withdraws line oid) (hrole : c.role = .trader)
      (hok : (s.book.cancel oid c.fd c.sessionSeq).1 = true) :
    Outcome s fd c line
      ((s.withBook (s.book.cancel oid c.fd c.sessionSeq).2).enqueue fd (msgOrderCancelled oid),
        true)
  | subscribed {instrument : Bytes} (hword : commandWord line = text "SUBSCRIBE")
      (hrole : c.role = .marketData) :
    Outcome s fd c line
      (((s.update fd (subscribe instrument)).log [.subscribed c.conn instrument]).enqueue fd msgOk,
        true)
  | unsubscribed {instrument : Bytes} (hword : commandWord line = text "UNSUBSCRIBE")
      (hrole : c.role = .marketData) :
    Outcome s fd c line
      (((s.update fd (unsubscribe instrument)).log
        [.unsubscribed c.conn instrument]).enqueue fd msgOk, true)
  | quit (hword : commandWord line = text "QUIT") : Outcome s fd c line (s.closeSession c.fd, false)

variable {s : Server} {fd : Int} {c : ClientSession} {line : Bytes}

/-- What a justified decision comes to. -/
theorem perform_outcome {d : Decision} (hd : (s.standing c).Justifies line d) :
    Outcome s fd c line (s.perform fd c d) := by
  cases hd with
  | rejected hword hreason horder hcancel => exact .rejected hword hreason horder hcancel
  | @loggedIn name hline hrole =>
    have hname : IsWord name := isWord_of_mem_tokenize (arg_mem_tokenize hline)
    exact .loggedIn (commandWord_eq hline) hrole hname.nonempty
  | @placed side instrument quantity limit qty price hline hrole hinstrument hqty hprice =>
    have hplaces : Places line (s.ordered c side instrument qty price) :=
      ⟨quantity, limit, hline, hinstrument, hqty, hprice⟩
    exact .placed hplaces hrole rfl ⟨rfl, rfl⟩
  | @cancelled orderId oid hline hrole hoid howns =>
    exact .cancelled ⟨orderId, hline, hoid⟩ hrole howns
  | subscribed hline hrole => exact .subscribed (commandWord_eq hline) hrole
  | unsubscribed hline hrole => exact .unsubscribed (commandWord_eq hline) hrole
  | quit hword => exact .quit hword

/-- Handling a line notes it, settles the role, and comes to one outcome. -/
theorem handleLine_outcome (hc : s.sessions.lookup fd = some c) (line : Bytes) :
    Outcome (s.noted fd c line) fd (inferRole (commandWord line) c) line
      (s.handleLine fd line) := by
  rw [handleLine_eq hc]
  exact perform_outcome (Standing.decision_justified _ line)

/-- A QUIT closes the session, whatever its role. -/
theorem handleLine_quit (hc : s.sessions.lookup fd = some c)
    (hword : commandWord line = text "QUIT") :
    s.handleLine fd line = ((s.noted fd c line).closeSession c.fd, false) := by
  have houtcome := handleLine_outcome hc line
  generalize s.handleLine fd line = r at houtcome ⊢
  have hother : ∀ {cmd : Bytes}, commandWord line = cmd → cmd ≠ text "QUIT" → False :=
    fun hcmd hne => hne (hcmd.symm.trans hword)
  cases houtcome with
  | rejected hne => exact absurd hword hne
  | loggedIn hcmd => exact (hother hcmd (by decide)).elim
  | @placed o hplaces =>
    refine (hother hplaces.word ?_).elim
    cases o.side <;> decide
  | cancelled hline => exact (hother hline.word (by decide)).elim
  | subscribed hcmd => exact (hother hcmd (by decide)).elim
  | unsubscribed hcmd => exact (hother hcmd (by decide)).elim
  | quit => rw [(continues_inferRole (commandWord line) c).fd]

end Server

end SocketExchange
