import SocketExchange.Book.Identity
import SocketExchange.Service.Decisions
import SocketExchange.Service.View

/-!
# The handlers decide and act

Handling a line is deciding on it and carrying the decision out. So two servers that agree
on the little they decide from do the same, and nothing later looks inside the handlers
again.
-/

namespace SocketExchange

open Containers ClientSession

namespace Server

variable {s : Server} {fd : Int} {c : ClientSession} {line : Bytes}

/-! ## Acting on a decision -/

/-- The book once the next id has been drawn. -/
def drawn (s : Server) : OrderBook := s.book.nextId.2

/-- Accept an order and carry it out: the acceptance comes first, then the reports of each fill. -/
def accept (s : Server) (c : ClientSession) (o : Order) : Server :=
  (s.withBook (s.drawn.submit o).2).log
    ([.placed c.conn o, .enqueued c.conn (msgOrderAccepted o.id)] ++
      (s.drawn.submit o).1.flatMap s.fillVoice)

/-- Place an order: note it, acknowledge it, submit it and report its fills. -/
def place (s : Server) (fd : Int) (c : ClientSession) (o : Order) : Server :=
  let s' := (((s.withBook s.drawn).log [.placed c.conn o]).enqueue fd
    (msgOrderAccepted o.id)).withBook (s.drawn.submit o).2
  (s.drawn.submit o).1.foldl reportFill s'

/-- However the sends go, placing an order leaves the book of its submit and these entries. -/
theorem view_place (s : Server) (fd : Int) (c : ClientSession) (o : Order) :
    (s.place fd c o).view = (s.view.withBook (s.drawn.submit o).2).log
      ([.placed c.conn o] ++ s.view.voice fd (msgOrderAccepted o.id) ++
        (s.drawn.submit o).1.flatMap s.view.fillVoice) := by
  simp only [place, view_reportFills, view_withBook, view_enqueue, view_log, withBook_log,
    withBook_withBook, log_log, List.append_assoc]
  rfl

/-- The standing of a session. -/
def standing (s : Server) (c : ClientSession) : Standing where
  role := c.role
  loggedIn := c.loggedIn
  taken name := s.sessions.entries.any fun kv => kv.1 ≠ c.fd && kv.2.username = name
  owns oid := (s.book.cancel oid c.fd c.sessionSeq).1

/-- Another session has the username. -/
def NameTaken (s : Server) (fd : Int) (name : Bytes) : Prop :=
  ∃ fd' c', s.sessions.lookup fd' = some c' ∧ fd' ≠ fd ∧ c'.username = name

/-- A name is taken, for a session, when another one has it. -/
theorem taken_iff (hfd : c.fd = fd) (name : Bytes) :
    (s.standing c).taken name = true ↔ s.NameTaken fd name := by
  simp only [standing, NameTaken, List.any_eq_true, Bool.and_eq_true, decide_eq_true_eq, hfd]
  constructor
  · rintro ⟨⟨fd', c'⟩, hmem, hne, hname⟩
    exact ⟨fd', c', UnorderedMap.mem_entries_iff.mp hmem, hne, hname⟩
  · rintro ⟨fd', c', hc', hne, hname⟩
    exact ⟨⟨fd', c'⟩, UnorderedMap.mem_entries_iff.mpr hc', hne, hname⟩

/-- The order a session places. -/
def ordered (s : Server) (c : ClientSession) (side : Side) (instrument : Bytes) (qty price : Int) :
    Order where
  id := s.book.nextId_
  side := side
  instrument := instrument
  qty := qty
  price := price
  ownerFd := c.fd
  ownerSeq := c.sessionSeq

/-- Carry a decision out. -/
def perform (s : Server) (fd : Int) (c : ClientSession) : Decision → Server × Bool
  | .rejected reason => (s.enqueue fd (msgError reason), true)
  | .loggedIn name => ((s.update fd (setUsername name)).enqueue fd msgOk, true)
  | .placed side instrument qty price =>
    (s.place fd c (s.ordered c side instrument qty price), true)
  | .cancelled oid =>
    ((s.withBook (s.book.cancel oid c.fd c.sessionSeq).2).enqueue fd (msgOrderCancelled oid), true)
  | .subscribed instrument =>
    (((s.update fd (subscribe instrument)).log [.subscribed c.conn instrument]).enqueue fd msgOk,
      true)
  | .unsubscribed instrument =>
    (((s.update fd (unsubscribe instrument)).log [.unsubscribed c.conn instrument]).enqueue fd
      msgOk, true)
  | .quit => (s.closeSession c.fd, false)

/-! ## The handlers -/

section Handlers

variable (s : Server) (fd : Int) (c : ClientSession)

private theorem handleLogin_eq (args : List Bytes) :
    (s.handleLogin fd c args, true) = s.perform fd c ((s.standing c).login args) := by
  rcases args with _ | ⟨name, _ | ⟨_, _⟩⟩
  · rfl
  · have hlogged : (s.standing c).loggedIn = c.loggedIn := rfl
    have htaken : (s.standing c).taken name =
        s.sessions.entries.any fun kv => kv.1 ≠ c.fd && kv.2.username = name := rfl
    simp only [handleLogin, Standing.login, hlogged, htaken]
    split_ifs <;> rfl
  · rfl

private theorem handleOrder_eq (cmd : Bytes) (args : List Bytes) :
    (s.handleOrder fd c cmd args, true) = s.perform fd c (Standing.order cmd args) := by
  rcases args with _ | ⟨instrument, _ | ⟨quantity, _ | ⟨limit, _ | ⟨_, _⟩⟩⟩⟩
  · rfl
  · rfl
  · rfl
  · simp only [handleOrder, Standing.order]
    cases isValidInstrument instrument with
    | false => rfl
    | true =>
      cases parsePositiveInt quantity with
      | none => rfl
      | some qty =>
        cases parsePositiveInt limit with
        | none => rfl
        | some price =>
          simp only [Bool.not_true, Bool.false_eq_true, if_false, book_enqueue]
          rfl
  · rfl

private theorem handleCancel_eq (args : List Bytes) :
    (s.handleCancel fd c args, true) = s.perform fd c ((s.standing c).cancel args) := by
  rcases args with _ | ⟨orderId, _ | ⟨_, _⟩⟩
  · rfl
  · simp only [handleCancel, Standing.cancel]
    cases parseNonnegativeInt orderId with
    | none => rfl
    | some oid =>
      have howns : (s.standing c).owns oid = (s.book.cancel oid c.fd c.sessionSeq).1 := rfl
      simp only [howns]
      cases hok : (s.book.cancel oid c.fd c.sessionSeq).1 with
      | true => rfl
      | false =>
        rw [OrderBook.cancel_eq_of_refused hok]
        rfl
  · rfl

private theorem handleSubscribe_eq (args : List Bytes) :
    (s.handleSubscribe fd c args, true) =
      s.perform fd c (Standing.topic (text "SUBSCRIBE") .subscribed args) := by
  rcases args with _ | ⟨instrument, _ | ⟨_, _⟩⟩
  · rfl
  · simp only [handleSubscribe, Standing.topic]
    split_ifs <;> rfl
  · rfl

private theorem handleUnsubscribe_eq (args : List Bytes) :
    (s.handleUnsubscribe fd c args, true) =
      s.perform fd c (Standing.topic (text "UNSUBSCRIBE") .unsubscribed args) := by
  rcases args with _ | ⟨instrument, _ | ⟨_, _⟩⟩
  · rfl
  · simp only [handleUnsubscribe, Standing.topic]
    split_ifs <;> rfl
  · rfl

private theorem handleCommand_eq (cmd : Bytes) (args : List Bytes) :
    s.handleCommand fd c cmd args = s.perform fd c ((s.standing c).command cmd args) := by
  have hrole : (s.standing c).role = c.role := rfl
  unfold handleCommand Standing.command
  rw [hrole]
  split_ifs with htrader hmd hlogin horder hcancel hsub hunsub
  · rfl
  · rfl
  · exact handleLogin_eq s fd c args
  · exact handleOrder_eq s fd c cmd args
  · exact handleCancel_eq s fd c args
  · rw [hsub]
    exact handleSubscribe_eq s fd c args
  · rw [hunsub]
    exact handleUnsubscribe_eq s fd c args
  · rfl
  · rfl

end Handlers

/-- The state in which a line is acted on: it is noted, and it may settle the role. -/
def noted (s : Server) (fd : Int) (c : ClientSession) (line : Bytes) : Server :=
  (s.log [.received c.conn line]).update fd (inferRole (commandWord line))

/-- A line noted leaves its session with the role inferred from it. -/
theorem lookup_noted (hc : s.sessions.lookup fd = some c) (line : Bytes) :
    (s.noted fd c line).sessions.lookup fd = some (inferRole (commandWord line) c) := by
  rw [noted, lookup_update_self, lookup_log, hc, Option.map_some]

private theorem view_noted (s : Server) (fd : Int) (c : ClientSession) (line : Bytes) :
    (s.noted fd c line).view = s.view.noted fd c.profile line := by
  rw [noted, view_inferRole, view_log]
  rfl

/-- A blank line settles no role. -/
theorem noted_blank (s : Server) (fd : Int) (c : ClientSession)
    (hline : tokenize line = []) : s.noted fd c line = s.log [.received c.conn line] := by
  rw [noted, commandWord_blank hline, inferRole_nil, update, UnorderedMap.modify_id]

/-- Handling a line notes it, settles the role, decides and acts. -/
theorem handleLine_eq (hc : s.sessions.lookup fd = some c) (line : Bytes) :
    s.handleLine fd line =
      let c' := inferRole (commandWord line) c
      let s' := s.noted fd c line
      s'.perform fd c' ((s'.standing c').decision line) := by
  simp only [handleLine, hc, Standing.decision]
  cases hline : tokenize line with
  | nil =>
    rw [noted_blank s fd c hline]
    rfl
  | cons cmd args =>
    rw [noted, commandWord_eq hline]
    exact handleCommand_eq ..

/-! ## Decisions on the view -/

/-- Carry a decision out, as it shows in the view. -/
def carryOut (s : Server) (fd : Int) (c : ClientSession) : Decision → Server × Bool
  | .rejected reason => (s.log [.enqueued c.conn (msgError reason)], true)
  | .loggedIn name => ((s.update fd (setUsername name)).log [.enqueued c.conn msgOk], true)
  | .placed side instrument qty price =>
    (s.accept c (s.ordered c side instrument qty price), true)
  | .cancelled oid =>
    ((s.withBook (s.book.cancel oid c.fd c.sessionSeq).2).log
      [.enqueued c.conn (msgOrderCancelled oid)], true)
  | .subscribed instrument =>
    ((s.update fd (subscribe instrument)).log
      [.subscribed c.conn instrument, .enqueued c.conn msgOk], true)
  | .unsubscribed instrument =>
    ((s.update fd (unsubscribe instrument)).log
      [.unsubscribed c.conn instrument, .enqueued c.conn msgOk], true)
  | .quit => (s.forget c.fd, false)

private theorem perform_view (hc : s.sessions.lookup fd = some c) (d : Decision) :
    ((s.perform fd c d).1.view, (s.perform fd c d).2) = s.view.carryOut fd c.profile d := by
  cases d with
  | rejected reason =>
    simp only [perform, view_reply s hc]
    rfl
  | loggedIn name =>
    simp only [perform, view_reply _ (lookup_update_of hc (setUsername name)), view_setUsername]
    rfl
  | placed side instrument qty price =>
    simp only [perform, view_place, voice, lookup_view, hc]
    rfl
  | cancelled oid =>
    have hbook : (s.withBook (s.book.cancel oid c.fd c.sessionSeq).2).sessions.lookup fd =
      some c := hc
    simp only [perform, view_reply _ hbook, view_withBook]
    rfl
  | subscribed instrument =>
    have hlogged : ((s.update fd (subscribe instrument)).log
        [.subscribed c.conn instrument]).sessions.lookup fd = some (subscribe instrument c) :=
      lookup_update_of hc _
    simp only [perform, view_reply _ hlogged, view_log, view_subscribe, log_log]
    rfl
  | unsubscribed instrument =>
    have hlogged : ((s.update fd (unsubscribe instrument)).log
        [.unsubscribed c.conn instrument]).sessions.lookup fd = some (unsubscribe instrument c) :=
      lookup_update_of hc _
    simp only [perform, view_reply _ hlogged, view_log, view_unsubscribe, log_log]
    rfl
  | quit =>
    simp only [perform, view_closeSession]
    rfl

/-- A rewriting of the sessions that keeps descriptors and usernames keeps what is taken. -/
theorem any_mapValues {g : ClientSession → ClientSession} (hg : ∀ c, (g c).username = c.username)
    (m : UnorderedMap Int ClientSession) (fd : Int) (name : Bytes) :
    ((UnorderedMap.mapValues g m).entries.any fun kv => kv.1 ≠ fd && kv.2.username = name) =
      m.entries.any fun kv => kv.1 ≠ fd && kv.2.username = name := by
  simp only [UnorderedMap.mapValues, List.any_map, Function.comp_def, hg]

/-- The standing of a session is the same in the view. -/
theorem standing_view (s : Server) (c : ClientSession) :
    s.view.standing c.profile = s.standing c := by
  simp only [standing, view, any_mapValues (g := ClientSession.profile) fun _ => rfl]
  rfl

/-- What a line shows in the view is decided and carried out on the view. -/
theorem handleLine_view (hc : s.sessions.lookup fd = some c) (line : Bytes) :
    ((s.handleLine fd line).1.view, (s.handleLine fd line).2) =
      let c' := inferRole (commandWord line) c.profile
      let s' := s.view.noted fd c.profile line
      s'.carryOut fd c' ((s'.standing c').decision line) := by
  rw [handleLine_eq hc]
  dsimp only
  rw [perform_view (lookup_noted hc line), ← standing_view, view_noted, profile_inferRole]

end Server

end SocketExchange
