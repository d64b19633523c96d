import SocketExchange.Book.Priority
import SocketExchange.Service.Connections

/-!
# What a move does to the book

Seen from the book and from the lines about orders, a move is quiet, or it places one
order, or it cancels one. The reports that go with an order are read off the state
before the move: settling the submitter's role does not change who receives them.
-/

namespace SocketExchange

open Containers ClientSession Runs

/-- The words that begin the lines about orders and trades. -/
def orderWords : List Bytes :=
  [text "ORDER_ACCEPTED", text "ORDER_CANCELLED", text "BOUGHT", text "SOLD", text "TRADE"]

/-- The entry is not about an order or a trade. -/
def Obs.Quiet : Obs → Prop
  | .placed .. => False
  | .filled _ => False
  | .enqueued _ line => firstWord line ∉ orderWords
  | _ => True

namespace Server

variable {s s' : Server} {a : Action}

/-- The entries of an accepted order. -/
def orderVoice (s : Server) (k : Nat) (o : Order) : List Obs :=
  [.placed k o, .enqueued k (msgOrderAccepted o.id)] ++ (s.drawn.submit o).1.flatMap s.fillVoice

/-- The book and the entries a move leaves behind. -/
inductive Effect (s : Server) : OrderBook → List Obs → Prop
  | quiet {obs : List Obs} (hobs : ∀ o ∈ obs, o.Quiet) : Effect s s.book obs
  | rehashed (order : List Bytes) : Effect s (s.book.rehash order) []
  /-- The session's order is accepted under the next id and submitted. -/
  | placed {fd : Int} {c : ClientSession} {line : Bytes} {o : Order}
      (hc : s.sessions.lookup fd = some c) (hline : Places line o) (hid : o.id = s.book.nextId_)
      (howner : o.OwnedBy c.fd c.sessionSeq) :
    Effect s (s.drawn.submit o).2 (.received c.conn line :: s.orderVoice c.conn o)
  /-- The session's order is found and taken out of the book. -/
  | cancelled {fd : Int} {c : ClientSession} {line : Bytes} {oid : Int}
      (hc : s.sessions.lookup fd = some c) (hoid : 0 ≤ oid)
      (hok : (s.book.cancel oid c.fd c.sessionSeq).1 = true) :
    Effect s (s.book.cancel oid c.fd c.sessionSeq).2
      [.received c.conn line, .enqueued c.conn (msgOrderCancelled oid)]

/-! ## Reports under changes of a session -/

/-- A change that keeps a session's identity and what it follows changes no report. -/
theorem fillVoice_update (s : Server) (fd : Int) {f : ClientSession → ClientSession}
    (hid : ∀ c, (f c).identity = c.identity) (hfollows : ∀ c i, (f c).Follows i ↔ c.Follows i) :
    (s.update fd f).fillVoice = s.fillVoice := by
  have hlookup : ∀ fd', (s.update fd f).sessions.lookup fd' =
      (s.sessions.lookup fd').map fun c => if fd' = fd then f c else c :=
    fun fd' => UnorderedMap.lookup_modify ..
  have hconn : ∀ c, (f c).conn = c.conn := fun c => congrArg (·.2.1) (hid c)
  have hseq : ∀ c, (f c).sessionSeq = c.sessionSeq := fun c => congrArg (·.2.2) (hid c)
  have howner : ∀ party line, (s.update fd f).ownerVoice party line = s.ownerVoice party line := by
    intro party line
    rw [ownerVoice, hlookup, ownerVoice]
    cases s.sessions.lookup party.1 with
    | none => rfl
    | some c =>
      simp only [Option.map_some]
      by_cases hfd : party.1 = fd <;> simp only [hfd, if_true, if_false, hconn, hseq]
  have hfollower : ∀ i, (s.update fd f).follower i = s.follower i := by
    intro i
    funext fd'
    rw [follower, hlookup, follower]
    cases s.sessions.lookup fd' with
    | none => rfl
    | some c =>
      simp only [Option.map_some]
      by_cases hfd : fd' = fd <;> simp only [hfd, if_true, if_false, hconn, hfollows]
  funext fill
  simp only [fillVoice, tradeVoice, followers, howner, hfollower]
  rw [update, UnorderedMap.keys_modify]

private theorem follows_inferRole {cmd : Bytes} (h : traderCmd cmd = true) (c : ClientSession)
    (i : Bytes) : (inferRole cmd c).Follows i ↔ c.Follows i := by
  unfold inferRole
  by_cases hrole : c.role = .unknown
  · rw [if_pos hrole, if_pos h]
    simp only [Follows, hrole, reduceCtorEq, false_and]
  · rw [if_neg hrole]

/-! ## The effect of a move -/

/-- Forgetting a session leaves the book alone and says nothing of orders. -/
theorem quiet_forget (s : Server) (fd : Int) :
    ∃ obs, (s.forget fd).history = s.history ++ obs ∧ (s.forget fd).book = s.book ∧
      ∀ o ∈ obs, o.Quiet := by
  unfold forget
  cases s.sessions.lookup fd with
  | none => exact ⟨[], (List.append_nil _).symm, rfl, List.forall_mem_nil _⟩
  | some c => exact ⟨[.closed c.conn], rfl, rfl, List.forall_mem_singleton.mpr trivial⟩

private theorem quiet_enqueued {k : Nat} {line : Bytes} (h : firstWord line = text "OK" ∨
    firstWord line = text "ERROR") : (Obs.enqueued k line).Quiet := by
  change firstWord line ∉ orderWords
  rcases h with h | h <;> rw [h] <;> decide

/-- The book and the entries that handling a line leaves behind. -/
theorem Handled.answer {fd : Int} {c : ClientSession} {line : Bytes} {r : Server × Bool}
    (h : Handled s fd c line r) :
    ∃ obs, r.1.history = s.history ++ obs ∧
      ((r.1.book = s.book ∧ ∀ o ∈ obs, o.Quiet) ∨
        (∃ o : Order, Places line o ∧ o.id = s.book.nextId_ ∧ o.OwnedBy c.fd c.sessionSeq ∧
          r.1.book = (s.drawn.submit o).2 ∧ obs = s.orderVoice c.conn o) ∨
        (∃ oid, 0 ≤ oid ∧ (s.book.cancel oid c.fd c.sessionSeq).1 = true ∧
          r.1.book = (s.book.cancel oid c.fd c.sessionSeq).2 ∧
          obs = [.enqueued c.conn (msgOrderCancelled oid)])) := by
  have hok : ∀ o ∈ [Obs.enqueued c.conn msgOk], o.Quiet :=
    List.forall_mem_singleton.mpr (quiet_enqueued (Or.inl rfl))
  cases h with
  | rejected reason =>
    exact ⟨_, rfl, Or.inl ⟨rfl, List.forall_mem_singleton.mpr (quiet_enqueued (Or.inr rfl))⟩⟩
  | loggedIn => exact ⟨_, rfl, Or.inl ⟨rfl, hok⟩⟩
  | @placed side instrument quantity limit qty price hline hrole hinstrument hqty hprice =>
    have hplaces : Places line ⟨s.book.nextId_, side, instrument, qty, price, c.fd,
        c.sessionSeq⟩ := ⟨quantity, limit, hline, hinstrument, hqty, hprice⟩
    exact ⟨_, rfl, Or.inr (Or.inl ⟨_, hplaces, rfl, ⟨rfl, rfl⟩, rfl, rfl⟩)⟩
  | cancelled hline hrole hoid hcancel =>
    exact ⟨_, rfl, Or.inr (Or.inr ⟨_, parseNonnegativeInt_nonneg hoid, hcancel, rfl, rfl⟩)⟩
  | subscribed => exact ⟨_, rfl, Or.inl ⟨rfl, List.forall_mem_cons.mpr ⟨trivial, hok⟩⟩⟩
  | unsubscribed => exact ⟨_, rfl, Or.inl ⟨rfl, List.forall_mem_cons.mpr ⟨trivial, hok⟩⟩⟩
  | quit =>
    obtain ⟨obs, hhistory, hbook, hquiet⟩ := quiet_forget s c.fd
    exact ⟨obs, hhistory, Or.inl ⟨hbook, hquiet⟩⟩

/-- The same, seen from the state before the line was taken off the session's input. -/
private theorem handled_effect {fd : Int} {c : ClientSession} {inbuf : LineBuffer} {line : Bytes}
    {r : Server × Bool} (hc : s.sessions.lookup fd = some c)
    (hr : Handled ((s.update fd (setInbuf inbuf)).noted fd (c.setInbuf inbuf) line) fd
      (inferRole (commandWord line) (c.setInbuf inbuf)) line r) :
    ∃ obs, r.1.history = s.history ++ obs ∧ Effect s r.1.book obs := by
  have hcontinues : Continues c (inferRole (commandWord line) (c.setInbuf inbuf)) := by
    refine Continues.trans ?_ (continues_inferRole ..)
    exact ⟨rfl, Or.inr rfl⟩
  obtain ⟨obs, hhistory, hanswer⟩ := hr.answer
  refine ⟨.received c.conn line :: obs, ?_, ?_⟩
  · rw [hhistory, ← List.singleton_append, ← List.append_assoc]
    rfl
  rw [hcontinues.fd, hcontinues.conn, hcontinues.sessionSeq] at hanswer
  rcases hanswer with ⟨hbook, hquiet⟩ | ⟨o, hplaces, hid, howner, hbook, rfl⟩ |
    ⟨oid, hoid, hok, hbook, rfl⟩
  · rw [hbook]
    exact .quiet (List.forall_mem_cons.mpr ⟨trivial, hquiet⟩)
  · have hvoice : ((s.update fd (setInbuf inbuf)).noted fd (c.setInbuf inbuf) line).fillVoice =
        s.fillVoice := by
      have hset : (s.update fd (setInbuf inbuf)).fillVoice = s.fillVoice :=
        fillVoice_update s fd (fun _ => rfl) fun _ _ => Iff.rfl
      rw [noted, fillVoice_update _ _ (fun c => (continues_inferRole _ c).identity)
        (follows_inferRole hplaces.traderCmd),
        fillVoice_log, hset]
    rw [hbook, orderVoice, hvoice]
    exact .placed hc hplaces hid howner
  · rw [hbook]
    exact .cancelled hc hoid hok

/-- Every move has one effect on the book, and adds the entries that go with it. -/
theorem Moves.effect (h : Moves s a s') :
    ∃ obs, s'.history = s.history ++ obs ∧ Effect s s'.book obs := by
  cases h with
  | idle => exact ⟨[], (List.append_nil _).symm, .quiet fun o ho => by cases ho⟩
  | @admitted cfd =>
    exact ⟨[.accepted s.accepted cfd], rfl, .quiet fun o ho => by
      cases List.mem_singleton.mp ho
      trivial⟩
  | fed => exact ⟨[], (List.append_nil _).symm, .quiet fun o ho => by cases ho⟩
  | @handled fd c inbuf line r hc hr =>
    rw [lookup_update_self, Option.map_eq_some_iff] at hc
    obtain ⟨c₀, hc₀, rfl⟩ := hc
    exact handled_effect hc₀ hr
  | @closed fd c obs hc hobs =>
    obtain ⟨obs', hhist, hbook, hquiet⟩ := quiet_forget (s.log obs) fd
    refine ⟨obs ++ obs', ?_, ?_⟩
    · rw [hhist, log, List.append_assoc]
    · rw [hbook]
      refine .quiet fun o ho => ?_
      rcases List.mem_append.mp ho with ho | ho
      · rcases hobs with ⟨-, rfl⟩ | ⟨-, rfl⟩ | ⟨-, rfl⟩
        · cases ho
        · cases List.mem_singleton.mp ho
          trivial
        · cases List.mem_singleton.mp ho
          trivial
      · exact hquiet o ho
  | @rehashed _ bookOrder => exact ⟨[], (List.append_nil _).symm, .rehashed bookOrder⟩

/-! ## The effect of an action -/

/-- The entries that a later state has added. -/
def since (s s' : Server) : List Obs := s'.history.drop s.history.length

/-- What a step appends to the history is what is new since. -/
theorem since_of_append {obs : List Obs} (h : s'.history = s.history ++ obs) :
    s.since s' = obs := by
  rw [since, h, List.drop_left]

/-- Every action appends to the history what its effect on the book allows. -/
theorem act_effect (s : Server) (a : Action) :
    ∃ obs, (s.act a).history = s.history ++ obs ∧ Effect s.view (s.act a).book obs :=
  (act_moves s a).effect

/-- A history is only ever added to. -/
theorem history_run (s : Server) (actions : List Action) :
    ∃ obs, (run act s actions).history = s.history ++ obs := by
  refine run_preorder (r := fun s s' : Server => ∃ obs, s'.history = s.history ++ obs)
    (fun s => ⟨[], (List.append_nil _).symm⟩) ?_ (fun s a => ?_) s actions
  · rintro _ _ _ ⟨obs, h⟩ ⟨obs', h'⟩
    exact ⟨obs ++ obs', by rw [h', h, List.append_assoc]⟩
  · obtain ⟨obs, h, -⟩ := act_effect s a
    exact ⟨obs, h⟩

end Server

end SocketExchange
