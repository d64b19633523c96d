import SocketExchange.Service.Orders

/-!
# Subscriptions

What a session is subscribed to can be read off the history: a connection's successful
SUBSCRIBE and UNSUBSCRIBE commands decide it, the last one about an instrument for that
instrument, and nothing that other connections do.
-/

namespace SocketExchange

open Containers ClientSession Runs

/-- The last of the connection's successful commands about the instrument was SUBSCRIBE. -/
def Subscribed (history : List Obs) (k : Nat) (instrument : Bytes) : Prop :=
  ∃ before after, history = before ++ .subscribed k instrument :: after ∧
    .unsubscribed k instrument ∉ after

/-- The entry is a SUBSCRIBE or an UNSUBSCRIBE that was carried out. -/
def Obs.IsSubscription : Obs → Prop
  | .subscribed .. => True
  | .unsubscribed .. => True
  | _ => False

/-! ## Subscriptions in a history -/

section Subscribed

variable {h obs : List Obs} {k : Nat} {i : Bytes}

/-- Entries that are no commands about the instrument leave the matter as it is. -/
theorem subscribed_append (hsub : .subscribed k i ∉ obs) (hunsub : .unsubscribed k i ∉ obs) :
    Subscribed (h ++ obs) k i ↔ Subscribed h k i := by
  constructor
  · rintro ⟨before, after, heq, hlast⟩
    rcases List.append_eq_append_iff.mp heq with ⟨mid, rfl, hobs⟩ | ⟨mid, rfl, hafter⟩
    · exact absurd (hobs ▸ List.mem_append_right _ List.mem_cons_self) hsub
    · cases mid with
      | nil =>
        rw [List.nil_append] at hafter
        exact absurd (hafter ▸ List.mem_cons_self) hsub
      | cons o mid =>
        obtain ⟨rfl, rfl⟩ := List.cons.inj hafter
        exact ⟨before, mid, rfl, fun hmem => hlast (List.mem_append_left _ hmem)⟩
  · rintro ⟨before, after, rfl, hlast⟩
    refine ⟨before, after ++ obs, by rw [List.append_assoc, List.cons_append], fun hmem => ?_⟩
    exact (List.mem_append.mp hmem).elim hlast hunsub

/-- After a SUBSCRIBE carried out the connection is subscribed. -/
theorem subscribed_concat_subscribed : Subscribed (h ++ [.subscribed k i]) k i :=
  ⟨h, [], rfl, List.not_mem_nil⟩

/-- After an UNSUBSCRIBE it is not. -/
theorem not_subscribed_concat_unsubscribed : ¬ Subscribed (h ++ [.unsubscribed k i]) k i := by
  rintro ⟨before, after, heq, hlast⟩
  have hend := congrArg List.getLast? heq
  rcases List.eq_nil_or_concat after with rfl | ⟨front, o, rfl⟩
  · rw [List.getLast?_concat, List.getLast?_concat] at hend
    cases hend
  · rw [List.concat_eq_append, ← List.cons_append, ← List.append_assoc, List.getLast?_concat,
      List.getLast?_concat] at hend
    refine hlast ?_
    rw [Option.some.inj hend, List.concat_eq_append]
    exact List.mem_append_right _ (List.mem_singleton_self o)

end Subscribed

namespace Server

variable {s s' : Server} {a : Action}

/-! ## The subscription sets -/

/-- A session is subscribed to what its connection's commands in the history say. -/
structure Listening (s : Server) : Prop where
  current : ∀ fd c, s.sessions.lookup fd = some c →
    ∀ i, i ∈ c.subscriptions ↔ Subscribed s.history c.conn i
  /-- A connection that has not been accepted has given no command. -/
  future : ∀ k, s.accepted ≤ k → ∀ i, ¬ Subscribed s.history k i

private theorem subscribed_unrelated {h obs : List Obs} (hobs : ∀ o ∈ obs, ¬ o.IsSubscription)
    (k : Nat) (i : Bytes) : Subscribed (h ++ obs) k i ↔ Subscribed h k i :=
  subscribed_append (fun hmem => hobs _ hmem trivial) fun hmem => hobs _ hmem trivial

/-- Entries that are no subscription keep the sessions listening to what is recorded. -/
theorem Listening.log (h : Listening s) {obs : List Obs} (hobs : ∀ o ∈ obs, ¬ o.IsSubscription) :
    Listening (s.log obs) where
  current fd c hc i := (h.current fd c hc i).trans (subscribed_unrelated hobs c.conn i).symm
  future k hk i := mt (subscribed_unrelated hobs k i).mp (h.future k hk i)

/-- A change that keeps the subscriptions keeps the sessions listening. -/
theorem Listening.update (h : Listening s) (fd : Int) {f : ClientSession → ClientSession}
    (hconn : ∀ c, (f c).conn = c.conn) (hsub : ∀ c, (f c).subscriptions = c.subscriptions) :
    Listening (s.update fd f) where
  current fd' c' hc' i := by
    rw [Server.update, UnorderedMap.lookup_modify, Option.map_eq_some_iff] at hc'
    obtain ⟨c, hc, rfl⟩ := hc'
    have hcurrent := h.current fd' c hc i
    split
    · rw [hconn, hsub]
      exact hcurrent
    · exact hcurrent
  future := h.future

/-- Forgetting a session leaves the others listening. -/
theorem Listening.forget (h : Listening s) (fd : Int) : Listening (s.forget fd) := by
  unfold Server.forget
  cases hlookup : s.sessions.lookup fd with
  | none => exact h
  | some c =>
    refine Listening.log (s := s.eraseSession fd) ⟨fun fd' c' hc' => ?_, h.future⟩ ?_
    · by_cases hfd : fd' = fd
      · subst hfd
        rw [eraseSession, AList.lookup_erase] at hc'
        cases hc'
      · rw [eraseSession, AList.lookup_erase_ne hfd] at hc'
        exact h.current fd' c' hc'
    · exact List.forall_mem_singleton.mpr id

/-- A new session listens to nothing, as nothing is recorded of its connection. -/
theorem Listening.join (h : Listening s) (cfd : Int) : Listening (s.join cfd) := by
  have hobs : ∀ o ∈ [Obs.accepted s.accepted cfd], ¬ o.IsSubscription :=
    List.forall_mem_singleton.mpr id
  refine ⟨fun fd c hc i => ?_, fun k hk i => ?_⟩
  · refine Iff.trans ?_ (subscribed_unrelated hobs c.conn i).symm
    rcases lookup_join hc with ⟨-, rfl⟩ | ⟨-, hc⟩
    · exact ⟨fun hmem => absurd hmem (Finset.notMem_empty i),
        fun hsub => absurd hsub (h.future s.accepted le_rfl i)⟩
    · exact h.current fd c hc i
  · have hle : s.accepted ≤ k := (Nat.le_succ _).trans hk
    exact mt (subscribed_unrelated hobs k i).mp (h.future k hle i)

/-- Rehashing keeps the sessions listening. -/
theorem Listening.rehash (h : Listening s) (sessionOrder : List Int) (bookOrder : List Bytes) :
    Listening (s.rehash sessionOrder bookOrder) where
  current fd c hc := by
    rw [Server.rehash, UnorderedMap.lookup_reorder] at hc
    exact h.current fd c hc
  future := h.future

/-- A command about subscriptions changes the set of the session it comes from alone. -/
private theorem Listening.change (h : Listening s) (hc : Consistent s) {fd : Int}
    {c : ClientSession} {f : ClientSession → ClientSession} {o : Obs}
    (hsession : s.sessions.lookup fd = some c) (hconn : (f c).conn = c.conn)
    (hself : ∀ j, j ∈ (f c).subscriptions ↔ Subscribed (s.history ++ [o]) c.conn j)
    (hother : ∀ k j, k ≠ c.conn → Obs.subscribed k j ≠ o ∧ Obs.unsubscribed k j ≠ o) :
    Listening ((s.update fd f).log [o]) := by
  have hrest : ∀ k j, k ≠ c.conn →
      (Subscribed (s.history ++ [o]) k j ↔ Subscribed s.history k j) := by
    intro k j hk
    obtain ⟨hsub, hunsub⟩ := hother k j hk
    exact subscribed_append (fun hmem => hsub (List.mem_singleton.mp hmem))
      fun hmem => hunsub (List.mem_singleton.mp hmem)
  refine ⟨fun fd' c' hc' j => ?_, fun k hk j hsubscribed => ?_⟩
  · by_cases hfd : fd' = fd
    · subst hfd
      rw [lookup_log, lookup_update_self, hsession, Option.map_some] at hc'
      rw [← Option.some.inj hc', hconn]
      exact hself j
    · rw [lookup_log, lookup_update_ne s hfd] at hc'
      have hne : c'.conn ≠ c.conn := fun he => hfd (hc.distinct fd' fd c' c hc' hsession he)
      exact (h.current fd' c' hc' j).trans (hrest c'.conn j hne).symm
  · have hne : k ≠ c.conn := fun he =>
      absurd (hc.numbered fd c hsession) (not_lt.mpr (he ▸ hk))
    exact h.future k hk j ((hrest k j hne).mp hsubscribed)

private theorem Listening.subscribe (h : Listening s) (hc : Consistent s) {fd : Int}
    {c : ClientSession} (hsession : s.sessions.lookup fd = some c) (i : Bytes) :
    Listening ((s.update fd (subscribe i)).log [.subscribed c.conn i]) := by
  refine h.change hc hsession rfl (fun j => ?_) fun k j hk => ⟨?_, ?_⟩
  · have hset : j ∈ (ClientSession.subscribe i c).subscriptions ↔ j = i ∨ j ∈ c.subscriptions :=
      Finset.mem_insert
    rw [hset]
    by_cases hj : j = i
    · subst hj
      exact ⟨fun _ => subscribed_concat_subscribed, fun _ => Or.inl rfl⟩
    · rw [or_iff_right hj, h.current fd c hsession j]
      refine (subscribed_append (fun hmem => ?_) fun hmem => ?_).symm
      · exact hj (Obs.subscribed.inj (List.mem_singleton.mp hmem)).2
      · cases List.mem_singleton.mp hmem
  · intro he
    exact hk (Obs.subscribed.inj he).1
  · intro he
    cases he

private theorem Listening.unsubscribe (h : Listening s) (hc : Consistent s) {fd : Int}
    {c : ClientSession} (hsession : s.sessions.lookup fd = some c) (i : Bytes) :
    Listening ((s.update fd (unsubscribe i)).log [.unsubscribed c.conn i]) := by
  refine h.change hc hsession rfl (fun j => ?_) fun k j hk => ⟨?_, ?_⟩
  · have hset : j ∈ (ClientSession.unsubscribe i c).subscriptions ↔ j ≠ i ∧ j ∈ c.subscriptions :=
      Finset.mem_erase
    rw [hset]
    by_cases hj : j = i
    · subst hj
      exact ⟨fun hne => absurd rfl hne.1,
        fun hsub => absurd hsub not_subscribed_concat_unsubscribed⟩
    · rw [and_iff_right hj, h.current fd c hsession j]
      refine (subscribed_append (fun hmem => ?_) fun hmem => ?_).symm
      · cases List.mem_singleton.mp hmem
      · exact hj (Obs.unsubscribed.inj (List.mem_singleton.mp hmem)).2
  · intro he
    cases he
  · intro he
    exact hk (Obs.unsubscribed.inj he).1

private theorem Listening.handled (h : Listening s) (hc : Consistent s) {fd : Int}
    {c : ClientSession} {line : Bytes} {r : Server × Bool}
    (hsession : s.sessions.lookup fd = some c) (hr : Handled s fd c line r) : Listening r.1 := by
  have hreply : ∀ k line, ∀ o ∈ [Obs.enqueued k line], ¬ o.IsSubscription :=
    fun _ _ => List.forall_mem_singleton.mpr id
  cases hr with
  | rejected reason => exact h.log (hreply _ _)
  | @loggedIn name =>
    have hnamed : Listening (s.update fd (setUsername name)) :=
      h.update fd (fun _ => rfl) fun _ => rfl
    exact hnamed.log (hreply _ _)
  | placed =>
    have hbook : ∀ book, Listening (s.withBook book) := fun _ => ⟨h.current, h.future⟩
    refine (hbook _).log fun o ho => ?_
    rcases mem_orderVoice ho with rfl | ⟨f, rfl⟩ | ⟨k, line, rfl⟩ <;> exact id
  | cancelled =>
    have hbook : ∀ book, Listening (s.withBook book) := fun _ => ⟨h.current, h.future⟩
    exact (hbook _).log (hreply _ _)
  | @subscribed i =>
    have hset := (h.subscribe hc hsession i).log (hreply c.conn msgOk)
    rwa [log_log] at hset
  | @unsubscribed i =>
    have hset := (h.unsubscribe hc hsession i).log (hreply c.conn msgOk)
    rwa [log_log] at hset
  | quit => exact h.forget c.fd

/-- Every move keeps the sessions listening to what is recorded. -/
theorem Listening.moves (h : Listening s) (hc : Consistent s) (hm : Moves s a s') :
    Listening s' := by
  cases hm with
  | idle => exact h
  | @admitted cfd => exact h.join cfd
  | @fed fd f hf =>
    refine h.update fd (fun c => ?_) fun c => ?_
    · obtain ⟨inbuf, he⟩ := hf c
      rw [he]
      rfl
    · obtain ⟨inbuf, he⟩ := hf c
      rw [he]
      rfl
  | @handled fd c inbuf line r hsession hr =>
    have htaken : Listening (s.update fd (setInbuf inbuf)) :=
      h.update fd (fun _ => rfl) fun _ => rfl
    have hkeeps : Keeps s (s.update fd (setInbuf inbuf)) :=
      s.keeps_update fd _ fun _ => ⟨rfl, Or.inr rfl⟩
    have hnoted : Listening ((s.update fd (setInbuf inbuf)).noted fd c line) := by
      exact Listening.update (htaken.log (List.forall_mem_singleton.mpr id)) fd
        (fun c => (continues_inferRole _ c).conn) (inferRole_subscriptions _)
    exact hnoted.handled ((hc.keeps hkeeps).keeps (keeps_noted _ fd c line))
      (lookup_noted hsession line) hr
  | @closed fd c obs _ hobs =>
    refine (h.log ?_).forget fd
    rcases hobs with ⟨-, rfl⟩ | ⟨-, rfl⟩ | ⟨-, rfl⟩
    · exact List.forall_mem_nil _
    · exact List.forall_mem_singleton.mpr id
    · exact List.forall_mem_singleton.mpr id
  | @rehashed sessionOrder bookOrder => exact h.rehash sessionOrder bookOrder

private theorem listening_start (kq listenFd : Int) (sends : List SendResult) :
    Listening (start kq listenFd sends).view where
  current fd c hc := by rw [lookup_view] at hc; cases hc
  future k _ i := by
    rintro ⟨before, after, heq, -⟩
    cases before <;> cases heq

/-- In every reachable state the sessions listen to what is recorded. -/
theorem Reachable.listening (h : Reachable s) : Listening s.view :=
  h.view_invariant listening_start fun _ _ hs hl hm => hl.moves hs.consistent hm

/-! ## Subscriptions on the wire -/

/-- Among the entries of an action, those of a command about subscriptions: what was carried out
stands between the line that asks for it and the OK that answers it, and a line that asks for it
and is answered with OK was carried out. -/
structure Commanded (word : Bytes) (entry : Nat → Bytes → Obs) (obs : List Obs) : Prop where
  asked : ∀ k i, entry k i ∈ obs → ∃ line, tokenize line = [word, i] ∧
    isValidInstrument i = true ∧ obs = [.received k line, entry k i, .enqueued k msgOk]
  done : ∀ k line i, .received k line ∈ obs → tokenize line = [word, i] →
    .enqueued k msgOk ∈ obs → entry k i ∈ obs

/-- Entries without a command about subscriptions that is answered with OK. -/
private theorem commanded_of_none {word : Bytes} {entry : Nat → Bytes → Obs} {obs : List Obs}
    (hnone : ∀ k i, entry k i ∉ obs)
    (hdone : ∀ k line i, .received k line ∈ obs → tokenize line = [word, i] →
      .enqueued k msgOk ∉ obs) : Commanded word entry obs where
  asked k i hmem := absurd hmem (hnone k i)
  done k line i hmem hline hok := absurd hok (hdone k line i hmem hline)

/-- A line with another command word carries out no such command. -/
private theorem commanded_of_word {word : Bytes} {entry : Nat → Bytes → Obs} {obs : List Obs}
    {k : Nat} {line : Bytes} (hword : commandWord line ≠ word)
    (hnone : ∀ k' i, entry k' i ∉ .received k line :: obs)
    (hreceived : ∀ k line, .received k line ∉ obs) :
    Commanded word entry (.received k line :: obs) := by
  refine commanded_of_none hnone fun k' line' i hmem hline => ?_
  rcases List.mem_cons.mp hmem with he | hmem
  · obtain ⟨rfl, rfl⟩ := Obs.received.inj he
    exact absurd (commandWord_eq hline) hword
  · exact absurd hmem (hreceived k' line')

/-- A command about subscriptions that is carried out. -/
private theorem commanded_of_done {word : Bytes} {entry : Nat → Bytes → Obs} {k : Nat}
    {line i : Bytes} (hinjective : ∀ k k' i i', entry k i = entry k' i' → k = k' ∧ i = i')
    (hentry : ∀ k i, (entry k i).IsSubscription) (hline : tokenize line = [word, i])
    (hinstrument : isValidInstrument i = true) :
    Commanded word entry [.received k line, entry k i, .enqueued k msgOk] where
  asked k' i' hmem := by
    have hsubscription := hentry k' i'
    have hself : entry k' i' = entry k i := by
      rcases List.mem_cons.mp hmem with he | hmem
      · rw [he] at hsubscription
        exact hsubscription.elim
      · rcases List.mem_cons.mp hmem with he | hmem
        · exact he
        · rw [List.mem_singleton.mp hmem] at hsubscription
          exact hsubscription.elim
    obtain ⟨rfl, rfl⟩ := hinjective _ _ _ _ hself
    exact ⟨line, hline, hinstrument, rfl⟩
  done k' line' i' hmem hline' hok := by
    have hsubscription := hentry k i
    rcases List.mem_cons.mp hmem with he | hmem
    · obtain ⟨rfl, rfl⟩ := Obs.received.inj he
      rw [hline, List.cons.injEq, List.cons.injEq] at hline'
      obtain ⟨-, rfl, -⟩ := hline'
      exact List.mem_cons_of_mem _ List.mem_cons_self
    · rcases List.mem_cons.mp hmem with he | hmem
      · rw [← he] at hsubscription
        exact hsubscription.elim
      · cases List.mem_singleton.mp hmem

/-- What handling a line writes down about a command on subscriptions. -/
private theorem Handled.commanded {fd : Int} {c : ClientSession} {line : Bytes} {r : Server × Bool}
    (h : Handled s fd c line r) :
    ∃ obs, r.1.history = s.history ++ obs ∧
      Commanded (text "SUBSCRIBE") .subscribed (.received c.conn line :: obs) ∧
      Commanded (text "UNSUBSCRIBE") .unsubscribed (.received c.conn line :: obs) := by
  have hsub : ∀ k i, (Obs.subscribed k i).IsSubscription := fun _ _ => trivial
  have hunsub : ∀ k i, (Obs.unsubscribed k i).IsSubscription := fun _ _ => trivial
  have hplain : ∀ {obs : List Obs}, (∀ o ∈ obs, ¬ o.IsSubscription) →
      (∀ k i, .subscribed k i ∉ .received c.conn line :: obs) ∧
        ∀ k i, .unsubscribed k i ∉ .received c.conn line :: obs := by
    intro obs hnone
    have hall : ∀ o ∈ .received c.conn line :: obs, ¬ o.IsSubscription :=
      List.forall_mem_cons.mpr ⟨id, hnone⟩
    exact ⟨fun k i hmem => hall _ hmem trivial, fun k i hmem => hall _ hmem trivial⟩
  have hother : ∀ {obs : List Obs}, commandWord line ∉ [text "SUBSCRIBE", text "UNSUBSCRIBE"] →
      (∀ o ∈ obs, ¬ o.IsSubscription) → (∀ k line, .received k line ∉ obs) →
      Commanded (text "SUBSCRIBE") .subscribed (.received c.conn line :: obs) ∧
        Commanded (text "UNSUBSCRIBE") .unsubscribed (.received c.conn line :: obs) := by
    intro obs hword hnone hreceived
    rw [List.mem_cons, List.mem_singleton, not_or] at hword
    obtain ⟨hsub, hunsub⟩ := hplain hnone
    exact ⟨commanded_of_word hword.1 hsub hreceived, commanded_of_word hword.2 hunsub hreceived⟩
  have hreply : ∀ line, (∀ o ∈ [Obs.enqueued c.conn line], ¬ o.IsSubscription) ∧
      ∀ k line', .received k line' ∉ [Obs.enqueued c.conn line] :=
    fun line => ⟨List.forall_mem_singleton.mpr id, by simp⟩
  cases h with
  | rejected reason =>
    refine ⟨_, rfl, ?_⟩
    obtain ⟨hsubscribed, hunsubscribed⟩ := hplain (hreply (msgError reason)).1
    have hrefused : ∀ k, .enqueued k msgOk ∉
        [Obs.received c.conn line, .enqueued c.conn (msgError reason)] := by
      intro k hmem
      rw [List.mem_cons, or_iff_right (by simp), List.mem_singleton] at hmem
      have hword := congrArg firstWord (Obs.enqueued.inj hmem).2
      rw [firstWord_msgOk, firstWord_msgError] at hword
      exact absurd hword (by decide)
    exact ⟨commanded_of_none hsubscribed fun k _ _ _ _ => hrefused k,
      commanded_of_none hunsubscribed fun k _ _ _ _ => hrefused k⟩
  | loggedIn hline =>
    obtain ⟨hnone, hreceived⟩ := hreply msgOk
    exact ⟨_, rfl, hother (by rw [commandWord_eq hline]; decide) hnone hreceived⟩
  | @placed side instrument quantity limit qty price hline =>
    have hword : commandWord line ∉ [text "SUBSCRIBE", text "UNSUBSCRIBE"] := by
      rw [commandWord_eq hline]
      cases side <;> decide
    refine ⟨_, rfl, hother hword (fun o ho => ?_) fun k line' hmem => ?_⟩
    · rcases mem_orderVoice ho with rfl | ⟨f, rfl⟩ | ⟨k, line, rfl⟩ <;> exact id
    · rcases mem_orderVoice hmem with he | ⟨_, he⟩ | ⟨_, _, he⟩ <;> cases he
  | cancelled hline =>
    obtain ⟨hnone, hreceived⟩ := hreply _
    exact ⟨_, rfl, hother (by rw [commandWord_eq hline]; decide) hnone hreceived⟩
  | subscribed hline hrole hinstrument =>
    refine ⟨_, rfl, commanded_of_done (fun _ _ _ _ => Obs.subscribed.inj) hsub hline hinstrument,
      commanded_of_word (by rw [commandWord_eq hline]; decide) (by simp) (by simp)⟩
  | unsubscribed hline hrole hinstrument =>
    refine ⟨_, rfl, commanded_of_word (by rw [commandWord_eq hline]; decide) (by simp) (by simp),
      commanded_of_done (fun _ _ _ _ => Obs.unsubscribed.inj) hunsub hline hinstrument⟩
  | quit hword =>
    obtain ⟨obs, hhistory, hclosed⟩ := s.forget_entries c.fd
    refine ⟨obs, hhistory, hother (by rw [hword]; decide) (fun o ho => ?_) fun k line hmem => ?_⟩
    · obtain ⟨k, rfl⟩ := hclosed o ho
      exact id
    · obtain ⟨_, he⟩ := hclosed _ hmem
      cases he

/-- Whatever an action does, what it records of a SUBSCRIBE or an UNSUBSCRIBE stands between the
line that asked for it and its OK, and every such line answered with OK is recorded. -/
theorem act_commanded (s : Server) (a : Action) :
    Commanded (text "SUBSCRIBE") .subscribed (s.since (s.act a)) ∧
      Commanded (text "UNSUBSCRIBE") .unsubscribed (s.since (s.act a)) := by
  have hquiet : ∀ {obs : List Obs}, (∀ k i, .subscribed k i ∉ obs) →
      (∀ k i, .unsubscribed k i ∉ obs) → (∀ k line, .received k line ∉ obs) →
        Commanded (text "SUBSCRIBE") .subscribed obs ∧
          Commanded (text "UNSUBSCRIBE") .unsubscribed obs := by
    intro obs hsub hunsub hreceived
    exact ⟨commanded_of_none hsub fun k line _ hmem => absurd hmem (hreceived k line),
      commanded_of_none hunsub fun k line _ hmem => absurd hmem (hreceived k line)⟩
  have hmoves := act_moves s a
  obtain ⟨obs, hhistory, hobs⟩ : ∃ obs, (s.act a).view.history = s.view.history ++ obs ∧
      Commanded (text "SUBSCRIBE") .subscribed obs ∧
        Commanded (text "UNSUBSCRIBE") .unsubscribed obs := by
    generalize (s.act a).view = s' at hmoves
    cases hmoves with
    | idle => exact ⟨[], (List.append_nil _).symm, hquiet (by simp) (by simp) (by simp)⟩
    | @admitted cfd => exact ⟨_, rfl, hquiet (by simp) (by simp) (by simp)⟩
    | fed => exact ⟨[], (List.append_nil _).symm, hquiet (by simp) (by simp) (by simp)⟩
    | @handled fd c inbuf line r hc hr =>
      obtain ⟨obs, hhistory, hobs⟩ := hr.commanded
      rw [(continues_inferRole (commandWord line) c).conn] at hobs
      exact ⟨_, hhistory.trans (List.append_assoc s.view.history [.received c.conn line] obs), hobs⟩
    | @closed fd c obs hc hobs =>
      obtain ⟨obs', hhistory, hclosed⟩ := (s.view.log obs).forget_entries fd
      refine ⟨obs ++ obs', hhistory.trans (List.append_assoc ..), ?_⟩
      have hends : ∀ o ∈ obs ++ obs', ∃ k, o = .ended k ∨ o = .sendFailed k ∨ o = .closed k := by
        intro o ho
        rcases List.mem_append.mp ho with ho | ho
        · rcases hobs with ⟨-, rfl⟩ | ⟨-, rfl⟩ | ⟨-, rfl⟩
          · cases ho
          · exact ⟨c.conn, Or.inl (List.mem_singleton.mp ho)⟩
          · exact ⟨c.conn, Or.inr (Or.inl (List.mem_singleton.mp ho))⟩
        · obtain ⟨k, he⟩ := hclosed o ho
          exact ⟨k, Or.inr (Or.inr he)⟩
      refine hquiet (fun k i hmem => ?_) (fun k i hmem => ?_) fun k line hmem => ?_ <;>
        obtain ⟨_, he | he | he⟩ := hends _ hmem <;> cases he
    | rehashed => exact ⟨[], (List.append_nil _).symm, hquiet (by simp) (by simp) (by simp)⟩
  have hsince : (s.act a).history = s.history ++ obs := hhistory
  rw [since_of_append hsince]
  exact hobs

end Server

end SocketExchange
