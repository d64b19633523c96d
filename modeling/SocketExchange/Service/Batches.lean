import SocketExchange.Service.Orders

/-!
# Batches of events

The events of a batch name descriptors as they were when the batch was fetched, but
sessions are looked up when an event's turn comes. A descriptor that is closed and
given away in between carries the event over to a connection it was not reported
for. A session then loses its place in one case only: an EV_EOF flag meant for the
connection before it.
-/

namespace SocketExchange

open Containers ClientSession Runs

/-- The entry is a connection's own reason to be closed: its `recv` returned 0 or failed hard,
a send of its backlog failed hard, or it sent QUIT. -/
def Obs.Ends (k : Nat) : Obs → Prop
  | .ended k' => k' = k
  | .sendFailed k' => k' = k
  | .received k' line => k' = k ∧ commandWord line = text "QUIT"
  | _ => False

instance (k : Nat) : ∀ o : Obs, Decidable (o.Ends k)
  | .ended k' => inferInstanceAs (Decidable (k' = k))
  | .sendFailed k' => inferInstanceAs (Decidable (k' = k))
  | .received k' line => inferInstanceAs (Decidable (k' = k ∧ commandWord line = text "QUIT"))
  | .accepted .. => .isFalse id
  | .placed .. => .isFalse id
  | .subscribed .. => .isFalse id
  | .unsubscribed .. => .isFalse id
  | .filled _ => .isFalse id
  | .enqueued .. => .isFalse id
  | .closed _ => .isFalse id

/-- An entry ends one connection at most. -/
theorem Obs.Ends.unique {o : Obs} {k k' : Nat} (h : o.Ends k) (h' : o.Ends k') : k' = k := by
  cases o with
  | ended => exact h'.symm.trans h
  | sendFailed => exact h'.symm.trans h
  | received => exact h'.1.symm.trans h.1
  | _ => exact h.elim

namespace Server

/-- What the kernel guarantees of a batch: at most 1024 events, for descriptors registered when
it is fetched, at most one for each descriptor and filter, and no error reports. -/
structure Batch (s : Server) (events : List Event) : Prop where
  size : events.length ≤ 1024
  registered : ∀ e ∈ events, (e.event.ident, e.event.filter) ∈ s.kernel.registered
  distinct : (events.map fun e => (e.event.ident, e.event.filter)).Nodup
  noError : ∀ e ∈ events, e.event.error = false

/-- The event loop closes, for the event's EV_EOF flag, a session of a connection that was
accepted after the first `n`. -/
def Misdirected (n : Nat) (s : Server) (e : Event) : Prop :=
  s.ClosesOnEof e ∧ ∃ c ∈ (s.afterRead e).sessions.lookup e.event.ident, n ≤ c.conn

instance (n : Nat) (s : Server) (e : Event) : Decidable (s.Misdirected n e) :=
  inferInstanceAs (Decidable (_ ∧ _))

variable {s s' : Server} {a : Action} {k : Nat}

/-! ## Who leaves -/

/-- Which connection an action ends, and how that shows in its entries. -/
inductive Departs (s : Server) (a : Action) (s' : Server) (obs : List Obs) : Prop
  | nobody (hobs : ∀ o ∈ obs, ∀ k, ¬ o.Ends k)
      (hstay : ∀ k, s.connected k = true → s'.connected k = true)
  | byItself {k : Nat} (hk : s.connected k = true)
      (hcause : ∀ k', (∃ o ∈ obs, o.Ends k') ↔ k' = k)
      (hrest : ∀ k', s'.connected k' = true ↔ s.connected k' = true ∧ k' ≠ k)
  /-- The event loop closes the session. -/
  | dropped {fd : Int} {c : ClientSession} (ha : a = .drop fd)
      (hc : s.sessions.lookup fd = some c) (hobs : ∀ o ∈ obs, ∀ k, ¬ o.Ends k)
      (hrest : ∀ k', s'.connected k' = true ↔ s.connected k' = true ∧ k' ≠ c.conn)

/-- A reason to be closed and the closing end that connection alone. -/
private theorem ends_closing {o : Obs} (h : o.Ends k) (k' : Nat) :
    (∃ o' ∈ [o] ++ [.closed k], o'.Ends k') ↔ k' = k := by
  constructor
  · rintro ⟨o', ho', hends⟩
    rcases List.mem_cons.mp ho' with rfl | ho'
    · exact h.unique hends
    · rw [List.mem_singleton.mp ho'] at hends
      exact hends.elim
  · rintro rfl
    exact ⟨o, List.mem_cons_self, h⟩

/-- A line leaves everybody connected unless it is a QUIT. -/
theorem Handled.departs {fd : Int} {c : ClientSession} {line : Bytes} {r : Server × Bool}
    (h : Handled s fd c line r) (hword : commandWord line ≠ text "QUIT") :
    ∃ obs, r.1.history = s.history ++ obs ∧ (∀ o ∈ obs, ∀ k, ¬ o.Ends k) ∧
      ∀ k, r.1.connected k = s.connected k := by
  have hreply : ∀ line, ∀ o ∈ [Obs.enqueued c.conn line], ∀ k, ¬ o.Ends k :=
    fun _ => List.forall_mem_singleton.mpr fun _ => id
  cases h with
  | rejected => exact ⟨_, rfl, hreply _, fun _ => rfl⟩
  | loggedIn => exact ⟨_, rfl, hreply _, connected_update fd fun _ => rfl⟩
  | placed =>
    refine ⟨_, rfl, fun o ho k => ?_, fun _ => rfl⟩
    rcases mem_orderVoice ho with rfl | ⟨f, rfl⟩ | ⟨k', line, rfl⟩ <;> exact id
  | cancelled => exact ⟨_, rfl, hreply _, fun _ => rfl⟩
  | subscribed =>
    refine ⟨_, rfl, ?_, connected_update fd fun _ => rfl⟩
    exact List.forall_mem_cons.mpr ⟨fun _ => id, hreply _⟩
  | unsubscribed =>
    refine ⟨_, rfl, ?_, connected_update fd fun _ => rfl⟩
    exact List.forall_mem_cons.mpr ⟨fun _ => id, hreply _⟩
  | quit hquit => exact absurd hquit hword

/-- A QUIT ends the connection it comes from. -/
theorem Handled.quits {fd : Int} {c : ClientSession} {line : Bytes} {r : Server × Bool}
    (h : Handled s fd c line r) (hword : commandWord line = text "QUIT") :
    r.1 = s.forget c.fd := by
  have hother : ∀ cmd args, tokenize line = cmd :: args → cmd = text "QUIT" := by
    intro cmd args hline
    rwa [commandWord_eq hline] at hword
  cases h with
  | rejected reason hnot => exact absurd hword hnot
  | loggedIn hline => exact absurd (hother _ _ hline) (by decide)
  | @placed side _ _ _ _ _ hline =>
    cases side with
    | buy => exact absurd (hother _ _ hline) (by decide)
    | sell => exact absurd (hother _ _ hline) (by decide)
  | cancelled hline => exact absurd (hother _ _ hline) (by decide)
  | subscribed hline => exact absurd (hother _ _ hline) (by decide)
  | unsubscribed hline => exact absurd (hother _ _ hline) (by decide)
  | quit => rfl

/-- A line ends the connection it comes from if it is a QUIT, and no connection otherwise. -/
private theorem Departs.handled {t : Server} (hc : Consistent t) {fd : Int} {c : ClientSession}
    {line : Bytes} {r : Server × Bool} (hlookup : t.sessions.lookup fd = some c)
    (hhistory : t.history = s.history ++ [.received c.conn line])
    (hsame : ∀ k, t.connected k = s.connected k) (hr : Handled t fd c line r) :
    ∃ obs, r.1.history = s.history ++ obs ∧ Departs s a r.1 obs := by
  by_cases hword : commandWord line = text "QUIT"
  · have hfd : c.fd = fd := hc.keyed fd c hlookup
    have hforget := hc.connected_forget hlookup
    rw [hr.quits hword, hfd]
    refine ⟨[.received c.conn line] ++ [.closed c.conn], ?_, .byItself (k := c.conn) ?_ ?_ ?_⟩
    · rw [history_forget hlookup, hhistory, List.append_assoc]
    · rw [← hsame]
      exact connected_iff.mpr ⟨fd, c, hlookup, rfl⟩
    · exact ends_closing ⟨rfl, hword⟩
    · intro k'
      rw [hforget, hsame]
  · obtain ⟨obs, hadded, hquiet, hconnected⟩ := hr.departs hword
    refine ⟨.received c.conn line :: obs, ?_, .nobody ?_ fun k hk => ?_⟩
    · rw [hadded, hhistory, List.append_assoc]
      rfl
    · exact List.forall_mem_cons.mpr ⟨fun _ hends => hword hends.2, hquiet⟩
    · rw [hconnected, hsame]
      exact hk

private theorem Moves.departs (hc : Consistent s) (hm : Moves s a s') :
    ∃ obs, s'.history = s.history ++ obs ∧ Departs s a s' obs := by
  cases hm with
  | idle => exact ⟨[], (List.append_nil _).symm, .nobody (List.forall_mem_nil _) fun _ => id⟩
  | @admitted cfd hfree =>
    refine ⟨[.accepted s.accepted cfd], rfl, .nobody ?_ fun k hk => ?_⟩
    · exact List.forall_mem_singleton.mpr fun _ => id
    · exact (connected_join hfree.2.2 k).mpr (Or.inl hk)
  | @fed fd f hf =>
    refine ⟨[], (List.append_nil _).symm, .nobody (List.forall_mem_nil _) fun k hk => ?_⟩
    rw [connected_update fd fun c => by obtain ⟨inbuf, he⟩ := hf c; rw [he]; rfl]
    exact hk
  | @handled fd c inbuf line r hsession hr =>
    have hkeeps : Keeps s (s.update fd (setInbuf inbuf)) :=
      s.keeps_update fd _ fun _ => ⟨rfl, Or.inr rfl⟩
    have hnoted := (hc.keeps hkeeps).keeps (keeps_noted _ fd c line)
    have hcontinues := continues_inferRole (commandWord line) c
    refine Departs.handled hnoted (lookup_noted hsession line) ?_ (fun k => ?_) hr
    · rw [hcontinues.conn]
      rfl
    · rw [noted, connected_update fd fun c => (continues_inferRole _ c).conn, connected_log]
      exact connected_update (f := setInbuf inbuf) fd (fun _ => rfl) k
  | @closed fd c obs hsession hobs =>
    have hlog : Consistent (s.log obs) := hc.keeps (keeps_log s obs)
    have hlookup : (s.log obs).sessions.lookup fd = some c := hsession
    have hrest := hlog.connected_forget hlookup
    have hhistory : ((s.log obs).forget fd).history = s.history ++ (obs ++ [.closed c.conn]) := by
      rw [history_forget (s := s.log obs) hsession, log, List.append_assoc]
    have hk : s.connected c.conn = true := connected_iff.mpr ⟨fd, c, hsession, rfl⟩
    refine ⟨obs ++ [.closed c.conn], hhistory, ?_⟩
    rcases hobs with ⟨ha, rfl⟩ | ⟨-, rfl⟩ | ⟨-, rfl⟩
    · exact .dropped ha hsession (List.forall_mem_singleton.mpr fun _ => id) hrest
    · exact .byItself hk (ends_closing rfl) hrest
    · exact .byItself hk (ends_closing rfl) hrest
  | rehashed =>
    refine ⟨[], (List.append_nil _).symm, .nobody (List.forall_mem_nil _) fun k hk => ?_⟩
    rw [connected_rehash]
    exact hk

/-! ## Along a run -/

/-- Entries that end a connection are about accepted connections that are no longer open. -/
def Mortal (s : Server) : Prop :=
  ∀ o ∈ s.history, ∀ k, o.Ends k → k < s.accepted ∧ s.connected k = false

/-- After a move the connections whose end is on record are still closed. -/
theorem Mortal.moves (h : Mortal s) (hc : Consistent s) (hm : Moves s a s') : Mortal s' := by
  obtain ⟨obs, hhistory, hdeparts⟩ := hm.departs hc
  have hle := hm.accepted_le
  intro o ho k hends
  rw [hhistory, List.mem_append] at ho
  rcases ho with ho | ho
  · obtain ⟨hlt, hgone⟩ := h o ho k hends
    refine ⟨hlt.trans_le hle, Bool.eq_false_iff.mpr fun hk => ?_⟩
    rcases hm.connected hk with hconnected | hnew
    · rw [hgone] at hconnected
      cases hconnected
    · omega
  · cases hdeparts with
    | nobody hobs => exact absurd hends (hobs o ho k)
    | byItself hk hcause hrest =>
      obtain rfl := (hcause k).mp ⟨o, ho, hends⟩
      exact ⟨(hc.connected_lt hk).trans_le hle,
        Bool.eq_false_iff.mpr fun hk' => ((hrest k).mp hk').2 rfl⟩
    | dropped _ _ hobs => exact absurd hends (hobs o ho k)

private theorem Reachable.mortal (h : Reachable s) : Mortal s.view :=
  h.view_invariant (P := Mortal) (fun _ _ _ o ho => by cases ho)
    fun _ _ hs hmortal hm => hmortal.moves hs.consistent hm

/-- The connection has gone without a reason of its own. -/
def Lost (s : Server) (k : Nat) : Prop :=
  k < s.accepted ∧ s.connected k = false ∧ ∀ o ∈ s.history, ¬ o.Ends k

/-- A connection once lost stays lost. -/
theorem Lost.act (h : Lost s k) (hs : Reachable s) (a : Action) : Lost (s.act a) k := by
  obtain ⟨hlt, hgone, hnone⟩ := h
  have hc := hs.consistent
  have hm := act_moves s a
  obtain ⟨obs, hhistory, hdeparts⟩ := hm.departs hc
  have hgone' : s.view.connected k ≠ true := by
    rw [connected_view, hgone]
    decide
  refine ⟨hlt.trans_le hm.accepted_le, Bool.eq_false_iff.mpr fun hk => ?_, fun o ho hends => ?_⟩
  · rw [← connected_view] at hk
    rcases hm.connected hk with hconnected | hnew
    · exact hgone' hconnected
    · exact absurd hlt (not_lt.mpr hnew)
  · have ho' : o ∈ s.history ++ obs := hhistory ▸ ho
    rcases List.mem_append.mp ho' with ho' | ho'
    · exact hnone o ho' hends
    · cases hdeparts with
      | nobody hobs => exact hobs o ho' k hends
      | byItself hk hcause => exact hgone' ((hcause k).mp ⟨o, ho', hends⟩ ▸ hk)
      | dropped _ _ hobs => exact hobs o ho' k hends

/-- A connection once lost stays lost over every run. -/
theorem Lost.reaches (h : Lost s k) (hs : Reachable s) (hr : Reaches s s') : Lost s' k := by
  obtain ⟨actions, rfl⟩ := hr
  induction actions generalizing s with
  | nil => exact h
  | cons a actions ih => exact ih (h.act hs a) (hs.reaches (.act s a))

/-- Every connection from the `n`-th on is open or has a reason of its own not to be. -/
def Kept (n : Nat) (s : Server) : Prop :=
  ∀ k, n ≤ k → k < s.accepted → s.connected k = true ∨ ∃ o ∈ s.history, o.Ends k

/-- An action that drops none of the new connections keeps them. -/
theorem Kept.act {n : Nat} (h : Kept n s) (hs : Reachable s) (a : Action)
    (ha : ∀ fd c, a = .drop fd → s.sessions.lookup fd = some c → c.conn < n) :
    Kept n (s.act a) := by
  have hc := hs.consistent
  have hm := act_moves s a
  obtain ⟨obs, hhistory, hdeparts⟩ := hm.departs hc
  have hhist : (s.act a).history = s.history ++ obs := hhistory
  intro k hn hk
  rw [hhist, ← connected_view]
  by_cases hold : k < s.accepted
  · rcases h k hn hold with hconnected | ⟨o, ho, hends⟩
    · rw [← connected_view] at hconnected
      cases hdeparts with
      | nobody _ hstay => exact Or.inl (hstay k hconnected)
      | @byItself k' _ hcause hrest =>
        by_cases he : k = k'
        · obtain ⟨o, ho, hends⟩ := (hcause k).mpr he
          exact Or.inr ⟨o, List.mem_append_right _ ho, hends⟩
        · exact Or.inl ((hrest k).mpr ⟨hconnected, he⟩)
      | @dropped fd c hdrop hlookup _ hrest =>
        rw [lookup_view, Option.map_eq_some_iff] at hlookup
        obtain ⟨c₀, hlookup, rfl⟩ := hlookup
        have hlt : c₀.conn < n := ha fd c₀ hdrop hlookup
        have hne : k ≠ c₀.profile.conn := (hlt.trans_le hn).ne'
        exact Or.inl ((hrest k).mpr ⟨hconnected, hne⟩)
    · exact Or.inr ⟨o, List.mem_append_left _ ho, hends⟩
  · left
    rcases hm.keeps with ⟨cfd, hfree, hjoin⟩ | hkeeps
    · have hcount : (s.act a).accepted = s.accepted + 1 := congrArg Server.accepted hjoin
      have hnew : k = s.view.accepted := by
        rw [view_accepted]
        omega
      rw [hjoin]
      exact (connected_join hfree.2.2 k).mpr (Or.inr hnew)
    · have hcount : (s.act a).accepted = s.accepted := hkeeps.accepted
      omega

/-- Proceeding keeps the new connections. -/
theorem Kept.proceeds {n : Nat} (h : Kept n s) (hs : Reachable s) (hp : Proceeds s s') :
    Kept n s' := by
  obtain ⟨actions, hall, rfl⟩ := hp
  induction actions generalizing s with
  | nil => exact h
  | cons a actions ih =>
    obtain ⟨ha, hall⟩ := List.forall_mem_cons.mp hall
    have hstep := h.act hs a fun fd _ hdrop => absurd hdrop (ha fd)
    exact ih hstep (hs.reaches (.act s a)) hall

/-! ## Whole batches -/

/-- An event that is not misdirected keeps the new connections. -/
theorem Kept.dispatch {n : Nat} (h : Kept n s) (hs : Reachable s) {e : Event}
    (herror : e.event.error = false) (hok : ¬ s.Misdirected n e) : Kept n (s.dispatch e) := by
  by_cases hcloses : s.ClosesOnEof e
  · have hread := s.afterRead_proceeds e
    rw [dispatch_of_closesOnEof herror hcloses]
    refine (h.proceeds hs hread).act (hs.reaches hread.reaches) _ fun fd c hdrop hlookup => ?_
    obtain rfl := Action.drop.inj hdrop
    exact not_le.mp fun hle => hok ⟨hcloses, c, hlookup, hle⟩
  · exact h.proceeds hs (dispatch_proceeds herror hcloses)

private theorem Misdirected.lost {n : Nat} {e : Event} (h : s.Misdirected n e) (hs : Reachable s)
    (herror : e.event.error = false) : ∃ k, n ≤ k ∧ Lost (s.dispatch e) k := by
  obtain ⟨hcloses, c, hlookup, hn⟩ := h
  rw [dispatch_of_closesOnEof herror hcloses]
  have hread := hs.reaches (s.afterRead_proceeds e).reaches
  have hc := hread.consistent
  have hmortal := hread.mortal
  generalize s.afterRead e = s at hlookup hread hc hmortal
  have hview : s.view.sessions.lookup e.event.ident = some c.profile := lookup_view_of hlookup
  have hk : s.view.connected c.conn = true := connected_iff.mpr ⟨_, _, hview, rfl⟩
  have hforget : (s.act (.drop e.event.ident)).view = s.view.forget e.event.ident :=
    view_closeSession ..
  have hkeeps := s.view.keeps_forget e.event.ident
  refine ⟨c.conn, hn, ?_, Bool.eq_false_iff.mpr fun hconnected => ?_, fun o ho hends => ?_⟩
  · have hcount : (s.act (.drop e.event.ident)).accepted = s.accepted := by
      rw [← view_accepted, hforget, hkeeps.accepted, view_accepted]
    rw [hcount]
    exact hc.connected_lt hk
  · rw [← connected_view, hforget, hc.connected_forget hview] at hconnected
    exact hconnected.2 rfl
  · rw [← view_history, hforget, history_forget hview, List.mem_append] at ho
    rcases ho with ho | ho
    · rw [(hmortal o ho _ hends).2] at hk
      cases hk
    · rw [List.mem_singleton.mp ho] at hends
      exact hends

private theorem exists_lost {n : Nat} (hs : Reachable s) {events : List Event}
    (herror : ∀ e ∈ events, e.event.error = false)
    (h : ¬ Admissible (fun s e => ¬ Misdirected n s e) dispatch s events) :
    ∃ k, n ≤ k ∧ Lost (run dispatch s events) k := by
  induction events generalizing s with
  | nil => exact absurd trivial h
  | cons e events ih =>
    obtain ⟨hhead, htail⟩ := List.forall_mem_cons.mp herror
    have hnext : Reachable (s.dispatch e) := hs.reaches (dispatch_reaches s e)
    by_cases hok : s.Misdirected n e
    · obtain ⟨k, hn, hlost⟩ := hok.lost hs hhead
      exact ⟨k, hn, hlost.reaches hnext (run_dispatch_reaches _ events)⟩
    · exact ih hnext htail fun hadm => h ⟨hok, hadm⟩

/-- A batch leaves every connection accepted in its course open, unless that has a reason of its
own to be closed, if and only if no EV_EOF flag makes the event loop close one of them. -/
theorem run_batch_keeps_new_connections_iff (hs : Reachable s) {events : List Event}
    (hb : Batch s events) :
    (∀ k, s.accepted ≤ k → k < (run dispatch s events).accepted →
      (run dispatch s events).connected k = true ∨
        ∃ o ∈ s.since (run dispatch s events), o.Ends k) ↔
      Admissible (fun s₁ e => ¬ Misdirected s.accepted s₁ e) dispatch s events := by
  obtain ⟨actions, hactions⟩ := s.run_dispatch_reaches events
  obtain ⟨obs, hobs⟩ := history_run s actions
  rw [hactions] at hobs
  rw [since_of_append hobs]
  constructor
  · intro hkept
    by_contra hnot
    obtain ⟨k, hn, hlt, hgone, hnone⟩ := exists_lost hs hb.noError hnot
    rcases hkept k hn hlt with hconnected | ⟨o, ho, hends⟩
    · rw [hgone] at hconnected
      cases hconnected
    · exact hnone o (hobs ▸ List.mem_append_right _ ho) hends
  · intro hadm k hn hk
    have hadm' : Admissible (fun s₁ e => ¬ Misdirected s.accepted s₁ e ∧ e.event.error = false)
        dispatch s events := admissible_and.mpr ⟨hadm, hb.noError⟩
    have hstart : Kept s.accepted s := fun k hn hk => absurd hn (not_le.mpr hk)
    have hrun := admissible_invariant (P := fun s₁ => Reachable s₁ ∧ Kept s.accepted s₁)
      (fun s₁ e h hok => ⟨h.1.reaches (dispatch_reaches s₁ e), h.2.dispatch h.1 hok.2 hok.1⟩)
      ⟨hs, hstart⟩ hadm'
    rcases hrun.2 k hn hk with hconnected | ⟨o, ho, hends⟩
    · exact Or.inl hconnected
    · rw [hobs, List.mem_append] at ho
      rcases ho with ho | ho
      · exact absurd (hs.mortal o ho k hends).1 (not_lt.mpr hn)
      · exact Or.inr ⟨o, ho, hends⟩

/-- Two old connections leave and a third one takes the descriptor of the first, whose EV_EOF
flag comes before: the new connection stays. -/
theorem run_batch_keeps_recycled_descriptor :
    let s := run act (start 3 4 []) [.accept 5, .accept 6]
    let events : List Event := [{ event := ⟨5, .read, true, false⟩, recvs := [.fin] },
      { event := ⟨6, .read, true, false⟩, recvs := [.reset] },
      { event := ⟨4, .read, false, false⟩, accepts := [.accepted 5, .again] }]
    ∀ k, s.accepted ≤ k → k < (run dispatch s events).accepted →
      (run dispatch s events).connected k = true ∨
        ∃ o ∈ s.since (run dispatch s events), o.Ends k := by
  intro s events
  have hs : Reachable s := ⟨3, 4, [], _, rfl⟩
  have hb : Batch s events := ⟨by decide, by decide, by decide, by decide⟩
  exact (run_batch_keeps_new_connections_iff hs hb).mpr (by decide)

/-- The backlog of an old connection fails, the listening socket gives its descriptor to a new
one, and the old connection's EV_EOF flag closes it. -/
theorem run_batch_closes_recycled_descriptor :
    let s := run act (start 3 4 [.again, .failed])
      [.accept 5, .feed 5 ⟨text "HELLO\n", by decide, by decide⟩, .line 5]
    let events : List Event := [{ event := ⟨5, .write, true, false⟩ },
      { event := ⟨4, .read, false, false⟩, accepts := [.accepted 5, .again] },
      { event := ⟨5, .read, true, false⟩, recvs := [.again] }]
    Reachable s ∧ Batch s events ∧ s.accepted ≤ 1 ∧ 1 < (run dispatch s events).accepted ∧
      (run dispatch s events).connected 1 = false ∧
      ¬ ∃ o ∈ s.since (run dispatch s events), o.Ends 1 := by
  intro s events
  have hs : Reachable s := ⟨3, 4, [.again, .failed], _, rfl⟩
  have hb : Batch s events := ⟨by decide, by decide, by decide, by decide⟩
  exact ⟨hs, hb, by decide, by decide, by decide, by decide⟩

end Server

end SocketExchange
