import SocketExchange.Service.Goodbye

/-!
# Usernames

A username is set once, by a LOGIN that finds no other session under it, and it goes with
its session. So it is as good as a key of the session table, and it is free again the moment
the session is closed, on whichever path.
-/

namespace SocketExchange

open Containers ClientSession Runs

namespace Server

variable {s s' : Server} {a : Action} {fd : Int} {c : ClientSession}

/-- The connection and the username of a descriptor's session. -/
def nameplate (s : Server) (fd : Int) : Option (Nat × Bytes) :=
  (s.sessions.lookup fd).map fun c => (c.conn, c.username)

private theorem nameplate_eq (hc : s.sessions.lookup fd = some c) :
    s.nameplate fd = some (c.conn, c.username) := by
  rw [nameplate, hc, Option.map_some]

private theorem nameplate_eq_some {k : Nat} {name : Bytes} :
    s.nameplate fd = some (k, name) ↔
      ∃ c, s.sessions.lookup fd = some c ∧ c.conn = k ∧ c.username = name := by
  rw [nameplate, Option.map_eq_some_iff]
  simp only [Prod.mk.injEq]

@[simp] theorem nameplate_view (s : Server) (fd : Int) : s.view.nameplate fd = s.nameplate fd := by
  rw [nameplate, lookup_view, Option.map_map]
  rfl

private theorem nameplate_update (s : Server) (fd : Int) (f : ClientSession → ClientSession)
    (hconn : ∀ c, (f c).conn = c.conn) (hname : ∀ c, (f c).username = c.username) (fd' : Int) :
    (s.update fd f).nameplate fd' = s.nameplate fd' :=
  map_lookup_update s fd f (fun c => Prod.ext (hconn c) (hname c)) fd'

private theorem nameplate_forget {k : Nat} {name : Bytes} {fd' : Int}
    (h : (s.forget fd).nameplate fd' = some (k, name)) : s.nameplate fd' = some (k, name) := by
  obtain ⟨c, hc, hconn, hname⟩ := nameplate_eq_some.mp h
  exact nameplate_eq_some.mpr ⟨c, lookup_of_forget hc, hconn, hname⟩

private theorem nameplate_noted (s : Server) (fd : Int) (c : ClientSession) (line : Bytes)
    (fd' : Int) :
    (s.noted fd c line).nameplate fd' = s.nameplate fd' :=
  nameplate_update (s.log [.received c.conn line]) fd _
    (fun c => (continues_inferRole _ c).conn) (inferRole_username _) fd'

/-! ## What a move does to the names -/

/-- What a move can make of the name at a descriptor: it stays, or the session is new and has
none, or it is the one name the move sets, and then nobody else has it. -/
def Renamed (s s' : Server) (fd : Int) (k : Nat) (name : Bytes) : Prop :=
  s.nameplate fd = some (k, name) ∨ (s.accepted = k ∧ name = []) ∨
    (s.nameplate fd = some (k, []) ∧ ∀ fd', fd' ≠ fd →
      s'.nameplate fd' = s.nameplate fd' ∧ ∀ k', s.nameplate fd' ≠ some (k', name))

private theorem Handled.renamed {line : Bytes} {r : Server × Bool} (h : Handled s fd c line r)
    (hc : s.sessions.lookup fd = some c) (hfd : c.fd = fd) {fd' : Int} {k : Nat} {name : Bytes}
    (hname : r.1.nameplate fd' = some (k, name)) : Renamed s r.1 fd' k name := by
  cases h with
  | rejected => exact Or.inl hname
  | @loggedIn new hline hrole hnew hfree =>
    have hothers : ∀ fd', fd' ≠ fd →
        (s.update fd (setUsername new)).nameplate fd' = s.nameplate fd' := by
      intro fd' hne
      rw [nameplate, lookup_update_ne s hne, nameplate]
    by_cases hne : fd' = fd
    · -- This is the session that logs in.
      subst hne
      have hset : (s.update fd' (setUsername new)).nameplate fd' = some (c.conn, new) := by
        rw [nameplate, lookup_update_self, hc]
        rfl
      obtain ⟨rfl, rfl⟩ := Prod.mk.inj (Option.some.inj (hset.symm.trans hname))
      refine Or.inr (Or.inr ⟨?_, fun fd hne => ⟨hothers fd hne, fun k' htaken => ?_⟩⟩)
      · rw [nameplate_eq hc, hnew]
      · obtain ⟨c', hc', -, htaken⟩ := nameplate_eq_some.mp htaken
        exact hfree fd c' hc' (hfd ▸ hne) htaken
    · exact Or.inl ((hothers fd' hne).symm.trans hname)
  | placed => exact Or.inl hname
  | cancelled => exact Or.inl hname
  | @subscribed i =>
    have hsame := nameplate_update s fd (subscribe i) (fun _ => rfl) (fun _ => rfl) fd'
    exact Or.inl (hsame.symm.trans hname)
  | @unsubscribed i =>
    have hsame := nameplate_update s fd (unsubscribe i) (fun _ => rfl) (fun _ => rfl) fd'
    exact Or.inl (hsame.symm.trans hname)
  | quit => exact Or.inl (nameplate_forget hname)

/-- A move names a connection only by its own LOGIN under a free name. -/
theorem Moves.renamed (hm : Moves s a s') (hs : Consistent s) {k : Nat} {name : Bytes}
    (hname : s'.nameplate fd = some (k, name)) : Renamed s s' fd k name := by
  cases hm with
  | idle => exact Or.inl hname
  | @admitted cfd =>
    obtain ⟨c, hc, rfl, rfl⟩ := nameplate_eq_some.mp hname
    rcases lookup_join hc with ⟨-, rfl⟩ | ⟨-, hold⟩
    · exact Or.inr (Or.inl ⟨rfl, rfl⟩)
    · exact Or.inl (nameplate_eq hold)
  | @fed fd' f hf =>
    have hconn : ∀ c, (f c).conn = c.conn := by
      intro c
      obtain ⟨inbuf, he⟩ := hf c
      rw [he, setInbuf]
    have husername : ∀ c, (f c).username = c.username := by
      intro c
      obtain ⟨inbuf, he⟩ := hf c
      rw [he, setInbuf]
    exact Or.inl ((nameplate_update s fd' f hconn husername fd).symm.trans hname)
  | @handled fd' c inbuf line r hc hr =>
    generalize hs₁ : (s.update fd' (setInbuf inbuf)).noted fd' c line = s₁ at hr
    have hsame : ∀ fd, s₁.nameplate fd = s.nameplate fd := by
      intro fd
      rw [← hs₁, nameplate_noted]
      exact nameplate_update s fd' (setInbuf inbuf) (fun _ => rfl) (fun _ => rfl) fd
    have hsettled : s₁.sessions.lookup fd' = some (inferRole (commandWord line) c) := by
      rw [← hs₁]
      exact lookup_noted hc line
    have hkept : Keeps s s₁ := by
      rw [← hs₁]
      have hset : Keeps s (s.update fd' (setInbuf inbuf)) :=
        keeps_update s fd' _ fun _ => ⟨rfl, Or.inr rfl⟩
      exact hset.trans (keeps_noted _ fd' c line)
    have hfd := (hs.keeps hkept).keyed fd' _ hsettled
    have hrenamed := hr.renamed hsettled hfd hname
    simp only [Renamed, hsame, hkept.accepted] at hrenamed ⊢
    exact hrenamed
  | @closed fd' c obs => exact Or.inl (nameplate_forget (s := s.log obs) hname)
  | rehashed =>
    rw [nameplate, Server.rehash, UnorderedMap.lookup_reorder] at hname
    exact Or.inl hname

/-! ## Usernames are unique -/

/-- No two sessions have the same username. -/
def DistinctNames (s : Server) : Prop :=
  ∀ fd fd' k k' name, name ≠ [] → s.nameplate fd = some (k, name) →
    s.nameplate fd' = some (k', name) → fd = fd'

/-- A move keeps the usernames distinct. -/
theorem DistinctNames.moves (h : DistinctNames s) (hs : Consistent s) (hm : Moves s a s') :
    DistinctNames s' := by
  intro fd fd' k k' name hne hname hname'
  by_contra hother
  rcases hm.renamed hs hname with hold | ⟨-, hnone⟩ | ⟨-, hnew⟩
  · rcases hm.renamed hs hname' with hold' | ⟨-, hnone⟩ | ⟨-, hnew'⟩
    · exact hother (h fd fd' k k' name hne hold hold')
    · exact hne hnone
    · exact (hnew' fd hother).2 k hold
  · exact hne hnone
  · obtain ⟨hsame, hfree⟩ := hnew fd' (Ne.symm hother)
    exact hfree k' (hsame.symm.trans hname')

private theorem Reachable.distinctNames (h : Reachable s) : DistinctNames s.view := by
  refine h.view_invariant (fun kq listenFd sends fd fd' k k' name hne hname => ?_) ?_
  · obtain ⟨c, hc, -⟩ := nameplate_eq_some.mp hname
    rw [lookup_view] at hc
    cases hc
  · exact fun s a hs hnames hm => hnames.moves hs.consistent hm

/-- A name that a connection has at the end of a run is the one it had before, if any. -/
theorem run_named (hs : Reachable s) (actions : List Action) {k : Nat} {name : Bytes}
    (hname : (run act s actions).nameplate fd = some (k, name)) (hold : k < s.accepted) :
    ∃ name₀, s.nameplate fd = some (k, name₀) ∧ (name₀ = [] ∨ name = name₀) := by
  induction actions generalizing s with
  | nil => exact ⟨name, hname, Or.inr rfl⟩
  | cons a actions ih =>
    have hmoves := act_moves s a
    have hact : Reachable (s.act a) := hs.reaches (.act s a)
    obtain ⟨name₁, hname₁, hkept⟩ := ih hact hname (hold.trans_le hmoves.accepted_le)
    rw [← nameplate_view] at hname₁
    have hrenamed := hmoves.renamed hs.consistent hname₁
    simp only [Renamed, nameplate_view] at hrenamed
    rcases hrenamed with hsame | ⟨hnew, -⟩ | ⟨hunnamed, -⟩
    · exact ⟨name₁, hsame, hkept⟩
    · exact absurd hnew hold.ne'
    · exact ⟨[], hunnamed, Or.inl rfl⟩

/-! ## Logging in -/

/-- The scan of a LOGIN sees the names as they were when the line came. -/
theorem nameTaken_noted (s : Server) (fd : Int) (c : ClientSession) (line name : Bytes) :
    (s.noted fd c line).NameTaken fd name ↔ s.NameTaken fd name := by
  have hothers : ∀ fd', fd' ≠ fd →
      (s.noted fd c line).sessions.lookup fd' = s.sessions.lookup fd' :=
    fun fd' hne => lookup_update_ne (s.log [.received c.conn line]) hne _
  constructor
  · rintro ⟨fd', c', hc', hne, hname⟩
    exact ⟨fd', c', (hothers fd' hne).symm.trans hc', hne, hname⟩
  · rintro ⟨fd', c', hc', hne, hname⟩
    exact ⟨fd', c', (hothers fd' hne).trans hc', hne, hname⟩

/-- What a LOGIN of a session without a username comes to. -/
theorem login_decision {st : Standing} {line name : Bytes}
    (hline : tokenize line = [text "LOGIN", name]) (hrole : st.role = .trader)
    (hnew : st.loggedIn = false) :
    st.decision line = if st.taken name then .rejected (text "username already in use")
      else .loggedIn name := by
  have htrader : (traderCmd (text "LOGIN") && decide (Role.trader ≠ .trader)) = false := by decide
  have hmd : (mdCmd (text "LOGIN") && decide (Role.trader ≠ .marketData)) = false := by decide
  simp only [Standing.decision, hline, Standing.command, hrole, htrader, hmd, Bool.false_eq_true,
    if_false, if_true, Standing.login, hnew]

/-- A LOGIN of a session without a username is answered OK exactly when the name is free, and
then the session has it. -/
theorem handleLine_login (hs : Consistent s) (hc : s.sessions.lookup fd = some c)
    {line name : Bytes} (hline : tokenize line = [text "LOGIN", name]) (hnew : c.username = [])
    (hrole : c.role ≠ .marketData) :
    ∃ reply, (s.handleLine fd line).1.history =
        s.history ++ [.received c.conn line, .enqueued c.conn reply] ∧
      (reply = msgOk ↔ ¬ s.NameTaken fd name) ∧
      (s.handleLine fd line).1.nameplate fd =
        some (c.conn, if reply = msgOk then name else []) := by
  have hword : commandWord line = text "LOGIN" := commandWord_eq hline
  let c' := inferRole (commandWord line) c
  let s' := s.noted fd c line
  have hc' : s'.sessions.lookup fd = some c' := lookup_noted hc line
  have hconn : c'.conn = c.conn := (continues_inferRole _ c).conn
  have hfd : c'.fd = fd := (continues_inferRole _ c).fd.trans (hs.keyed fd c hc)
  have hnew' : c'.username = [] := (inferRole_username _ c).trans hnew
  have htrader : c'.role = .trader := by
    have hcmd : traderCmd (commandWord line) = true := by
      rw [hword]
      decide
    exact inferRole_trader hcmd hrole
  have hlogged : (s'.standing c').loggedIn = false := by
    have hsame : (s'.standing c').loggedIn = decide (c'.username ≠ []) := rfl
    rw [hsame, hnew']
    decide
  have htaken : (s'.standing c').taken name = true ↔ s.NameTaken fd name :=
    (taken_iff hfd name).trans (nameTaken_noted s fd c line name)
  rw [handleLine_eq hc]
  dsimp only
  rw [login_decision hline htrader hlogged]
  by_cases hname : s.NameTaken fd name
  · have herror : msgError (text "username already in use") ≠ msgOk := by decide
    refine ⟨msgError (text "username already in use"), ?_, ?_, ?_⟩
    · rw [if_pos (htaken.mpr hname), perform, history_enqueue hc', hconn]
      exact List.append_assoc ..
    · exact ⟨fun h => absurd h herror, fun h => absurd hname h⟩
    · rw [if_pos (htaken.mpr hname), perform, if_neg herror, ← nameplate_view, view_reply s' hc',
        ← hconn, ← hnew']
      exact (nameplate_view s' fd).trans (nameplate_eq hc')
  · have hset : (s'.update fd (setUsername name)).sessions.lookup fd =
        some (setUsername name c') := lookup_update_of hc' _
    refine ⟨msgOk, ?_, ?_, ?_⟩
    · have hconn' : (setUsername name c').conn = c.conn := hconn
      rw [if_neg (mt htaken.mp hname), perform, history_enqueue hset, hconn']
      exact List.append_assoc ..
    · exact iff_of_true rfl hname
    · rw [if_neg (mt htaken.mp hname), perform, if_pos rfl, ← nameplate_view, view_reply _ hset,
        ← hconn]
      exact (nameplate_view (s'.update fd (setUsername name)) fd).trans (nameplate_eq hset)

/-! ## Leaving -/

/-- The action ends the descriptor's session: the client says goodbye or its connection is reset,
the event loop drops it, or a send of its backlog fails hard. -/
def Ends (s : Server) (fd : Int) (c : ClientSession) (a : Action) : Prop :=
  Goodbye fd c a ∨ a = .drop fd ∨
    a = .writable fd ∧ (drainLoop s.kernel.sends c.outbuf).stop = .failed

/-- A connection whose session is gone from its descriptor is not connected. -/
theorem act_disconnects (hs : Consistent s) (hc : s.sessions.lookup fd = some c)
    (hgone : (s.act a).sessions.lookup fd = none) : (s.act a).connected c.conn = false := by
  refine Bool.eq_false_iff.mpr fun hopen => ?_
  obtain ⟨fd', c', hc', hconn⟩ := connected_iff.mp hopen
  have hview' : (s.act a).view.sessions.lookup fd' = some c'.profile := lookup_view_of hc'
  have hview : s.view.sessions.lookup fd = some c.profile := lookup_view_of hc
  have hold : c'.profile.conn < s.view.accepted := hconn.trans_lt (hs.numbered fd c hc)
  obtain ⟨c₀, hc₀, hcontinues⟩ := (act_moves s a).continues hview' hold
  have hsame : fd' = fd := (consistent_view hs).distinct fd' fd c₀ c.profile hc₀ hview
    (hcontinues.conn.symm.trans hconn)
  rw [hsame, hgone] at hc'
  cases hc'

private theorem Ends.disconnects (hs : Consistent s) (hc : s.sessions.lookup fd = some c)
    (h : s.Ends fd c a) : (s.act a).connected c.conn = false := by
  refine act_disconnects hs hc ?_
  rcases h with hbye | rfl | ⟨rfl, hfailed⟩
  · obtain ⟨s', c', -, -, -, -, -, hclosed⟩ := hbye.closes hs hc
    rw [hclosed, lookup_closeSession]
  · exact lookup_closeSession s fd
  · obtain ⟨-, -, hgone⟩ := onWritable_flushes hc
    rwa [if_pos hfailed] at hgone

/-- An action that ends a connection frees its name. -/
theorem act_frees (hs : Reachable s) (hc : s.sessions.lookup fd = some c) (hne : c.username ≠ [])
    (hgone : (s.act a).connected c.conn = false) {fd' : Int} {k : Nat} :
    (s.act a).nameplate fd' ≠ some (k, c.username) := by
  intro hname
  have hmoves := act_moves s a
  have hopen : ∀ {fd}, (s.act a).nameplate fd ≠ some (c.conn, c.username) := by
    intro fd hname
    obtain ⟨c', hc', hconn, -⟩ := nameplate_eq_some.mp hname
    exact absurd (connected_iff.mpr ⟨fd, c', hc', hconn⟩) (Bool.eq_false_iff.mp hgone)
  have hplate : s.view.nameplate fd = some (c.conn, c.username) := by
    rw [nameplate_view, nameplate_eq hc]
  have hname' : (s.act a).view.nameplate fd' = some (k, c.username) := by
    rw [nameplate_view, hname]
  rcases hmoves.renamed hs.consistent hname' with hold | ⟨-, hnone⟩ | ⟨hunnamed, hothers⟩
  · obtain rfl := hs.distinctNames fd fd' _ _ _ hne hplate hold
    obtain ⟨rfl, -⟩ := Prod.mk.inj (Option.some.inj (hplate.symm.trans hold))
    exact hopen hname
  · exact hne hnone
  · have hother : fd ≠ fd' := by
      rintro rfl
      rw [hplate] at hunnamed
      exact hne (Prod.mk.inj (Option.some.inj hunnamed)).2
    exact (hothers fd hother).2 c.conn hplate

/-! ## The main result -/

/-- In every run no two sessions have the same username; a username, once set, stays as long as
the session; a LOGIN of a session that has none and is no market-data connection is answered OK
exactly when no other session has the name, and then sets it; and on whichever path a session
ends, no session has its name from then on. -/
theorem run_usernames_unique (kq listenFd : Int) (sends : List SendResult)
    (actions : List Action) :
    let s := run act (start kq listenFd sends) actions
    (∀ fd fd' c c', s.sessions.lookup fd = some c → s.sessions.lookup fd' = some c' →
      c.username ≠ [] → c.username = c'.username → fd = fd') ∧
    (∀ fd c, s.sessions.lookup fd = some c → c.username ≠ [] →
      ∀ more fd' c', (run act s more).sessions.lookup fd' = some c' → c'.conn = c.conn →
        c'.username = c.username) ∧
    (∀ fd c line name, s.sessions.lookup fd = some c → tokenize line = [text "LOGIN", name] →
      c.username = [] → c.role ≠ .marketData →
      ∃ reply c', (s.handleLine fd line).1.history =
          s.history ++ [.received c.conn line, .enqueued c.conn reply] ∧
        (reply = msgOk ↔
          ∀ fd' c', s.sessions.lookup fd' = some c' → fd' ≠ fd → c'.username ≠ name) ∧
        (s.handleLine fd line).1.sessions.lookup fd = some c' ∧ c'.conn = c.conn ∧
        c'.username = if reply = msgOk then name else []) ∧
    (∀ fd c a, s.sessions.lookup fd = some c → s.Ends fd c a →
      (s.act a).connected c.conn = false) ∧
    ∀ fd c a, s.sessions.lookup fd = some c → c.username ≠ [] →
      (s.act a).connected c.conn = false →
      ∀ fd' c', (s.act a).sessions.lookup fd' = some c' → c'.username ≠ c.username := by
  intro s
  have hs : Reachable s := ⟨kq, listenFd, sends, actions, rfl⟩
  have hconsistent := consistent_of_view hs.consistent
  refine ⟨fun fd fd' c c' hc hc' hne hsame => ?_, fun fd c hc hne more fd' c' hc' hconn => ?_,
    fun fd c line name hc hline hnew hrole => ?_, fun fd c a hc h => h.disconnects hconsistent hc,
    fun fd c a hc hne hgone fd' c' hc' hsame => ?_⟩
  · have hplate : s.view.nameplate fd = some (c.conn, c.username) := by
      rw [nameplate_view, nameplate_eq hc]
    have hplate' : s.view.nameplate fd' = some (c'.conn, c.username) := by
      rw [nameplate_view, nameplate_eq hc', hsame]
    exact hs.distinctNames fd fd' _ _ _ hne hplate hplate'
  · have hplate' : (run act s more).nameplate fd' = some (c.conn, c'.username) := by
      rw [nameplate_eq hc', hconn]
    obtain ⟨name, hname, hkept⟩ := run_named hs more hplate' (hconsistent.numbered fd c hc)
    obtain ⟨c₀, hc₀, hconn₀, rfl⟩ := nameplate_eq_some.mp hname
    obtain rfl := hconsistent.distinct fd' fd c₀ c hc₀ hc hconn₀
    obtain rfl := Option.some.inj (hc₀.symm.trans hc)
    exact hkept.resolve_left hne
  · obtain ⟨reply, hhistory, hok, hplate⟩ :=
      handleLine_login hconsistent hc hline hnew hrole
    obtain ⟨c', hc', hconn, hname⟩ := nameplate_eq_some.mp hplate
    refine ⟨reply, c', hhistory, hok.trans ?_, hc', hconn, hname⟩
    simp only [NameTaken, not_exists, not_and]
  · exact act_frees hs hc hne hgone (hsame ▸ nameplate_eq hc')

end Server

end SocketExchange
