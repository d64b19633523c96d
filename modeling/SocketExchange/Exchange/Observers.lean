import SocketExchange.Exchange.Descriptors
import SocketExchange.Service.Lifetimes
import SocketExchange.Service.Reassembly

/-!
# Observers leave no trace

A connection whose first command of a kind is SUBSCRIBE or UNSUBSCRIBE, or that never sends any,
only watches. Whatever it says and whenever it leaves, the book, the ids and the lines of
everybody else are the same as if it had kept silent.
-/

namespace SocketExchange

open Containers ClientSession Runs OrderBook

/-! ## The role that lines give -/

/-- The role after a command word. -/
def Role.infer (cmd : Bytes) (r : Role) : Role :=
  if r = .unknown then
    if Server.traderCmd cmd then .trader else if Server.mdCmd cmd then .marketData else .unknown
  else r

/-- The role that the first command of a kind among the lines gives. -/
def roleOf (lines : List Bytes) : Role :=
  lines.foldl (fun r line => r.infer (commandWord line)) .unknown

private theorem roleOf_concat (lines : List Bytes) (line : Bytes) :
    roleOf (lines ++ [line]) = (roleOf lines).infer (commandWord line) := by
  rw [roleOf, List.foldl_append]
  rfl

/-- Whoever is no trader behind a line was none before it. -/
theorem Role.infer_ne_trader {r : Role} {cmd : Bytes} (h : r.infer cmd ≠ .trader) :
    r ≠ .trader := by
  rintro rfl
  exact h rfl

private theorem roleOf_ne_trader {lines lines' : List Bytes}
    (h : roleOf (lines ++ lines') ≠ .trader) :
    roleOf lines ≠ .trader := by
  induction lines' using List.reverseRecOn with
  | nil => rwa [List.append_nil] at h
  | append_singleton lines' line ih =>
    rw [← List.append_assoc, roleOf_concat] at h
    exact ih (Role.infer_ne_trader h)

private theorem role_inferRole (cmd : Bytes) (m : Member) :
    (m.inferRole cmd).role = m.role.infer cmd := by
  unfold Member.inferRole Role.infer
  split_ifs with hrole <;> simp [hrole]

/-! ## Deeds in order -/

/-- The lines that a connection sends. -/
def sentBy (k : Nat) (ds : List Deed) : List Bytes :=
  ds.filterMap fun
    | .sends k' line => if k' = k then some line else none
    | _ => none

/-- What a client sent in two lists of deeds, one after the other. -/
theorem sentBy_append (k : Nat) (ds ds' : List Deed) :
    sentBy k (ds ++ ds') = sentBy k ds ++ sentBy k ds' := List.filterMap_append ..

private theorem sentBy_eq_nil {k : Nat} {ds : List Deed} (h : ∀ d ∈ ds, d.conn ≠ k) :
    sentBy k ds = [] := by
  rw [sentBy, List.filterMap_eq_nil_iff]
  intro d hd
  cases d with
  | sends k' line => exact if_neg (h _ hd)
  | joins k' => rfl
  | leaves k' => rfl

/-- What a client sent, by the deeds of a history, is what was received from it. -/
theorem sentBy_deeds (k : Nat) (history : List Obs) :
    sentBy k (deeds history) = Server.linesFrom k history := by
  rw [sentBy, deeds, List.filterMap_filterMap, Server.linesFrom]
  refine List.filterMap_congr fun o _ => ?_
  cases o <;> rfl

/-- Nobody does anything before joining. -/
def Orderly (ds : List Deed) : Prop := ds.Pairwise fun d d' => d' ≠ .joins d.conn

namespace Exchange

variable {e e' : Exchange} {ds : List Deed} {d : Deed} {Q : Nat → Prop} {k : Nat} {m : Member}
  {line : Bytes}

/-- The lines of a member have given it its role, and it has a username only as a trader. -/
structure Told (ds : List Deed) (e : Exchange) : Prop where
  role : ∀ k m, e.member k = some m → m.role = roleOf (sentBy k ds)
  username : ∀ k m, e.member k = some m → m.username ≠ [] → m.role = .trader

/-- A line gives the member at most its role, and a username only to a trader. -/
theorem act_member (e : Exchange) (k : Nat) (m : Member) (line : Bytes) :
    ∃ m', (e.act k m line).member k = some m' ∧ m'.role = m.role.infer (commandWord line) ∧
      (m'.username = m.username ∨ m'.role = .trader) := by
  let m₁ := m.inferRole (commandWord line)
  have hrole : m₁.role = m.role.infer (commandWord line) := role_inferRole ..
  have hname : m₁.username = m.username := username_inferRole ..
  rw [act_eq]
  have hjustified := Standing.decision_justified ((e.enroll k m₁).standing k m₁) line
  generalize ((e.enroll k m₁).standing k m₁).decision line = decision at hjustified
  have hkept : (e.enroll k m₁).member k = some m₁ := member_enroll ..
  cases hjustified with
  | rejected => exact ⟨m₁, hkept, hrole, Or.inl hname⟩
  | loggedIn hline htrader => exact ⟨_, member_enroll .., hrole, Or.inr htrader⟩
  | placed => exact ⟨m₁, hkept, hrole, Or.inl hname⟩
  | cancelled => exact ⟨m₁, hkept, hrole, Or.inl hname⟩
  | subscribed => exact ⟨_, member_enroll .., hrole, Or.inl hname⟩
  | unsubscribed => exact ⟨_, member_enroll .., hrole, Or.inl hname⟩
  | quit => exact ⟨m₁, hkept, hrole, Or.inl hname⟩

/-- A deed leaves every role what the member's lines have made it. -/
theorem Told.step (h : Told ds e) (hfresh : ∀ d' ∈ ds, d ≠ .joins d'.conn) :
    Told (ds ++ [d]) (e.step d) := by
  have hother : ∀ k, d.conn ≠ k → sentBy k (ds ++ [d]) = sentBy k ds := by
    intro k hne
    rw [sentBy_append, sentBy_eq_nil (List.forall_mem_singleton.mpr hne), List.append_nil]
  -- Only what the deed makes of its own member is left to show.
  suffices hown : ∀ m, (e.step d).member d.conn = some m →
      m.role = roleOf (sentBy d.conn (ds ++ [d])) ∧ (m.username ≠ [] → m.role = .trader) by
    constructor
    · intro k m hm
      by_cases hk : d.conn = k
      · subst hk
        exact (hown m hm).1
      · rw [step_member_ne hk] at hm
        rw [hother k hk]
        exact h.role k m hm
    · intro k m hm
      by_cases hk : d.conn = k
      · subst hk
        exact (hown m hm).2
      · rw [step_member_ne hk] at hm
        exact h.username k m hm
  intro m hm
  cases d with
  | joins k =>
    have hnew : (e.step (.joins k)).member k = some {} := Function.update_self ..
    obtain rfl := Option.some.inj (hnew.symm.trans hm)
    have hnone : sentBy k ds = [] := sentBy_eq_nil fun d' hd' he => hfresh d' hd' (by rw [he])
    refine ⟨?_, fun hne => absurd rfl hne⟩
    rw [sentBy_append, Deed.conn, hnone]
    rfl
  | sends k line =>
    have hsent : sentBy k (ds ++ [.sends k line]) = sentBy k ds ++ [line] := by
      rw [sentBy_append]
      simp [sentBy]
    rw [Deed.conn, step] at hm
    cases hm₀ : e.member k with
    | none =>
      rw [hm₀] at hm
      cases hm₀.symm.trans hm
    | some m₀ =>
      rw [hm₀] at hm
      obtain ⟨m', hm', hrole, hname⟩ := act_member e k m₀ line
      obtain rfl := Option.some.inj (hm'.symm.trans hm)
      have htold : m'.role = roleOf (sentBy k ds ++ [line]) := by
        rw [hrole, h.role k m₀ hm₀, roleOf_concat]
      rw [Deed.conn, hsent]
      refine ⟨htold, fun hne => ?_⟩
      rcases hname with hsame | htrader
      · have htrader := h.username k m₀ hm₀ (hsame ▸ hne)
        rw [hrole, htrader]
        rfl
      · exact htrader
  | leaves k =>
    have hgone : (e.step (.leaves k)).member k = none := Function.update_self ..
    cases hgone.symm.trans hm

/-- After every orderly run the roles are what the lines have made them. -/
theorem told_run (h : Orderly ds) : Told ds (run step {} ds) := by
  induction ds using List.reverseRecOn with
  | nil =>
    constructor
    · intro k m hm
      cases hm
    · intro k m hm
      cases hm
  | append_singleton ds d ih =>
    obtain ⟨hbefore, -, hfresh⟩ := List.pairwise_append.mp h
    rw [run_append]
    exact (ih hbefore).step fun d' hd' => hfresh d' hd' d (List.mem_singleton.mpr rfl)

/-! ## What observers cannot change -/

/-- The exchanges are the same to all but the observers. -/
structure Alike (Q : Nat → Prop) (e e' : Exchange) : Prop where
  book : e.book = e'.book
  accepted : e.accepted = e'.accepted
  member : ∀ k, ¬ Q k → e.member k = e'.member k
  sent : ∀ k, ¬ Q k → e.sent k = e'.sent k

/-- No observer has a username. -/
def Nameless (Q : Nat → Prop) (e : Exchange) : Prop :=
  ∀ k m, Q k → e.member k = some m → m.username = []

/-- An exchange looks like itself. -/
theorem Alike.refl (Q : Nat → Prop) (e : Exchange) : Alike Q e e :=
  ⟨rfl, rfl, fun _ _ => rfl, fun _ _ => rfl⟩

/-- Looking alike is symmetric. -/
theorem Alike.symm (h : Alike Q e e') : Alike Q e' e :=
  ⟨h.book.symm, h.accepted.symm, fun k hk => (h.member k hk).symm, fun k hk => (h.sent k hk).symm⟩

/-- Looking alike is transitive. -/
theorem Alike.trans {e'' : Exchange} (h : Alike Q e e') (h' : Alike Q e' e'') : Alike Q e e'' :=
  ⟨h.book.trans h'.book, h.accepted.trans h'.accepted,
    fun k hk => (h.member k hk).trans (h'.member k hk),
    fun k hk => (h.sent k hk).trans (h'.sent k hk)⟩

/-- Exchanges stay alike when both enroll a member. -/
theorem Alike.enroll (h : Alike Q e e') (k : Nat) (m : Member) :
    Alike Q (e.enroll k m) (e'.enroll k m) := by
  refine ⟨h.book, h.accepted, fun k' hk' => ?_, h.sent⟩
  by_cases hk : k' = k
  · rw [hk, member_enroll, member_enroll]
  · rw [member_enroll_ne e hk, member_enroll_ne e' hk, h.member k' hk']

/-- Exchanges stay alike when both send a line. -/
theorem Alike.say (h : Alike Q e e') (k : Nat) (line : Bytes) :
    Alike Q (e.say k line) (e'.say k line) := by
  refine ⟨h.book, h.accepted, h.member, fun k' hk' => ?_⟩
  by_cases hk : k' = k
  · subst hk
    rw [sent_say, sent_say, h.sent k' hk']
  · rw [sent_say_ne e hk, sent_say_ne e' hk, h.sent k' hk']

/-- Exchanges stay alike when both place an order. -/
theorem Alike.place (h : Alike Q e e') (k : Nat) (o : Order) :
    Alike Q (e.place k o) (e'.place k o) := by
  have hsaid := h.say k (msgOrderAccepted o.id)
  refine ⟨?_, h.accepted, h.member, fun k' hk' => ?_⟩
  · simp only [Exchange.place, h.book]
  · have hreports : e.reports k' = e'.reports k' := by
      funext f
      rw [reports, reports, h.member k' hk']
    simp only [Exchange.place, h.book, hsaid.sent k' hk', hreports]

/-- Exchanges stay alike when both carry out a decision. -/
theorem Alike.carryOut (h : Alike Q e e') (k : Nat) (m : Member) (d : Decision) :
    Alike Q (e.carryOut k m d) (e'.carryOut k m d) := by
  cases d with
  | rejected reason => exact h.say k _
  | loggedIn name => exact (h.enroll k _).say k _
  | placed side instrument qty price =>
    have hordered : e.ordered k side instrument qty price =
        e'.ordered k side instrument qty price := by
      rw [ordered, ordered, h.book]
    rw [Exchange.carryOut, hordered]
    exact h.place k _
  | cancelled oid =>
    refine Alike.say ?_ k _
    exact ⟨by rw [h.book], h.accepted, h.member, h.sent⟩
  | subscribed instrument => exact (h.enroll k _).say k _
  | unsubscribed instrument => exact (h.enroll k _).say k _
  | quit => exact h

/-- No username is taken by an observer. -/
theorem Alike.taken (h : Alike Q e e') (hq : Nameless Q e) (hq' : Nameless Q e') {name : Bytes}
    (hname : name ≠ []) :
    (e.standing k m).taken name = (e'.standing k m).taken name := by
  have hnone : ∀ {e₀ : Exchange}, Nameless Q e₀ → ∀ k', Q k' →
      (e₀.member k').any (fun m' => m'.username = name) = false := by
    intro e₀ hq₀ k' hk'
    cases hm : e₀.member k' with
    | none => rfl
    | some m' => exact decide_eq_false fun he => hname (he.symm.trans (hq₀ k' m' hk' hm))
  have hholds : ∀ k', (e.member k').any (fun m' => m'.username = name) =
      (e'.member k').any fun m' => m'.username = name := by
    intro k'
    by_cases hk' : Q k'
    · rw [hnone hq k' hk', hnone hq' k' hk']
    · rw [h.member k' hk']
  simp only [standing, hholds, h.accepted]

/-- Enrolling one who is no observer gives no observer a username. -/
theorem Nameless.enroll (hq : Nameless Q e) (hk : ¬ Q k) (m : Member) :
    Nameless Q (e.enroll k m) := by
  intro k' m' hk' hm'
  have hne : k' ≠ k := by
    rintro rfl
    exact hk hk'
  rw [member_enroll_ne e hne] at hm'
  exact hq k' m' hk' hm'

/-- Exchanges stay alike when both act on the same line of one who is no observer. -/
theorem Alike.act (h : Alike Q e e') (hq : Nameless Q e) (hq' : Nameless Q e') (hk : ¬ Q k)
    (m : Member) (line : Bytes) : Alike Q (e.act k m line) (e'.act k m line) := by
  let m₁ := m.inferRole (commandWord line)
  have henrolled := h.enroll k m₁
  have hdecision : ((e.enroll k m₁).standing k m₁).decision line =
      ((e'.enroll k m₁).standing k m₁).decision line := by
    refine Standing.decision_congr rfl rfl ?_ fun name hline => ?_
    · simp only [standing, henrolled.book]
    · have hword : IsWord name := isWord_of_mem_tokenize (arg_mem_tokenize hline)
      exact henrolled.taken (hq.enroll hk m₁) (hq'.enroll hk m₁) hword.nonempty
  rw [act_eq, act_eq, ← hdecision]
  exact henrolled.carryOut k m₁ _

/-- What all others do, and whoever joins, keeps the exchanges alike. -/
theorem Alike.step (h : Alike Q e e') (hq : Nameless Q e) (hq' : Nameless Q e')
    (hd : ¬ Q d.conn ∨ d = .joins d.conn) : Alike Q (e.step d) (e'.step d) := by
  cases d with
  | joins k =>
    refine ⟨h.book, by rw [Exchange.step, Exchange.step, h.accepted], fun k' hk' => ?_, h.sent⟩
    by_cases hk : k' = k
    · simp only [Exchange.step, hk, Function.update_self]
    · simp only [Exchange.step, Function.update_of_ne hk, h.member k' hk']
  | sends k line =>
    have hk : ¬ Q k := hd.resolve_right (by simp)
    rw [Exchange.step, Exchange.step, h.member k hk]
    cases e'.member k with
    | none => exact h
    | some m => exact h.act hq hq' hk m line
  | leaves k =>
    refine ⟨h.book, h.accepted, fun k' hk' => ?_, h.sent⟩
    by_cases hk : k' = k
    · simp only [Exchange.step, hk, Function.update_self]
    · simp only [Exchange.step, Function.update_of_ne hk, h.member k' hk']

/-- Whoever is no trader changes nothing but what is its own. -/
theorem act_observer (hk : Q k) (hrole : m.role.infer (commandWord line) ≠ .trader) :
    Alike Q (e.act k m line) e := by
  let m₁ := m.inferRole (commandWord line)
  have htrader : m₁.role ≠ .trader := by
    rw [role_inferRole]
    exact hrole
  have hne : ∀ k', ¬ Q k' → k' ≠ k := by
    rintro k' hk' rfl
    exact hk' hk
  have hown : ∀ (e₀ : Exchange) (m' : Member), Alike Q (e₀.enroll k m') e₀ := fun e₀ m' =>
    ⟨rfl, rfl, fun k' hk' => member_enroll_ne e₀ (hne k' hk') m', fun _ _ => rfl⟩
  have hsaid : ∀ (e₀ : Exchange) (line' : Bytes), Alike Q (e₀.say k line') e₀ := fun e₀ line' =>
    ⟨rfl, rfl, fun _ _ => rfl, fun k' hk' => sent_say_ne e₀ (hne k' hk') line'⟩
  rw [act_eq]
  refine Alike.trans ?_ (hown e m₁)
  have hjustified := Standing.decision_justified ((e.enroll k m₁).standing k m₁) line
  generalize ((e.enroll k m₁).standing k m₁).decision line = decision at hjustified
  cases hjustified with
  | rejected => exact hsaid _ _
  | loggedIn hline h => exact absurd h htrader
  | placed hline h => exact absurd h htrader
  | cancelled hline h => exact absurd h htrader
  | subscribed => exact (hsaid _ _).trans (hown _ _)
  | unsubscribed => exact (hsaid _ _).trans (hown _ _)
  | quit => exact .refl Q _

/-- What an observer does, once it has joined, is nothing to the others. -/
theorem Told.observer (h : Told ds e) (hk : Q d.conn) (hjoins : d ≠ .joins d.conn)
    (hrole : roleOf (sentBy d.conn (ds ++ [d])) ≠ .trader) : Alike Q (e.step d) e := by
  cases d with
  | joins k => exact absurd rfl hjoins
  | sends k line =>
    rw [Exchange.step]
    cases hm : e.member k with
    | none => exact .refl Q e
    | some m =>
      refine act_observer hk ?_
      have hsent : sentBy k [.sends k line] = [line] := by simp [sentBy]
      rwa [Deed.conn, sentBy_append, hsent, roleOf_concat, ← h.role k m hm] at hrole
  | leaves k =>
    refine ⟨rfl, rfl, fun k' hk' => Function.update_of_ne ?_ .., fun _ _ => rfl⟩
    rintro rfl
    exact hk' hk

private theorem Told.nameless (h : Told ds e) (hrole : ∀ k, Q k → roleOf (sentBy k ds) ≠ .trader) :
    Nameless Q e := by
  intro k m hk hm
  by_contra hne
  exact hrole k hk ((h.role k m hm).symm.trans (h.username k m hm hne))

end Exchange

/-- The deed can be noticed by others than the observers. -/
def Deed.Shows (Q : Nat → Prop) (d : Deed) : Prop := ¬ Q d.conn ∨ d = .joins d.conn

instance (Q : Nat → Prop) [DecidablePred Q] : DecidablePred (Deed.Shows Q) :=
  fun _ => inferInstanceAs (Decidable (_ ∨ _))

/-- A run of deeds is to all others the run without those of observers. -/
theorem Exchange.run_observers {Q : Nat → Prop} [DecidablePred Q] {ds : List Deed} (h : Orderly ds)
    (hrole : ∀ k, Q k → roleOf (sentBy k ds) ≠ .trader) :
    Alike Q (run step {} ds) (run step {} (ds.filter (Deed.Shows Q))) := by
  induction ds using List.reverseRecOn with
  | nil => exact .refl Q _
  | append_singleton ds d ih =>
    obtain ⟨hbefore, -, -⟩ := List.pairwise_append.mp h
    have hrole' : ∀ k, Q k → roleOf (sentBy k ds) ≠ .trader := by
      intro k hk
      have hall := hrole k hk
      rw [sentBy_append] at hall
      exact roleOf_ne_trader hall
    have halike := ih hbefore hrole'
    have htold := told_run hbefore
    rw [run_append, List.filter_append]
    by_cases hshows : d.Shows Q
    · have hkept : [d].filter (Deed.Shows Q) = [d] := by simp [hshows]
      have hsilent : ∀ k, Q k → roleOf (sentBy k (ds.filter (Deed.Shows Q))) ≠ .trader := by
        intro k hk
        have hnone : sentBy k (ds.filter (Deed.Shows Q)) = [] := by
          rw [sentBy, List.filterMap_eq_nil_iff]
          intro d' hd'
          have hshown : d'.Shows Q := of_decide_eq_true (List.mem_filter.mp hd').2
          cases d' with
          | sends k' line =>
            refine if_neg ?_
            rintro rfl
            exact (hshown.resolve_right (by simp)) hk
          | joins k' => rfl
          | leaves k' => rfl
        rw [hnone]
        decide
      rw [hkept, run_append]
      exact halike.step (htold.nameless hrole')
        ((told_run (hbefore.filter _)).nameless hsilent) hshows
    · have hdropped : [d].filter (Deed.Shows Q) = [] := by simp [hshows]
      obtain ⟨hq, hjoins⟩ := not_or.mp hshows
      rw [hdropped, List.append_nil]
      exact (htold.observer (not_not.mp hq) hjoins (hrole _ (not_not.mp hq))).trans halike

namespace Server

variable {s s' s₁ s₂ : Server}

/-- Whoever has not been accepted has done nothing. -/
theorem Reachable.linesFrom_unaccepted (hs : Reachable s) {k : Nat} (hk : s.accepted ≤ k) :
    linesFrom k s.history = [] := by
  obtain ⟨kq, listenFd, sends, actions, rfl⟩ := hs
  induction actions using List.reverseRecOn with
  | nil => rfl
  | append_singleton actions a ih =>
    rw [run_append] at hk ⊢
    have hreachable : Reachable (run act (Server.start kq listenFd sends) actions) :=
      ⟨kq, listenFd, sends, actions, rfl⟩
    generalize run act (Server.start kq listenFd sends) actions = s at hk hreachable ih ⊢
    have hle : s.accepted ≤ k := (act_moves s a).accepted_le.trans hk
    have hclosed : s.connected k = false := by
      rw [← Bool.not_eq_true, hreachable.recorded.connected]
      exact fun hopen => absurd hopen.1 (Nat.not_lt.mpr hle)
    rw [run_cons, run_nil, act_linesFrom_gone hclosed a]
    exact ih hle

/-- Deeds are those of connections that have been accepted. -/
theorem Reachable.deed_accepted (hs : Reachable s) {d : Deed} (hd : d ∈ deeds s.history) :
    d.conn < s.accepted := by
  obtain ⟨o, ho, hdeed⟩ := mem_deeds.mp hd
  cases o with
  | accepted k fd =>
    obtain rfl := Option.some.inj hdeed
    have hmem : k ∈ Server.accepts s.history := List.mem_filterMap.mpr ⟨_, ho, rfl⟩
    rw [hs.accepts] at hmem
    exact List.mem_range.mp hmem
  | received k line =>
    obtain rfl := Option.some.inj hdeed
    by_contra hk
    have hnone : linesFrom k s.history = [] := hs.linesFrom_unaccepted (Nat.not_lt.mp hk)
    have hmem : line ∈ linesFrom k s.history := List.mem_filterMap.mpr ⟨_, ho, by simp⟩
    rw [hnone] at hmem
    cases hmem
  | closed k =>
    obtain rfl := Option.some.inj hdeed
    exact (Reachable.recorded hs).closed k ho
  | _ => cases hdeed

/-- A move that admits nobody leaves no acceptance behind. -/
theorem Reachable.no_joins (hs : Reachable s) (hs' : Reachable s') {obs : List Obs}
    (hhistory : s'.history = s.history ++ obs) (haccepted : s'.accepted = s.accepted) {k : Nat} :
    .joins k ∉ deeds obs := by
  intro hmem
  have hall := hs'.accepts
  rw [hhistory, accepts_append, hs.accepts, haccepted, List.append_right_eq_self] at hall
  obtain ⟨o, ho, hdeed⟩ := mem_deeds.mp hmem
  cases o with
  | accepted k' fd =>
    have hk' : k' ∈ Server.accepts obs := List.mem_filterMap.mpr ⟨_, ho, rfl⟩
    rw [hall] at hk'
    cases hk'
  | received k' line => cases hdeed
  | closed k' => cases hdeed
  | _ => cases hdeed

/-- In every reachable state each client has joined before it did anything else. -/
theorem Reachable.orderly (hs : Reachable s) : Orderly (deeds s.history) := by
  refine hs.view_invariant (P := fun s => Orderly (deeds s.history)) (fun _ _ _ => .nil) ?_
  intro s a hs horderly hmoves
  have hs' : Reachable (s.act a) := hs.reaches (.act s a)
  have hbefore : ∀ {obs : List Obs}, Orderly (deeds obs) →
      (∀ d ∈ deeds s.history, .joins d.conn ∉ deeds obs) → Orderly (deeds (s.history ++ obs)) := by
    intro obs hobs hfresh
    rw [deeds_append]
    refine List.pairwise_append.mpr ⟨horderly, hobs, fun d hd d' hd' he => ?_⟩
    exact hfresh d hd (he ▸ hd')
  rcases hmoves.keeps with ⟨cfd, -, hjoin⟩ | hkeeps
  · have hhistory : (s.act a).view.history = s.history ++ [.accepted s.accepted cfd] :=
      congrArg Server.history hjoin
    rw [hhistory]
    refine hbefore (List.pairwise_singleton ..) fun d hd hmem => ?_
    have hold := hs.deed_accepted hd
    have hnew : d.conn = s.accepted := Deed.joins.inj (List.mem_singleton.mp hmem)
    omega
  · obtain ⟨obs, hhistory, -⟩ := act_effect s a
    have hnone : ∀ k, .joins k ∉ deeds obs := fun k =>
      hs.no_joins hs' hhistory hkeeps.accepted
    have hall : (s.act a).view.history = s.history ++ obs := hhistory
    rw [hall]
    refine hbefore (List.pairwise_of_forall_mem_list fun d _ d' hd' he => ?_) fun d _ => hnone _
    exact hnone d.conn (he ▸ hd')

/-- The server stands for an exchange that is to all others the one without the observers. -/
theorem Reachable.observed (hs : Reachable s) (hacc : s.accepted ≤ 2 ^ 64) {Q : Nat → Prop}
    [DecidablePred Q] (hrole : ∀ k, Q k → roleOf (linesFrom k s.history) ≠ .trader) :
    ∃ e, Simulates s.view e ∧
      e.Alike Q (run Exchange.step {} ((deeds s.history).filter (Deed.Shows Q))) := by
  refine ⟨_, hs.simulates hacc, Exchange.run_observers hs.orderly fun k hk => ?_⟩
  rw [sentBy_deeds]
  exact hrole k hk

/-- In any two runs with at most 2^64 connections each, take any connections that are no traders by
their lines. If the deeds of all others and the order in which everybody joins are the same in both,
then whatever those connections have said and whenever they have left, the two runs end with the
same book but for descriptors, have issued the same ids, have sent the same lines to everybody else,
and everybody else is connected alike. -/
theorem observers_leave_no_trace (hs₁ : Reachable s₁) (hs₂ : Reachable s₂) (Q : Nat → Prop)
    [DecidablePred Q] (hrole₁ : ∀ k, Q k → roleOf (linesFrom k s₁.history) ≠ .trader)
    (hrole₂ : ∀ k, Q k → roleOf (linesFrom k s₂.history) ≠ .trader)
    (hothers : (deeds s₁.history).filter (Deed.Shows Q) =
      (deeds s₂.history).filter (Deed.Shows Q))
    (hacc₁ : s₁.accepted ≤ 2 ^ 64) (hacc₂ : s₂.accepted ≤ 2 ^ 64) :
    s₁.book.nextId_ = s₂.book.nextId_ ∧
      (∀ key, (s₁.book.queue? key).map (List.map (Order.renamed .seqOnly)) =
        (s₂.book.queue? key).map (List.map (Order.renamed .seqOnly))) ∧
      (placedOrders s₁.history).map (·.2.id) = (placedOrders s₂.history).map (·.2.id) ∧
      ∀ k, ¬ Q k → linesTo k s₁.history = linesTo k s₂.history ∧
        s₁.connected k = s₂.connected k := by
  obtain ⟨e₁, h₁, halike₁⟩ := hs₁.observed hacc₁ hrole₁
  obtain ⟨e₂, h₂, halike₂⟩ := hs₂.observed hacc₂ hrole₂
  rw [hothers] at halike₁
  have halike : e₁.Alike Q e₂ := halike₁.trans halike₂.symm
  obtain ⟨hnext, hlevels⟩ := h₁.same_book h₂ halike.book
  refine ⟨hnext, fun key => hs₁.same_queues hs₂ (hlevels key), hs₁.same_ids hs₂ hnext,
    fun k hk => ⟨?_, ?_⟩⟩
  · exact (h₁.sent k).symm.trans ((halike.sent k hk).trans (h₂.sent k))
  · rw [Bool.eq_iff_iff, h₁.connected_iff, h₂.connected_iff, halike.member k hk]

/-- Two traders trade; a third connection subscribes, tries to sell and leaves, or is silent. -/
theorem observers_leave_no_trace_failed_sell :
    let sell : List Action := [.accept 5, .accept 6, .accept 7,
      .feed 5 ⟨text "SELL JNST 5 10\n", by decide, by decide⟩, .line 5]
    let watch : List Action :=
      [.feed 7 ⟨text "SUBSCRIBE JNST\nSELL JNST 5 10\n", by decide, by decide⟩, .line 7, .line 7,
        .hangup 7]
    let buy : List Action := [.feed 6 ⟨text "BUY JNST 9 10\n", by decide, by decide⟩, .line 6]
    let s₁ := run act (start 3 4 []) (sell ++ watch ++ buy)
    let s₂ := run act (start 3 4 []) (sell ++ buy)
    s₁.book.nextId_ = s₂.book.nextId_ ∧ linesTo 1 s₁.history = linesTo 1 s₂.history ∧
      linesTo 2 s₁.history = [msgOk, msgError (text "market-data clients cannot send SELL")] := by
  intro sell watch buy s₁ s₂
  have hrole : ∀ s : Server, roleOf (linesFrom 2 s.history) ≠ .trader →
      ∀ k, k = 2 → roleOf (linesFrom k s.history) ≠ .trader := by
    rintro s h k rfl
    exact h
  have hs₁ : Reachable s₁ := ⟨3, 4, [], _, rfl⟩
  have hs₂ : Reachable s₂ := ⟨3, 4, [], _, rfl⟩
  obtain ⟨hnext, -, -, hlines⟩ := observers_leave_no_trace hs₁ hs₂ (fun k => k = 2)
    (hrole s₁ (by decide)) (hrole s₂ (by decide)) (by decide) (by decide) (by decide)
  exact ⟨hnext, (hlines 1 (by decide)).1, by decide⟩

end Server

end SocketExchange
