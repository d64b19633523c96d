import SocketExchange.Exchange.Machine
import SocketExchange.Library.Runs

/-!
# Leaving the exchange

Forget one member and what it has been sent. Nobody else's deeds make a difference to what
is left that depends on that member, as long as nobody asks for its username; and its own
leaving makes no difference at all.
-/

namespace SocketExchange

open Runs

/-- The deed is at most the member's own leaving. -/
def Deed.Parting : Deed → Prop
  | .joins _ => False
  | .sends _ line => commandWord line = text "QUIT"
  | .leaves _ => True

/-- The deed asks for a username. -/
def Deed.Claims (name : Bytes) : Deed → Prop
  | .sends _ line => tokenize line = [text "LOGIN", name]
  | _ => False

/-- The decision on a line looks at the usernames taken for a LOGIN alone. -/
theorem Standing.decision_congr {st st' : Standing} {line : Bytes} (hrole : st.role = st'.role)
    (hlogged : st.loggedIn = st'.loggedIn) (howns : st.owns = st'.owns)
    (htaken : ∀ name, tokenize line = [text "LOGIN", name] → st.taken name = st'.taken name) :
    st.decision line = st'.decision line := by
  unfold decision
  rcases htokens : tokenize line with _ | ⟨cmd, args⟩
  · rfl
  · dsimp only
    have hlogin : cmd = text "LOGIN" → st.login args = st'.login args := by
      intro hcmd
      rcases args with _ | ⟨name, _ | ⟨_, _⟩⟩
      · rfl
      · have hname := htaken name (htokens.trans (by rw [hcmd]))
        simp only [login, hlogged, hname]
      · rfl
    have hcancel : st.cancel args = st'.cancel args := by
      simp only [cancel, howns]
    unfold command
    rw [hrole, hcancel]
    by_cases hcmd : cmd = text "LOGIN"
    · rw [hlogin hcmd]
    · rw [if_neg hcmd, if_neg hcmd]

/-- A QUIT is a decision to quit, whoever sends it. -/
theorem Standing.decision_quit {st : Standing} {line : Bytes}
    (hword : commandWord line = text "QUIT") : st.decision line = .quit := by
  unfold decision
  rcases htokens : tokenize line with _ | ⟨cmd, args⟩
  · rw [commandWord, htokens] at hword
    exact absurd hword (by decide)
  · rw [commandWord_eq htokens] at hword
    rw [hword]
    rfl

namespace Exchange

variable {e : Exchange} {x k : Nat} {m : Member}

/-- Forget a member and what it has been sent. -/
def without (e : Exchange) (x : Nat) : Exchange :=
  { e with member := Function.update e.member x none, sent := Function.update e.sent x [] }

private theorem member_without (hne : k ≠ x) : (e.without x).member k = e.member k :=
  Function.update_of_ne hne ..

private theorem enroll_without (hne : k ≠ x) (m : Member) :
    (e.enroll k m).without x = (e.without x).enroll k m := by
  simp only [enroll, without, Function.update_comm hne]

private theorem say_without (hne : k ≠ x) (line : Bytes) :
    (e.say k line).without x = (e.without x).say k line := by
  simp only [say, without, Function.update_comm hne, Function.update_of_ne hne]

/-- Nobody else's report of a fill depends on the member. -/
theorem reports_without (hne : k ≠ x) (f : Fill) : (e.without x).reports k f = e.reports k f := by
  simp only [reports, member_without hne]

/-- One who is forgotten is sent nothing. -/
theorem sent_without (e : Exchange) (x : Nat) : (e.without x).sent x = [] :=
  Function.update_self ..

/-- What the others have been sent is as with the one who left. -/
theorem sent_without_ne (hne : k ≠ x) : (e.without x).sent k = e.sent k :=
  Function.update_of_ne hne ..

private theorem reports_forgotten (e : Exchange) (x : Nat) (f : Fill) :
    (e.without x).reports x f = [] := by
  have hgone : (e.without x).member x = none := Function.update_self ..
  simp only [reports, hgone]

/-- Everybody else's order trades alike, and everybody else hears of it alike. -/
theorem place_without (hne : k ≠ x) (o : Order) :
    (e.place k o).without x = (e.without x).place k o := by
  let fills := (({ e.book with nextId_ := e.book.nextId_ + 1 } : Reference).submit o).1
  have hplace : ∀ k', ((e.without x).place k o).sent k' =
      ((e.say k (msgOrderAccepted o.id)).without x).sent k' ++
        fills.flatMap ((e.without x).reports k') := by
    intro k'
    rw [say_without hne]
    rfl
  refine Exchange.ext rfl rfl rfl (funext fun k' => ?_)
  rw [hplace]
  by_cases hk : k' = x
  · have hnone : fills.flatMap ((e.without x).reports k') = [] := by
      rw [hk, List.flatMap_eq_nil_iff]
      exact fun f _ => reports_forgotten e x f
    rw [hnone, List.append_nil, hk, sent_without, sent_without]
  · have hsame : (e.without x).reports k' = e.reports k' := funext (reports_without hk)
    rw [hsame, sent_without_ne hk, sent_without_ne hk]
    rfl

private theorem carryOut_without (hne : k ≠ x) (d : Decision) :
    (e.carryOut k m d).without x = (e.without x).carryOut k m d := by
  cases d with
  | rejected reason => exact say_without hne _
  | loggedIn name => rw [carryOut, say_without hne, enroll_without hne, carryOut]
  | placed side instrument qty price => exact place_without hne _
  | cancelled oid => exact say_without hne _
  | subscribed instrument => rw [carryOut, say_without hne, enroll_without hne, carryOut]
  | unsubscribed instrument => rw [carryOut, say_without hne, enroll_without hne, carryOut]
  | quit => rfl

/-- A username that is not the member's is taken with it or without it. -/
theorem taken_without {name : Bytes} (hother : ∀ m', e.member x = some m' → m'.username ≠ name) :
    ((e.without x).standing k m).taken name = (e.standing k m).taken name := by
  have hholds : ∀ k', ((e.without x).member k').any (fun m' => m'.username = name) =
      (e.member k').any fun m' => m'.username = name := by
    intro k'
    by_cases hk : k' = x
    · have hgone : (e.without x).member x = none := Function.update_self ..
      rw [hk, hgone]
      cases hm : e.member x with
      | none => rfl
      | some m' => exact (decide_eq_false (hother m' hm)).symm
    · rw [member_without hk]
  simp only [standing, hholds]
  rfl

/-- A line of somebody else does the same with the member as without it. -/
theorem act_without (hne : k ≠ x) {line : Bytes}
    (hother : ∀ m', e.member x = some m' → tokenize line ≠ [text "LOGIN", m'.username]) :
    (e.act k m line).without x = (e.without x).act k m line := by
  let m₁ := m.inferRole (commandWord line)
  have henroll := enroll_without (e := e) hne m₁
  have hdecision : ((e.enroll k m₁).standing k m₁).decision line =
      (((e.without x).enroll k m₁).standing k m₁).decision line := by
    refine Standing.decision_congr rfl rfl rfl fun name hline => ?_
    rw [← henroll]
    refine (taken_without fun m' hm' he => ?_).symm
    rw [member_enroll_ne e hne.symm] at hm'
    exact hother m' hm' (he ▸ hline)
  rw [act_eq, act_eq, carryOut_without hne, henroll, hdecision]

/-- Everybody else's deed does the same with the member as without it. -/
theorem step_without {d : Deed} (hne : d.conn ≠ x)
    (hother : ∀ m', e.member x = some m' → ¬ d.Claims m'.username) :
    (e.step d).without x = (e.without x).step d := by
  cases d with
  | joins k =>
    have hk : k ≠ x := hne
    simp only [step, without, Function.update_comm hk]
  | sends k line =>
    have hk : k ≠ x := hne
    rw [step, step, member_without hk]
    cases e.member k with
    | none => rfl
    | some m => exact act_without hk hother
  | leaves k =>
    have hk : k ≠ x := hne
    simp only [step, without, Function.update_comm hk]

/-- A QUIT by itself changes nothing; the member leaves by a deed of its own. -/
theorem act_quit {line : Bytes} (hword : commandWord line = text "QUIT") :
    e.act k m line = e.enroll k (m.inferRole (commandWord line)) := by
  rw [act_eq, Standing.decision_quit hword, carryOut]

/-- The member's own leaving does not show. -/
theorem step_parting {d : Deed} (hown : d.conn = x) (hparts : d.Parting) :
    (e.step d).without x = e.without x := by
  subst hown
  cases d with
  | joins k => exact hparts.elim
  | sends k line =>
    rw [step]
    cases hm : e.member k with
    | none => rfl
    | some m =>
      dsimp only
      rw [act_quit hparts]
      exact Exchange.ext rfl rfl (Function.update_idem ..) rfl
  | leaves k => exact Exchange.ext rfl rfl (Function.update_idem ..) rfl

/-! ## Runs -/

private theorem carryOut_member_ne (hne : k ≠ x) (d : Decision) :
    (e.carryOut k m d).member x = e.member x := by
  cases d with
  | loggedIn name => exact member_enroll_ne e hne.symm _
  | subscribed instrument => exact member_enroll_ne e hne.symm _
  | unsubscribed instrument => exact member_enroll_ne e hne.symm _
  | _ => rfl

/-- A deed of one client changes no other member. -/
theorem step_member_ne {d : Deed} (hne : d.conn ≠ x) : (e.step d).member x = e.member x := by
  cases d with
  | joins k => exact Function.update_of_ne (Ne.symm hne) ..
  | sends k line =>
    rw [step]
    cases e.member k with
    | none => rfl
    | some m =>
      have hk : k ≠ x := hne
      exact (carryOut_member_ne hk _).trans (member_enroll_ne e hk.symm _)
  | leaves k => exact Function.update_of_ne (Ne.symm hne) ..

/-- Inferring a role leaves the username alone. -/
theorem username_inferRole (cmd : Bytes) (m : Member) :
    (m.inferRole cmd).username = m.username := by
  unfold Member.inferRole
  split_ifs <;> rfl

/-- A parting deed gives the member no other username. -/
theorem step_parting_username {d : Deed} (hparts : d.Parting)
    (hm : (e.step d).member d.conn = some m) :
    ∃ m₀, e.member d.conn = some m₀ ∧ m.username = m₀.username := by
  cases d with
  | joins k => exact hparts.elim
  | sends k line =>
    have hconn : (Deed.sends k line).conn = k := rfl
    rw [hconn, step] at hm
    rw [hconn]
    cases hm₀ : e.member k with
    | none =>
      rw [hm₀] at hm
      exact ⟨m, hm₀.symm.trans hm, rfl⟩
    | some m₀ =>
      rw [hm₀] at hm
      dsimp only at hm
      rw [act_quit hparts, member_enroll, Option.some.injEq] at hm
      exact ⟨m₀, rfl, by rw [← hm, username_inferRole]⟩
  | leaves k =>
    have hgone : (e.step (.leaves k)).member k = none := Function.update_self ..
    cases hgone.symm.trans hm

/-- Up to what concerns the member alone, a run in which it at most leaves is a run of the
others, if none of them asks for its username. -/
theorem run_without (name : Bytes) {ds : List Deed}
    (hname : ∀ m, e.member x = some m → m.username = name)
    (hown : ∀ d ∈ ds, d.conn = x → d.Parting) (hothers : ∀ d ∈ ds, d.conn ≠ x → ¬ d.Claims name) :
    (run step e ds).without x = run step (e.without x) (ds.filter fun d => d.conn ≠ x) := by
  refine run_project (f := step) (g := step) (π := fun e => e.without x)
    (fun e : Exchange => ∀ m, e.member x = some m → m.username = name)
    (fun d => (d.conn = x → d.Parting) ∧ (d.conn ≠ x → ¬ d.Claims name)) (fun d => d.conn ≠ x)
    (fun e d hP hok m hm => ?_) (fun e d hP hok hkeep => ?_) (fun e d _ hok hdrop => ?_) hname
    fun d hd => ⟨hown d hd, hothers d hd⟩
  · by_cases hx : d.conn = x
    · subst hx
      obtain ⟨m₀, hm₀, hsame⟩ := step_parting_username (hok.1 rfl) hm
      exact hsame.trans (hP m₀ hm₀)
    · rw [step_member_ne hx] at hm
      exact hP m hm
  · refine step_without hkeep fun m' hm' hclaims => hok.2 hkeep ?_
    rwa [hP m' hm'] at hclaims
  · have hx : d.conn = x := not_not.mp hdrop
    exact step_parting hx (hok.1 hx)

end Exchange

end SocketExchange
