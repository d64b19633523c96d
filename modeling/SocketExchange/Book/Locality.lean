import SocketExchange.Book.Distinct

/-!
# Operations at different prices commute

A submit concerns the two levels of its instrument and price, a cancel the level its order
rests at. What an operation answers and leaves there depends on nothing else, and nothing
else is touched; so two operations at different places may be carried out in either order.
-/

namespace SocketExchange

open Runs

/-- An instrument and a price: the place where two levels face each other. -/
abbrev Place := Bytes × Int

/-- The place of a level, on whichever side it is. -/
def LevelKey.place (k : LevelKey) : Place := (k.instrument, k.price)

namespace OrderBook

/-- The operation is a submit for this place, or a cancel of an order that rests there. -/
def ActsAt (b : OrderBook) (p : Place) : BookOp → Prop
  | .submit o => o.key.place = p
  | .cancel orderId _ _ => ∃ x, b.Rests x ∧ x.id = orderId ∧ x.key.place = p
  | _ => False

/-- The books have the same levels at a place. -/
def AgreeAt (p : Place) (b b' : OrderBook) : Prop := ∀ k, k.place = p → b'.level k = b.level k

variable {b b' : OrderBook} {p p' : Place} {op op' : BookOp}

private theorem Shape.place_of_rests (h : Shape b) {x : Order} {k : LevelKey} (hx : x ∈ b.level k) :
    x.key.place = k.place := by rw [h.filed k x hx]

/-- An order that rests at the place rests in every book that agrees there. -/
theorem AgreeAt.rests (h : AgreeAt p b b') (hb : Shape b) {x : Order} (hx : b.Rests x)
    (hp : x.key.place = p) : b'.Rests x := by
  obtain ⟨k, hx⟩ := hx
  refine ⟨k, ?_⟩
  rw [h k ((hb.place_of_rests hx).symm.trans hp)]
  exact hx

/-- An operation acts at its place in every book that agrees there. -/
theorem ActsAt.agree (hacts : b.ActsAt p op) (hagree : AgreeAt p b b') (hb : Shape b) :
    b'.ActsAt p op := by
  cases op with
  | submit o => exact hacts
  | cancel orderId fd seq =>
    obtain ⟨x, hx, hid, hp⟩ := hacts
    exact ⟨x, hagree.rests hb hx hp, hid, hp⟩
  | nextId => exact hacts
  | removeOrdersOf fd => exact hacts
  | rehash order => exact hacts

/-- An operation touches the levels of its place alone. -/
theorem ActsAt.frame (hacts : b.ActsAt p op) (hb : Shape b) (hd : Distinct b) (hne : p' ≠ p) :
    AgreeAt p' b (b.apply op) := by
  intro k hk
  cases op with
  | submit o =>
    obtain rfl := hacts
    refine level_submit_other b o ?_ ?_
    · rintro rfl
      exact hne hk.symm
    · rintro rfl
      exact hne hk.symm
  | cancel orderId fd seq =>
    obtain ⟨x, ⟨k', hx⟩, rfl, rfl⟩ := hacts
    rw [apply]
    cases hok : (b.cancel x.id fd seq).1 with
    | false => rw [cancel_eq_of_refused hok]
    | true =>
      rw [hd.level_cancel hok, List.filter_eq_self]
      intro y hy
      refine decide_eq_true fun hid => hne ?_
      obtain rfl := hd.unique hx hy hid.symm
      rw [← hk, hb.place_of_rests hy]
  | nextId => exact hacts.elim
  | removeOrdersOf fd => exact hacts.elim
  | rehash order => exact hacts.elim

/-- A submit depends on the two levels of its instrument and price, and changes no other. -/
theorem submit_congr {o : Order} (hown : b'.level o.key = b.level o.key)
    (hopp : b'.level o.key.opposite = b.level o.key.opposite) :
    (b'.submit o).1 = (b.submit o).1 ∧
      ∀ k, b'.level k = b.level k → (b'.submit o).2.level k = (b.submit o).2.level k := by
  have hmatching : b'.matching o = b.matching o := by rw [matching, matching, hopp]
  by_cases hpos : 0 < o.qty
  swap
  · have hnone := Int.not_lt.mp hpos
    rw [submit_of_nonpos _ hnone, submit_of_nonpos _ hnone]
    exact ⟨rfl, fun _ hk => hk⟩
  refine ⟨?_, fun k hk => ?_⟩
  · rw [submit_fills _ hpos, submit_fills _ hpos, hmatching]
  by_cases hk₁ : k = o.key
  · rw [hk₁, level_submit_own b hpos, level_submit_own b' hpos, hmatching, hown]
  by_cases hk₂ : k = o.key.opposite
  · rw [hk₂, level_submit_opposite b hpos, level_submit_opposite b' hpos, hmatching]
  rw [level_submit_other b o hk₁ hk₂, level_submit_other b' o hk₁ hk₂, hk]

/-- What an operation answers, and what it leaves at its place, depends on that place alone. -/
theorem ActsAt.congr (hacts : b.ActsAt p op) (hagree : AgreeAt p b b') (hb : Shape b)
    (hd : Distinct b) (hd' : Distinct b') :
    b'.reply op = b.reply op ∧ AgreeAt p (b.apply op) (b'.apply op) := by
  cases op with
  | submit o =>
    obtain rfl := hacts
    obtain ⟨hfills, hlevels⟩ := submit_congr (hagree o.key rfl) (hagree o.key.opposite rfl)
    exact ⟨congrArg BookReply.fills hfills, fun k hk => hlevels k (hagree k hk)⟩
  | cancel orderId fd seq =>
    obtain ⟨x, hx, rfl, hp⟩ := hacts
    have hx' : b'.Rests x := hagree.rests hb hx hp
    have hreply : (b'.cancel x.id fd seq).1 = (b.cancel x.id fd seq).1 := by
      rw [Bool.eq_iff_iff, hd'.cancel_iff_ownedBy hx', hd.cancel_iff_ownedBy hx]
    refine ⟨congrArg BookReply.cancelled hreply, fun k hk => ?_⟩
    simp only [apply]
    cases hok : (b.cancel x.id fd seq).1 with
    | false => rw [cancel_eq_of_refused hok, cancel_eq_of_refused (hreply.trans hok), hagree k hk]
    | true => rw [hd.level_cancel hok, hd'.level_cancel (hreply.trans hok), hagree k hk]
  | nextId => exact hacts.elim
  | removeOrdersOf fd => exact hacts.elim
  | rehash order => exact hacts.elim

/-- Two operations at different places give the same answers and leave the same queues,
whichever comes first. -/
theorem run_places_commute (ops : List BookOp) (hops : DistinctIds ops) (op₁ op₂ : BookOp)
    (p₁ p₂ : Place) :
    let b := run apply {} ops
    b.ActsAt p₁ op₁ → b.ActsAt p₂ op₂ → b.Fresh op₁ → b.Fresh op₂ → p₁ ≠ p₂ →
      (b.apply op₂).reply op₁ = b.reply op₁ ∧ (b.apply op₁).reply op₂ = b.reply op₂ ∧
      ((b.apply op₁).apply op₂).nextId_ = ((b.apply op₂).apply op₁).nextId_ ∧
      ∀ k, ((b.apply op₁).apply op₂).queue? k = ((b.apply op₂).apply op₁).queue? k := by
  intro b hacts₁ hacts₂ hfresh₁ hfresh₂ hne
  have hb : Shape b := shape_run ops
  have hd : Distinct b := distinct_run hops
  have hb₁ : Shape (b.apply op₁) := hb.apply op₁
  have hb₂ : Shape (b.apply op₂) := hb.apply op₂
  have hd₁ : Distinct (b.apply op₁) := hd.apply hfresh₁
  have hd₂ : Distinct (b.apply op₂) := hd.apply hfresh₂
  -- Each operation finds its place as it was, whether or not the other has come before.
  have hstays₁ : AgreeAt p₁ b (b.apply op₂) := hacts₂.frame hb hd hne
  have hstays₂ : AgreeAt p₂ b (b.apply op₁) := hacts₁.frame hb hd hne.symm
  obtain ⟨hreply₁, hdone₁⟩ := hacts₁.congr hstays₁ hb hd hd₂
  obtain ⟨hreply₂, hdone₂⟩ := hacts₂.congr hstays₂ hb hd hd₁
  have hacts₁' : (b.apply op₂).ActsAt p₁ op₁ := hacts₁.agree hstays₁ hb
  have hacts₂' : (b.apply op₁).ActsAt p₂ op₂ := hacts₂.agree hstays₂ hb
  refine ⟨hreply₁, hreply₂, ?_, fun k => ?_⟩
  · simp only [apply_nextId_]
    omega
  rw [(hb₁.apply op₂).queue?_eq_stored, (hb₂.apply op₁).queue?_eq_stored]
  by_cases hk₁ : k.place = p₁
  · rw [hacts₂'.frame hb₁ hd₁ hne k hk₁, hdone₁ k hk₁]
  by_cases hk₂ : k.place = p₂
  · rw [hacts₁'.frame hb₂ hd₂ hne.symm k hk₂, hdone₂ k hk₂]
  rw [hacts₂'.frame hb₁ hd₁ hk₂ k rfl, hacts₁.frame hb hd hk₁ k rfl,
    hacts₁'.frame hb₂ hd₂ hk₁ k rfl, hacts₂.frame hb hd hk₂ k rfl]

/-- A SELL that sweeps one price, and a cancel at another. -/
theorem run_places_commute_sweep_cancel :
    let ops : List BookOp :=
      [.submit ⟨0, .buy, text "JNST", 100, 50, 7, 1⟩, .submit ⟨1, .buy, text "JNST", 30, 51, 8, 2⟩]
    let sell : BookOp := .submit ⟨2, .sell, text "JNST", 40, 51, 9, 3⟩
    let cancel : BookOp := .cancel 0 7 1
    let b := run apply {} ops
    (b.apply cancel).reply sell = b.reply sell ∧ (b.apply sell).reply cancel = b.reply cancel ∧
      ((b.apply sell).apply cancel).nextId_ = ((b.apply cancel).apply sell).nextId_ ∧
      ∀ k, ((b.apply sell).apply cancel).queue? k = ((b.apply cancel).apply sell).queue? k := by
  intro ops sell cancel b
  have hops : DistinctIds ops := by decide
  have hacts₁ : (run apply {} ops).ActsAt (text "JNST", 51) sell := rfl
  have hrests : (⟨0, .buy, text "JNST", 100, 50, 7, 1⟩ : Order) ∈
      (run apply {} ops).level ⟨text "JNST", .buy, 50⟩ := by decide
  have hacts₂ : (run apply {} ops).ActsAt (text "JNST", 50) cancel :=
    ⟨_, ⟨_, hrests⟩, rfl, rfl⟩
  have hnew : 2 ∉ submittedIds ops := by decide
  have hfresh₁ : (run apply {} ops).Fresh sell := by
    intro o ho x hx hid
    obtain rfl := BookOp.submit.inj ho
    have hmem := submitted_of_rests_run hx
    rw [hid] at hmem
    exact hnew hmem
  have hfresh₂ : (run apply {} ops).Fresh cancel := fun o ho => BookOp.noConfusion ho
  have hne : ((text "JNST", 51) : Place) ≠ (text "JNST", 50) := by decide
  with_reducible exact run_places_commute ops hops sell cancel _ _ hacts₁ hacts₂ hfresh₁ hfresh₂ hne

end OrderBook

end SocketExchange
