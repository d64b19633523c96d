import Mathlib.Algebra.BigOperators.Group.List.Basic
import Mathlib.Data.List.Basic

/-!
# Runs of deterministic machines

A machine is a step function from a state and an input to the next state; what
it answers is a second function of the same arguments. A run folds the step over
a list of inputs. The rules here carry a fact from one step to a whole run: an
invariant, a preorder between the two ends, a balance of what comes in against what
goes out, and a relation between the states of two machines fed with the same inputs,
for all runs or for those whose inputs are admissible where they are taken.
-/

namespace Runs

universe u v w x

variable {σ : Type u} {τ : Type v} {ι : Type w} {ω : Type x}

/-- The state after a list of inputs. -/
def run (step : σ → ι → σ) (s : σ) (is : List ι) : σ := is.foldl step s

/-- What the machine answers along a list of inputs. -/
def outputs (step : σ → ι → σ) (out : σ → ι → ω) : σ → List ι → List ω
  | _, [] => []
  | s, i :: is => out s i :: outputs step out (step s i) is

/-- Every input is admissible in the state that takes it. -/
def Admissible (ok : σ → ι → Prop) (step : σ → ι → σ) : σ → List ι → Prop
  | _, [] => True
  | s, i :: is => ok s i ∧ Admissible ok step (step s i) is

instance Admissible.decidable {ok : σ → ι → Prop} [∀ s i, Decidable (ok s i)]
    {step : σ → ι → σ} : ∀ (s : σ) (is : List ι), Decidable (Admissible ok step s is)
  | _, [] => .isTrue trivial
  | s, i :: is =>
    have : Decidable (Admissible ok step (step s i) is) := Admissible.decidable (step s i) is
    inferInstanceAs (Decidable (_ ∧ _))

/-- Two machines that take the same inputs, side by side. -/
def both (f : σ → ι → σ) (g : τ → ι → τ) (p : σ × τ) (i : ι) : σ × τ := (f p.1 i, g p.2 i)

section Run

variable {step : σ → ι → σ} {s : σ} {is js : List ι}

@[simp] theorem run_nil : run step s [] = s := rfl

@[simp] theorem run_cons {i : ι} : run step s (i :: is) = run step (step s i) is := rfl

/-- A run goes on from where its first part ends. -/
theorem run_append : run step s (is ++ js) = run step (run step s is) js := List.foldl_append ..

/-- Rewriting each answer rewrites the list of answers. -/
theorem outputs_map {α : Type*} (h : ω → α) {out : σ → ι → ω} :
    outputs step (fun s i => h (out s i)) s is = (outputs step out s is).map h := by
  induction is generalizing s with
  | nil => rfl
  | cons i is ih => simp only [outputs, ih, List.map_cons]

/-- Translating the inputs is running the machine that translates them itself. -/
theorem run_map {κ : Type*} (m : κ → ι) (ks : List κ) :
    run step s (ks.map m) = run (fun s k => step s (m k)) s ks := List.foldl_map ..

/-- Translating the inputs of a run is translating each as it is read. -/
theorem outputs_map_inputs {κ : Type*} (m : κ → ι) {out : σ → ι → ω} {ks : List κ} :
    outputs step out s (ks.map m) =
      outputs (fun s k => step s (m k)) (fun s k => out s (m k)) s ks := by
  induction ks generalizing s with
  | nil => rfl
  | cons k ks ih => simp only [outputs, List.map_cons, ih]

/-- Answers that depend on the input alone. -/
theorem outputs_of_input {out : ι → ω} : outputs step (fun _ => out) s is = is.map out := by
  induction is generalizing s with
  | nil => rfl
  | cons i is ih => simp only [outputs, ih, List.map_cons]

/-- The sum of two measures over a run is the sum of their sums. -/
theorem sum_outputs_add {M : Type*} [AddCommMonoid M] {f g : σ → ι → M} :
    (outputs step (fun s i => f s i + g s i) s is).sum =
      (outputs step f s is).sum + (outputs step g s is).sum := by
  induction is generalizing s with
  | nil => exact (add_zero 0).symm
  | cons i is ih => simp only [outputs, List.sum_cons, ih, add_add_add_comm]

/-- Every answer of a run is given in a state on its way. -/
theorem mem_outputs {out : σ → ι → ω} {a : ω} :
    a ∈ outputs step out s is ↔
      ∃ done i todo, is = done ++ i :: todo ∧ a = out (run step s done) i := by
  induction is generalizing s with
  | nil => simp only [outputs, List.not_mem_nil, List.nil_eq_append_iff, reduceCtorEq, and_false,
      false_and, exists_false]
  | cons i is ih =>
    rw [outputs, List.mem_cons, ih]
    constructor
    · rintro (rfl | ⟨done, j, todo, rfl, rfl⟩)
      · exact ⟨[], i, is, rfl, rfl⟩
      · exact ⟨i :: done, j, todo, rfl, rfl⟩
    · rintro ⟨done, j, todo, heq, rfl⟩
      cases done with
      | nil =>
        obtain ⟨rfl, rfl⟩ := List.cons.inj heq
        exact Or.inl rfl
      | cons k done =>
        obtain ⟨rfl, rfl⟩ := List.cons.inj heq
        exact Or.inr ⟨done, j, todo, rfl, rfl⟩

/-- A property that one step preserves holds after every run. -/
theorem run_invariant {P : σ → Prop} (hstep : ∀ s i, P s → P (step s i)) (h : P s)
    (is : List ι) : P (run step s is) := by
  induction is generalizing s with
  | nil => exact h
  | cons i is ih => exact ih (hstep s i h)

/-- A preorder that one step respects relates the two ends of every run. -/
theorem run_preorder {r : σ → σ → Prop} (hrefl : ∀ s, r s s)
    (htrans : ∀ {a b c}, r a b → r b c → r a c) (hstep : ∀ s i, r s (step s i)) (s : σ)
    (is : List ι) : r s (run step s is) := by
  induction is generalizing s with
  | nil => exact hrefl s
  | cons i is ih => exact htrans (hstep s i) (ih (step s i))

end Run

section Admissible

variable {ok : σ → ι → Prop} {step : σ → ι → σ} {s : σ}

/-- A run is admissible when its first part is, and the rest from where that ends. -/
theorem admissible_append {is js : List ι} :
    Admissible ok step s (is ++ js) ↔
      Admissible ok step s is ∧ Admissible ok step (run step s is) js := by
  induction is generalizing s with
  | nil => simp only [List.nil_append, Admissible, run_nil, true_and]
  | cons i is ih => simp only [List.cons_append, Admissible, ih, run_cons, and_assoc]

/-- A demand on the inputs alone may be joined to a guard. -/
theorem admissible_and {p : ι → Prop} {is : List ι} :
    Admissible (fun s i => ok s i ∧ p i) step s is ↔ Admissible ok step s is ∧ ∀ i ∈ is, p i := by
  induction is generalizing s with
  | nil => simp only [Admissible, List.not_mem_nil, false_imp_iff, implies_true, and_self]
  | cons i is ih =>
    simp only [Admissible, ih, List.forall_mem_cons]
    exact ⟨fun ⟨⟨a, b⟩, c, d⟩ => ⟨⟨a, c⟩, b, d⟩, fun ⟨⟨a, c⟩, b, d⟩ => ⟨⟨a, b⟩, c, d⟩⟩

/-- What a weaker condition admits includes what a stronger one does. -/
theorem admissible_mono {ok' : σ → ι → Prop} (himp : ∀ s i, ok s i → ok' s i) {is : List ι}
    (his : Admissible ok step s is) : Admissible ok' step s is := by
  induction is generalizing s with
  | nil => exact his
  | cons i is ih => exact ⟨himp s i his.1, ih his.2⟩

/-- Two guards make one. -/
theorem admissible_guards {ok' : σ → ι → Prop} {is : List ι} :
    Admissible (fun s i => ok s i ∧ ok' s i) step s is ↔
      Admissible ok step s is ∧ Admissible ok' step s is := by
  induction is generalizing s with
  | nil => simp only [Admissible, and_self]
  | cons i is ih =>
    simp only [Admissible, ih]
    exact and_and_and_comm

/-- The invariant rule under a guard on the inputs. -/
theorem admissible_invariant {P : σ → Prop} (hstep : ∀ s i, P s → ok s i → P (step s i))
    (h : P s) {is : List ι} (his : Admissible ok step s is) : P (run step s is) := by
  induction is generalizing s with
  | nil => exact h
  | cons i is ih => exact ih (hstep s i h his.1) his.2

/-- If one step turns what comes in and the stock it finds into what goes out and the
stock it leaves, then so does a whole run. -/
theorem admissible_balance {M : Type*} [AddCommMonoid M] {P : σ → Prop} (stock : σ → M)
    (gain loss : σ → ι → M) (hinv : ∀ s i, P s → ok s i → P (step s i))
    (hstep : ∀ s i, P s → ok s i → gain s i + stock s = loss s i + stock (step s i))
    (h : P s) {is : List ι} (his : Admissible ok step s is) :
    (outputs step gain s is).sum + stock s =
      (outputs step loss s is).sum + stock (run step s is) := by
  induction is generalizing s with
  | nil => rfl
  | cons i is ih =>
    have htail := ih (hinv s i h his.1) his.2
    simp only [outputs, List.sum_cons, run_cons]
    calc gain s i + (outputs step gain (step s i) is).sum + stock s
        = (outputs step gain (step s i) is).sum + (gain s i + stock s) := by
          rw [add_comm (gain s i), add_assoc]
      _ = loss s i + ((outputs step gain (step s i) is).sum + stock (step s i)) := by
          rw [hstep s i h his.1, add_left_comm]
      _ = loss s i + (outputs step loss (step s i) is).sum + stock (run step (step s i) is) := by
          rw [htail, add_assoc]

end Admissible

section Both

variable {f : σ → ι → σ} {g : τ → ι → τ} {s : σ} {t : τ}

/-- Side by side, each machine makes its own run. -/
theorem run_both (is : List ι) : run (both f g) (s, t) is = (run f s is, run g t is) := by
  induction is generalizing s t with
  | nil => rfl
  | cons i is ih => exact ih

/-- What one of the two answers is what it answers alone. -/
theorem outputs_both (out : σ → ι → ω) (is : List ι) :
    outputs (both f g) (fun p => out p.1) (s, t) is = outputs f out s is := by
  induction is generalizing s t with
  | nil => rfl
  | cons i is ih => exact congrArg (out s i :: ·) ih

/-- A guard that reads one of the two machines needs only that machine's run. -/
theorem admissible_both {ok : τ → ι → Prop} {is : List ι} :
    Admissible (fun p : σ × τ => ok p.2) (both f g) (s, t) is ↔ Admissible ok g t is := by
  induction is generalizing s t with
  | nil => exact Iff.rfl
  | cons i is ih => exact and_congr_right fun _ => ih

/-- A relation that one step of both machines preserves, and under which they
answer alike, survives every run with equal answers. -/
theorem simulation {R : σ → τ → Prop} {ok : τ → ι → Prop} (out : σ → ι → ω) (out' : τ → ι → ω)
    (hstep : ∀ s t i, R s t → ok t i → R (f s i) (g t i))
    (hout : ∀ s t i, R s t → ok t i → out s i = out' t i)
    (h : R s t) {is : List ι} (his : Admissible ok g t is) :
    R (run f s is) (run g t is) ∧ outputs f out s is = outputs g out' t is := by
  induction is generalizing s t with
  | nil => exact ⟨h, rfl⟩
  | cons i is ih =>
    obtain ⟨hrel, heq⟩ := ih (hstep s t i h his.1) his.2
    exact ⟨hrel, by simp only [outputs, hout s t i h his.1, heq]⟩

end Both

section Projection

variable {f : σ → ι → σ} {g : τ → ι → τ} {π : σ → τ}

/-- If the inputs that are kept act on what is seen of a state, and the others do not show, then
what is seen after a run is the run of the inputs that are kept. -/
theorem run_project (P : σ → Prop) (ok keep : ι → Prop) [DecidablePred keep]
    (hinv : ∀ s i, P s → ok i → P (f s i))
    (hkeep : ∀ s i, P s → ok i → keep i → π (f s i) = g (π s) i)
    (hdrop : ∀ s i, P s → ok i → ¬ keep i → π (f s i) = π s) {s : σ} (h : P s) {is : List ι}
    (his : ∀ i ∈ is, ok i) : π (run f s is) = run g (π s) (is.filter keep) := by
  induction is generalizing s with
  | nil => rfl
  | cons i is ih =>
    obtain ⟨hi, his⟩ := List.forall_mem_cons.mp his
    rw [run_cons, ih (hinv s i h hi) his]
    rw [List.filter_cons]
    by_cases hkept : keep i
    · rw [if_pos (decide_eq_true hkept), run_cons, hkeep s i h hi hkept]
    · rw [if_neg fun hyes => hkept (of_decide_eq_true hyes), hdrop s i h hi hkept]

end Projection

section Stuttering

variable {κ : Type*} {f : σ → ι → σ} {R : σ → σ → Prop}

/-- If inputs that are kept and look alike keep two states related, and the others do so on either
side, then runs whose kept inputs look alike end in related states. -/
theorem run_stutter {keep : ι → Bool} {look : ι → κ}
    (hkeep : ∀ s t i j, R s t → keep i = true → look i = look j → R (f s i) (f t j))
    (hdrop : ∀ s t i, R s t → keep i = false → R (f s i) t)
    (hdrop' : ∀ s t j, R s t → keep j = false → R s (f t j)) {s t : σ} (h : R s t)
    {is js : List ι} (hsame : (is.filter keep).map look = (js.filter keep).map look) :
    R (run f s is) (run f t js) := by
  induction is generalizing s t js with
  | nil =>
    -- Nothing is kept on the other side either.
    induction js generalizing t with
    | nil => exact h
    | cons j js ih =>
      rw [List.filter_cons] at hsame
      split at hsame
      · cases hsame
      · rename_i hj
        exact ih (hdrop' s t j h (Bool.eq_false_iff.mpr hj)) hsame
  | cons i is ih =>
    rw [List.filter_cons] at hsame
    split at hsame
    swap
    · rename_i hi
      exact ih (hdrop s t i h (Bool.eq_false_iff.mpr hi)) hsame
    rename_i hi
    -- The other side drops inputs until it comes to the one that looks like this one.
    induction js generalizing t with
    | nil => cases hsame
    | cons j js ihj =>
      rw [List.filter_cons (x := j)] at hsame
      split at hsame
      · obtain ⟨hlook, hrest⟩ := List.cons.inj hsame
        exact ih (hkeep s t i j h hi hlook) hrest
      · rename_i hj
        exact ihj (hdrop' s t j h (Bool.eq_false_iff.mpr hj)) hsame

end Stuttering

end Runs
