import SocketExchange.Service.Obedience

/-!
# What leaves a connection unheard

Accepting, closing, flushing and rearranging act on no line. They leave the lines of
every connection as they are, and the unconsumed input of every session that stays; a
session that is new has none.
-/

namespace SocketExchange

open Containers ClientSession Runs

namespace Server

variable {s s' s'' : Server} {k : Nat}

/-- From one state to the other no line of the connection has been acted on, and its unconsumed
input is the same, if it has a session still; if it has one only now, there is no input. -/
structure Unheard (k : Nat) (s s' : Server) : Prop where
  lines : linesFrom k s'.history = linesFrom k s.history
  input : ∀ fd b, s'.input fd = some (k, b) → s.input fd = some (k, b) ∨ (s.accepted ≤ k ∧ b = {})
  accepted : s.accepted ≤ s'.accepted

/-- Nothing is heard by doing nothing. -/
theorem Unheard.refl (k : Nat) (s : Server) : Unheard k s s := ⟨rfl, fun _ _ => Or.inl, le_rfl⟩

/-- Two steps that do not hear a connection do not hear it together. -/
theorem Unheard.trans (h : Unheard k s s') (h' : Unheard k s' s'') : Unheard k s s'' where
  lines := h'.lines.trans h.lines
  input fd b hb := by
    rcases h'.input fd b hb with hbefore | ⟨hle, hnew⟩
    · exact h.input fd b hbefore
    · exact Or.inr ⟨h.accepted.trans hle, hnew⟩
  accepted := h.accepted.trans h'.accepted

/-- What is unheard shows in the view. -/
theorem Unheard.of_view (h : Unheard k s.view s'.view) : Unheard k s s' where
  lines := h.lines
  input fd b hb := by
    rw [← input_view] at hb ⊢
    exact h.input fd b hb
  accepted := h.accepted

private theorem unheard_log (k : Nat) (s : Server) {obs : List Obs}
    (hobs : ∀ line, .received k line ∉ obs) : Unheard k s (s.log obs) where
  lines := linesFrom_append_nil _ hobs
  input _ _ := Or.inl
  accepted := le_rfl

private theorem unheard_forget (k : Nat) (s : Server) (fd : Int) : Unheard k s (s.forget fd) where
  lines := by
    obtain ⟨obs, hhistory, hobs⟩ := s.forget_entries fd
    rw [hhistory]
    refine linesFrom_append_nil _ fun line hmem => ?_
    obtain ⟨_, he⟩ := hobs _ hmem
    cases he
  input fd' b hb := by
    by_cases hfd : fd' = fd
    · subst hfd
      unfold forget at hb
      cases hc : s.sessions.lookup fd' with
      | none =>
        rw [hc] at hb
        exact Or.inl hb
      | some c =>
        rw [hc, input_eq_some] at hb
        obtain ⟨c', hc', -⟩ := hb
        rw [lookup_log, eraseSession, AList.lookup_erase] at hc'
        cases hc'
    · rw [input_forget_ne s hfd] at hb
      exact Or.inl hb
  accepted := (keeps_forget s fd).accepted.ge

/-- Closing a session hears nothing. -/
theorem unheard_closeSession (k : Nat) (s : Server) (fd : Int) :
    Unheard k s (s.closeSession fd) := by
  apply Unheard.of_view
  rw [view_closeSession]
  exact unheard_forget k s.view fd

/-- Hanging up hears nothing. -/
theorem unheard_hangup (k : Nat) (s : Server) (fd : Int) : Unheard k s (s.hangup fd) := by
  unfold hangup
  cases s.sessions.lookup fd with
  | none => exact .refl k s
  | some c => exact (unheard_log k s (by simp)).trans (unheard_closeSession k _ fd)

/-- Flushing hears nothing. -/
theorem unheard_onWritable (k : Nat) (s : Server) (fd : Int) :
    Unheard k s (s.onWritable fd) := by
  apply Unheard.of_view
  rcases s.view_onWritable fd with hsame | ⟨c, -, hclosed⟩
  · rw [hsame]
    exact .refl k _
  · rw [hclosed]
    exact (unheard_log k _ (by simp)).trans (unheard_forget k _ fd)

/-- Rehashing hears nothing. -/
theorem unheard_rehash (k : Nat) (s : Server) (sessionOrder : List Int) (bookOrder : List Bytes) :
    Unheard k s (s.rehash sessionOrder bookOrder) where
  lines := rfl
  input fd b hb := by
    rw [input, rehash, UnorderedMap.lookup_reorder] at hb
    exact Or.inl hb
  accepted := le_rfl

/-- A new session has no input yet. -/
theorem unheard_join (k : Nat) (s : Server) (cfd : Int) : Unheard k s (s.join cfd) where
  lines := linesFrom_append_nil _ (by simp)
  input fd b hb := by
    obtain ⟨c, hc, hconn, hinbuf⟩ := input_eq_some.mp hb
    by_cases hfd : fd = cfd
    · rw [hfd, join, AList.lookup_insert] at hc
      obtain rfl := Option.some.inj hc
      exact Or.inr ⟨hconn.le, hinbuf.symm⟩
    · rw [join, AList.lookup_insert_ne hfd] at hc
      exact Or.inl (input_eq_some.mpr ⟨c, hc, hconn, hinbuf⟩)
  accepted := Nat.le_succ _

/-- Accepting a connection hears nothing. -/
theorem unheard_accept (k : Nat) (s : Server) (cfd : Int) :
    Unheard k s (s.act (.accept cfd)) := by
  rw [act]
  split
  · rename_i hfree
    apply Unheard.of_view
    rw [view_openSession hfree]
    exact unheard_join k s.view cfd
  · exact .refl k s

/-- Accepting several connections hears nothing. -/
theorem unheard_acceptNew (k : Nat) (results : List AcceptResult) (s : Server) :
    Unheard k s (s.acceptNew results) := by
  induction results generalizing s with
  | nil => exact .refl k s
  | cons result results ih =>
    cases result with
    | accepted cfd =>
      have hopen := unheard_accept k s cfd
      rw [act] at hopen
      rw [acceptNew]
      split
      · rename_i hfree
        rw [if_pos hfree] at hopen
        exact hopen.trans (ih _)
      · exact ih s
    | again => exact .refl k s
    | eintr => exact ih s
    | aborted => exact ih s
    | failed => exact .refl k s

end Server

end SocketExchange
