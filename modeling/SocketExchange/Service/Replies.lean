import Mathlib.Data.List.Forall2
import SocketExchange.Service.Lines
import SocketExchange.Service.Outcomes

/-!
# Requests and replies

A client tells by position alone which reply belongs to which request. Leaving aside the
reports that other clients may cause, the lines enqueued to a connection are the replies
to its own lines, one for each and in their order.
-/

namespace SocketExchange

open Containers ClientSession Runs List

/-- The words that begin the lines a client has not asked for. -/
def reportWords : List Bytes := [text "BOUGHT", text "SOLD", text "TRADE"]

/-- The lines enqueued to a connection, reports and trades left out. -/
def directLines (k : Nat) : List Obs → List Bytes :=
  linesWhere fun k' line => k' = k && firstWord line ∉ reportWords

/-- The lines of a connection that have been handled, QUIT left out. -/
def requests (k : Nat) (history : List Obs) : List Bytes :=
  history.filterMap fun
    | .received k' line => if k' = k ∧ commandWord line ≠ text "QUIT" then some line else none
    | _ => none

/-- The reply is one that the line can be given. -/
def Answers (line reply : Bytes) : Prop :=
  (firstWord reply = text "OK" ∧
      commandWord line ∈ [text "LOGIN", text "SUBSCRIBE", text "UNSUBSCRIBE"]) ∨
    (firstWord reply = text "ORDER_ACCEPTED" ∧ commandWord line ∈ [text "BUY", text "SELL"]) ∨
    (firstWord reply = text "ORDER_CANCELLED" ∧ commandWord line = text "CANCEL") ∨
    firstWord reply = text "ERROR"

/-- The requests and the direct lines of a connection pair up. -/
def Aligned (k : Nat) (obs : List Obs) : Prop :=
  Forall₂ Answers (requests k obs) (directLines k obs)

/-- The requests of two histories, one after the other. -/
theorem requests_append (k : Nat) (h h' : List Obs) :
    requests k (h ++ h') = requests k h ++ requests k h' := filterMap_append ..

/-- Two aligned histories are aligned, one after the other. -/
theorem Aligned.append {k : Nat} {obs obs' : List Obs} (h : Aligned k obs) (h' : Aligned k obs') :
    Aligned k (obs ++ obs') := by
  rw [Aligned, requests_append, directLines, linesWhere_append]
  exact rel_append h h'

/-- An answer is no report. -/
theorem Answers.not_report {line reply : Bytes} (h : Answers line reply) :
    firstWord reply ∉ reportWords := by
  rcases h with ⟨h, -⟩ | ⟨h, -⟩ | ⟨h, -⟩ | h <;> rw [h] <;> decide

/-- A received line is a request of its connection, unless it is QUIT. -/
theorem requests_received (k c : Nat) (line : Bytes) :
    requests k [.received c line] =
      if c = k ∧ commandWord line ≠ text "QUIT" then [line] else [] := by
  simp only [requests, filterMap_cons]
  split_ifs <;> rfl

/-- Entries that receive nothing hold no request. -/
theorem requests_eq_nil {k : Nat} {obs : List Obs} (h : ∀ c line, .received c line ∉ obs) :
    requests k obs = [] := by
  rw [requests, filterMap_eq_nil_iff]
  intro o ho
  cases o with
  | received c line => exact absurd ho (h c line)
  | _ => rfl

/-- Entries that neither take a line nor enqueue one. -/
theorem aligned_of_silent {k : Nat} {obs : List Obs} (hreceived : ∀ c line, .received c line ∉ obs)
    (henqueued : ∀ c line, .enqueued c line ∉ obs) : Aligned k obs := by
  have hnone : directLines k obs = [] :=
    linesWhere_eq_nil fun c line hmem => absurd hmem (henqueued c line)
  rw [Aligned, requests_eq_nil hreceived, hnone]
  exact .nil

/-- A request and, among entries that are no requests, one answer to it. -/
theorem aligned_answer {line reply : Bytes} {c : Nat} {obs : List Obs} (h : Answers line reply)
    (hword : commandWord line ≠ text "QUIT") {k : Nat} (hrequests : requests k obs = [])
    (hdirect : directLines k obs = directLines k [.enqueued c reply]) :
    Aligned k (.received c line :: obs) := by
  have hskip : directLines k (.received c line :: obs) = directLines k obs := rfl
  have hreply : directLines k [.enqueued c reply] = if c = k then [reply] else [] := by
    rw [directLines, linesWhere_enqueued]
    simp only [h.not_report, not_false_eq_true, decide_true, Bool.and_true, decide_eq_true_eq]
  rw [Aligned, hskip, hdirect, hreply, ← singleton_append, requests_append, hrequests,
    requests_received, append_nil]
  by_cases hk : c = k
  · rw [if_pos hk, if_pos ⟨hk, hword⟩]
    exact .cons h .nil
  · rw [if_neg hk, if_neg fun h => hk h.1]
    exact .nil

namespace Server

variable {s s' : Server} {fd : Int} {c : ClientSession} {line : Bytes} {a : Action}

/-- The entries of fills hold neither requests nor direct lines. -/
private theorem fillVoices_aside (k : Nat) (fills : List Fill) :
    requests k (fills.flatMap s.fillVoice) = [] ∧
      directLines k (fills.flatMap s.fillVoice) = [] := by
  refine ⟨requests_eq_nil fun c line hmem => ?_, linesWhere_fillVoices (fun k' line h => ?_) fills⟩
  · obtain ⟨f, -, hmem⟩ := mem_flatMap.mp hmem
    rcases mem_fillVoice hmem with h | ⟨_, _, h⟩ | ⟨_, h⟩ <;> cases h
  · exact of_decide_eq_true (Bool.and_eq_true_iff.mp h).2

/-- Every line but QUIT is given one direct answer, and QUIT none. -/
theorem Handled.aligned {r : Server × Bool} (h : Handled s fd c line r) (k : Nat) :
    ∃ obs, r.1.history = s.history ++ obs ∧ Aligned k (.received c.conn line :: obs) := by
  have hok : ∀ {cmd args}, tokenize line = cmd :: args →
      cmd ∈ [text "LOGIN", text "SUBSCRIBE", text "UNSUBSCRIBE"] →
      Answers line msgOk ∧ commandWord line ≠ text "QUIT" := by
    intro cmd args hline hcmd
    rw [← commandWord_eq hline] at hcmd
    refine ⟨Or.inl ⟨rfl, hcmd⟩, fun hquit => ?_⟩
    rw [hquit] at hcmd
    exact absurd hcmd (by decide)
  cases h with
  | rejected reason hword =>
    exact ⟨_, rfl, aligned_answer (Or.inr (Or.inr (Or.inr rfl))) hword rfl rfl⟩
  | loggedIn hline =>
    obtain ⟨hanswers, hword⟩ := hok hline (by decide)
    exact ⟨_, rfl, aligned_answer hanswers hword rfl rfl⟩
  | @placed side instrument quantity limit qty price hline =>
    have hword := commandWord_eq hline
    obtain ⟨hrequests, hdirect⟩ := s.fillVoices_aside k (s.drawn.submit
      ⟨s.book.nextId_, side, instrument, qty, price, c.fd, c.sessionSeq⟩).1
    have hanswers : Answers line (msgOrderAccepted s.book.nextId_) := by
      refine Or.inr (Or.inl ⟨rfl, ?_⟩)
      rw [hword]
      cases side <;> decide
    refine ⟨_, rfl, aligned_answer hanswers ?_ ?_ ?_⟩
    · rw [hword]
      cases side <;> decide
    · rw [requests_append, hrequests]
      rfl
    · rw [directLines, linesWhere_append, ← directLines, hdirect, append_nil]
      rfl
  | cancelled hline =>
    have hword := commandWord_eq hline
    refine ⟨_, rfl, aligned_answer (Or.inr (Or.inr (Or.inl ⟨rfl, hword⟩))) ?_ rfl rfl⟩
    rw [hword]
    decide
  | subscribed hline =>
    obtain ⟨hanswers, hword⟩ := hok hline (by decide)
    exact ⟨_, rfl, aligned_answer hanswers hword rfl rfl⟩
  | unsubscribed hline =>
    obtain ⟨hanswers, hword⟩ := hok hline (by decide)
    exact ⟨_, rfl, aligned_answer hanswers hword rfl rfl⟩
  | quit hword =>
    obtain ⟨obs, hhistory, hclosed⟩ := s.forget_entries c.fd
    refine ⟨obs, hhistory, ?_⟩
    have hrest : Aligned k obs := by
      refine aligned_of_silent (fun c line hmem => ?_) fun c line hmem => ?_ <;>
        obtain ⟨_, he⟩ := hclosed _ hmem <;> cases he
    have hquit : Aligned k [.received c.conn line] := by
      rw [Aligned, requests_received, if_neg fun h => h.2 hword]
      exact .nil
    exact hquit.append hrest

/-- The entries that an action adds are aligned for every connection. -/
theorem Moves.aligned (h : Moves s a s') (k : Nat) :
    ∃ obs, s'.history = s.history ++ obs ∧ Aligned k obs := by
  have hempty : Aligned k [] := .nil
  cases h with
  | idle => exact ⟨[], (append_nil _).symm, hempty⟩
  | @admitted cfd => exact ⟨[.accepted s.accepted cfd], rfl, hempty⟩
  | fed => exact ⟨[], (append_nil _).symm, hempty⟩
  | @handled fd c inbuf line r hc hr =>
    have hconn := (continues_inferRole (commandWord line) c).conn
    obtain ⟨obs, hhistory, haligned⟩ := hr.aligned k
    rw [hconn] at haligned
    refine ⟨_, hhistory.trans ?_, haligned⟩
    exact append_assoc s.history [.received c.conn line] obs
  | @closed fd c obs hc hobs =>
    obtain ⟨obs', hhistory, hclosed⟩ := (s.log obs).forget_entries fd
    refine ⟨obs ++ obs', hhistory.trans (append_assoc ..), ?_⟩
    have hreason : Aligned k obs := by
      rcases hobs with ⟨-, rfl⟩ | ⟨-, rfl⟩ | ⟨-, rfl⟩ <;> exact hempty
    refine hreason.append (aligned_of_silent (fun c line hmem => ?_) fun c line hmem => ?_) <;>
      obtain ⟨_, he⟩ := hclosed _ hmem <;> cases he
  | rehashed => exact ⟨[], (append_nil _).symm, hempty⟩

/-- What an action appends is aligned for every connection. -/
theorem act_aligned (s : Server) (a : Action) (k : Nat) :
    ∃ obs, (s.act a).history = s.history ++ obs ∧ Aligned k obs := (act_moves s a).aligned k

/-- In every run the direct lines of a connection answer its lines other than QUIT, one for each
and in their order; and an action that handles no such line of the connection, whatever it does
for others, adds no direct line. -/
theorem run_replies_aligned (kq listenFd : Int) (sends : List SendResult) (actions : List Action)
    (k : Nat) :
    let s := run act (start kq listenFd sends) actions
    Forall₂ Answers (requests k s.history) (directLines k s.history) ∧
      ∀ a, s.history <+: (s.act a).history ∧
        Forall₂ Answers (requests k (s.since (s.act a))) (directLines k (s.since (s.act a))) ∧
        ((∀ line, .received k line ∈ s.since (s.act a) → commandWord line = text "QUIT") →
          directLines k (s.since (s.act a)) = []) := by
  intro s
  have hrun : Aligned k s.history := by
    refine run_invariant (P := fun s : Server => Aligned k s.history) (fun s a hs => ?_) ?_ actions
    · obtain ⟨obs, hhistory, haligned⟩ := act_aligned s a k
      rw [hhistory]
      exact hs.append haligned
    · exact .nil
  refine ⟨hrun, fun a => ?_⟩
  obtain ⟨obs, hhistory, haligned⟩ := act_aligned s a k
  rw [since_of_append hhistory, hhistory]
  refine ⟨prefix_append .., haligned, fun hquit => ?_⟩
  have hnone : requests k obs = [] := by
    rw [requests, filterMap_eq_nil_iff]
    intro o ho
    cases o with
    | received k' line =>
      refine if_neg ?_
      rintro ⟨rfl, hword⟩
      exact hword (hquit line ho)
    | _ => rfl
  rw [Aligned, hnone] at haligned
  exact forall₂_nil_left_iff.mp haligned

end Server

end SocketExchange
