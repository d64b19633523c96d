import SocketExchange.Exchange.Departure

/-!
# Descriptors are invisible

The kernel hands out any descriptor that is free, so the same clients can be served under
quite different ones. Two runs in which the clients do the same under the same numbers of
connections stand for one exchange, and all that a client can see is the exchange's.
-/

namespace SocketExchange

open Containers ClientSession Runs OrderBook

namespace Server

variable {s₁ s₂ : Server} {fd₁ fd₂ : Int} {c₁ c₂ : ClientSession} {e : Exchange}

/-- The acceptances can be told from the deeds. -/
theorem accepts_eq_joins (history : List Obs) :
    accepts history = (deeds history).filterMap fun
      | .joins k => some k
      | _ => none := by
  rw [accepts, deeds, List.filterMap_filterMap]
  refine List.filterMap_congr fun o _ => ?_
  cases o <;> rfl

/-- With the same deeds, as many connections have been accepted. -/
theorem Reachable.same_accepted (h₁ : Reachable s₁) (h₂ : Reachable s₂)
    (hdeeds : deeds s₁.history = deeds s₂.history) : s₁.accepted = s₂.accepted := by
  have hjoins : Server.accepts s₁.history = Server.accepts s₂.history := by
    rw [accepts_eq_joins, accepts_eq_joins, hdeeds]
  rw [h₁.accepts, h₂.accepts] at hjoins
  have hlength := congrArg List.length hjoins
  rwa [List.length_range, List.length_range] at hlength

/-- An open connection is a member, with what its session says. -/
theorem Simulates.member_of_lookup (h : Simulates s₁.view e)
    (hc : s₁.sessions.lookup fd₁ = some c₁) : e.member c₁.conn = some c₁.member := by
  have hview : s₁.view.sessions.lookup fd₁ = some c₁.profile := lookup_view_of hc
  have hroll := roll_eq hview
  exact (h.member _ _).mpr ⟨fd₁, hroll⟩

/-- A number is connected exactly when the exchange has a member under it. -/
theorem Simulates.connected_iff (h : Simulates s₁.view e) (k : Nat) :
    s₁.connected k = true ↔ (e.member k).isSome = true := by
  rw [Server.connected_iff, Option.isSome_iff_exists]
  constructor
  · rintro ⟨fd, c, hc, rfl⟩
    exact ⟨_, h.member_of_lookup hc⟩
  · rintro ⟨m, hm⟩
    obtain ⟨fd, hfd⟩ := (h.member k m).mp hm
    obtain ⟨c, hc, hconn, -⟩ := roll_eq_some.mp hfd
    rw [lookup_view, Option.map_eq_some_iff] at hc
    obtain ⟨c₀, hc₀, rfl⟩ := hc
    exact ⟨fd, c₀, hc₀, hconn⟩

/-- Sessions of one connection stand alike in servers that stand for one exchange. -/
theorem Simulates.same_standing (hsim₁ : Simulates s₁.view e) (hsim₂ : Simulates s₂.view e)
    (ht₁ : Traceable s₁.view) (ht₂ : Traceable s₂.view)
    (hc₁ : s₁.sessions.lookup fd₁ = some c₁) (hc₂ : s₂.sessions.lookup fd₂ = some c₂)
    (hconn : c₁.conn = c₂.conn) :
    c₁.member = c₂.member ∧ s₁.standing c₁ = s₂.standing c₂ := by
  have hmember₁ := hsim₁.member_of_lookup hc₁
  rw [hconn, hsim₂.member_of_lookup hc₂] at hmember₁
  have hmember : c₁.member = c₂.member := (Option.some.inj hmember₁).symm
  have hview₁ : s₁.view.sessions.lookup fd₁ = some c₁.profile := lookup_view_of hc₁
  have hview₂ : s₂.view.sessions.lookup fd₂ = some c₂.profile := lookup_view_of hc₂
  have hstanding₁ := hsim₁.standing ht₁ hview₁
  have hstanding₂ := hsim₂.standing ht₂ hview₂
  rw [standing_view] at hstanding₁ hstanding₂
  have hprofile : e.standing c₁.profile.conn c₁.profile.member =
      e.standing c₂.profile.conn c₂.profile.member := congrArg₂ e.standing hconn hmember
  exact ⟨hmember, hstanding₁.symm.trans (hprofile.trans hstanding₂)⟩

/-- As long as the sequence numbers have not wrapped, servers whose clients have done the same
under whatever descriptors have sent the same lines to every connection and hold the same book but
for descriptors, and whatever a client sends next is decided alike. -/
theorem descriptors_invisible (h₁ : Reachable s₁) (h₂ : Reachable s₂)
    (hdeeds : deeds s₁.history = deeds s₂.history) (hacc : s₁.accepted ≤ 2 ^ 64) :
    (∀ k, linesTo k s₁.history = linesTo k s₂.history) ∧
      s₁.book.nextId_ = s₂.book.nextId_ ∧
      (∀ key, (s₁.book.queue? key).map (List.map (Order.renamed .seqOnly)) =
        (s₂.book.queue? key).map (List.map (Order.renamed .seqOnly))) ∧
      (∀ k, s₁.connected k = s₂.connected k) ∧
      ∀ fd₁ fd₂ c₁ c₂, s₁.sessions.lookup fd₁ = some c₁ → s₂.sessions.lookup fd₂ = some c₂ →
        c₁.conn = c₂.conn → c₁.role = c₂.role ∧ c₁.username = c₂.username ∧
          c₁.subscriptions = c₂.subscriptions ∧ s₁.standing c₁ = s₂.standing c₂ := by
  have hacc₂ : s₂.accepted ≤ 2 ^ 64 := by
    rw [← h₁.same_accepted h₂ hdeeds]
    exact hacc
  have hsim₁ := h₁.simulates hacc
  have hsim₂ := h₂.simulates hacc₂
  rw [hdeeds] at hsim₁
  generalize run Exchange.step {} (deeds s₂.history) = e at hsim₁ hsim₂
  obtain ⟨hnext, hlevels⟩ := hsim₁.same_book hsim₂ rfl
  refine ⟨fun k => ?_, hnext, fun key => h₁.same_queues h₂ (hlevels key), fun k => ?_, ?_⟩
  · exact (hsim₁.sent k).symm.trans (hsim₂.sent k)
  · rw [Bool.eq_iff_iff, hsim₁.connected_iff, hsim₂.connected_iff]
  · intro fd₁ fd₂ c₁ c₂ hc₁ hc₂ hconn
    obtain ⟨hmember, hstanding⟩ := hsim₁.same_standing hsim₂ (h₁.traceable hacc)
      (h₂.traceable hacc₂) hc₁ hc₂ hconn
    obtain ⟨hrole, hname, hsubs⟩ := Member.mk.inj hmember
    exact ⟨hrole, hname, hsubs, hstanding⟩

/-- The descriptor of a client that has left goes to the next one, or it does not: neither may
cancel the order that was left behind. -/
theorem descriptors_invisible_recycled :
    let buy : Chunk := ⟨text "BUY JNST 15 50\n", by decide, by decide⟩
    let cancel : Chunk := ⟨text "CANCEL 0\n", by decide, by decide⟩
    let s₁ := run act (start 3 4 []) [.accept 5, .feed 5 buy, .line 5, .drop 5, .accept 5,
      .feed 5 cancel, .line 5]
    let s₂ := run act (start 3 4 []) [.accept 5, .feed 5 buy, .line 5, .drop 5, .accept 9,
      .feed 9 cancel, .line 9]
    linesTo 1 s₁.history = linesTo 1 s₂.history ∧
      linesTo 1 s₂.history = [msgError (text "cannot cancel order 0")] := by
  intro buy cancel s₁ s₂
  have h₁ : Reachable s₁ := ⟨3, 4, [], _, rfl⟩
  have h₂ : Reachable s₂ := ⟨3, 4, [], _, rfl⟩
  have hdeeds : deeds s₁.history = deeds s₂.history := by decide
  have hacc : s₁.accepted ≤ 2 ^ 64 := by decide
  have hreply : linesTo 1 s₂.history = [msgError (text "cannot cancel order 0")] := by decide
  exact ⟨(descriptors_invisible h₁ h₂ hdeeds hacc).1 1, hreply⟩

/-! ## When the sequence numbers wrap -/

/-- The line that asks for the first order. -/
private def cancelFirst : Bytes := text "CANCEL 0"

/-- What a trader's request to cancel the first order comes to. -/
private theorem cancelFirst_decision {st : Standing} (hrole : st.role = .trader) :
    st.decision cancelFirst = if st.owns 0 then .cancelled 0
      else .rejected (text "cannot cancel order 0") := by
  have htokens : tokenize cancelFirst = [text "CANCEL", text "0"] := by decide
  have htrader : (traderCmd (text "CANCEL") && decide (Role.trader ≠ .trader)) = false := by decide
  have hmd : (mdCmd (text "CANCEL") && decide (Role.trader ≠ .marketData)) = false := by decide
  have hlogin : text "CANCEL" ≠ text "LOGIN" := by decide
  have horder : (decide (text "CANCEL" = text "BUY") || decide (text "CANCEL" = text "SELL")) =
      false := by decide
  have hid : parseNonnegativeInt (text "0") = some 0 := by decide
  simp only [Standing.decision, htokens, Standing.command, hrole, htrader, hmd, horder,
    Bool.false_eq_true, if_false, if_neg hlogin, if_true, Standing.cancel, hid]
  rfl

/-- The first order is cancelled for its owner and for nobody else. -/
private theorem handleLine_cancelFirst {s : Server} {fd : Int} {c : ClientSession}
    (hc : s.sessions.lookup fd = some c) (hrole : c.role ≠ .marketData) :
    (s.handleLine fd cancelFirst).1.history = s.history ++ [.received c.conn cancelFirst,
      .enqueued c.conn (if (s.book.cancel 0 c.fd c.sessionSeq).1 then msgOrderCancelled 0
        else msgError (text "cannot cancel order 0"))] := by
  let c' := inferRole (commandWord cancelFirst) c
  let s' := s.noted fd c cancelFirst
  have hcontinues : Continues c c' := continues_inferRole _ c
  have hc' : s'.sessions.lookup fd = some c' := lookup_noted hc cancelFirst
  have htrader : (s'.standing c').role = .trader := inferRole_trader (by decide) hrole
  have howns : (s'.standing c').owns 0 = (s.book.cancel 0 c.fd c.sessionSeq).1 := by
    have hsame : (s'.standing c').owns 0 = (s.book.cancel 0 c'.fd c'.sessionSeq).1 := rfl
    rw [hsame, hcontinues.fd, hcontinues.sessionSeq]
  rw [handleLine_eq hc]
  dsimp only
  rw [cancelFirst_decision htrader, howns]
  split
  · have hbook : (s'.withBook (s'.book.cancel 0 c'.fd c'.sessionSeq).2).sessions.lookup fd =
        some c' := hc'
    rw [perform, history_enqueue hbook, hcontinues.conn]
    exact List.append_assoc ..
  · rw [perform, history_enqueue hc', hcontinues.conn]
    exact List.append_assoc ..

/-- A connection that has just been accepted asks for the first order. -/
def asksFirst (fd : Int) : List Action :=
  [.accept fd, .feed fd ⟨text "CANCEL 0\n", by decide, by decide⟩, .line fd]

private theorem run_asksFirst {s : Server} {fd : Int} (hfree : s.Free fd) :
    (run act s (asksFirst fd)).history = s.history ++ [.accepted s.accepted fd,
      .received s.accepted cancelFirst, .enqueued s.accepted
        (if (s.book.cancel 0 fd s.nextSessionSeq).1 then msgOrderCancelled 0
          else msgError (text "cannot cancel order 0"))] := by
  let c : ClientSession := { fd := fd, sessionSeq := s.nextSessionSeq, conn := s.accepted }
  let s₁ := (s.openSession fd).feed fd ⟨text "CANCEL 0\n", by decide, by decide⟩
  let s₂ := s₁.update fd (setInbuf {})
  have hopen : s.act (.accept fd) = s.openSession fd := if_pos hfree
  have hfed : s₁.sessions.lookup fd = some (feedInbuf (text "CANCEL 0\n") c) := by
    have hfeed : s₁ = (s.openSession fd).update fd (feedInbuf (text "CANCEL 0\n")) := rfl
    rw [hfeed, lookup_update_self, openSession_fresh hfree, Option.map_some]
  have hline : (feedInbuf (text "CANCEL 0\n") c).inbuf.nextLine = some (cancelFirst, {}) := by
    have hbuf : (feedInbuf (text "CANCEL 0\n") c).inbuf = ⟨text "CANCEL 0\n"⟩ := rfl
    rw [hbuf]
    decide
  have hact : s₁.act (.line fd) = (s₂.handleLine fd cancelFirst).1 :=
    act_line (takeLine_eq hfed hline)
  have hc : s₂.sessions.lookup fd = some c := lookup_update_of hfed (setInbuf {})
  have hrole : c.role ≠ .marketData := by
    have hnew : c.role = .unknown := rfl
    rw [hnew]
    decide
  have hrun : run act s (asksFirst fd) = s₁.act (.line fd) := by
    rw [asksFirst, run_cons, hopen]
    rfl
  rw [hrun, hact, handleLine_cancelFirst hc hrole]
  exact List.append_assoc ..

/-- After enough connections on the order's descriptor the next one has its owner's sequence
number too, and only on another descriptor is it a stranger. -/
private theorem descriptors_recycled {n : Nat} (hwrap : seqOf (1 + n) = 1) :
    let before : List Action := [.accept 5,
      .feed 5 ⟨text "BUY JNST 15 50\n", by decide, by decide⟩, .line 5, .drop 5] ++ recycle 5 n
    let s₁ := run act (start 3 4 []) (before ++ asksFirst 5)
    let s₂ := run act (start 3 4 []) (before ++ asksFirst 7)
    deeds s₁.history = deeds s₂.history ∧
      ∃ k, linesTo k s₁.history ≠ linesTo k s₂.history := by
  intro before s₁ s₂
  generalize hplaced : run act (start 3 4 []) [.accept 5,
    .feed 5 ⟨text "BUY JNST 15 50\n", by decide, by decide⟩, .line 5, .drop 5] = s₀
  have hfree₅ : s₀.Free 5 := by
    rw [← hplaced]
    decide
  have hfree₇ : s₀.Free 7 := by
    rw [← hplaced]
    decide
  have haccepted : s₀.accepted = 1 := by
    rw [← hplaced]
    decide
  have hcancel : (s₀.book.cancel 0 5 1).1 = true ∧ (s₀.book.cancel 0 7 1).1 = false := by
    rw [← hplaced]
    decide
  have hbefore : run act (start 3 4 []) before = run act s₀ (recycle 5 n) := by
    rw [run_append, hplaced]
  have hreach : Reachable (run act s₀ (recycle 5 n)) := ⟨3, 4, [], before, hbefore⟩
  obtain ⟨hkept, hbook, hacc⟩ := run_recycle hfree₅ n
  have hs₁ : s₁ = run act (run act s₀ (recycle 5 n)) (asksFirst 5) := by
    rw [← hbefore, ← run_append]
  have hs₂ : s₂ = run act (run act s₀ (recycle 5 n)) (asksFirst 7) := by
    rw [← hbefore, ← run_append]
  generalize run act s₀ (recycle 5 n) = s at hreach hkept hbook hacc hs₁ hs₂
  have hseq : s.nextSessionSeq = 1 := by
    have hnext : s.nextSessionSeq = seqOf s.accepted := hreach.consistent.nextSeq
    rw [hnext, hacc, haccepted, hwrap]
  have hhistory₁ := run_asksFirst (hkept 5 hfree₅)
  have hhistory₂ := run_asksFirst (hkept 7 hfree₇)
  rw [hbook, hseq, hcancel.1, if_pos rfl, ← hs₁] at hhistory₁
  rw [hbook, hseq, hcancel.2, if_neg Bool.false_ne_true, ← hs₂] at hhistory₂
  refine ⟨?_, s.accepted, fun hlines => ?_⟩
  · rw [hhistory₁, hhistory₂, deeds_append, deeds_append]
    rfl
  · have hone : ∀ fd reply, linesTo s.accepted [.accepted s.accepted fd,
        .received s.accepted cancelFirst, .enqueued s.accepted reply] = [reply] :=
      fun fd reply => (linesTo_enqueued s.accepted s.accepted reply).trans (if_pos rfl)
    rw [hhistory₁, hhistory₂, linesTo_append, linesTo_append, hone, hone] at hlines
    have hreply := List.cons.inj (List.append_cancel_left hlines)
    exact absurd hreply.1 (by decide)

/-- A client that is given the descriptor of the first order's owner, 2^64 connections after it,
gains the right to cancel the order. -/
theorem descriptors_visible_wrapped :
    let before : List Action := [.accept 5,
      .feed 5 ⟨text "BUY JNST 15 50\n", by decide, by decide⟩, .line 5, .drop 5] ++
        recycle 5 (2 ^ 64 - 1)
    let s₁ := run act (start 3 4 []) (before ++ asksFirst 5)
    let s₂ := run act (start 3 4 []) (before ++ asksFirst 7)
    deeds s₁.history = deeds s₂.history ∧
      ∃ k, linesTo k s₁.history ≠ linesTo k s₂.history :=
  descriptors_recycled seqOf_wrapped

end Server

end SocketExchange
