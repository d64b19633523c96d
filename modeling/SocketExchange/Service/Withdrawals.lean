import SocketExchange.Service.OrderLife
import SocketExchange.Service.Roles

/-!
# Cancelling by the printed id

The id counter knows no limit, the parser of ids does. So an owner can cancel what
rests in its name under the id it was told exactly as long as that id is in the
parser's range.
-/

namespace SocketExchange

open Containers ClientSession Runs OrderBook

/-- The line that asks to cancel the order with this id. -/
def cancelLine (id : Int) : Bytes := text "CANCEL " ++ stdToString id

private theorem tokenize_cancelLine (n : Nat) :
    tokenize (cancelLine n) = [text "CANCEL", Decimal.print n] := by
  have hcancel : IsWord (text "CANCEL") := by decide
  have hsplit : cancelLine n = text "CANCEL" ++ 32 :: Decimal.print n := by
    rw [cancelLine, stdToString_natCast]
    rfl
  rw [hsplit, tokenize_cons hcancel, tokenize_word (isWord_print n)]

/-- The line asks for the order exactly when the id is in range. -/
theorem withdraws_cancelLine {n : Nat} {oid : Int} :
    Withdraws (cancelLine n) oid ↔ (n : Int) ≤ maxValue ∧ oid = n := by
  have hparse := parseNonnegativeInt_print n
  constructor
  · rintro ⟨orderId, hline, hoid⟩
    rw [tokenize_cancelLine] at hline
    rw [← (List.cons.inj (List.cons.inj hline).2).1, hparse] at hoid
    split_ifs at hoid with hle
    exact ⟨hle, (Option.some.inj hoid).symm⟩
  · rintro ⟨hle, rfl⟩
    exact ⟨_, tokenize_cancelLine n, by rw [hparse, if_pos hle]⟩

private theorem commandWord_cancelLine (n : Nat) : commandWord (cancelLine n) = text "CANCEL" :=
  commandWord_eq (tokenize_cancelLine n)

private theorem not_places_cancelLine (n : Nat) (o : Order) : ¬ Places (cancelLine n) o := by
  intro ho
  have hword := ho.word
  rw [commandWord_cancelLine] at hword
  cases hside : o.side <;> rw [hside] at hword <;> exact absurd hword (by decide)

namespace Server

variable {s : Server} {fd : Int} {c : ClientSession} {x : Order}

/-- The session's request to cancel the order under its printed id is carried out: it is
acknowledged, and this order and no other leaves the book. -/
def Cancellable (s : Server) (fd : Int) (c : ClientSession) (x : Order) : Prop :=
  let s' := (s.handleLine fd (cancelLine x.id)).1
  .enqueued c.conn (msgOrderCancelled x.id) ∈ s.since s' ∧
    ∀ y, s'.book.Rests y ↔ s.book.Rests y ∧ y ≠ x

/-- A line that neither places nor cancels leaves the book as it is. -/
theorem Outcome.book {line : Bytes} {r : Server × Bool} (h : Outcome s fd c line r)
    (hplaces : ∀ o, ¬ Places line o) (hcancel : ∀ oid, ¬ Withdraws line oid) :
    r.1.book = s.book := by
  cases h with
  | rejected => exact book_enqueue ..
  | loggedIn => exact book_enqueue ..
  | placed hline => exact absurd hline (hplaces _)
  | cancelled hline => exact absurd hline (hcancel _)
  | subscribed => exact book_enqueue ..
  | unsubscribed => exact book_enqueue ..
  | quit =>
    have hview := congrArg Server.book (s.view_closeSession c.fd)
    obtain ⟨-, -, hbook, -⟩ := quiet_forget s.view c.fd
    exact hview.trans hbook

/-- A successful cancel takes the owner's order out of the book and no other. -/
private theorem rests_cancel (hs : Reachable s) (hx : s.book.Rests x) {fd : Int} {seq : UInt64}
    (hok : (s.book.cancel x.id fd seq).1 = true) (y : Order) :
    (s.book.cancel x.id fd seq).2.Rests y ↔ s.book.Rests y ∧ y ≠ x := by
  have hidentified := hs.tracked.chronological.identified
  have hlevel : ∀ k, (s.book.cancel x.id fd seq).2.level k =
      (s.book.level k).filter fun y => y.id ≠ x.id := hidentified.level_cancel hok
  have hid : s.book.Rests y → (y.id ≠ x.id ↔ y ≠ x) := by
    rintro ⟨k, hy⟩
    obtain ⟨k', hx⟩ := hx
    exact not_congr ⟨hidentified.unique hy hx, congrArg Order.id⟩
  constructor
  · rintro ⟨k, hy⟩
    rw [hlevel, List.mem_filter, decide_eq_true_eq] at hy
    exact ⟨⟨k, hy.1⟩, (hid ⟨k, hy.1⟩).mp hy.2⟩
  · rintro ⟨hrests, hne⟩
    have hne' := (hid hrests).mpr hne
    obtain ⟨k, hy⟩ := hrests
    refine ⟨k, ?_⟩
    rw [hlevel, List.mem_filter, decide_eq_true_eq]
    exact ⟨hy, hne'⟩

/-- With an id out of range, or from a market-data session, the request changes no book. -/
private theorem book_refused (hc : s.sessions.lookup fd = some c) (n : Nat)
    (h : maxValue < n ∨ c.role = .marketData) :
    (s.handleLine fd (cancelLine n)).1.book = s.book := by
  rcases h with hlarge | hrole
  · refine (handleLine_outcome hc (cancelLine n)).book (not_places_cancelLine n) fun oid hoid => ?_
    exact absurd (withdraws_cancelLine.mp hoid).1 (Int.not_le.mpr hlarge)
  · exact handleLine_readOnly hc hrole (cancelLine n)

/-- With an id in range, a session that may cancel has a successful cancel carried out and
acknowledged. -/
private theorem book_carried_out (hc : s.sessions.lookup fd = some c) (hfd : c.fd = fd) {n : Nat}
    (hle : (n : Int) ≤ maxValue) (hrole : c.role ≠ .marketData)
    (hok : (s.book.cancel n fd c.sessionSeq).1 = true) :
    let s' := (s.handleLine fd (cancelLine n)).1
    .enqueued c.conn (msgOrderCancelled n) ∈ s.since s' ∧
      s'.book = (s.book.cancel n fd c.sessionSeq).2 := by
  have hword := commandWord_cancelLine n
  have hcontinues := continues_inferRole (text "CANCEL") c
  have houtcome := handleLine_outcome hc (cancelLine n)
  have hother : ∀ {cmd : Bytes}, cmd ≠ text "CANCEL" → commandWord (cancelLine n) ≠ cmd :=
    fun hne he => hne (he.symm.trans hword)
  rw [hword] at houtcome
  generalize s.handleLine fd (cancelLine n) = r at houtcome ⊢
  cases houtcome with
  | rejected _ _ _ hno =>
    have hcmd : traderCmd (text "CANCEL") = true := by decide
    have hfalse := hno (inferRole_trader hcmd hrole) n (withdraws_cancelLine.mpr ⟨hle, rfl⟩)
    rw [hcontinues.fd, hcontinues.sessionSeq, hfd] at hfalse
    exact absurd (hok.symm.trans hfalse) (by decide)
  | loggedIn hlogin => exact absurd hlogin (hother (by decide))
  | placed hline => exact absurd hline (not_places_cancelLine n _)
  | @cancelled oid hline =>
    obtain ⟨-, rfl⟩ := withdraws_cancelLine.mp hline
    have hnoted := lookup_noted hc (cancelLine n)
    rw [hword] at hnoted
    constructor
    · have hadded : ∀ b, (((s.noted fd c (cancelLine n)).withBook b).enqueue fd
          (msgOrderCancelled n)).history =
          s.history ++ [.received c.conn (cancelLine n),
            .enqueued c.conn (msgOrderCancelled n)] := by
        intro b
        rw [history_enqueue (s := (s.noted fd c (cancelLine n)).withBook b) hnoted,
          hcontinues.conn]
        exact List.append_assoc ..
      rw [since_of_append (hadded _)]
      exact List.mem_cons_of_mem _ (List.mem_singleton_self _)
    · rw [book_enqueue, hcontinues.fd, hcontinues.sessionSeq, hfd]
      rfl
  | subscribed hsub => exact absurd hsub (hother (by decide))
  | unsubscribed hunsub => exact absurd hunsub (hother (by decide))
  | quit hquit => exact absurd hquit (hother (by decide))

/-- An owner's request is carried out exactly when the parser accepts the id and the session
may cancel. -/
private theorem cancellable_iff (hs : Reachable s) (hc : s.sessions.lookup fd = some c)
    (hx : s.book.Rests x) (howner : x.OwnedBy fd c.sessionSeq) :
    s.Cancellable fd c x ↔ x.id ≤ maxValue ∧ c.role ≠ .marketData := by
  have hfd : c.fd = fd := hs.consistent.keyed fd c.profile (lookup_view_of hc)
  have hok : (s.book.cancel x.id fd c.sessionSeq).1 = true :=
    hs.tracked.chronological.identified.cancel_iff.mpr ⟨x, hx, rfl, howner⟩
  have hrests := rests_cancel hs hx hok
  have hnonneg : 0 ≤ x.id := hs.tracked.id_nonneg hx
  obtain ⟨n, hn⟩ := Int.eq_ofNat_of_zero_le hnonneg
  rw [Cancellable, hn]
  rw [hn] at hok hrests
  constructor
  · rintro ⟨-, hleft⟩
    by_contra hno
    have hrefused : maxValue < n ∨ c.role = .marketData := by
      by_contra h
      exact hno ⟨Int.not_lt.mp fun hlt => h (Or.inl hlt), fun hrole => h (Or.inr hrole)⟩
    rw [book_refused hc n hrefused] at hleft
    exact ((hleft x).mp hx).2 rfl
  · rintro ⟨hle, hrole⟩
    obtain ⟨hreply, hbook⟩ := book_carried_out hc hfd hle hrole hok
    refine ⟨hreply, ?_⟩
    rw [hbook]
    exact hrests

/-- In every reachable state an owner that asks under the printed id has its resting order
cancelled, and no other, if and only if the id is in the parser's range and the session is no
market-data connection; the latter never owns an order while the sequence numbers have not
wrapped. -/
theorem cancel_by_printed_id_iff (hs : Reachable s) (hc : s.sessions.lookup fd = some c)
    (hx : s.book.Rests x) (howner : x.OwnedBy fd c.sessionSeq) :
    (s.Cancellable fd c x ↔ x.id ≤ maxValue ∧ c.role ≠ .marketData) ∧
      (s.accepted ≤ 2 ^ 64 → c.role ≠ .marketData) := by
  refine ⟨cancellable_iff hs hc hx howner, fun hacc hrole => ?_⟩
  have htrader := hs.owner_is_trader hacc hc hx howner.2
  exact absurd (hrole.symm.trans htrader) (by decide)

/-- The second order of a connection is cancelled under its printed id. -/
theorem cancel_by_printed_id_second :
    let s := run act (start 3 4 []) [.accept 5,
      .feed 5 ⟨text "BUY JNST 15 50\nSELL IMCT 2 7\n", by decide, by decide⟩, .line 5, .line 5]
    let c : ClientSession :=
      { fd := 5, sessionSeq := 1, role := .trader, wantWrite := true
        outbuf := [text "ORDER_ACCEPTED 0\n", text "ORDER_ACCEPTED 1\n"] }
    let x : Order := ⟨1, .sell, text "IMCT", 2, 7, 5, 1⟩
    (s.Cancellable 5 c x ↔ x.id ≤ maxValue ∧ c.role ≠ .marketData) ∧
      (s.accepted ≤ 2 ^ 64 → c.role ≠ .marketData) := by
  intro s c x
  have hs : Reachable s := ⟨3, 4, [], _, rfl⟩
  have hc : s.sessions.lookup 5 = some c := by rfl
  have hx : s.book.Rests x := ⟨⟨text "IMCT", .sell, 7⟩, by decide⟩
  exact cancel_by_printed_id_iff hs hc hx ⟨rfl, rfl⟩

/-! ## An id out of range -/

/-- One connection places a number of BUY orders. -/
def buys (n : Nat) : List Action :=
  (List.replicate n [.feed 5 ⟨text "BUY JNST 1 1\n", by decide, by decide⟩, .line 5]).flatten

/-- The connection has placed some orders and none of them has been filled. -/
structure Buying (s : Server) (n : Nat) : Prop where
  session : ∃ c, s.sessions.lookup 5 = some c ∧ c.fd = 5 ∧ c.role ≠ .marketData ∧ c.inbuf = {}
  nextId : s.book.nextId_ = n
  unsold : s.book.level ⟨text "JNST", .sell, 1⟩ = []

/-- The line of those orders. -/
def buyLine : Bytes := text "BUY JNST 1 1"

/-- A trader's BUY is placed under the next id; while nothing is offered at its price, it rests
there whole. -/
private theorem handleLine_buy (hc : s.sessions.lookup fd = some c) (hfd : c.fd = fd)
    (hrole : c.role ≠ .marketData)
    (hsells : s.book.level ⟨text "JNST", .sell, 1⟩ = []) :
    let s' := (s.handleLine fd buyLine).1
    (∃ c', s'.sessions.lookup fd = some c' ∧
      c'.profile = (inferRole (text "BUY") c).profile) ∧
      s'.book.nextId_ = s.book.nextId_ + 1 ∧ s'.book.level ⟨text "JNST", .sell, 1⟩ = [] ∧
      ∃ x, s'.book.Rests x ∧ x.id = s.book.nextId_ ∧ x.OwnedBy fd c.sessionSeq := by
  have hwanted : Places buyLine ⟨0, .buy, text "JNST", 1, 1, 0, 0⟩ :=
    ⟨text "1", text "1", by decide, by decide, by decide, by decide⟩
  have hword : commandWord buyLine = text "BUY" := by decide
  have hcontinues := continues_inferRole (text "BUY") c
  have houtcome := handleLine_outcome hc buyLine
  have hnoted := lookup_noted hc buyLine
  rw [hword] at houtcome hnoted
  generalize s.handleLine fd buyLine = r at houtcome
  cases houtcome with
  | rejected _ _ hnot => exact absurd hwanted (hnot (inferRole_trader (by decide) hrole) _)
  | loggedIn hlogin => exact absurd (hword.symm.trans hlogin) (by decide)
  | cancelled hline => exact absurd (hword.symm.trans hline.word) (by decide)
  | subscribed hsub => exact absurd (hword.symm.trans hsub) (by decide)
  | unsubscribed hunsub => exact absurd (hword.symm.trans hunsub) (by decide)
  | quit hquit => exact absurd (hword.symm.trans hquit) (by decide)
  | @placed o hplaces _ hid howner =>
    obtain ⟨hkey, hqty⟩ := hwanted.unique hplaces
    have hpos : 0 < o.qty := by
      rw [hqty]
      decide
    have hview := (s.noted fd c buyLine).view_place fd (inferRole (text "BUY") c) o
    have hbook : ((s.noted fd c buyLine).place fd (inferRole (text "BUY") c) o).book =
        (s.drawn.submit o).2 := congrArg Server.book hview
    have hsessions := congrArg (fun t : Server => t.sessions.lookup fd) hview
    change (Server.view _).sessions.lookup fd =
      (s.noted fd c buyLine).view.sessions.lookup fd at hsessions
    rw [lookup_view, lookup_view, hnoted, Option.map_some] at hsessions
    obtain ⟨c', hc', hprofile⟩ := Option.map_eq_some_iff.mp hsessions
    have hopposite : s.drawn.level o.key.opposite = [] := by
      rw [hkey]
      exact hsells
    have hmatching : s.drawn.matching o = ([], o, []) := by
      rw [matching, hopposite, matchLoop]
    refine ⟨⟨c', hc', hprofile⟩, ?_, ?_, o, ?_, hid, ?_⟩
    · rw [hbook, submit_nextId_]
      rfl
    · have hempty := s.drawn.level_submit_opposite hpos
      rw [hmatching, hkey] at hempty
      rw [hbook]
      exact hempty
    · refine ⟨o.key, ?_⟩
      rw [hbook, level_submit_own _ hpos, hmatching, remainder, if_pos hpos]
      exact List.mem_append_right _ (List.mem_singleton_self o)
    · rwa [hcontinues.fd, hcontinues.sessionSeq, hfd] at howner

/-- One more order of the connection rests under the next id. -/
private theorem Buying.step {n : Nat} (h : Buying s n) :
    let s' := run act s (buys 1)
    Buying s' (n + 1) ∧ ∃ c x, s'.sessions.lookup 5 = some c ∧ s'.book.Rests x ∧ x.id = n ∧
      x.OwnedBy 5 c.sessionSeq := by
  obtain ⟨⟨c, hc, hfd, hrole, hinbuf⟩, hnext, hsells⟩ := h
  intro s'
  let s₁ := (s.feed 5 ⟨text "BUY JNST 1 1\n", by decide, by decide⟩).update 5 (setInbuf {})
  have hfed : (s.feed 5 ⟨text "BUY JNST 1 1\n", by decide, by decide⟩).sessions.lookup 5 =
      some (feedInbuf (text "BUY JNST 1 1\n") c) := lookup_update_of hc _
  have hs' : s' = (s₁.handleLine 5 buyLine).1 := by
    have hbuf : (feedInbuf (text "BUY JNST 1 1\n") c).inbuf = ⟨text "BUY JNST 1 1\n"⟩ := by
      rw [feedInbuf, hinbuf]
      rfl
    have hline : (feedInbuf (text "BUY JNST 1 1\n") c).inbuf.nextLine = some (buyLine, {}) := by
      rw [hbuf]
      decide
    have htaken : (s.feed 5 ⟨text "BUY JNST 1 1\n", by decide, by decide⟩).takeLine 5 =
        some (s₁.handleLine 5 buyLine) := takeLine_eq hfed hline
    exact act_line htaken
  have hc₁ : s₁.sessions.lookup 5 = some (setInbuf {} (feedInbuf (text "BUY JNST 1 1\n") c)) :=
    lookup_update_of hfed _
  obtain ⟨⟨c', hc', hprofile⟩, hnext', hsells', x, hx, hid, howner⟩ :=
    handleLine_buy hc₁ hfd hrole hsells
  rw [← hs'] at hc' hnext' hsells' hx
  have hcontinues := continues_inferRole (text "BUY")
    (setInbuf {} (feedInbuf (text "BUY JNST 1 1\n") c))
  have hfd' : c'.fd = 5 := (congrArg ClientSession.fd hprofile).trans (hcontinues.fd.trans hfd)
  have hseq' : c'.sessionSeq = c.sessionSeq :=
    (congrArg ClientSession.sessionSeq hprofile).trans hcontinues.sessionSeq
  have hrole' : c'.role = .trader := by
    have hcmd : traderCmd (text "BUY") = true := by decide
    have htrader := inferRole_trader
      (c := setInbuf {} (feedInbuf (text "BUY JNST 1 1\n") c)) hcmd hrole
    exact (congrArg ClientSession.role hprofile).trans htrader
  have hinbuf' : c'.inbuf = {} :=
    (congrArg ClientSession.inbuf hprofile).trans (inferRole_inbuf ..)
  have hbook : s₁.book = s.book := rfl
  rw [hbook] at hnext' hid
  refine ⟨⟨⟨c', hc', hfd', ?_, hinbuf'⟩, ?_, hsells'⟩, c', x, hc', hx, hid.trans hnext, ?_⟩
  · rw [hrole']
    decide
  · rw [hnext', hnext]
    rfl
  · rw [hseq']
    exact howner

private theorem run_buys {n : Nat} (hs : Buying s 0) : Buying (run act s (buys n)) n := by
  induction n with
  | zero => exact hs
  | succ n ih =>
    have hsplit : buys (n + 1) = buys n ++ buys 1 := by
      rw [buys, List.replicate_succ', List.flatten_append]
      rfl
    rw [hsplit, run_append]
    exact ih.step.1

/-- After some orders the last one rests under the id that counts those before it. -/
private theorem run_buys_last (n : Nat) :
    let s := run act (start 3 4 []) (.accept 5 :: (buys n ++ buys 1))
    ∃ c x, s.sessions.lookup 5 = some c ∧ s.book.Rests x ∧ x.OwnedBy 5 c.sessionSeq ∧
      x.id = n ∧ (maxValue < n → ¬ s.Cancellable 5 c x) := by
  intro s
  have hstart : Buying ((start 3 4 []).act (.accept 5)) 0 :=
    ⟨⟨_, rfl, rfl, by decide, rfl⟩, rfl, rfl⟩
  have hs : Reachable s := ⟨3, 4, [], _, rfl⟩
  have hsplit : s = run act (run act ((start 3 4 []).act (.accept 5)) (buys n)) (buys 1) := by
    simp only [s, run_cons, run_append]
  obtain ⟨-, c, x, hc, hx, hid, howner⟩ := (run_buys (n := n) hstart).step
  rw [← hsplit] at hc hx
  refine ⟨c, x, hc, hx, howner, hid, fun hlarge hcancel => ?_⟩
  have hle := ((cancellable_iff hs hc hx howner).mp hcancel).1
  omega

/-- The order with the id 2147483648 is acknowledged and rests, and its owner cannot cancel it. -/
theorem cancel_by_printed_id_too_large :
    let s := run act (start 3 4 []) (.accept 5 :: (buys 2147483648 ++ buys 1))
    ∃ c x, s.sessions.lookup 5 = some c ∧ s.book.Rests x ∧ x.OwnedBy 5 c.sessionSeq ∧
      x.id = (2147483648 : Nat) ∧ ¬ s.Cancellable 5 c x := by
  obtain ⟨c, x, hc, hx, howner, hid, hno⟩ := run_buys_last 2147483648
  exact ⟨c, x, hc, hx, howner, hid, hno (by decide)⟩

end Server

end SocketExchange
