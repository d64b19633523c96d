import SocketExchange.Book.Anonymity
import SocketExchange.Service.Lifetimes
import SocketExchange.Service.MarketData
import SocketExchange.Service.OrderLife
import SocketExchange.Service.Roles

/-!
# The tape

The trades that a connection is sent can be told from the accepted orders and the
cancellations, without their owners, and from the connection's own subscriptions. The tape
does so: it is fed with these events alone, and every server keeps in step with it.
-/

namespace SocketExchange

open Containers ClientSession Runs OrderBook

/-- What the trades that a connection is sent depend on. -/
inductive MarketEvent where
  /-- Some connection's order is accepted. -/
  | placed (o : Order)
  /-- Some connection's order is cancelled; the reply says which. -/
  | cancelled (reply : Bytes)
  | subscribed (instrument : Bytes)
  | unsubscribed (instrument : Bytes)
  /-- The connection itself is closed. -/
  | left
  deriving DecidableEq

/-- An entry, as far as it matters for the trades that a connection is sent. -/
def Obs.market (k : Nat) : Obs → Option MarketEvent
  | .placed _ o => some (.placed o.anonymous)
  | .enqueued _ line =>
    if firstWord line = text "ORDER_CANCELLED" then some (.cancelled line) else none
  | .subscribed k' i => if k' = k then some (.subscribed i) else none
  | .unsubscribed k' i => if k' = k then some (.unsubscribed i) else none
  | .closed k' => if k' = k then some .left else none
  | _ => none

/-- The events of a history that matter for the trades that a connection is sent. -/
def market (k : Nat) (history : List Obs) : List MarketEvent :=
  history.filterMap (Obs.market k)

/-- A flat book without owners, one reader of its trades, and what the reader has been told. -/
structure Tape where
  book : Reference := {}
  following : Finset Bytes := ∅
  left : Bool := false
  lines : List Bytes := []

namespace Tape

/-- The connection is still there and is subscribed to the instrument. -/
def follows (t : Tape) (i : Bytes) : Bool := !t.left && i ∈ t.following

/-- What an event of the market adds to the tape. -/
def step (t : Tape) : MarketEvent → Tape
  | .placed o =>
    let r := (t.book.apply .nextId).submit o
    { t with
      book := r.2
      lines := t.lines ++ (r.1.filter fun f => t.follows f.instrument).map tradeLine }
  | .cancelled reply =>
    { t with
      book := { t.book with
        orders := t.book.orders.filter fun x => msgOrderCancelled x.id ≠ reply } }
  | .subscribed i => { t with following := insert i t.following }
  | .unsubscribed i => { t with following := t.following.erase i }
  | .left => { t with left := true }

/-- The tape of a connection. -/
def read (k : Nat) (history : List Obs) : Tape := run step {} (market k history)

variable {k : Nat} {h obs : List Obs}

private theorem read_append (k : Nat) (h obs : List Obs) :
    read k (h ++ obs) = run step (read k h) (market k obs) := by
  rw [read, market, List.filterMap_append, run_append]
  rfl

/-! ## The reader -/

/-- The last entry of a history is the last event, if it is one. -/
theorem read_concat (k : Nat) (h : List Obs) (o : Obs) :
    read k (h ++ [o]) = ((o.market k).map (step (read k h))).getD (read k h) := by
  rw [read_append, market, List.filterMap_cons, List.filterMap_nil]
  cases o.market k <;> rfl

private theorem left_read : (read k h).left = true ↔ .closed k ∈ h := by
  induction h using List.reverseRecOn with
  | nil => exact iff_of_false Bool.false_ne_true List.not_mem_nil
  | append_singleton h o ih =>
    rw [read_concat, List.mem_append, List.mem_singleton, ← ih]
    cases o with
    | closed k' =>
      by_cases hk : k' = k
      · subst hk
        simp only [Obs.market, if_true, Option.map_some, Option.getD_some, step, or_true]
      · simp only [Obs.market, if_neg hk, Option.map_none, Option.getD_none, Obs.closed.injEq,
          Ne.symm hk, or_false]
    | enqueued k' line =>
      simp only [Obs.market, reduceCtorEq, or_false]
      split_ifs <;> rfl
    | subscribed k' i =>
      simp only [Obs.market, reduceCtorEq, or_false]
      split_ifs <;> rfl
    | unsubscribed k' i =>
      simp only [Obs.market, reduceCtorEq, or_false]
      split_ifs <;> rfl
    | _ =>
      simp only [reduceCtorEq, or_false]
      rfl

/-- Only a SUBSCRIBE and an UNSUBSCRIBE of the connection change what the reader follows. -/
theorem following_concat {o : Obs} (hsub : ∀ i, o ≠ .subscribed k i)
    (hunsub : ∀ i, o ≠ .unsubscribed k i) :
    (read k (h ++ [o])).following = (read k h).following := by
  rw [read_concat]
  cases o with
  | subscribed k' j =>
    have hk : k' ≠ k := fun he => hsub j (he ▸ rfl)
    simp only [Obs.market, if_neg hk, Option.map_none, Option.getD_none]
  | unsubscribed k' j =>
    have hk : k' ≠ k := fun he => hunsub j (he ▸ rfl)
    simp only [Obs.market, if_neg hk, Option.map_none, Option.getD_none]
  | enqueued k' line =>
    simp only [Obs.market]
    split_ifs <;> rfl
  | closed k' =>
    simp only [Obs.market]
    split_ifs <;> rfl
  | _ => rfl

/-- The reader follows what the connection's last commands say. -/
theorem mem_following_read {i : Bytes} : i ∈ (read k h).following ↔ Subscribed h k i := by
  induction h using List.reverseRecOn with
  | nil =>
    refine iff_of_false (Finset.notMem_empty i) ?_
    rintro ⟨before, after, heq, -⟩
    cases before <;> cases heq
  | append_singleton h o ih =>
    have hother : .subscribed k i ≠ o → .unsubscribed k i ≠ o →
        (Subscribed (h ++ [o]) k i ↔ i ∈ (read k h).following) := by
      intro hsub hunsub
      rw [ih]
      exact subscribed_append (fun hmem => hsub (List.mem_singleton.mp hmem))
        fun hmem => hunsub (List.mem_singleton.mp hmem)
    by_cases hsub : ∃ j, o = .subscribed k j
    · obtain ⟨j, rfl⟩ := hsub
      rw [read_concat]
      simp only [Obs.market, if_true, Option.map_some, Option.getD_some, step, Finset.mem_insert]
      by_cases hj : i = j
      · subst hj
        exact iff_of_true (Or.inl rfl) subscribed_concat_subscribed
      · rw [hother (by simp [hj]) (by simp)]
        exact or_iff_right hj
    by_cases hunsub : ∃ j, o = .unsubscribed k j
    · obtain ⟨j, rfl⟩ := hunsub
      rw [read_concat]
      simp only [Obs.market, if_true, Option.map_some, Option.getD_some, step, Finset.mem_erase]
      by_cases hj : i = j
      · subst hj
        exact iff_of_false (fun he => he.1 rfl) not_subscribed_concat_unsubscribed
      · rw [hother (by simp) (by simp [hj])]
        exact and_iff_right hj
    · push Not at hsub hunsub
      rw [following_concat hsub hunsub, hother (hsub i).symm (hunsub i).symm]

/-! ## Entries that are no trades -/

private theorem market_append (k : Nat) (h obs : List Obs) :
    market k (h ++ obs) = market k h ++ market k obs := List.filterMap_append ..

/-- Quiet entries neither change the book of the tape nor print a line. -/
theorem read_quiet (hobs : ∀ o ∈ obs, o.Quiet) :
    (read k (h ++ obs)).book = (read k h).book ∧ (read k (h ++ obs)).lines = (read k h).lines := by
  induction obs using List.reverseRecOn with
  | nil =>
    rw [List.append_nil]
    exact ⟨rfl, rfl⟩
  | append_singleton obs o ih =>
    obtain ⟨hbook, hlines⟩ := ih fun o' ho' => hobs o' (List.mem_append_left _ ho')
    have hquiet : o.Quiet := hobs o (List.mem_append_right _ (List.mem_singleton_self o))
    rw [← List.append_assoc, read_concat, ← hbook, ← hlines]
    cases o with
    | placed => exact hquiet.elim
    | filled => exact hquiet.elim
    | enqueued k' line =>
      have hword : firstWord line ≠ text "ORDER_CANCELLED" := by
        intro he
        have hnot : firstWord line ∉ orderWords := hquiet
        rw [he] at hnot
        exact hnot (by decide)
      simp only [Obs.market, if_neg hword, Option.map_none, Option.getD_none, and_self]
    | subscribed k' i =>
      simp only [Obs.market]
      split_ifs <;> exact ⟨rfl, rfl⟩
    | unsubscribed k' i =>
      simp only [Obs.market]
      split_ifs <;> exact ⟨rfl, rfl⟩
    | closed k' =>
      simp only [Obs.market]
      split_ifs <;> exact ⟨rfl, rfl⟩
    | _ => exact ⟨rfl, rfl⟩

private theorem market_enqueued (k k' : Nat) (line : Bytes) :
    Obs.market k (.enqueued k' line) =
      if firstWord line = text "ORDER_CANCELLED" then some (.cancelled line) else none := rfl

/-- Of all the entries of an accepted order, its acceptance alone is an event. -/
theorem market_placed (s : Server) (k k' : Nat) (line : Bytes) (o : Order) :
    market k (.received k' line :: s.orderVoice k' o) = [.placed o.anonymous] := by
  have hfills : market k ((s.drawn.submit o).1.flatMap s.fillVoice) = [] := by
    rw [market, List.filterMap_eq_nil_iff]
    intro entry hentry
    obtain ⟨f, -, hmem⟩ := List.mem_flatMap.mp hentry
    rcases Server.mem_fillVoice hmem with rfl | ⟨k'', side, rfl⟩ | ⟨k'', rfl⟩
    · rfl
    · rw [market_enqueued, if_neg]
      intro hword
      have hreport := Server.firstWord_reportLine f side
      rw [hword] at hreport
      exact absurd hreport (by decide)
    · rw [market_enqueued, if_neg]
      rw [firstWord_msgTrade]
      decide
  have haccepted : market k [.received k' line, .placed k' o,
      .enqueued k' (msgOrderAccepted o.id)] = [.placed o.anonymous] := by
    have hword : Obs.market k (.enqueued k' (msgOrderAccepted o.id)) = none := by
      rw [market_enqueued, if_neg]
      rw [firstWord_msgOrderAccepted]
      decide
    simp only [market, List.filterMap_cons, List.filterMap_nil, hword]
    rfl
  have hentries : .received k' line :: s.orderVoice k' o =
      [.received k' line, .placed k' o, .enqueued k' (msgOrderAccepted o.id)] ++
        (s.drawn.submit o).1.flatMap s.fillVoice := rfl
  rw [hentries, market_append, hfills, haccepted, List.append_nil]

private theorem market_cancelled (k k' : Nat) (line : Bytes) (oid : Int) :
    market k [.received k' line, .enqueued k' (msgOrderCancelled oid)] =
      [.cancelled (msgOrderCancelled oid)] := by
  have hword : Obs.market k (.enqueued k' (msgOrderCancelled oid)) =
      some (.cancelled (msgOrderCancelled oid)) := by
    rw [market_enqueued, if_pos (firstWord_msgOrderCancelled oid)]
  simp only [market, List.filterMap_cons, List.filterMap_nil, hword]
  rfl

/-! ## The book -/

section Book

open Reference

/-- The tape holds the orders of the book without their owners. -/
def Matches (t : Tape) (b : OrderBook) : Prop :=
  ∃ r, Refines b r ∧ t.book = r.renamed .nobody

variable {t : Tape} {b : OrderBook} {d : Issued}

/-- The tape does not see the order of the table. -/
theorem Matches.rehash (h : t.Matches b) (order : List Bytes) : t.Matches (b.rehash order) := by
  obtain ⟨r, hrefines, hbook⟩ := h
  refine ⟨r, ⟨hrefines.next, fun key => ?_⟩, hbook⟩
  exact (level_rehash b order key).trans (hrefines.level key)

/-- A cancel that succeeds takes the orders with the id out of the list. -/
theorem reference_cancelled {r : Reference} {oid fd : Int} {seq : UInt64}
    (hok : (r.cancel oid fd seq).1 = true) :
    (r.cancel oid fd seq).2 = { r with orders := r.orders.filter fun x => x.id ≠ oid } := by
  unfold Reference.cancel at hok ⊢
  cases hfind : r.orders.find? fun x => x.id = oid with
  | none =>
    rw [hfind] at hok
    cases hok
  | some x =>
    rw [hfind] at hok
    dsimp only at hok ⊢
    split at hok
    · rename_i howner
      rw [if_pos howner]
    · cases hok

/-- The reply to a cancel names the order that the book has lost. -/
theorem Matches.cancelled (h : t.Matches b) (hid : Identified b d)
    (hnonneg : ∀ x, b.Rests x → 0 ≤ x.id) {oid fd : Int} {seq : UInt64} (hoid : 0 ≤ oid)
    (hok : (b.cancel oid fd seq).1 = true) :
    (t.step (.cancelled (msgOrderCancelled oid))).Matches (b.cancel oid fd seq).2 := by
  obtain ⟨r, hrefines, hbook⟩ := h
  obtain ⟨hreply, hrefines'⟩ := hrefines.cancel hid oid fd seq
  refine ⟨(r.cancel oid fd seq).2, hrefines', ?_⟩
  have hids : ∀ x ∈ r.orders, (msgOrderCancelled x.id ≠ msgOrderCancelled oid ↔ x.id ≠ oid) := by
    intro x hx
    have hrests : 0 ≤ x.id := hnonneg x ⟨x.key, hrefines.mem_level hx⟩
    exact not_congr ⟨msgOrderCancelled_inj hrests hoid, fun heq => by rw [heq]⟩
  rw [step, hbook, reference_cancelled (hreply.symm.trans hok)]
  simp only [Reference.renamed, Reference.mk.injEq, true_and]
  rw [List.filter_map]
  refine congrArg _ (List.filter_congr fun x hx => ?_)
  exact decide_eq_decide.mpr (hids x hx)

/-- An accepted order trades on the tape as in the book. -/
theorem Matches.placed (h : t.Matches b) (hid : Identified b d) (o : Order) :
    (t.step (.placed o.anonymous)).Matches (b.nextId.2.submit o).2 ∧
      (t.step (.placed o.anonymous)).lines = t.lines ++
        ((b.nextId.2.submit o).1.filter fun f => t.follows f.instrument).map tradeLine := by
  obtain ⟨r, hrefines, hbook⟩ := h
  have hcall : IsCall .nextId := trivial
  have hdrawn : Refines b.nextId.2 (r.apply .nextId) := (hrefines.apply hid hcall).1
  have hsubmit : ((r.renamed .nobody).apply .nextId).submit o.anonymous =
      (((r.apply .nextId).submit o).1.map (Fill.renamed .nobody),
        ((r.apply .nextId).submit o).2.renamed .nobody) :=
    submit_renamed .nobody (r.apply .nextId) o
  refine ⟨⟨_, hdrawn.submit o, ?_⟩, ?_⟩
  · rw [step, hbook, hsubmit]
  · rw [step, hbook, hsubmit, hdrawn.submit_fills, List.filter_map, List.map_map]
    rfl

end Book

end Tape

namespace Server

open Tape

variable {s s' : Server} {a : Action} {k : Nat}

/-! ## The server and the tape -/

/-- Who follows an instrument can be told from the connection's own commands. -/
theorem follows_read (hs : Reachable s) (i : Bytes) :
    (read k s.history).follows i = s.follows k i := by
  have hrecorded := hs.recorded
  have hlistening := hs.listening
  rw [Bool.eq_iff_iff, Tape.follows, Bool.and_eq_true, Bool.not_eq_true', Bool.eq_false_iff, Ne,
    left_read, decide_eq_true_iff, mem_following_read, follows_iff]
  constructor
  · rintro ⟨hopen, hsub⟩
    have hlt : k < s.accepted := by
      by_contra hge
      exact hlistening.future k (not_lt.mp hge) i hsub
    obtain ⟨fd, c, hc, rfl⟩ := connected_iff.mp ((hrecorded.connected k).mpr ⟨hlt, hopen⟩)
    have hview : s.view.sessions.lookup fd = some c.profile := lookup_view_of hc
    have hmem : i ∈ c.subscriptions := (hlistening.current fd c.profile hview i).mpr hsub
    have hexclusive : c.profile.Exclusive := exclusive_stable.reachable hs fd c.profile hview
    exact ⟨fd, c, hc, rfl, hexclusive.subscriptions (Finset.ne_empty_of_mem hmem), hmem⟩
  · rintro ⟨fd, c, hc, rfl, -, hmem⟩
    have hview : s.view.sessions.lookup fd = some c.profile := lookup_view_of hc
    exact ⟨((hrecorded.connected c.conn).mp (connected_iff.mpr ⟨fd, c, hc, rfl⟩)).2,
      (hlistening.current fd c.profile hview i).mp hmem⟩

/-- The tape has kept in step with the server. -/
structure Taped (k : Nat) (s : Server) : Prop where
  book : (read k s.history).Matches s.book
  lines : (read k s.history).lines = tradeLines k s.history

/-- An action keeps the tape in step with the server. -/
theorem Taped.act (hs : Reachable s) (h : Taped k s.view) (a : Action) :
    Taped k (s.act a).view := by
  obtain ⟨obs, hhistory, heffect⟩ := act_effect s a
  have hbook : (read k s.history).Matches s.book := h.book
  have hprinted : (read k s.history).lines = tradeLines k s.history := h.lines
  have hidentified := hs.tracked.chronological.identified
  have hlines := tradeLines_act hs.consistent k a
  rw [followed, bookFills, since_of_append hhistory, ← hprinted] at hlines
  have hread : read k (s.act a).history = run step (read k s.history) (market k obs) := by
    rw [hhistory, read_append]
  -- It is enough to look at the book and at the entries that the action has added.
  suffices hafter : (read k (s.act a).history).Matches (s.act a).book ∧
      (read k (s.act a).history).lines = tradeLines k (s.act a).history from
    ⟨hafter.1, hafter.2⟩
  generalize (s.act a).book = book at heffect
  cases heffect with
  | quiet hobs =>
    obtain ⟨hsame, hsilent⟩ := read_quiet (k := k) (h := s.history) hobs
    rw [← hhistory] at hsame hsilent
    rw [placedOrders_quiet hobs] at hlines
    refine ⟨?_, hsilent.trans (hlines.trans (List.append_nil _)).symm⟩
    rw [Matches, hsame]
    exact hbook
  | rehashed order =>
    rw [hread]
    exact ⟨hbook.rehash order, (hlines.trans (List.append_nil _)).symm⟩
  | @cancelled fd c line oid hc hoid hok =>
    have hnonneg : ∀ x, s.book.Rests x → 0 ≤ x.id := fun x hx => hs.tracked.id_nonneg hx
    rw [hread, market_cancelled]
    exact ⟨hbook.cancelled hidentified hnonneg hoid hok, (hlines.trans (List.append_nil _)).symm⟩
  | @placed fd c line o hc hline hid howner =>
    obtain ⟨hmatches, hprints⟩ := hbook.placed hidentified o
    rw [placedOrders_placed, List.flatMap_singleton] at hlines
    simp only [follows_read hs] at hprints
    rw [hread, market_placed]
    exact ⟨hmatches, hprints.trans hlines.symm⟩

private theorem Reachable.taped (h : Reachable s) (k : Nat) : Taped k s.view := by
  obtain ⟨kq, listenFd, sends, actions, rfl⟩ := h
  have hstart : Taped k (Server.start kq listenFd sends).view :=
    ⟨⟨{}, Reference.refines_empty, rfl⟩, rfl⟩
  have hrun := run_invariant (P := fun s : Server => Reachable s ∧ Taped k s.view)
    (fun s a hs => ⟨hs.1.reaches (.act s a), hs.2.act hs.1 a⟩)
    ⟨.start kq listenFd sends, hstart⟩ actions
  exact hrun.2

/-- The trades that a connection is sent are told by the accepted orders and the cancellations
without their owners, and by its own subscriptions. -/
theorem tradeLines_read (h : Reachable s) (k : Nat) :
    tradeLines k s.history = (read k s.history).lines := (h.taped k).lines.symm

/-- Books fed with the same operations up to the owners, whose cancels succeed alike and whose
removals hit the same orders, stay the same up to the owners and answer the same up to the
owners; and in servers whose accepted orders and cancellations are the same up to the owners,
connections that have subscribed alike are sent the same TRADE lines. -/
theorem trades_blind_to_owners :
    (∀ ops₁ ops₂ : List BookOp, List.Forall₂ BookOp.Resembles ops₁ ops₂ →
      Runs.outputs OrderBook.apply cancelled? {} ops₁ =
        Runs.outputs OrderBook.apply cancelled? {} ops₂ →
      Runs.outputs OrderBook.apply marked? {} ops₁ =
        Runs.outputs OrderBook.apply marked? {} ops₂ →
      (Runs.outputs OrderBook.apply OrderBook.reply {} ops₁).map BookReply.anonymous =
          (Runs.outputs OrderBook.apply OrderBook.reply {} ops₂).map BookReply.anonymous ∧
        ∀ n, (run OrderBook.apply {} (ops₁.take n)).anonymous =
          (run OrderBook.apply {} (ops₂.take n)).anonymous) ∧
    ∀ s₁ s₂ : Server, Reachable s₁ → Reachable s₂ → ∀ k₁ k₂,
      market k₁ s₁.history = market k₂ s₂.history →
      tradeLines k₁ s₁.history = tradeLines k₂ s₂.history := by
  refine ⟨fun ops₁ ops₂ hops hcancels hremovals => ?_, fun s₁ s₂ h₁ h₂ k₁ k₂ hmarket => ?_⟩
  · exact run_anonymous rfl hops hcancels hremovals
  · rw [tradeLines_read h₁, tradeLines_read h₂, Tape.read, Tape.read, hmarket]

/-- A trade with oneself, and the same orders from two traders. -/
theorem trades_blind_to_owners_self_trade :
    (let ops₁ : List BookOp := [.submit ⟨0, .buy, text "JNST", 5, 10, 5, 1⟩,
        .submit ⟨1, .sell, text "JNST", 3, 10, 5, 1⟩, .cancel 0 5 1]
      let ops₂ : List BookOp := [.submit ⟨0, .buy, text "JNST", 5, 10, 5, 1⟩,
        .submit ⟨1, .sell, text "JNST", 3, 10, 6, 2⟩, .cancel 0 5 1]
      (Runs.outputs OrderBook.apply OrderBook.reply {} ops₁).map BookReply.anonymous =
        (Runs.outputs OrderBook.apply OrderBook.reply {} ops₂).map BookReply.anonymous) ∧
    let buy : Chunk := ⟨text "BUY JNST 15 50\n", by decide, by decide⟩
    let sell : Chunk := ⟨text "SELL JNST 5 50\n", by decide, by decide⟩
    let cancel : Chunk := ⟨text "CANCEL 0\n", by decide, by decide⟩
    let subscribe : Chunk := ⟨text "SUBSCRIBE JNST\n", by decide, by decide⟩
    let s₁ := run act (start 3 4 []) [.accept 5, .accept 6, .feed 6 subscribe, .line 6,
      .feed 5 buy, .line 5, .feed 5 sell, .line 5, .feed 5 cancel, .line 5]
    let s₂ := run act (start 3 4 []) [.accept 5, .feed 5 subscribe, .line 5, .accept 6, .accept 7,
      .feed 7 buy, .line 7, .feed 6 sell, .line 6, .feed 7 cancel, .line 7]
    tradeLines 1 s₁.history = tradeLines 0 s₂.history := by
  refine ⟨?_, ?_⟩
  · intro ops₁ ops₂
    have hops : List.Forall₂ BookOp.Resembles ops₁ ops₂ :=
      .cons (.submit rfl) (.cons (.submit rfl) (.cons (.cancel 0 5 5 1 1) .nil))
    have hcancels : Runs.outputs OrderBook.apply cancelled? {} ops₁ =
        Runs.outputs OrderBook.apply cancelled? {} ops₂ := by decide
    exact (trades_blind_to_owners.1 ops₁ ops₂ hops hcancels rfl).1
  · intro buy sell cancel subscribe s₁ s₂
    have h₁ : Reachable s₁ := ⟨3, 4, [], _, rfl⟩
    have h₂ : Reachable s₂ := ⟨3, 4, [], _, rfl⟩
    have hmarket : market 1 s₁.history = market 0 s₂.history := by decide
    exact trades_blind_to_owners.2 s₁ s₂ h₁ h₂ 1 0 hmarket

/-- Removing a descriptor's orders does look at the owners. -/
theorem removal_not_blind_to_owners :
    let ops : Int → List BookOp := fun fd =>
      [.submit ⟨0, .buy, text "JNST", 5, 10, fd, 1⟩, .removeOrdersOf 5]
    List.Forall₂ BookOp.Resembles (ops 5) (ops 7) ∧
      Runs.outputs OrderBook.apply cancelled? {} (ops 5) =
        Runs.outputs OrderBook.apply cancelled? {} (ops 7) ∧
      (run OrderBook.apply {} (ops 5)).anonymous ≠ (run OrderBook.apply {} (ops 7)).anonymous := by
  intro ops
  refine ⟨.cons (.submit rfl) (.cons (.removeOrdersOf 5 5) .nil), rfl, fun hsame => ?_⟩
  have hlevel := congrArg (fun b : OrderBook => b.level ⟨text "JNST", .buy, 10⟩) hsame
  exact absurd hlevel (by decide)

end Server

end SocketExchange
