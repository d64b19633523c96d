import SocketExchange.Service.Orders

/-!
# Execution reports

Each fill is reported to the connection that placed the BUY and to the one that placed
the SELL, if they are still there, and to nobody else. A later connection that was
given the descriptor of one that has gone is not mistaken for it, as long as the
sequence numbers have not wrapped.
-/

namespace SocketExchange

open Containers ClientSession Runs OrderBook

/-- The entry is a fill or the private report of one. -/
def Obs.IsReport : Obs → Prop
  | .filled _ => True
  | .enqueued _ line => firstWord line = text "BOUGHT" ∨ firstWord line = text "SOLD"
  | _ => False

private theorem Obs.Quiet.not_isReport {o : Obs} (h : o.Quiet) : ¬ o.IsReport := by
  cases o with
  | filled => exact h.elim
  | enqueued k line =>
    have hline : firstWord line ∉ orderWords := h
    rintro (hword | hword) <;> rw [hword] at hline <;> exact hline (by decide)
  | _ => exact id

/-- A fill with the resting order it consumed and the connection that had placed it. -/
structure Trade where
  fill : Fill
  resting : Order
  maker : Nat

/-- The connection on a side of a trade, of which `taker` placed the incoming order. -/
def Trade.conn (t : Trade) (taker : Nat) (o : Order) (side : Side) : Nat :=
  if side = o.side then taker else t.maker

/-- From one book to the other no order has been submitted: it is the same, its tables have been
rearranged, or one order has been asked to be cancelled. -/
inductive OrderBook.Unsubmitted (b : OrderBook) : OrderBook → Prop
  | same : Unsubmitted b b
  | rehashed (order : List Bytes) : Unsubmitted b (b.rehash order)
  | cancelled (orderId fd : Int) (seq : UInt64) : Unsubmitted b (b.cancel orderId fd seq).2

namespace Server

/-- A line for a connection, if it is still open. -/
def lineTo (s : Server) (k : Nat) (line : Bytes) : List Obs :=
  if s.connected k then [.enqueued k line] else []

/-- The entries of a trade. -/
def tradeEntries (s : Server) (taker : Nat) (o : Order) (t : Trade) : List Obs :=
  .filled t.fill :: s.lineTo (t.conn taker o .buy) (reportLine t.fill .buy) ++
    s.lineTo (t.conn taker o .sell) (reportLine t.fill .sell) ++ s.tradeVoice t.fill

/-- The entries of an action and the book it leaves. Either no order is placed: the book is not
given an order, so that there is no fill, and no entry reports one. Or an order `o` is accepted
from the open connection `k` under the next id and submitted, and the entries are its acceptance,
then each of the fills that the book returns, with the reports to the connections that placed the
two orders, the oldest resting order first. -/
def Reported (s : Server) (book : OrderBook) (obs : List Obs) : Prop :=
  (s.book.Unsubmitted book ∧ placedOrders obs = [] ∧ ∀ o ∈ obs, ¬ o.IsReport) ∨
    ∃ k line o, ∃ trades : List Trade,
      obs = [.received k line, .placed k o, .enqueued k (msgOrderAccepted o.id)] ++
        trades.flatMap (s.tradeEntries k o) ∧
      s.connected k = true ∧ Places line o ∧ o.id = s.book.nextId_ ∧
      book = (s.book.nextId.2.submit o).2 ∧
      trades.map (·.fill) = (s.book.nextId.2.submit o).1 ∧
      trades.map (·.resting) <+: s.book.level o.key.opposite ∧
      ∀ t ∈ trades, (∃ q, t.fill = fillOf o t.resting q) ∧
        ∃ r, .placed t.maker r ∈ s.history ∧ t.resting = r.withQty t.resting.qty

variable {s : Server}

/-! ## Owners and connections -/

/-- The session that an open connection's owner fields lead to is that connection's. -/
theorem ownerVoice_eq_lineTo (hc : Consistent s) (hacc : s.accepted ≤ 2 ^ 64) {k : Nat}
    {ownerFd : Int} (hk : k < s.accepted)
    (hfd : ∀ fd c, s.sessions.lookup fd = some c → c.conn = k → ownerFd = fd) (line : Bytes) :
    s.ownerVoice (ownerFd, seqOf k) line = s.lineTo k line := by
  unfold ownerVoice lineTo
  cases hlookup : s.sessions.lookup ownerFd with
  | none =>
    have hgone : ¬ s.connected k = true := by
      rw [connected_iff]
      rintro ⟨fd, c, hc', hconn⟩
      rw [hfd fd c hc' hconn, hc'] at hlookup
      cases hlookup
    rw [if_neg hgone]
  | some c =>
    have hconn : s.connected k = true ↔ c.conn = k := by
      rw [connected_iff]
      refine ⟨?_, fun h => ⟨ownerFd, c, hlookup, h⟩⟩
      rintro ⟨fd, c', hc', hconn⟩
      rw [hfd fd c' hc' hconn, hc'] at hlookup
      exact Option.some.inj hlookup ▸ hconn
    have hseq : c.sessionSeq = seqOf k ↔ c.conn = k := by
      rw [hc.sequenced ownerFd c hlookup]
      have hlt := hc.numbered ownerFd c hlookup
      exact ⟨seqOf_inj (by omega) (by omega), congrArg seqOf⟩
    by_cases he : c.conn = k
    · simp only [hseq.mpr he, hconn.mpr he, if_true, he]
    · dsimp only
      rw [if_neg fun h => he (hseq.mp h), if_neg fun h => he (hconn.mp h)]

/-- The reports of a fill go to the connections on its two sides. -/
theorem fillVoice_eq_tradeEntries (hc : Consistent s) (ht : Tracked s)
    (hacc : s.accepted ≤ 2 ^ 64) {fd : Int} {c : ClientSession}
    (hsession : s.sessions.lookup fd = some c) {o r : Order}
    (howner : o.OwnedBy c.fd c.sessionSeq) {t : Trade} {q : Int}
    (hfill : t.fill = fillOf o t.resting q) (hmaker : (t.maker, r) ∈ placedOrders s.history)
    (hresting : t.resting = r.withQty t.resting.qty) :
    s.fillVoice t.fill = s.tradeEntries c.conn o t := by
  have htaker : ∀ line, s.ownerVoice (o.ownerFd, o.ownerSeq) line = s.lineTo c.conn line := by
    intro line
    rw [howner.1, howner.2, hc.sequenced fd c hsession, hc.keyed fd c hsession]
    refine ownerVoice_eq_lineTo hc hacc (hc.numbered fd c hsession) ?_ line
    exact fun fd' c' hc' hconn => hc.distinct fd fd' c c' hsession hc' hconn.symm
  have hmaker' : ∀ line, s.ownerVoice (t.resting.ownerFd, t.resting.ownerSeq) line =
      s.lineTo t.maker line := by
    intro line
    obtain ⟨hk, hseq, hfd⟩ := ht.owner t.maker r hmaker
    rw [hresting, Order.withQty_ownerFd, Order.withQty_ownerSeq, hseq]
    exact ownerVoice_eq_lineTo hc hacc hk hfd line
  have hside : ∀ side line, s.ownerVoice (t.fill.party side) line =
      s.lineTo (t.conn c.conn o side) line := by
    intro side line
    rw [Trade.conn, hfill]
    by_cases hs : side = o.side
    · rw [if_pos hs, hs, fillOf_party_own, htaker]
    · rw [if_neg hs, (side.eq_or_eq_opposite o.side).resolve_left hs, fillOf_party_opposite,
        hmaker']
  rw [fillVoice, tradeEntries, hside, hside]

/-! ## The main result -/

@[simp] theorem tradeVoice_view (f : Fill) : s.view.tradeVoice f = s.tradeVoice f := by
  have hfollower : s.view.follower f.instrument = s.follower f.instrument := by
    funext fd
    rw [follower, follower, lookup_view]
    cases s.sessions.lookup fd <;> rfl
  rw [tradeVoice, tradeVoice, followers, followers, keys_view, hfollower]

private theorem tradeEntries_view (taker : Nat) (o : Order) (t : Trade) :
    s.view.tradeEntries taker o t = s.tradeEntries taker o t := by
  simp only [tradeEntries, lineTo, connected_view, tradeVoice_view]

/-- In any run with fewer than 2^64 accepts, every fill that the book returns is reported to the
connections that placed its orders, if they are open, and to nobody else. -/
theorem act_reports_to_placing_connections (hs : Reachable s) (hacc : s.accepted < 2 ^ 64)
    (a : Action) :
    ∃ obs, (s.act a).history = s.history ++ obs ∧ s.Reported (s.act a).book obs := by
  have hc := hs.consistent
  have ht := hs.tracked
  obtain ⟨obs, hhistory, heffect⟩ := act_effect s a
  refine ⟨obs, hhistory, ?_⟩
  generalize (s.act a).book = book at heffect
  cases heffect with
  | quiet hobs =>
    exact Or.inl ⟨.same, placedOrders_quiet hobs, fun o ho => (hobs o ho).not_isReport⟩
  | rehashed order => exact Or.inl ⟨.rehashed order, rfl, fun o ho => by cases ho⟩
  | @cancelled fd c line oid =>
    refine Or.inl ⟨.cancelled oid c.fd c.sessionSeq, rfl, fun o ho => ?_⟩
    rcases List.mem_cons.mp ho with rfl | ho
    · exact id
    · rw [List.mem_singleton.mp ho]
      rintro (h | h) <;> rw [firstWord_msgOrderCancelled] at h <;> exact absurd h (by decide)
  | @placed fd c line o hsession hline hid howner =>
    right
    obtain ⟨pairs, hfills, hprefix, hpairs⟩ := (s.drawn.matching_matched o).counterparties
    have hsubmit : (s.drawn.submit o).1 = pairs.map (·.1) :=
      (submit_fills s.drawn hline.qty_pos).trans hfills
    have hmakers : ∀ p ∈ pairs, ∃ k r, (k, r) ∈ placedOrders s.history ∧
        p.2 = r.withQty p.2.qty := by
      intro p hp
      have hmem : p.2 ∈ s.book.level o.key.opposite :=
        hprefix.subset (List.mem_map_of_mem hp)
      obtain ⟨k, r, hr, he, -⟩ := ht.origin p.2 ⟨_, hmem⟩
      exact ⟨k, r, hr, he⟩
    choose! maker origin hmaker using hmakers
    refine ⟨c.conn, line, o, pairs.map fun p => ⟨p.1, p.2, maker p⟩, ?_, ?_, hline, hid, rfl, ?_,
      ?_, ?_⟩
    · have hvoices : pairs.flatMap (fun p => s.view.fillVoice p.1) =
          pairs.flatMap fun p => s.tradeEntries c.conn o ⟨p.1, p.2, maker p⟩ := by
        refine List.flatMap_congr fun p hp => ?_
        obtain ⟨q, hq⟩ := hpairs p hp
        obtain ⟨hplaced, hresting⟩ := hmaker p hp
        rw [← tradeEntries_view]
        exact fillVoice_eq_tradeEntries (t := ⟨p.1, p.2, maker p⟩) hc ht hacc.le hsession howner hq
          hplaced hresting
      have hdrawn : s.view.drawn = s.drawn := rfl
      rw [orderVoice, hdrawn, hsubmit, List.flatMap_map, List.flatMap_map, hvoices]
      rfl
    · rw [← connected_view, connected_iff]
      exact ⟨fd, c, hsession, rfl⟩
    · rw [List.map_map]
      exact hsubmit.symm
    · rw [List.map_map]
      exact hprefix
    · intro t ht
      obtain ⟨p, hp, rfl⟩ := List.mem_map.mp ht
      obtain ⟨hplaced, hresting⟩ := hmaker p hp
      exact ⟨hpairs p hp, origin p hp, mem_placedOrders.mp hplaced, hresting⟩

/-- A SELL meets the BUY of a connection that has gone and whose descriptor has been given
to another one: the seller is told of the fill, and the stranger is not. -/
theorem act_reports_recycled_descriptor :
    let s := run act (start 3 4 []) [.accept 5,
      .feed 5 ⟨text "BUY JNST 15 50\n", by decide, by decide⟩, .line 5, .drop 5, .accept 5,
      .accept 6, .feed 6 ⟨text "SELL JNST 15 50\n", by decide, by decide⟩]
    let s' := s.act (.line 6)
    (∃ obs, s'.history = s.history ++ obs ∧ s.Reported s'.book obs) ∧
      .enqueued 2 (msgSold (text "JNST") 15 50) ∈ s'.history ∧
      .enqueued 1 (msgBought (text "JNST") 15 50) ∉ s'.history := by
  intro s s'
  have hs : Reachable s := ⟨3, 4, [], _, rfl⟩
  have hacc : s.accepted < 2 ^ 64 := by decide
  exact ⟨act_reports_to_placing_connections hs hacc (.line 6), by decide, by decide⟩

end Server

end SocketExchange
