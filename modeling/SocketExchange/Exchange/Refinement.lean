import SocketExchange.Book.Renaming
import SocketExchange.Exchange.Machine
import SocketExchange.Service.Delivery
import SocketExchange.Service.MarketData
import SocketExchange.Service.Reports

/-!
# The server refines the exchange

The deeds of the clients can be read off the history. Whatever descriptors the kernel hands
out, and whatever becomes of the sends, the server is at any time in the state that the
exchange reaches by these deeds, as long as the sequence numbers tell connections apart.
-/

namespace SocketExchange

open Containers ClientSession Runs OrderBook

/-- What the exchange knows of a session. -/
def ClientSession.member (c : ClientSession) : Member := ⟨c.role, c.username, c.subscriptions⟩

/-- The deed that an entry records. -/
def Obs.deed : Obs → Option Deed
  | .accepted k _ => some (.joins k)
  | .received k line => some (.sends k line)
  | .closed k => some (.leaves k)
  | _ => none

/-- The deeds that a history records, in order. -/
def deeds (history : List Obs) : List Deed := history.filterMap Obs.deed

private theorem deeds_eq_nil {obs : List Obs} (h : ∀ o ∈ obs, o.deed = none) : deeds obs = [] :=
  List.filterMap_eq_nil_iff.mpr h

/-- The deeds of two histories, one after the other. -/
theorem deeds_append (h h' : List Obs) : deeds (h ++ h') = deeds h ++ deeds h' :=
  List.filterMap_append ..

namespace Server

variable {s s' : Server} {e : Exchange} {fd : Int} {c : ClientSession} {k : Nat}

/-! ## Tracing owners -/

/-- The owner fields are those of a connection, as long as it is open. -/
def LeadsTo (s : Server) (party : Int × UInt64) (k : Nat) : Prop :=
  k < s.accepted ∧ party.2 = seqOf k ∧
    ∀ fd c, s.sessions.lookup fd = some c → c.conn = k → party.1 = fd

/-- Sessions and resting orders can be traced to connections by their sequence numbers. -/
structure Traceable (s : Server) : Prop where
  consistent : Consistent s
  identified : Identified s.book ⟨s.book.nextId_, []⟩
  owned : ∀ x, s.book.Rests x → ∃ k, s.LeadsTo (x.ownerFd, x.ownerSeq) k
  unwrapped : s.accepted ≤ 2 ^ 64

/-- A step that keeps the sessions leads the owner fields to the same connection. -/
theorem LeadsTo.keeps {party : Int × UInt64} (h : s.LeadsTo party k) (hkeeps : Keeps s s') :
    s'.LeadsTo party k := by
  obtain ⟨hk, hseq, hfd⟩ := h
  refine ⟨hkeeps.accepted ▸ hk, hseq, fun fd c hc hconn => ?_⟩
  obtain ⟨c₀, hc₀, hcontinues⟩ := hkeeps.sessions fd c hc
  exact hfd fd c₀ hc₀ (hcontinues.conn.symm.trans hconn)

/-- As long as the book stays, so does the trace. -/
theorem Traceable.keeps (h : Traceable s) (hkeeps : Keeps s s') (hbook : s'.book = s.book) :
    Traceable s' where
  consistent := h.consistent.keeps hkeeps
  identified := by
    rw [hbook]
    exact h.identified
  owned x hx := by
    rw [hbook] at hx
    obtain ⟨k, hk⟩ := h.owned x hx
    exact ⟨k, hk.keeps hkeeps⟩
  unwrapped := by
    rw [hkeeps.accepted]
    exact h.unwrapped

/-- Within 2^64 connections every resting order is traced to the connection that placed it. -/
theorem Reachable.traceable (hs : Reachable s) (hacc : s.accepted ≤ 2 ^ 64) :
    Traceable s.view where
  consistent := hs.consistent
  identified := hs.tracked.chronological.identified
  owned x hx := by
    obtain ⟨k, o, ho, he, -⟩ := hs.tracked.origin x hx
    rw [he]
    exact ⟨k, hs.tracked.owner k o ho⟩
  unwrapped := hacc

/-- A session leads to its own connection. -/
theorem Consistent.leadsTo (hs : Consistent s) (hc : s.sessions.lookup fd = some c) :
    s.LeadsTo (c.fd, c.sessionSeq) c.conn := by
  refine ⟨hs.numbered fd c hc, hs.sequenced fd c hc, fun fd' c' hc' hconn => ?_⟩
  rw [hs.keyed fd c hc]
  exact hs.distinct fd fd' c c' hc hc' hconn.symm

/-- Both sides of a fill lead to connections. -/
theorem Traceable.fills (h : Traceable s) (hc : s.sessions.lookup fd = some c) {o : Order}
    (howner : o.OwnedBy c.fd c.sessionSeq) {f : Fill} (hf : f ∈ (s.drawn.submit o).1)
    (side : Side) : ∃ k, s.LeadsTo (f.party side) k := by
  by_cases hpos : 0 < o.qty
  swap
  · rw [submit_of_nonpos _ (Int.not_lt.mp hpos)] at hf
    cases hf
  rw [submit_fills _ hpos] at hf
  obtain ⟨pairs, hfills, hbegins, hpairs⟩ := (s.drawn.matching_matched o).counterparties
  rw [hfills] at hf
  obtain ⟨p, hp, rfl⟩ := List.mem_map.mp hf
  obtain ⟨q, hq⟩ := hpairs p hp
  rw [hq]
  by_cases hside : side = o.side
  · rw [hside, fillOf_party_own, howner.1, howner.2]
    exact ⟨c.conn, h.consistent.leadsTo hc⟩
  · rw [(side.eq_or_eq_opposite o.side).resolve_left hside, fillOf_party_opposite]
    exact h.owned p.2 ⟨_, hbegins.subset (List.mem_map_of_mem hp)⟩

/-! ## The relation -/

/-- The connection of a descriptor and what is known of its client. -/
def roll (s : Server) (fd : Int) : Option (Nat × Member) :=
  (s.sessions.lookup fd).map fun c => (c.conn, c.member)

/-- The roll of a session is its connection and its member. -/
theorem roll_eq (hc : s.sessions.lookup fd = some c) : s.roll fd = some (c.conn, c.member) := by
  rw [roll, hc, Option.map_some]

/-- Only a session is on the roll. -/
theorem roll_eq_some {m : Member} :
    s.roll fd = some (k, m) ↔ ∃ c, s.sessions.lookup fd = some c ∧ c.conn = k ∧ c.member = m := by
  rw [roll, Option.map_eq_some_iff]
  simp only [Prod.mk.injEq]

private theorem roll_update (s : Server) (fd : Int) {f : ClientSession → ClientSession}
    (hf : ∀ c, ((f c).conn, (f c).member) = (c.conn, c.member)) (fd' : Int) :
    (s.update fd f).roll fd' = s.roll fd' := map_lookup_update s fd f hf fd'

/-- The exchange is what its clients see of the server. -/
structure Simulates (s : Server) (e : Exchange) : Prop where
  book : ∃ r, Reference.Refines s.book r ∧ e.book = r.renamed .seqOnly
  accepted : e.accepted = s.accepted
  member : ∀ k m, e.member k = some m ↔ ∃ fd, s.roll fd = some (k, m)
  sent : ∀ k, e.sent k = linesTo k s.history

namespace Simulates

/-- The exchange sees no more of the server than this. -/
theorem congr (h : Simulates s e) (hbook : s'.book = s.book) (haccepted : s'.accepted = s.accepted)
    (hroll : ∀ fd, s'.roll fd = s.roll fd)
    (hsent : ∀ k, linesTo k s'.history = linesTo k s.history) : Simulates s' e where
  book := by
    rw [hbook]
    exact h.book
  accepted := h.accepted.trans haccepted.symm
  member k m := by
    simp only [hroll]
    exact h.member k m
  sent k := (h.sent k).trans (hsent k).symm

/-- The simulation does not see entries without lines. -/
theorem log (h : Simulates s e) (obs : List Obs) (hobs : ∀ k, linesTo k obs = []) :
    Simulates (s.log obs) e := by
  refine h.congr rfl rfl (fun _ => rfl) fun k => ?_
  rw [Server.log, linesTo_append, hobs, List.append_nil]

/-- A line enqueued to a connection is a line sent to that client. -/
theorem say (h : Simulates s e) (k : Nat) (line : Bytes) :
    Simulates (s.log [.enqueued k line]) (e.say k line) where
  book := h.book
  accepted := h.accepted
  member := h.member
  sent k' := by
    rw [Server.log, linesTo_append, linesTo_enqueued, ← h.sent]
    by_cases hk : k' = k
    · rw [hk, Exchange.sent_say, if_pos rfl]
    · rw [Exchange.sent_say_ne e hk, if_neg (Ne.symm hk), List.append_nil]

/-- One connection's entry changes, at the descriptor that is its own before and after. -/
theorem change (h : Simulates s e) (fd : Int) {k₀ : Nat} {m₀ : Option Member}
    (hother : ∀ fd', fd' ≠ fd → s'.roll fd' = s.roll fd')
    (hnew : s'.roll fd = m₀.map fun m => (k₀, m))
    (hat : ∀ fd' m, s.roll fd' = some (k₀, m) → fd' = fd)
    (hof : ∀ k m, s.roll fd = some (k, m) → k = k₀) (k : Nat) (m : Member) :
    Function.update e.member k₀ m₀ k = some m ↔ ∃ fd', s'.roll fd' = some (k, m) := by
  by_cases hk : k = k₀
  · subst hk
    rw [Function.update_self]
    constructor
    · rintro rfl
      exact ⟨fd, hnew⟩
    · rintro ⟨fd', hfd'⟩
      by_cases hne : fd' = fd
      · rw [hne, hnew, Option.map_eq_some_iff] at hfd'
        obtain ⟨m', hm', he⟩ := hfd'
        rw [hm', (Prod.mk.inj he).2]
      · rw [hother fd' hne] at hfd'
        exact absurd (hat fd' m hfd') hne
  · rw [Function.update_of_ne hk, h.member]
    constructor
    · rintro ⟨fd', hfd'⟩
      refine ⟨fd', (hother fd' ?_).trans hfd'⟩
      rintro rfl
      exact hk (hof k m hfd')
    · rintro ⟨fd', hfd'⟩
      by_cases hne : fd' = fd
      · rw [hne, hnew, Option.map_eq_some_iff] at hfd'
        obtain ⟨m', -, he⟩ := hfd'
        exact absurd (Prod.mk.inj he).1.symm hk
      · exact ⟨fd', (hother fd' hne).symm.trans hfd'⟩

/-- A session opened is a client that joins. -/
theorem joins (h : Simulates s e) (hs : Consistent s) {cfd : Int} (hfree : s.Free cfd) :
    Simulates (s.join cfd) (e.step (.joins s.accepted)) where
  book := h.book
  accepted := congrArg (· + 1) h.accepted
  member := by
    refine h.change cfd (fun fd' hne => ?_) ?_ (fun fd' m hfd' => ?_) fun k m hcfd => ?_
    · rw [roll, join, AList.lookup_insert_ne hne, roll]
    · rw [roll, join, AList.lookup_insert]
      rfl
    · obtain ⟨c, hc, hconn, -⟩ := roll_eq_some.mp hfd'
      exact absurd (hs.numbered fd' c hc) (by rw [hconn]; exact lt_irrefl _)
    · rw [roll, hfree.2.2] at hcfd
      cases hcfd
  sent k := by
    rw [join, linesTo_append, ← h.sent]
    exact (List.append_nil _).symm

/-- The descriptor of a connection is the only one with its entry. -/
theorem roll_inj (hs : Consistent s) (hc : s.sessions.lookup fd = some c) {fd' : Int} {m : Member}
    (hfd' : s.roll fd' = some (c.conn, m)) : fd' = fd := by
  obtain ⟨c', hc', hconn, -⟩ := roll_eq_some.mp hfd'
  exact hs.distinct fd' fd c' c hc' hc hconn

/-- A session forgotten is a client that leaves. -/
theorem leaves (h : Simulates s e) (hs : Consistent s) (hc : s.sessions.lookup fd = some c) :
    Simulates (s.forget fd) (e.step (.leaves c.conn)) := by
  rw [forget_eq hc]
  refine ⟨h.book, h.accepted, ?_, fun k => ?_⟩
  · refine h.change fd (fun fd' hne => ?_) ?_ (fun fd' m => roll_inj hs hc) fun k m hfd => ?_
    · rw [roll, lookup_log, eraseSession, AList.lookup_erase_ne hne, roll]
    · rw [roll, lookup_log, eraseSession, AList.lookup_erase]
      rfl
    · rw [roll_eq hc] at hfd
      exact (Prod.mk.inj (Option.some.inj hfd)).1.symm
  · rw [Server.log, linesTo_append]
    exact (h.sent k).trans (List.append_nil _).symm

/-- A session changed is a member enrolled anew. -/
theorem enroll (h : Simulates s e) (hs : Consistent s) (hc : s.sessions.lookup fd = some c)
    {f : ClientSession → ClientSession} (hf : (f c).conn = c.conn) :
    Simulates (s.update fd f) (e.enroll c.conn (f c).member) where
  book := h.book
  accepted := h.accepted
  member := by
    refine h.change fd (fun fd' hne => ?_) ?_ (fun fd' m => roll_inj hs hc) fun k m hfd => ?_
    · rw [roll, lookup_update_ne s hne, roll]
    · rw [roll, lookup_update_self, hc, Option.map_some, Option.map_some, hf, Option.map_some]
    · rw [roll_eq hc] at hfd
      exact (Prod.mk.inj (Option.some.inj hfd)).1.symm
  sent := h.sent

end Simulates

/-! ## Fills -/

/-- The report of a fill to an owner reaches the connection with the owner's number. -/
theorem Traceable.linesTo_ownerVoice (h : Traceable s) {party : Int × UInt64} {k' : Nat}
    (hparty : s.LeadsTo party k') (k : Nat) (line : Bytes) :
    linesTo k (s.ownerVoice party line) =
      if s.connected k = true ∧ party.2 = seqOf k then [line] else [] := by
  obtain ⟨ownerFd, ownerSeq⟩ := party
  obtain ⟨hk', rfl, hfd⟩ := hparty
  have hnone : linesTo k [] = [] := rfl
  rw [ownerVoice_eq_lineTo h.consistent h.unwrapped hk' hfd line, lineTo]
  by_cases hk : k' = k
  · subst hk
    cases s.connected k' with
    | true => simp only [if_true, linesTo_enqueued, and_self]
    | false => simp only [Bool.false_eq_true, if_false, false_and, hnone]
  · have hother : ¬ (s.connected k = true ∧ seqOf k' = seqOf k) := by
      rintro ⟨hopen, hseq⟩
      have hlt := h.consistent.connected_lt hopen
      have hbound := h.unwrapped
      exact hk (seqOf_inj (by omega) (by omega) hseq)
    rw [if_neg hother]
    split
    · rw [linesTo_enqueued, if_neg hk]
    · exact hnone

/-- A fill is told to a connection as a TRADE when it follows the instrument. -/
theorem Consistent.linesTo_tradeVoice (h : Consistent s) (k : Nat) (f : Fill) :
    linesTo k (s.tradeVoice f) =
      if s.follows k f.instrument = true then [msgTrade f.instrument f.qty f.price] else [] := by
  have htrade : linesTo k (s.tradeVoice f) = if k ∈ s.followers f.instrument then
      [msgTrade f.instrument f.qty f.price] else [] :=
    linesWhere_map_enqueued (fun _ => rfl) (nodup_followers h f.instrument)
  rw [htrade]
  simp only [mem_followers]

/-- Everybody hears of a fill what the exchange says. -/
theorem Simulates.reports (h : Simulates s e) (ht : Traceable s) {f : Fill}
    (hf : ∀ side, ∃ k, s.LeadsTo (f.party side) k) (k : Nat) :
    linesTo k (s.fillVoice f) = e.reports k (f.renamed .seqOnly) := by
  obtain ⟨buyer, hbuyer⟩ := hf .buy
  obtain ⟨seller, hseller⟩ := hf .sell
  have hfilled : linesTo k [.filled f] = [] := rfl
  rw [fillVoice, ← List.singleton_append]
  simp only [linesTo_append, hfilled, List.nil_append, ht.linesTo_ownerVoice hbuyer,
    ht.linesTo_ownerVoice hseller, ht.consistent.linesTo_tradeVoice]
  cases hm : e.member k with
  | none =>
    have hgone : ∀ fd c, s.sessions.lookup fd = some c → c.conn ≠ k := by
      rintro fd c hc rfl
      rw [(h.member _ _).mpr ⟨fd, roll_eq hc⟩] at hm
      cases hm
    have hconnected : ¬ s.connected k = true := by
      rw [connected_iff]
      rintro ⟨fd, c, hc, hconn⟩
      exact hgone fd c hc hconn
    have hfollows : ¬ s.follows k f.instrument = true := by
      rw [follows_iff]
      rintro ⟨fd, c, hc, hconn, -⟩
      exact hgone fd c hc hconn
    simp only [hconnected, hfollows, Bool.false_eq_true, false_and, if_false, List.append_nil,
      Exchange.reports, hm]
  | some m =>
    obtain ⟨fd, hfd⟩ := (h.member k m).mp hm
    obtain ⟨c, hc, rfl, rfl⟩ := roll_eq_some.mp hfd
    have hconnected : s.connected c.conn = true := connected_iff.mpr ⟨fd, c, hc, rfl⟩
    have hfollows : s.follows c.conn f.instrument = true ↔ c.member.Follows f.instrument := by
      rw [follows_iff]
      constructor
      · rintro ⟨fd', c', hc', hconn, hfollows⟩
        obtain rfl := ht.consistent.distinct fd' fd c' c hc' hc hconn
        rw [hc] at hc'
        exact Option.some.inj hc' ▸ hfollows
      · exact fun hfollows => ⟨fd, c, hc, rfl, hfollows⟩
    simp only [hconnected, hfollows, true_and, Exchange.reports, hm]
    rfl

/-- The lines to a connection from several origins are those from each, in order. -/
theorem linesTo_flatMap {α : Type} (k : Nat) (xs : List α) (g : α → List Obs) :
    linesTo k (xs.flatMap g) = xs.flatMap fun x => linesTo k (g x) := List.filterMap_flatMap

/-- An order is accepted and traded as in the exchange. -/
theorem Simulates.place (h : Simulates s e) (ht : Traceable s)
    (hc : s.sessions.lookup fd = some c) (side : Side) (instrument : Bytes) (qty price : Int) :
    Simulates (s.accept c (s.ordered c side instrument qty price))
      (e.place c.conn (e.ordered c.conn side instrument qty price)) := by
  obtain ⟨r, hr, hbook⟩ := h.book
  let o := s.ordered c side instrument qty price
  let r' : Reference := { r with nextId_ := r.nextId_ + 1 }
  have hr' : Reference.Refines s.drawn r' := ⟨congrArg (· + 1) hr.next, hr.level⟩
  have ho : e.ordered c.conn side instrument qty price = o.renamed .seqOnly := by
    have hnext : e.book.nextId_ = s.book.nextId_ := by
      rw [hbook]
      exact hr.next.symm
    rw [Exchange.ordered, hnext, ← ht.consistent.sequenced fd c hc]
    rfl
  have hsubmit : ({ e.book with nextId_ := e.book.nextId_ + 1 } : Reference).submit
      (e.ordered c.conn side instrument qty price) =
        ((s.drawn.submit o).1.map (Fill.renamed .seqOnly), (r'.submit o).2.renamed .seqOnly) := by
    have hdrawn : ({ e.book with nextId_ := e.book.nextId_ + 1 } : Reference) =
        r'.renamed .seqOnly := by
      rw [hbook]
      rfl
    rw [hdrawn, ho, Reference.submit_renamed, hr'.submit_fills]
  refine ⟨⟨_, hr'.submit o, congrArg Prod.snd hsubmit⟩, h.accepted, h.member, fun k => ?_⟩
  have hreports : ((s.drawn.submit o).1.map (Fill.renamed .seqOnly)).flatMap (e.reports k) =
      linesTo k ((s.drawn.submit o).1.flatMap s.fillVoice) := by
    rw [linesTo_flatMap, List.flatMap_map]
    refine List.flatMap_congr fun f hf => (h.reports ht (fun side => ?_) k).symm
    exact ht.fills hc ⟨rfl, rfl⟩ hf side
  have hhistory : (s.accept c o).history =
      s.history ++ ([.placed c.conn o, .enqueued c.conn (msgOrderAccepted o.id)] ++
        (s.drawn.submit o).1.flatMap s.fillVoice) := rfl
  have hid : (e.ordered c.conn side instrument qty price).id = o.id := by rw [ho]; rfl
  have hsaid := (h.say c.conn (msgOrderAccepted o.id)).sent k
  have hplaced : linesTo k [.placed c.conn o, .enqueued c.conn (msgOrderAccepted o.id)] =
      linesTo k [.enqueued c.conn (msgOrderAccepted o.id)] := rfl
  rw [hhistory, linesTo_append, linesTo_append, hplaced, ← hreports, ← List.append_assoc,
    ← linesTo_append]
  simp only [Exchange.place, hsubmit, hid]
  rw [hsaid]
  rfl

/-! ## Lines -/

/-- Cancels have the same outcome. -/
theorem Simulates.cancel (h : Simulates s e) (ht : Traceable s)
    (hc : s.sessions.lookup fd = some c) (oid : Int) :
    (e.book.cancel oid 0 (seqOf c.conn)).1 = (s.book.cancel oid c.fd c.sessionSeq).1 ∧
      ∃ r, Reference.Refines (s.book.cancel oid c.fd c.sessionSeq).2 r ∧
        (e.book.cancel oid 0 (seqOf c.conn)).2 = r.renamed .seqOnly := by
  obtain ⟨r, hr, hbook⟩ := h.book
  have hseq := ht.consistent.sequenced fd c hc
  have howner : ∀ x ∈ r.orders, x.OwnedBy c.fd c.sessionSeq ↔
      (x.renamed .seqOnly).OwnedBy 0 (seqOf c.conn) := by
    intro x hx
    constructor
    · rintro ⟨-, hown⟩
      exact ⟨rfl, hown.trans hseq⟩
    · rintro ⟨-, hown⟩
      have hown' : x.ownerSeq = seqOf c.conn := hown
      obtain ⟨k, hk, hseqk, hfd⟩ := ht.owned x ⟨x.key, hr.mem_level hx⟩
      have hlt := ht.consistent.numbered fd c hc
      have hbound := ht.unwrapped
      have hconn : c.conn = k := seqOf_inj (by omega) (by omega) (hown'.symm.trans hseqk)
      exact ⟨(hfd fd c hc hconn).trans (ht.consistent.keyed fd c hc).symm, hown'.trans hseq.symm⟩
  obtain ⟨hok, hrefines⟩ := hr.cancel ht.identified oid c.fd c.sessionSeq
  rw [hbook, Reference.cancel_renamed _ _ howner]
  exact ⟨hok.symm, _, hrefines, rfl⟩

/-- The exchange decides from the same standing as the server. -/
theorem Simulates.standing (h : Simulates s e) (ht : Traceable s)
    (hc : s.sessions.lookup fd = some c) : e.standing c.conn c.member = s.standing c := by
  have hfd := ht.consistent.keyed fd c hc
  have htaken : (e.standing c.conn c.member).taken = (s.standing c).taken := by
    funext name
    simp only [Exchange.standing, Server.standing]
    rw [Bool.eq_iff_iff, List.any_eq_true, List.any_eq_true]
    constructor
    · rintro ⟨k, -, hk⟩
      obtain ⟨hne, hname⟩ := Bool.and_eq_true_iff.mp hk
      obtain ⟨m, hm, hm'⟩ := (Option.any_eq_true ..).mp hname
      obtain ⟨fd', hfd'⟩ := (h.member k m).mp hm
      obtain ⟨c', hc', rfl, rfl⟩ := roll_eq_some.mp hfd'
      refine ⟨⟨fd', c'⟩, UnorderedMap.mem_entries_iff.mpr hc', Bool.and_eq_true_iff.mpr ⟨?_, hm'⟩⟩
      refine decide_eq_true fun he => of_decide_eq_true hne ?_
      have hsame : fd' = fd := he.trans hfd
      rw [hsame, hc] at hc'
      rw [Option.some.inj hc']
    · rintro ⟨⟨fd', c'⟩, hmem, hk⟩
      obtain ⟨hne, hname⟩ := Bool.and_eq_true_iff.mp hk
      have hc' := UnorderedMap.mem_entries_iff.mp hmem
      have hlt : c'.conn < e.accepted := by
        rw [h.accepted]
        exact ht.consistent.numbered fd' c' hc'
      refine ⟨c'.conn, List.mem_range.mpr hlt, Bool.and_eq_true_iff.mpr ⟨?_, ?_⟩⟩
      · refine decide_eq_true fun hconn => of_decide_eq_true hne ?_
        have hsame := ht.consistent.distinct fd' fd c' c hc' hc hconn
        exact hsame.trans hfd.symm
      · exact (Option.any_eq_true ..).mpr ⟨c'.member, (h.member _ _).mpr ⟨fd', roll_eq hc'⟩, hname⟩
  have howns : (e.standing c.conn c.member).owns = (s.standing c).owns := by
    funext oid
    exact (h.cancel ht hc oid).1
  exact Standing.ext rfl rfl htaken howns

/-- Carrying a decision out is what the exchange does; a QUIT also makes the client leave. -/
theorem Simulates.carryOut (h : Simulates s e) (ht : Traceable s)
    (hc : s.sessions.lookup fd = some c) (d : Decision) :
    ∃ obs, (s.carryOut fd c d).1.history = s.history ++ obs ∧
      Simulates (s.carryOut fd c d).1 (run Exchange.step (e.carryOut c.conn c.member d)
        (deeds obs)) := by
  cases d with
  | rejected reason => exact ⟨_, rfl, h.say c.conn (msgError reason)⟩
  | loggedIn name =>
    exact ⟨_, rfl, (h.enroll ht.consistent hc (f := setUsername name) rfl).say c.conn msgOk⟩
  | placed side instrument qty price =>
    refine ⟨_, rfl, ?_⟩
    have hdeeds : deeds ([.placed c.conn (s.ordered c side instrument qty price),
        .enqueued c.conn (msgOrderAccepted (s.ordered c side instrument qty price).id)] ++
        (s.drawn.submit (s.ordered c side instrument qty price)).1.flatMap s.fillVoice) = [] := by
      refine deeds_eq_nil fun o ho => ?_
      rcases mem_orderVoice ho with rfl | ⟨_, rfl⟩ | ⟨_, _, rfl⟩ <;> rfl
    rw [hdeeds]
    exact h.place ht hc side instrument qty price
  | cancelled oid =>
    obtain ⟨-, hbook⟩ := h.cancel ht hc oid
    have hcancelled : Simulates (s.withBook (s.book.cancel oid c.fd c.sessionSeq).2)
        { e with book := (e.book.cancel oid 0 (seqOf c.conn)).2 } :=
      ⟨hbook, h.accepted, h.member, h.sent⟩
    exact ⟨_, rfl, hcancelled.say c.conn (msgOrderCancelled oid)⟩
  | subscribed instrument =>
    have hset := h.enroll ht.consistent hc (f := subscribe instrument) rfl
    have hlogged := hset.log [.subscribed c.conn instrument] fun _ => rfl
    refine ⟨[.subscribed c.conn instrument, .enqueued c.conn msgOk], rfl, ?_⟩
    have hsaid := hlogged.say c.conn msgOk
    rwa [log_log] at hsaid
  | unsubscribed instrument =>
    have hset := h.enroll ht.consistent hc (f := unsubscribe instrument) rfl
    have hlogged := hset.log [.unsubscribed c.conn instrument] fun _ => rfl
    refine ⟨[.unsubscribed c.conn instrument, .enqueued c.conn msgOk], rfl, ?_⟩
    have hsaid := hlogged.say c.conn msgOk
    rwa [log_log] at hsaid
  | quit =>
    have hfd := ht.consistent.keyed fd c hc
    rw [Server.carryOut, hfd]
    exact ⟨[.closed c.conn], history_forget hc, h.leaves ht.consistent hc⟩

private theorem member_inferRole (cmd : Bytes) (c : ClientSession) :
    (inferRole cmd c).member = c.member.inferRole cmd := by
  have hrole : c.member.role = c.role := rfl
  unfold inferRole Member.inferRole
  rw [hrole]
  split_ifs <;> rfl

/-- The server has gone on to `s'`, and the exchange with it by the deeds recorded meanwhile. -/
def Accompanied (e : Exchange) (s s' : Server) : Prop :=
  ∃ obs, s'.history = s.history ++ obs ∧ Simulates s'.view (run Exchange.step e (deeds obs))

private theorem Simulates.unmoved (h : Simulates s'.view e) (hhistory : s'.history = s.history) :
    Accompanied e s s' := by
  refine ⟨[], ?_, h⟩
  rw [hhistory, List.append_nil]

/-- Handling a line is what the exchange does on it. -/
theorem Simulates.handleLine (h : Simulates s.view e) (ht : Traceable s.view)
    (hc : s.sessions.lookup fd = some c) (line : Bytes) :
    Accompanied e s (s.handleLine fd line).1 := by
  have hview := congrArg Prod.fst (handleLine_view hc line)
  dsimp only at hview
  have hc' : s.view.sessions.lookup fd = some c.profile := lookup_view_of hc
  let c₁ := inferRole (commandWord line) c.profile
  have hconn : c₁.conn = c.conn := (continues_inferRole ..).conn
  have hmember : c₁.member = c.member.inferRole (commandWord line) := member_inferRole ..
  have hc₁ := lookup_noted hc' line
  have ht₁ : Traceable (s.view.noted fd c.profile line) := ht.keeps (keeps_noted ..) rfl
  have hnoted : Simulates (s.view.noted fd c.profile line) (e.enroll c₁.conn c₁.member) := by
    have hlogged := h.log [.received c.conn line] fun _ => rfl
    rw [hconn]
    exact hlogged.enroll (ht.consistent.keeps (keeps_log ..)) hc' hconn
  have hstanding := hnoted.standing ht₁ hc₁
  obtain ⟨obs, hhistory, hsim⟩ := hnoted.carryOut ht₁ hc₁
    (((s.view.noted fd c.profile line).standing c₁).decision line)
  rw [← hview] at hhistory hsim
  refine ⟨.received c.conn line :: obs, ?_, ?_⟩
  · refine Eq.trans hhistory ?_
    exact List.append_assoc s.history [.received c.conn line] obs
  · have hprofile := (h.member _ _).mpr ⟨fd, roll_eq hc'⟩
    have hm : e.member c.conn = some c.member := hprofile
    have hstep : e.step (.sends c.conn line) = e.act c.conn c.member line := by
      rw [Exchange.step, hm]
    have hdeeds : deeds (.received c.conn line :: obs) = .sends c.conn line :: deeds obs := rfl
    rw [hdeeds, run_cons, hstep, Exchange.act_eq, ← hmember]
    rw [← hstanding] at hsim
    rw [← hconn]
    exact hsim

/-! ## Actions -/

/-- A session is closed, with entries before it that record no deed. -/
theorem Simulates.closes (h : Simulates s.view e) (hs : Consistent s.view)
    (hc : s.sessions.lookup fd = some c) (obs : List Obs) (hquiet : ∀ k, linesTo k obs = [])
    (hdeeds : deeds obs = []) (hview : s'.view = (s.view.log obs).forget fd) :
    Accompanied e s s' := by
  have hc' : (s.view.log obs).sessions.lookup fd = some c.profile := by
    rw [lookup_log, lookup_view, hc, Option.map_some]
  refine ⟨obs ++ [.closed c.conn], ?_, ?_⟩
  · have hhistory := congrArg Server.history hview
    rw [history_forget hc'] at hhistory
    refine Eq.trans hhistory ?_
    exact List.append_assoc s.history obs _
  · rw [hview, deeds_append, hdeeds, List.nil_append]
    have hleft := (h.log obs hquiet).leaves (hs.keeps (keeps_log ..)) hc'
    exact hleft

/-- The simulation does not see what a session has buffered. -/
theorem Simulates.setInbuf (h : Simulates s.view e) (fd : Int) (inbuf : LineBuffer) :
    Simulates (s.update fd (setInbuf inbuf)).view e := by
  rw [view_setInbuf]
  exact h.congr rfl rfl (roll_update _ fd fun _ => rfl) fun _ => rfl

/-- Taking a line from the input is the exchange's step on it. -/
theorem Simulates.takeLine (h : Simulates s.view e) (ht : Traceable s.view) (fd : Int) :
    Accompanied e s (s.act (.line fd)) := by
  obtain hnone | ⟨c, line, inbuf, -, -, hset, htaken⟩ := s.takeLine_cases fd
  · simp only [Server.act, hnone]
    exact h.unmoved rfl
  · have ht' : Traceable (s.update fd (ClientSession.setInbuf inbuf)).view := by
      rw [view_setInbuf]
      exact ht.keeps (keeps_update _ fd _ fun _ => ⟨rfl, Or.inr rfl⟩) rfl
    rw [act_line htaken]
    exact (h.setInbuf fd inbuf).handleLine ht' hset line

/-- The exchange does not see how the tables are arranged. -/
theorem Simulates.rehash (h : Simulates s e) (sessionOrder : List Int) (bookOrder : List Bytes) :
    Simulates (s.rehash sessionOrder bookOrder) e where
  book := by
    obtain ⟨r, hr, hbook⟩ := h.book
    exact ⟨r, ⟨hr.next, fun k => (level_rehash s.book bookOrder k).trans (hr.level k)⟩, hbook⟩
  accepted := h.accepted
  member k m := by
    have hroll : ∀ fd, (s.rehash sessionOrder bookOrder).roll fd = s.roll fd := by
      intro fd
      rw [roll, Server.rehash, UnorderedMap.lookup_reorder, roll]
    simp only [hroll]
    exact h.member k m
  sent := h.sent

/-- Each action of the server is what the exchange does by the deeds that it records. -/
theorem act_simulates (h : Simulates s.view e) (ht : Traceable s.view) (a : Action) :
    Accompanied e s (s.act a) := by
  cases a with
  | accept cfd =>
    rw [Server.act]
    split
    · rename_i hfree
      refine ⟨[.accepted s.accepted cfd], rfl, ?_⟩
      rw [view_openSession hfree]
      obtain ⟨hkq, hlisten, hnone⟩ := hfree
      exact h.joins ht.consistent ⟨hkq, hlisten, by rw [lookup_view, hnone, Option.map_none]⟩
    · exact h.unmoved rfl
  | feed fd chunk =>
    refine Simulates.unmoved ?_ rfl
    rw [Server.act, feed, view_feedInbuf]
    exact h.congr rfl rfl (roll_update _ fd fun _ => rfl) fun _ => rfl
  | line fd => exact h.takeLine ht fd
  | hangup fd =>
    simp only [Server.act, hangup]
    cases hc : s.sessions.lookup fd with
    | none => exact h.unmoved rfl
    | some c =>
      refine h.closes ht.consistent hc [.ended c.conn] (fun _ => rfl) rfl ?_
      rw [view_closeSession, view_log]
  | drop fd =>
    rw [Server.act]
    cases hc : s.sessions.lookup fd with
    | none =>
      simp only [closeSession, hc]
      exact h.unmoved rfl
    | some c =>
      refine h.closes ht.consistent hc [] (fun _ => rfl) rfl ?_
      rw [view_closeSession, log_nil]
  | writable fd =>
    rw [Server.act]
    rcases s.view_onWritable fd with hsame | ⟨c, hc, hclosed⟩
    · have hhistory : (s.onWritable fd).view.history = s.view.history :=
        congrArg Server.history hsame
      refine Simulates.unmoved ?_ hhistory
      rw [hsame]
      exact h
    · exact h.closes ht.consistent hc _ (fun _ => rfl) rfl hclosed
  | rehash sessionOrder bookOrder =>
    refine Simulates.unmoved ?_ rfl
    rw [Server.act, view_rehash]
    exact h.rehash sessionOrder bookOrder

/-! ## Runs -/

private theorem simulates_start (kq listenFd : Int) (sends : List SendResult) :
    Simulates (start kq listenFd sends).view {} where
  book := ⟨{}, Reference.refines_empty, rfl⟩
  accepted := rfl
  member k m := by
    constructor
    · intro hm
      cases hm
    · rintro ⟨fd, hfd⟩
      cases hfd
  sent k := rfl

/-- A run of the server is a run of the exchange by the deeds it records. -/
theorem run_simulates (h : Simulates s.view e) (hs : Reachable s) (actions : List Action)
    (hacc : (run act s actions).accepted ≤ 2 ^ 64) : Accompanied e s (run act s actions) := by
  induction actions generalizing s e with
  | nil => exact h.unmoved rfl
  | cons a actions ih =>
    have hle := run_accepted_le s (a :: actions)
    obtain ⟨obs, hhistory, hsim⟩ := act_simulates h (hs.traceable (hle.trans hacc)) a
    obtain ⟨obs', hhistory', hsim'⟩ := ih hsim (hs.reaches (.act s a)) hacc
    refine ⟨obs ++ obs', ?_, ?_⟩
    · rw [run_cons, hhistory', hhistory, List.append_assoc]
    · rw [deeds_append, run_append]
      exact hsim'

/-- The server is in the state that the exchange reaches by the deeds in the history. -/
theorem Reachable.simulates (hs : Reachable s) (hacc : s.accepted ≤ 2 ^ 64) :
    Simulates s.view (run Exchange.step {} (deeds s.history)) := by
  obtain ⟨kq, listenFd, sends, actions, rfl⟩ := hs
  obtain ⟨obs, hhistory, hsim⟩ := run_simulates (simulates_start kq listenFd sends)
    (.start kq listenFd sends) actions hacc
  have hall : (run act (Server.start kq listenFd sends) actions).history = obs := hhistory
  rw [hall]
  exact hsim

end Server

end SocketExchange
