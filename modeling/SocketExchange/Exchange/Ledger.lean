import SocketExchange.Book.Conservation
import SocketExchange.Exchange.Refinement
import SocketExchange.Service.Decoding
import SocketExchange.Service.Lifetimes
import SocketExchange.Service.OrderLife
import SocketExchange.Service.Transmission

/-!
# The ledger of a client

A client can keep books from what it has sent and what it is sent. At each level, what it has had
accepted is what its BOUGHT or SOLD lines add up to, and what still rests, and what was left of
the orders that it has cancelled.
-/

namespace SocketExchange

open Containers ClientSession Runs OrderBook

/-- The kind of the reports to the owner on a side. -/
def ReportKind.ofSide : Side → ReportKind
  | .buy => .bought
  | .sell => .sold

/-- The quantity that a line reports to the owner at a level. -/
def reportedIn (key : LevelKey) (line : Bytes) : Int :=
  if firstWord line = (ReportKind.ofSide key.side).word then
    match Report.read line with
    | some r => if r.instrument = key.instrument ∧ r.price = key.price then r.qty else 0
    | none => 0
  else 0

/-- The quantity that lines report to the owner at a level, together. -/
def reportedQty (key : LevelKey) (lines : List Bytes) : Int := (lines.map (reportedIn key)).sum

/-- The quantity that a connection has had accepted at a level. -/
def placedQty (k : Nat) (key : LevelKey) (history : List Obs) : Int :=
  ((placedOrders history).map fun p => if p.1 = k ∧ p.2.key = key then p.2.qty else 0).sum

/-- The quantity that rests for a connection at a level. -/
def OrderBook.holding (k : Nat) (key : LevelKey) (b : OrderBook) : Int :=
  ((b.level key).map fun x => if x.ownerSeq = seqOf k then x.qty else 0).sum

/-- What was placed in two histories, one after the other, adds up. -/
theorem placedQty_append (k : Nat) (key : LevelKey) (h h' : List Obs) :
    placedQty k key (h ++ h') = placedQty k key h + placedQty k key h' := by
  simp only [placedQty, placedOrders_append, List.map_append, List.sum_append]

/-- What two lists of lines report, one after the other, adds up. -/
theorem reportedQty_append (key : LevelKey) (ls ls' : List Bytes) :
    reportedQty key (ls ++ ls') = reportedQty key ls + reportedQty key ls' := by
  simp only [reportedQty, List.map_append, List.sum_append]

/-- What lines of several origins report is the sum over the origins. -/
theorem reportedQty_flatMap {α : Type} (key : LevelKey) (xs : List α) (g : α → List Bytes) :
    reportedQty key (xs.flatMap g) = (xs.map fun x => reportedQty key (g x)).sum := by
  induction xs with
  | nil => rfl
  | cons x xs ih =>
    rw [List.flatMap_cons, reportedQty_append, ih, List.map_cons, List.sum_cons]

/-- Lines that begin with another word report nothing. -/
theorem reportedQty_eq_zero {key : LevelKey} {lines : List Bytes}
    (h : ∀ line ∈ lines, firstWord line ≠ (ReportKind.ofSide key.side).word) :
    reportedQty key lines = 0 := by
  refine List.sum_eq_zero fun q hq => ?_
  obtain ⟨line, hline, rfl⟩ := List.mem_map.mp hq
  exact if_neg (h line hline)

/-! ## One report -/

private theorem reportLine_ofSide (f : Fill) (side : Side) :
    Server.reportLine f side = f.line (.ofSide side) := by
  cases side <;> rfl

private theorem firstWord_line (f : Fill) (kind : ReportKind) :
    firstWord (f.line kind) = kind.word := by
  cases kind <;> simp [Fill.line, ReportKind.line, ReportKind.word]

private theorem word_injective : Function.Injective ReportKind.word := by
  intro kind kind' h
  have hkind : some kind = some kind' := by
    rw [← kindOf_word kind, ← kindOf_word kind', h]
  exact Option.some.inj hkind

private theorem ofSide_injective : Function.Injective ReportKind.ofSide := by
  intro side side' h
  cases side <;> cases side' <;> first | rfl | cases h

/-- The report of a fill to the owner of a side counts at the level of that side. -/
theorem reportedQty_reportLine {f : Fill} (h : f.Reportable) (key : LevelKey) (side : Side) :
    reportedQty key [Server.reportLine f side] =
      if side = key.side ∧ f.instrument = key.instrument ∧ f.price = key.price then f.qty
      else 0 := by
  have hread : Report.read (f.line (.ofSide side)) = some (f.report h (.ofSide side)) :=
    Report.read_line (f.report h _)
  rw [reportLine_ofSide, reportedQty, List.map_singleton, List.sum_singleton, reportedIn,
    firstWord_line, hread]
  by_cases hside : side = key.side
  · rw [if_pos (by rw [hside])]
    simp [hside, Fill.report]
  · rw [if_neg fun hword => hside (ofSide_injective (word_injective hword)),
      if_neg fun h => hside h.1]

private theorem reportedQty_trade (f : Fill) (key : LevelKey) :
    reportedQty key [msgTrade f.instrument f.qty f.price] = 0 := by
  refine reportedQty_eq_zero fun line hline => ?_
  rw [List.mem_singleton.mp hline, firstWord_msgTrade]
  cases key.side <;> decide

namespace Server

variable {s s' : Server} {fd : Int} {c : ClientSession} {f : Fill} {k : Nat} {key : LevelKey}

/-- What is left of the orders whose cancellation an action confirms to the connection. -/
def withdrawnBy (k : Nat) (key : LevelKey) (s : Server) (a : Action) : Int :=
  ((s.book.level key).map fun x =>
    if x.ownerSeq = seqOf k ∧ (linesTo k (s.since (s.act a))).contains (msgOrderCancelled x.id)
    then x.qty else 0).sum

private theorem linesTo_fillVoice (s : Server) (k : Nat) (f : Fill) :
    linesTo k (s.fillVoice f) = linesTo k (s.ownerVoice (f.party .buy) (reportLine f .buy)) ++
      linesTo k (s.ownerVoice (f.party .sell) (reportLine f .sell)) ++
      linesTo k (s.tradeVoice f) := by
  have hfilled : linesTo k [.filled f] = [] := rfl
  rw [fillVoice, ← List.singleton_append]
  simp only [linesTo_append, hfilled, List.nil_append]

/-- The reports of a fill to an open connection add up to what the fill executes for it. -/
theorem Traceable.reported_fill (ht : Traceable s) (hc : s.sessions.lookup fd = some c)
    (hf : ∀ side, ∃ k, s.LeadsTo (f.party side) k) (hreportable : f.Reportable)
    (key : LevelKey) :
    reportedQty key (linesTo c.conn (s.fillVoice f)) =
      (Account.mk fd c.sessionSeq key).executed f := by
  have hconnected : s.connected c.conn = true := connected_iff.mpr ⟨fd, c, hc, rfl⟩
  have hlt := ht.consistent.numbered fd c hc
  have hbound := ht.unwrapped
  have hparty : ∀ side, (f.party side).2 = seqOf c.conn ↔ f.party side = (fd, c.sessionSeq) := by
    intro side
    obtain ⟨k, hk, hseq, hfd⟩ := hf side
    constructor
    · intro he
      have hconn : c.conn = k := seqOf_inj (by omega) (by omega) (he.symm.trans hseq)
      rw [← hfd fd c hc hconn, ht.consistent.sequenced fd c hc, ← he]
    · rintro he
      rw [he]
      exact ht.consistent.sequenced fd c hc
  have hside : ∀ side, reportedQty key (linesTo c.conn
      (s.ownerVoice (f.party side) (reportLine f side))) =
      if f.party side = (fd, c.sessionSeq) ∧ side = key.side ∧ f.instrument = key.instrument ∧
        f.price = key.price then f.qty else 0 := by
    intro side
    obtain ⟨k, hk⟩ := hf side
    rw [ht.linesTo_ownerVoice hk]
    simp only [hconnected, true_and, hparty side]
    by_cases he : f.party side = (fd, c.sessionSeq)
    · rw [if_pos he, reportedQty_reportLine hreportable]
      simp only [he, true_and]
    · rw [if_neg he, if_neg fun h => he h.1]
      rfl
  have htrade : reportedQty key (linesTo c.conn (s.tradeVoice f)) = 0 := by
    rw [ht.consistent.linesTo_tradeVoice]
    split
    · exact reportedQty_trade f key
    · rfl
  rw [linesTo_fillVoice, reportedQty_append, reportedQty_append, hside, hside, htrade,
    Account.executed]
  cases hkey : key.side <;> simp [Account.NamedBy, hkey]

/-- A connection without a session is sent no report. -/
theorem Traceable.reported_gone (ht : Traceable s) (hgone : s.connected k = false)
    (hf : ∀ side, ∃ k, s.LeadsTo (f.party side) k) (key : LevelKey) :
    reportedQty key (linesTo k (s.fillVoice f)) = 0 := by
  obtain ⟨buyer, hbuyer⟩ := hf .buy
  obtain ⟨seller, hseller⟩ := hf .sell
  have hnone : ¬ s.follows k f.instrument = true := by
    rw [follows_iff]
    rintro ⟨fd, c, hc, hconn, -⟩
    rw [connected_iff.mpr ⟨fd, c, hc, hconn⟩] at hgone
    cases hgone
  rw [linesTo_fillVoice, ht.linesTo_ownerVoice hbuyer, ht.linesTo_ownerVoice hseller,
    ht.consistent.linesTo_tradeVoice]
  simp [hnone, hgone, reportedQty]

/-! ## What rests for a connection -/

/-- For a connection with a session, what rests is what rests for its account. -/
theorem holding_eq_resting {b : OrderBook}
    (h : ∀ x, b.Rests x → x.ownerSeq = seqOf k → x.ownerFd = fd) (key : LevelKey) :
    b.holding k key = (Account.mk fd (seqOf k) key).resting b := by
  rw [holding, Account.resting]
  refine congrArg List.sum (List.map_congr_left fun x hx => ?_)
  have howner : x.OwnedBy fd (seqOf k) ↔ x.ownerSeq = seqOf k :=
    ⟨And.right, fun hseq => ⟨h x ⟨key, hx⟩ hseq, hseq⟩⟩
  simp only [Account.share, howner]

/-- What rests belongs to connections that have been accepted. -/
theorem Reachable.owner_of_seq (hs : Reachable s) (hacc : s.accepted ≤ 2 ^ 64) (hk : k < 2 ^ 64)
    {x : Order} (hx : s.book.Rests x) (hseq : x.ownerSeq = seqOf k) :
    k < s.accepted ∧ ∀ fd c, s.sessions.lookup fd = some c → c.conn = k → x.ownerFd = fd := by
  obtain ⟨k', o, ho, he, -⟩ := hs.tracked.origin x hx
  obtain ⟨hk', hseq', hfd⟩ := hs.tracked.owner k' o ho
  have hlt : k' < s.accepted := hk'
  have hsame : k = k' := by
    refine seqOf_inj hk (by omega) ?_
    rw [← hseq, ← hseq', he, Order.withQty_ownerSeq]
  subst hsame
  refine ⟨hlt, fun fd c hc hconn => ?_⟩
  rw [he, Order.withQty_ownerFd]
  exact hfd fd c.profile (lookup_view_of hc) hconn

private theorem Reachable.holding_unaccepted (hs : Reachable s) (hacc : s.accepted ≤ 2 ^ 64)
    (hk : k < 2 ^ 64) (hle : s.accepted ≤ k) (key : LevelKey) : s.book.holding k key = 0 := by
  refine List.sum_eq_zero fun q hq => ?_
  obtain ⟨x, hx, rfl⟩ := List.mem_map.mp hq
  refine if_neg fun hseq => ?_
  have hlt := (hs.owner_of_seq hacc hk ⟨key, hx⟩ hseq).1
  omega

/-! ## One action -/

/-- Entries that are not about orders or trades. -/
theorem quiet_ledger {obs : List Obs} (hobs : ∀ o ∈ obs, o.Quiet) (k : Nat) (key : LevelKey) :
    placedQty k key obs = 0 ∧ reportedQty key (linesTo k obs) = 0 ∧
      ∀ id, msgOrderCancelled id ∉ linesTo k obs := by
  have hword : ∀ line ∈ linesTo k obs, firstWord line ∉ orderWords := fun line hline =>
    hobs _ (mem_linesTo.mp hline)
  refine ⟨?_, reportedQty_eq_zero fun line hline he => hword line hline ?_, fun id hmem => ?_⟩
  · rw [placedQty, placedOrders_quiet hobs]
    rfl
  · rw [he]
    cases key.side <;> decide
  · refine hword _ hmem ?_
    rw [firstWord_msgOrderCancelled]
    decide

/-- The entries of an accepted order, apart. -/
theorem placed_entries (s : Server) (conn : Nat) (line : Bytes) (o : Order) :
    .received conn line :: s.orderVoice conn o =
      [.received conn line] ++ [.placed conn o] ++ [.enqueued conn (msgOrderAccepted o.id)] ++
        (s.drawn.submit o).1.flatMap s.fillVoice := rfl

/-- A placed order is acknowledged to its client, and then its fills are reported. -/
theorem linesTo_placed (s : Server) (k conn : Nat) (line : Bytes) (o : Order) :
    linesTo k (.received conn line :: s.orderVoice conn o) =
      linesTo k [.enqueued conn (msgOrderAccepted o.id)] ++
        linesTo k ((s.drawn.submit o).1.flatMap s.fillVoice) := by
  rw [placed_entries, linesTo_append, linesTo_append]
  rfl

/-- A line that begins with another word than the reports reports nothing to whom it is sent. -/
theorem reportedQty_reply {key : LevelKey} {line : Bytes}
    (h : firstWord line ∉ [text "BOUGHT", text "SOLD"]) (k conn : Nat) :
    reportedQty key (linesTo k [.enqueued conn line]) = 0 := by
  refine reportedQty_eq_zero fun line' hmem hword => h ?_
  obtain ⟨-, rfl⟩ := Obs.enqueued.inj (List.mem_singleton.mp (mem_linesTo.mp hmem))
  rw [hword]
  cases key.side <;> decide

private theorem sum_split (p : Order → Prop) [DecidablePred p] (g : Order → Int) (xs : List Order) :
    (xs.map g).sum =
      (xs.map fun x => if p x then g x else 0).sum + ((xs.filter fun x => ¬ p x).map g).sum := by
  induction xs with
  | nil => rfl
  | cons x xs ih =>
    by_cases hp : p x <;> simp [hp, ih] <;> omega

/-- A confirmed cancellation takes out what is left of the order, for its own connection. -/
theorem cancel_ledger (hs : Reachable s) (hacc : s.accepted ≤ 2 ^ 64) (hk : k < 2 ^ 64)
    (hc : s.sessions.lookup fd = some c) {oid : Int} (hoid : 0 ≤ oid)
    (hok : (s.book.cancel oid c.fd c.sessionSeq).1 = true) (key : LevelKey) :
    s.book.holding k key =
      ((s.book.level key).map fun x => if x.ownerSeq = seqOf k ∧
        (linesTo k [.enqueued c.conn (msgOrderCancelled oid)]).contains (msgOrderCancelled x.id)
        then x.qty else 0).sum +
      (s.book.cancel oid c.fd c.sessionSeq).2.holding k key := by
  have hdistinct := hs.tracked.chronological.identified.distinct
  have hview : s.view.sessions.lookup fd = some c.profile := lookup_view_of hc
  have hnumber : c.conn < s.accepted := hs.consistent.numbered fd c.profile hview
  have hsession : c.sessionSeq = seqOf c.conn := hs.consistent.sequenced fd c.profile hview
  have hconfirmed : ∀ x ∈ s.book.level key, (x.ownerSeq = seqOf k ∧
      (linesTo k [.enqueued c.conn (msgOrderCancelled oid)]).contains (msgOrderCancelled x.id)) ↔
        x.id = oid ∧ x.ownerSeq = seqOf k := by
    intro x hx
    rw [List.contains_iff_mem]
    have hrests : s.book.Rests x := ⟨key, hx⟩
    have hid := hs.tracked.id_nonneg hrests
    rw [linesTo_enqueued, and_comm]
    refine and_congr_left fun hseq => ?_
    constructor
    · intro hmem
      split at hmem
      · exact msgOrderCancelled_inj hid hoid (List.mem_singleton.mp hmem)
      · cases hmem
    · rintro rfl
      -- The order under the id is the canceller's, so the line goes to this connection.
      have howner := (hdistinct.cancel_iff_ownedBy hrests).mp hok
      have hsame : c.conn = k := by
        refine seqOf_inj (by omega) hk ?_
        rw [← hsession, ← howner.2, hseq]
      rw [if_pos hsame]
      exact List.mem_singleton.mpr rfl
  have hlevel : (s.book.cancel oid c.fd c.sessionSeq).2.level key =
      (s.book.level key).filter fun x => x.id ≠ oid := hdistinct.level_cancel hok key
  rw [holding, holding, hlevel,
    sum_split (fun x => x.id = oid) (fun x => if x.ownerSeq = seqOf k then x.qty else 0)]
  refine congrArg₂ (· + ·) (congrArg List.sum (List.map_congr_left fun x hx => ?_)) rfl
  simp only [hconfirmed x hx]
  split_ifs <;> simp_all

/-- An accepted order goes into the reports of its fills and into the book. -/
theorem place_ledger (hs : Reachable s) (hs' : Reachable s') (hacc : s.accepted ≤ 2 ^ 64)
    (hk : k < 2 ^ 64) (hkeeps : Keeps s.view s'.view)
    (hopen : s'.connected k = true ∨ s'.accepted ≤ k)
    (hc : s.view.sessions.lookup fd = some c) {line : Bytes} {o : Order} (hline : Places line o)
    (howner : o.OwnedBy c.fd c.sessionSeq) (hbook : s'.book = (s.view.drawn.submit o).2)
    (hreportable : ∀ f ∈ (s.view.drawn.submit o).1, f.Reportable) (key : LevelKey) :
    placedQty k key [.placed c.conn o] + s.book.holding k key =
      reportedQty key (linesTo k ((s.view.drawn.submit o).1.flatMap s.view.fillVoice)) +
        s'.book.holding k key := by
  have ht := hs.traceable hacc
  have hacc' : s'.accepted = s.accepted := hkeeps.accepted
  have hnumber : c.conn < s.accepted := hs.consistent.numbered fd c hc
  have hplaced : placedQty k key [.placed c.conn o] =
      if c.conn = k ∧ o.key = key then o.qty else 0 := by
    simp [placedQty, placedOrders]
  have hfills : ∀ f ∈ (s.view.drawn.submit o).1, ∀ side, ∃ k, s.view.LeadsTo (f.party side) k :=
    fun f hf side => ht.fills hc howner hf side
  rw [linesTo_flatMap, reportedQty_flatMap, hplaced]
  rcases hopen with hopen | hle
  · -- The connection has a session, and had it before under the same descriptor.
    obtain ⟨fd', c', hc', rfl⟩ := connected_iff.mp hopen
    obtain ⟨c₀, hc₀, hcontinues⟩ := hkeeps.sessions fd' _ (lookup_view_of hc')
    have hconn : c₀.conn = c'.conn := hcontinues.conn.symm
    have hseq : c₀.sessionSeq = seqOf c'.conn := by
      rw [← hconn]
      exact hs.consistent.sequenced fd' c₀ hc₀
    have hbefore : ∀ x, s.book.Rests x → x.ownerSeq = seqOf c'.conn → x.ownerFd = fd' := by
      intro x hx he
      obtain ⟨k₁, hk₁, hseq₁, hfd₁⟩ := ht.owned x hx
      have hlt : c₀.conn < s.accepted := hs.consistent.numbered fd' c₀ hc₀
      have hlt₁ : k₁ < s.accepted := hk₁
      refine hfd₁ fd' c₀ hc₀ (seqOf_inj (by omega) (by omega) ?_)
      rw [hconn, ← he]
      exact hseq₁
    have hafter : ∀ x, s'.book.Rests x → x.ownerSeq = seqOf c'.conn → x.ownerFd = fd' := by
      intro x hx he
      exact (hs'.owner_of_seq (hacc'.trans_le hacc) hk hx he).2 fd' c' hc' rfl
    have hsum : ((s.view.drawn.submit o).1.map fun f =>
        reportedQty key (linesTo c'.conn (s.view.fillVoice f))) =
        (s.view.drawn.submit o).1.map (Account.mk fd' (seqOf c'.conn) key).executed := by
      refine List.map_congr_left fun f hf => ?_
      rw [← hconn, ht.reported_fill hc₀ (hfills f hf) (hreportable f hf), hseq, hconn]
    have howns : o.OwnedBy fd' (seqOf c'.conn) ↔ c.conn = c'.conn := by
      rw [Order.OwnedBy, howner.1, howner.2, hs.consistent.sequenced fd c hc]
      constructor
      · rintro ⟨-, he⟩
        have hlt : c₀.conn < s.accepted := hs.consistent.numbered fd' c₀ hc₀
        exact (seqOf_inj (by omega) (by omega) (he.trans (congrArg seqOf hconn.symm))).trans hconn
      · intro he
        have hfd := hs.consistent.distinct fd fd' c c₀ hc hc₀ (he.trans hconn.symm)
        exact ⟨(hs.consistent.keyed fd c hc).trans hfd, congrArg seqOf he⟩
    let a : Account := ⟨fd', seqOf c'.conn, key⟩
    have hshape : Shape s.view.drawn := hs.tracked.chronological.shape.apply .nextId
    have hbalance := Account.submit_balance (a := a) hshape hline.qty_pos
    have hsubmitted : a.submitted (.submit o) =
        if c.conn = c'.conn ∧ o.key = key then o.qty else 0 := by
      simp only [Account.submitted, Account.share, a, howns, and_comm (a := c.conn = c'.conn),
        ite_and]
    have hresting : a.resting s.view.drawn = a.resting s.book := by
      rw [Account.resting, Account.resting, drawn, level_nextId]
      rfl
    rw [hsum, holding_eq_resting hbefore, holding_eq_resting hafter, hbook]
    rw [hsubmitted, hresting] at hbalance
    exact hbalance
  · -- Nobody has the connection yet.
    have hle' : s.accepted ≤ k := hacc' ▸ hle
    have hgone : s.view.connected k = false := by
      rw [← Bool.not_eq_true]
      intro hopen
      have hlt : k < s.accepted := hs.consistent.connected_lt hopen
      omega
    have hnone : ((s.view.drawn.submit o).1.map fun f =>
        reportedQty key (linesTo k (s.view.fillVoice f))).sum = 0 := by
      refine List.sum_eq_zero fun q hq => ?_
      obtain ⟨f, hf, rfl⟩ := List.mem_map.mp hq
      exact ht.reported_gone hgone (hfills f hf) key
    rw [hnone, hs.holding_unaccepted hacc hk hle', hs'.holding_unaccepted (by omega) hk hle,
      if_neg fun h => by omega]

/-- What an action brings in at a level it reports, cancels or leaves resting. -/
theorem act_ledger (hs : Reachable s) (a : Action) (hacc : (s.act a).accepted ≤ 2 ^ 64)
    (hk : k < 2 ^ 64) (hopen : (s.act a).connected k = true ∨ (s.act a).accepted ≤ k)
    (key : LevelKey) :
    placedQty k key (s.since (s.act a)) + s.book.holding k key =
      reportedQty key (linesTo k (s.since (s.act a))) + withdrawnBy k key s a +
        (s.act a).book.holding k key := by
  have hs' : Reachable (s.act a) := hs.reaches (.act s a)
  have hmoves := act_moves s a
  have hbefore : s.accepted ≤ 2 ^ 64 := hmoves.accepted_le.trans hacc
  obtain ⟨obs, hhistory, heffect⟩ := act_effect s a
  rw [withdrawnBy, since_of_append hhistory]
  have hnothing : (∀ id, msgOrderCancelled id ∉ linesTo k obs) →
      ((s.book.level key).map fun x => if x.ownerSeq = seqOf k ∧
        (linesTo k obs).contains (msgOrderCancelled x.id) then x.qty else 0).sum = 0 := by
    intro hnone
    refine List.sum_eq_zero fun q hq => ?_
    obtain ⟨x, -, rfl⟩ := List.mem_map.mp hq
    exact if_neg fun h => hnone _ (List.contains_iff_mem.mp h.2)
  generalize hbook : (s.act a).book = book at heffect
  cases heffect with
  | quiet hobs =>
    obtain ⟨hplaced, hreported, hcancelled⟩ := quiet_ledger hobs k key
    rw [hplaced, hreported, hnothing hcancelled, zero_add, zero_add, zero_add]
    rfl
  | rehashed order =>
    have hlevel : (s.view.book.rehash order).holding k key = s.book.holding k key := by
      rw [holding, holding, level_rehash]
      rfl
    rw [hnothing fun id => List.not_mem_nil, hlevel]
    rfl
  | @placed fd c line o hc hline hid howner =>
    have hkeeps : Keeps s.view (s.act a).view := by
      rcases hmoves.keeps with ⟨cfd, -, hjoin⟩ | hkeeps
      · have hjoined : (s.act a).view.history = s.history ++ [.accepted s.accepted cfd] :=
          congrArg Server.history hjoin
        have hobs := List.append_cancel_left (hhistory.symm.trans hjoined)
        cases hobs
      · exact hkeeps
    have hreportable : ∀ f ∈ (s.view.drawn.submit o).1, f.Reportable := by
      intro f hf
      refine hs'.legible.fills f ?_
      rw [hhistory]
      exact List.mem_append_right _ (List.mem_cons_of_mem _ (filled_mem_orderVoice.mpr hf))
    have hplace := place_ledger hs hs' hbefore hk hkeeps hopen hc hline howner hbook hreportable key
    have hreply : reportedQty key (linesTo k [.enqueued c.conn (msgOrderAccepted o.id)]) = 0 :=
      reportedQty_reply (by rw [firstWord_msgOrderAccepted]; decide) ..
    have hfills : placedQty k key ((s.view.drawn.submit o).1.flatMap s.view.fillVoice) = 0 := by
      rw [placedQty, placedOrders_fillVoices]
      rfl
    have hplaced : placedQty k key (.received c.conn line :: s.view.orderVoice c.conn o) =
        placedQty k key [.placed c.conn o] := by
      have hreceived : placedQty k key [.received c.conn line] = 0 := rfl
      have hsaid : placedQty k key [.enqueued c.conn (msgOrderAccepted o.id)] = 0 := rfl
      rw [placed_entries, placedQty_append, placedQty_append, placedQty_append, hfills, hreceived,
        hsaid]
      omega
    have hcancelled : ∀ id, msgOrderCancelled id ∉
        linesTo k (.received c.conn line :: s.view.orderVoice c.conn o) := by
      intro id hmem
      rw [mem_linesTo, List.mem_cons, or_iff_right (by simp)] at hmem
      rcases line_of_mem_orderVoice hmem with he | ⟨f, kind, -, he⟩
      · have hword := congrArg firstWord he
        rw [firstWord_msgOrderCancelled, firstWord_msgOrderAccepted] at hword
        exact absurd hword (by decide)
      · have hword := congrArg firstWord he
        rw [firstWord_msgOrderCancelled, firstWord_line] at hword
        cases kind <;> exact absurd hword (by decide)
    rw [hnothing hcancelled, hplaced, linesTo_placed, reportedQty_append, hreply, ← hbook]
    omega
  | @cancelled fd c line oid hc hoid hok =>
    rw [lookup_view, Option.map_eq_some_iff] at hc
    obtain ⟨c₀, hc₀, rfl⟩ := hc
    have hledger := cancel_ledger hs hbefore hk hc₀ hoid hok key
    have hlines : linesTo k [.received c₀.profile.conn line,
        .enqueued c₀.profile.conn (msgOrderCancelled oid)] =
        linesTo k [.enqueued c₀.conn (msgOrderCancelled oid)] := rfl
    have hplaced : placedQty k key [.received c₀.profile.conn line,
        .enqueued c₀.profile.conn (msgOrderCancelled oid)] = 0 := rfl
    have hreported : reportedQty key
        (linesTo k [.enqueued c₀.conn (msgOrderCancelled oid)]) = 0 :=
      reportedQty_reply (by rw [firstWord_msgOrderCancelled]; decide) ..
    rw [hlines, hplaced, hreported, zero_add, zero_add]
    exact hledger

/-! ## A run -/

/-- A connection that is open, or that nobody has yet, was so before. -/
theorem run_open (s : Server) (actions : List Action)
    (h : (run act s actions).connected k = true ∨ (run act s actions).accepted ≤ k) :
    s.connected k = true ∨ s.accepted ≤ k := by
  induction actions generalizing s with
  | nil => exact h
  | cons a actions ih =>
    have hmoves := act_moves s a
    rcases ih (s.act a) h with hopen | hle
    · rw [← connected_view] at hopen
      rw [← connected_view]
      exact hmoves.connected hopen
    · exact Or.inr (hmoves.accepted_le.trans hle)

/-- What a run brings in at a level it reports, cancels or leaves resting. -/
theorem Reachable.ledger (hs : Reachable s) (hk : k < 2 ^ 64) (key : LevelKey)
    (actions : List Action)
    (hopen : (run act s actions).connected k = true ∨ (run act s actions).accepted ≤ k)
    (hacc : (run act s actions).accepted ≤ 2 ^ 64) :
    placedQty k key (run act s actions).history + s.book.holding k key +
        reportedQty key (linesTo k s.history) =
      placedQty k key s.history + reportedQty key (linesTo k (run act s actions).history) +
        (Runs.outputs act (withdrawnBy k key) s actions).sum +
        (run act s actions).book.holding k key := by
  induction actions generalizing s with
  | nil =>
    simp only [run_nil, Runs.outputs, List.sum_nil]
    omega
  | cons a actions ih =>
    have hopen' := run_open (s.act a) actions hopen
    have hacc' := (run_accepted_le (s.act a) actions).trans hacc
    have hstep := act_ledger hs a hacc' hk hopen' key
    obtain ⟨obs, hhistory, -⟩ := act_effect s a
    have htail := ih (hs.reaches (.act s a)) hopen hacc
    rw [since_of_append hhistory] at hstep
    rw [hhistory, placedQty_append, linesTo_append, reportedQty_append] at htail
    simp only [run_cons, Runs.outputs, List.sum_cons]
    omega

/-- In every run with at most 2^64 connections, for every open connection and every level: the
quantity it has had accepted there is the sum of what the BOUGHT or SOLD lines enqueued to it
report there, of what was left of its orders when their cancellation was confirmed to it, and of
what rests there for it. -/
theorem run_ledger (kq listenFd : Int) (sends : List SendResult) (actions : List Action) (k : Nat)
    (key : LevelKey) (hopen : (run act (start kq listenFd sends) actions).connected k = true)
    (hacc : (run act (start kq listenFd sends) actions).accepted ≤ 2 ^ 64) :
    let s := run act (start kq listenFd sends) actions
    placedQty k key s.history = reportedQty key (linesTo k s.history) +
      (Runs.outputs act (withdrawnBy k key) (start kq listenFd sends) actions).sum +
      s.book.holding k key := by
  intro s
  have hs : Reachable s := ⟨kq, listenFd, sends, actions, rfl⟩
  have hk : k < 2 ^ 64 := ((hs.recorded.connected k).mp hopen).1.trans_le hacc
  have hall := (Reachable.start kq listenFd sends).ledger hk key actions (Or.inl hopen) hacc
  have hplaced : placedQty k key (start kq listenFd sends).history = 0 := rfl
  have hreported : reportedQty key (linesTo k (start kq listenFd sends).history) = 0 := rfl
  have hholding : (start kq listenFd sends).book.holding k key = 0 := rfl
  rw [hplaced, hreported, hholding, add_zero, add_zero, zero_add] at hall
  exact hall

/-- A BUY of 10 trades 4 with a client that leaves, 1 with its own connection, and the rest is
cancelled; then 3 more are bid for. -/
theorem run_ledger_cancelled :
    let bid : Chunk := ⟨text "BUY JNST 10 5\n", by decide, by decide⟩
    let ask : Chunk := ⟨text "SELL JNST 4 5\n", by decide, by decide⟩
    let rest : Chunk := ⟨text "SELL JNST 1 5\nCANCEL 0\nBUY JNST 3 5\n", by decide, by decide⟩
    let actions : List Action := [.accept 5, .feed 5 bid, .line 5, .accept 6, .feed 6 ask, .line 6,
      .drop 6, .feed 5 rest, .line 5, .line 5, .line 5]
    let s := run act (start 3 4 []) actions
    let key : LevelKey := ⟨text "JNST", .buy, 5⟩
    placedQty 0 key s.history = reportedQty key (linesTo 0 s.history) +
      (Runs.outputs act (withdrawnBy 0 key) (start 3 4 []) actions).sum +
      s.book.holding 0 key ∧
    placedQty 0 key s.history = 13 ∧ reportedQty key (linesTo 0 s.history) = 5 ∧
      s.book.holding 0 key = 3 := by
  intro bid ask rest actions s key
  exact ⟨run_ledger 3 4 [] actions 0 key (by decide) (by decide), by decide, by decide, by decide⟩

end Server

end SocketExchange
