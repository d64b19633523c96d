import SocketExchange.Book.Reference
import SocketExchange.Service.Delivery
import SocketExchange.Service.MarketData
import SocketExchange.Service.Obedience
import SocketExchange.Service.OrderLife
import SocketExchange.Service.Replies

/-!
# Turnover

A single order may trade with any number of resting orders, but each trade finishes one of the
two. So over a run there are no more trades than accepted orders, and what the server has to say
to one connection is bounded by the lines of that connection and by the orders of all.
-/

namespace SocketExchange

open Containers ClientSession Runs OrderBook

/-! ## Trades finish orders -/

namespace Reference

private theorem trade_pending (o : Order) (rs : List Order) :
    (trade o rs).1.length + pending (trade o rs).2.1 (trade o rs).2.2 ≤ pending o rs := by
  induction o, rs using trade.induct with
  | case1 o rs hpos hnone =>
    rw [trade_none hnone]
    simp
  | case2 o rs hpos f o' rs' hsome ih =>
    have hless := tradeOldest_pending hpos hsome
    rw [trade_some hpos hsome]
    dsimp only
    rw [List.length_cons]
    omega
  | case3 o rs hpos =>
    rw [trade_of_nonpos hpos]
    simp

/-- A submit trades at most once more than it makes the list of resting orders shorter. -/
theorem submit_length (r : Reference) (o : Order) :
    (r.submit o).1.length + (r.submit o).2.orders.length ≤ r.orders.length + 1 := by
  rw [submit]
  split
  · simp
  · rename_i hqty
    have hpending := trade_pending o r.orders
    have hpos : 0 < o.qty := by omega
    simp only [pending, if_pos hpos] at hpending
    dsimp only
    split
    · rename_i hleft
      rw [if_pos hleft] at hpending
      rw [List.length_append, List.length_singleton]
      omega
    · omega

/-- A successful cancel makes the list of resting orders shorter. -/
theorem cancel_length {r : Reference} {oid fd : Int} {seq : UInt64}
    (hok : (r.cancel oid fd seq).1 = true) :
    (r.cancel oid fd seq).2.orders.length + 1 ≤ r.orders.length := by
  rw [cancel] at hok ⊢
  cases hfound : r.orders.find? fun x => x.id = oid with
  | none =>
    rw [hfound] at hok
    cases hok
  | some x =>
    rw [hfound] at hok
    dsimp only at hok ⊢
    split at hok
    · rename_i howner
      rw [if_pos howner]
      have hid : x.id = oid := by simpa using List.find?_some hfound
      refine List.length_filter_lt_length_iff_exists.mpr ⟨x, List.mem_of_find?_eq_some hfound, ?_⟩
      simp [hid]
    · cases hok

end Reference

/-- The listed orders are those of the book. -/
theorem Reference.Refines.length_orders {b : OrderBook} {r : Reference} (h : Refines b r)
    (hdistinct : Distinct b) : b.orders.length = r.orders.length := by
  have hbook : b.orders.Nodup := .of_map _ hdistinct.nodup_orders
  have hlist : r.orders.Nodup := by
    refine List.nodup_iff_count_le_one.mpr fun x => ?_
    have hlevel : ((levelOf x.key r.orders).map (·.id)).Nodup := by
      rw [← h.level]
      exact hdistinct.nodup x.key
    have hcount := List.nodup_iff_count_le_one.mp (List.Nodup.of_map _ hlevel) x
    rwa [levelOf, List.count_filter (by simp)] at hcount
  refine ((List.perm_ext_iff_of_nodup hbook hlist).mpr fun x => ?_).length_eq
  rw [OrderBook.mem_orders]
  constructor
  · rintro ⟨k, hx⟩
    exact h.mem_orders hx
  · exact fun hx => ⟨x.key, h.mem_level hx⟩

/-! ## Over a run -/

/-- The fills that the server has taken up. -/
def fillsOf (history : List Obs) : List Fill :=
  history.filterMap fun
    | .filled f => some f
    | _ => none

private theorem fillsOf_append (h h' : List Obs) : fillsOf (h ++ h') = fillsOf h ++ fillsOf h' :=
  List.filterMap_append ..

private theorem fillsOf_quiet {obs : List Obs} (h : ∀ o ∈ obs, o.Quiet) : fillsOf obs = [] := by
  rw [fillsOf, List.filterMap_eq_nil_iff]
  intro o ho
  cases o with
  | filled f => exact (h _ ho).elim
  | _ => rfl

namespace Server

variable {s s' : Server} {a : Action} {k : Nat} {word : Bytes}

private theorem fillsOf_fillVoice (s : Server) (f : Fill) : fillsOf (s.fillVoice f) = [f] := by
  have hrest : ∀ o ∈ s.ownerVoice (f.party .buy) (reportLine f .buy) ++
      s.ownerVoice (f.party .sell) (reportLine f .sell) ++ s.tradeVoice f,
      ∃ k line, o = .enqueued k line := by
    intro o ho
    rcases List.mem_append.mp ho with ho | ho
    · rcases List.mem_append.mp ho with ho | ho
      · exact (mem_ownerVoice ho).imp fun k he => ⟨_, he⟩
      · exact (mem_ownerVoice ho).imp fun k he => ⟨_, he⟩
    · obtain ⟨k, -, rfl⟩ := List.mem_map.mp ho
      exact ⟨k, _, rfl⟩
  have hnone : fillsOf (s.ownerVoice (f.party .buy) (reportLine f .buy) ++
      s.ownerVoice (f.party .sell) (reportLine f .sell) ++ s.tradeVoice f) = [] := by
    rw [fillsOf, List.filterMap_eq_nil_iff]
    intro o ho
    obtain ⟨k, line, rfl⟩ := hrest o ho
    rfl
  have hvoice : s.fillVoice f = [.filled f] ++ (s.ownerVoice (f.party .buy) (reportLine f .buy) ++
      s.ownerVoice (f.party .sell) (reportLine f .sell) ++ s.tradeVoice f) := rfl
  rw [hvoice, fillsOf_append, hnone]
  rfl

private theorem fillsOf_orderVoice (s : Server) (k : Nat) (o : Order) :
    fillsOf (s.orderVoice k o) = (s.drawn.submit o).1 := by
  have hplaced : fillsOf [.placed k o, .enqueued k (msgOrderAccepted o.id)] = [] := rfl
  have hfills : ∀ fills : List Fill, fillsOf (fills.flatMap s.fillVoice) = fills := by
    intro fills
    induction fills with
    | nil => rfl
    | cons f fills ih =>
      rw [List.flatMap_cons, fillsOf_append, fillsOf_fillVoice, ih, List.singleton_append]
  rw [orderVoice, fillsOf_append, hplaced, hfills, List.nil_append]

/-- Every trade, every resting order and every confirmed cancellation is accounted for by an
accepted order of its own. -/
def Covered (s : Server) : Prop :=
  ∃ r, Reference.Refines s.book r ∧
    (fillsOf s.history).length + r.orders.length +
      (linesOf (text "ORDER_CANCELLED") s.history).length ≤ (placedOrders s.history).length

/-- A move that adds a trade, a resting order or a cancellation spends an accepted order on it. -/
theorem Covered.moves (h : Covered s) (ht : Tracked s) (hm : Moves s a s') : Covered s' := by
  obtain ⟨r, hr, hcovered⟩ := h
  obtain ⟨obs, hhistory, heffect⟩ := hm.effect
  rw [Covered, hhistory, fillsOf_append, linesOf_append, placedOrders_append, List.length_append,
    List.length_append, List.length_append]
  generalize s'.book = book at heffect
  cases heffect with
  | quiet hobs =>
    refine ⟨r, hr, ?_⟩
    rw [fillsOf_quiet hobs, linesOf_quiet (by decide) hobs, placedOrders_quiet hobs]
    exact hcovered
  | rehashed order => exact ⟨r, ⟨hr.next, fun k => (level_rehash ..).trans (hr.level k)⟩, hcovered⟩
  | @placed fd c line o hc hline hid howner =>
    let r₁ : Reference := { r with nextId_ := r.nextId_ + 1 }
    have hdrawn : Reference.Refines s.drawn r₁ := ⟨congrArg (· + 1) hr.next, hr.level⟩
    refine ⟨_, hdrawn.submit o, ?_⟩
    have hfills : fillsOf (.received c.conn line :: s.orderVoice c.conn o) =
        (s.drawn.submit o).1 := fillsOf_orderVoice s c.conn o
    have hcancelled : linesOf (text "ORDER_CANCELLED")
        (.received c.conn line :: s.orderVoice c.conn o) = [] := by
      have hvoice := linesOf_orderVoice (s := s) (by decide :
        text "ORDER_CANCELLED" ∉ [text "BOUGHT", text "SOLD", text "TRADE"]) c.conn o
      rwa [if_neg (by decide)] at hvoice
    have hlength := r₁.submit_length o
    have horders : r₁.orders = r.orders := rfl
    rw [horders, ← hdrawn.submit_fills o] at hlength
    rw [hfills, hcancelled, placedOrders_placed, List.length_singleton, List.length_nil]
    omega
  | @cancelled fd c line oid hc hoid hok =>
    obtain ⟨hreply, hcancel⟩ := hr.cancel ht.chronological.identified oid c.fd c.sessionSeq
    refine ⟨_, hcancel, ?_⟩
    have hlength := Reference.cancel_length (hreply.symm.trans hok)
    have hfills : fillsOf [.received c.conn line, .enqueued c.conn (msgOrderCancelled oid)] =
        [] := rfl
    have hcancelled : linesOf (text "ORDER_CANCELLED")
        [.received c.conn line, .enqueued c.conn (msgOrderCancelled oid)] =
          [msgOrderCancelled oid] := by
      have hreceived : linesOf (text "ORDER_CANCELLED") [.received c.conn line] = [] := rfl
      rw [← List.singleton_append, linesOf_append, hreceived, linesOf, linesWhere_enqueued,
        firstWord_msgOrderCancelled, decide_eq_true rfl]
      rfl
    rw [hfills, hcancelled, List.length_singleton, List.length_nil]
    omega

private theorem Reachable.covered (hs : Reachable s) : Covered s := by
  refine hs.view_invariant (P := Covered) (fun kq listenFd sends => ?_)
    fun s a hs hcovered hm => hcovered.moves hs.tracked hm
  exact ⟨{}, Reference.refines_empty, le_rfl⟩

/-! ## The lines of one connection -/

private theorem linesWhere_eq_filter (k : Nat) (q : Bytes → Bool) (history : List Obs) :
    linesWhere (fun k' line => k' = k && q line) history = (linesTo k history).filter q := by
  induction history with
  | nil => rfl
  | cons o history ih =>
    have hsplit : o :: history = [o] ++ history := rfl
    rw [hsplit, linesWhere_append, linesTo_append, List.filter_append, ih]
    congr 1
    cases o with
    | enqueued k' line =>
      rw [linesWhere_enqueued, linesTo_enqueued]
      by_cases hk : k' = k <;> cases hq : q line <;> simp [hk, hq]
    | _ => rfl

/-- The direct lines to a connection are the lines to it that are no reports. -/
theorem directLines_eq (k : Nat) (history : List Obs) :
    directLines k history =
      (linesTo k history).filter fun line => firstWord line ∉ reportWords :=
  linesWhere_eq_filter k _ history

/-- The requests of a connection are the lines from it that do not quit. -/
theorem requests_eq (k : Nat) (history : List Obs) :
    requests k history =
      (linesFrom k history).filter fun line => commandWord line ≠ text "QUIT" := by
  induction history with
  | nil => rfl
  | cons o history ih =>
    have hsplit : o :: history = [o] ++ history := rfl
    rw [hsplit, requests_append, linesFrom_append, List.filter_append, ih]
    congr 1
    cases o with
    | received k' line =>
      rw [requests_received, linesFrom_received]
      by_cases hk : k' = k
      · by_cases hword : commandWord line = text "QUIT" <;> simp [hk, hword]
      · simp [hk]
    | _ => rfl

/-- In every reachable state the direct lines of a connection answer its requests. -/
theorem Reachable.aligned (h : Reachable s) (k : Nat) : Aligned k s.history := by
  obtain ⟨kq, listenFd, sends, actions, rfl⟩ := h
  refine run_invariant (P := fun s : Server => Aligned k s.history) (fun s a hs => ?_) ?_ actions
  · obtain ⟨obs, hhistory, haligned⟩ := act_aligned s a k
    rw [hhistory]
    exact hs.append haligned
  · exact .nil

/-- The lines to a connection that begin with a word. -/
def linesWith (k : Nat) (word : Bytes) : List Obs → List Bytes :=
  linesWhere fun k' line => k' = k && firstWord line = word

private theorem linesWith_append (k : Nat) (word : Bytes) (h h' : List Obs) :
    linesWith k word (h ++ h') = linesWith k word h ++ linesWith k word h' := linesWhere_append ..

private theorem length_ownerVoice_le (s : Server) (party : Int × UInt64) (line : Bytes) :
    (s.ownerVoice party line).length ≤ 1 := by
  unfold ownerVoice
  split
  · simp
  · split <;> simp

/-- A fill makes at most one report of a kind for a connection. -/
theorem Consistent.length_fillVoice (hs : Consistent s) (k : Nat) (f : Fill)
    (hword : word ∈ reportWords) : (linesWith k word (s.fillVoice f)).length ≤ 1 := by
  have howner : ∀ side, (linesWith k word (s.ownerVoice (f.party side)
      (reportLine f side))).length ≤ if firstWord (reportLine f side) = word then 1 else 0 := by
    intro side
    split
    · exact (List.length_filterMap_le ..).trans (length_ownerVoice_le ..)
    · rename_i hother
      have hnone : linesWith k word (s.ownerVoice (f.party side) (reportLine f side)) = [] := by
        refine linesWhere_eq_nil fun k' line hmem => ?_
        obtain ⟨k'', he⟩ := mem_ownerVoice hmem
        rw [(Obs.enqueued.inj he).2]
        simp [hother]
      rw [hnone]
      rfl
  have htrade : (linesWith k word (s.tradeVoice f)).length ≤
      if text "TRADE" = word then 1 else 0 := by
    split
    · rename_i hsame
      subst hsame
      have hlines : linesWith k (text "TRADE") (s.tradeVoice f) = if k ∈ s.followers f.instrument
          then [msgTrade f.instrument f.qty f.price] else [] := by
        refine linesWhere_map_enqueued (fun k' => ?_) (nodup_followers hs f.instrument)
        rw [firstWord_msgTrade, decide_eq_true rfl, Bool.and_true]
      rw [hlines]
      split <;> simp
    · rename_i hother
      have hnone : linesWith k word (s.tradeVoice f) = [] := by
        refine linesWhere_eq_nil fun k' line hmem => ?_
        obtain ⟨k'', -, he⟩ := List.mem_map.mp hmem
        rw [← (Obs.enqueued.inj he).2, firstWord_msgTrade]
        simp [hother]
      rw [hnone]
      rfl
  have hbuy := howner .buy
  have hsell := howner .sell
  have hfilled : linesWith k word [.filled f] = [] := rfl
  rw [fillVoice, ← List.singleton_append, linesWith_append, linesWith_append, linesWith_append,
    hfilled, List.nil_append, List.length_append, List.length_append]
  have hbought : firstWord (reportLine f .buy) = text "BOUGHT" := firstWord_msgBought ..
  have hsold : firstWord (reportLine f .sell) = text "SOLD" := firstWord_msgSold ..
  rw [hbought] at hbuy
  rw [hsold] at hsell
  have hone : (if text "BOUGHT" = word then 1 else 0) + (if text "SOLD" = word then 1 else 0) +
      (if text "TRADE" = word then 1 else 0) ≤ 1 := by
    have hwords : ∀ word ∈ reportWords, (if text "BOUGHT" = word then 1 else 0) +
        (if text "SOLD" = word then 1 else 0) + (if text "TRADE" = word then 1 else 0) ≤ 1 := by
      decide
    exact hwords word hword
  omega

/-- A connection is sent at most one report of a kind for each trade. -/
theorem Reachable.length_linesWith (hs : Reachable s) (k : Nat) (hword : word ∈ reportWords) :
    (linesWith k word s.history).length ≤ (fillsOf s.history).length := by
  have hreply : word ∈ orderWords := by
    have hsub : reportWords ⊆ orderWords := by decide
    exact hsub hword
  refine hs.view_invariant (P := fun s => (linesWith k word s.history).length ≤
    (fillsOf s.history).length) (fun _ _ _ => le_rfl) fun s a hs hle hm => ?_
  obtain ⟨obs, hhistory, heffect⟩ := hm.effect
  suffices hnew : (linesWith k word obs).length ≤ (fillsOf obs).length by
    rw [hhistory, linesWith_append, fillsOf_append, List.length_append, List.length_append]
    omega
  have hother : ∀ k' line, firstWord line ∉ reportWords →
      linesWith k word [.enqueued k' line] = [] := by
    intro k' line hline
    rw [linesWith, linesWhere_enqueued, if_neg]
    intro hsame
    have hfirst := of_decide_eq_true (Bool.and_eq_true_iff.mp hsame).2
    exact hline (hfirst ▸ hword)
  generalize (s.act a).view.book = book at heffect
  cases heffect with
  | quiet hobs =>
    have hnone : linesWith k word obs = [] := by
      refine linesWhere_quiet (fun k' line hsame => ?_) hobs
      rw [of_decide_eq_true (Bool.and_eq_true_iff.mp hsame).2]
      exact hreply
    rw [hnone]
    exact Nat.zero_le _
  | rehashed order => exact le_rfl
  | @placed fd c line o hc hline hid howner =>
    have hfills : ∀ fills : List Fill, (linesWith k word (fills.flatMap s.view.fillVoice)).length ≤
        fills.length := by
      intro fills
      induction fills with
      | nil => exact le_rfl
      | cons f fills ih =>
        have hone := hs.consistent.length_fillVoice k f hword
        rw [List.flatMap_cons, linesWith_append, List.length_append, List.length_cons]
        omega
    have hentries : .received c.conn line :: s.view.orderVoice c.conn o =
        [.received c.conn line] ++ [.placed c.conn o] ++
          [.enqueued c.conn (msgOrderAccepted o.id)] ++
            (s.view.drawn.submit o).1.flatMap s.view.fillVoice := rfl
    have hreceived : linesWith k word ([.received c.conn line] ++ [.placed c.conn o]) = [] := rfl
    have haccepted : linesWith k word [.enqueued c.conn (msgOrderAccepted o.id)] = [] := by
      refine hother _ _ ?_
      rw [firstWord_msgOrderAccepted]
      decide
    have hfilled : fillsOf (.received c.conn line :: s.view.orderVoice c.conn o) =
        (s.view.drawn.submit o).1 := fillsOf_orderVoice s.view c.conn o
    rw [hfilled, hentries, linesWith_append, linesWith_append, hreceived, haccepted]
    exact hfills _
  | @cancelled fd c line oid hc hoid hok =>
    have hreceived : linesWith k word [.received c.conn line] = [] := rfl
    have hcancelled : linesWith k word [.enqueued c.conn (msgOrderCancelled oid)] = [] := by
      refine hother _ _ ?_
      rw [firstWord_msgOrderCancelled]
      decide
    rw [← List.singleton_append, linesWith_append, hreceived, hcancelled]
    exact Nat.zero_le _

/-- Lines are direct ones or reports of one of the three kinds. -/
theorem length_lines (lines : List Bytes) :
    lines.length = (lines.filter fun line => firstWord line ∉ reportWords).length +
      (lines.filter fun line => firstWord line = text "BOUGHT").length +
      (lines.filter fun line => firstWord line = text "SOLD").length +
      (lines.filter fun line => firstWord line = text "TRADE").length := by
  have hkind : ∀ line : Bytes, (if decide (firstWord line ∉ reportWords) = true then 1 else 0) +
      (if decide (firstWord line = text "BOUGHT") = true then 1 else 0) +
      (if decide (firstWord line = text "SOLD") = true then 1 else 0) +
      (if decide (firstWord line = text "TRADE") = true then 1 else 0) = 1 := by
    intro line
    by_cases hword : firstWord line ∈ reportWords
    · have hwords : ∀ word ∈ reportWords, (if decide (word ∉ reportWords) = true then 1 else 0) +
          (if decide (word = text "BOUGHT") = true then 1 else 0) +
          (if decide (word = text "SOLD") = true then 1 else 0) +
          (if decide (word = text "TRADE") = true then 1 else 0) = 1 := by decide
      exact hwords _ hword
    · have hnot : ∀ word ∈ reportWords, firstWord line ≠ word := fun word hmem he =>
        hword (he ▸ hmem)
      simp [hword, hnot (text "BOUGHT") (by decide), hnot (text "SOLD") (by decide),
        hnot (text "TRADE") (by decide)]
  simp only [← List.countP_eq_length_filter]
  induction lines with
  | nil => rfl
  | cons line lines ih =>
    have hone := hkind line
    simp only [List.countP_cons, List.length_cons]
    omega

/-- In every run: the trades, the orders that rest and the cancellations confirmed are no more
than the orders accepted. A connection is sent of each kind of report no more lines than there
have been trades, and altogether no more than it has sent lines itself and three for each order
accepted from anybody. -/
theorem run_turnover (kq listenFd : Int) (sends : List SendResult) (actions : List Action) :
    let s := run act (start kq listenFd sends) actions
    (fillsOf s.history).length + s.book.orders.length +
        (linesOf (text "ORDER_CANCELLED") s.history).length ≤ (placedOrders s.history).length ∧
      ∀ k, (∀ word ∈ reportWords, ((linesTo k s.history).filter fun line =>
          firstWord line = word).length ≤ (fillsOf s.history).length) ∧
        (linesTo k s.history).length ≤
          (linesFrom k s.history).length + 3 * (placedOrders s.history).length := by
  intro s
  have hs : Reachable s := ⟨kq, listenFd, sends, actions, rfl⟩
  obtain ⟨r, hr, hcovered⟩ : Covered s.view := hs.covered
  have hlength := hr.length_orders hs.tracked.chronological.identified.distinct
  have hbound : (fillsOf s.history).length + s.book.orders.length +
      (linesOf (text "ORDER_CANCELLED") s.history).length ≤ (placedOrders s.history).length := by
    rw [← hlength] at hcovered
    exact hcovered
  refine ⟨hbound, fun k => ?_⟩
  have hreports : ∀ word ∈ reportWords, ((linesTo k s.history).filter fun line =>
      firstWord line = word).length ≤ (fillsOf s.history).length := by
    intro word hword
    have hle := hs.length_linesWith k hword
    rwa [linesWith, linesWhere_eq_filter] at hle
  refine ⟨hreports, ?_⟩
  have hdirect : ((linesTo k s.history).filter fun line => firstWord line ∉ reportWords).length ≤
      (linesFrom k s.history).length := by
    have haligned := (hs.aligned k).length_eq
    rw [directLines_eq] at haligned
    rw [← haligned, requests_eq]
    exact List.length_filter_le ..
  have hbought := hreports (text "BOUGHT") (by decide)
  have hsold := hreports (text "SOLD") (by decide)
  have htrade := hreports (text "TRADE") (by decide)
  have hall := length_lines (linesTo k s.history)
  omega

end Server

end SocketExchange
