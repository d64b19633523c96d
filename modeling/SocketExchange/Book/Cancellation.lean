import SocketExchange.Book.Reference

/-!
# A withdrawn order leaves no trace

An order that its owner cancels before anything of it has traded might as well never have been
placed: beside the run with it goes a run without it, with the same book but for this one order,
and with the same answers to everybody else.
-/

namespace SocketExchange

open Runs

namespace OrderBook

/-! ## Matching around an order -/

section Matched

variable {i : Int} {o o' : Order} {queue queue' : Queue} {fills : List Fill}

/-- The loop is what `Matched` says. -/
theorem Matched.loop (h : Matched o queue fills o' queue') :
    matchLoop o queue = (fills, o', queue') := by
  induction h with
  | @stop o queue h =>
    cases queue with
    | nil => rfl
    | cons r queue =>
      have hnone : ¬ o.qty > 0 := by
        have := h.resolve_right (List.cons_ne_nil r queue)
        omega
      rw [matchLoop, if_neg hnone]
  | whole hpos hle _ ih =>
    rw [matchLoop_turn _ _ _ hpos]
    simp only [min_eq_right hle, sub_self, if_true, ih]
  | @part o resting queue hpos hlt =>
    have hleft : resting.qty - o.qty ≠ 0 := by omega
    rw [matchLoop_turn _ _ _ hpos]
    simp only [min_eq_left hlt.le, sub_self, if_neg hleft, matchLoop, Order.withQty_qty, gt_iff_lt,
      lt_irrefl, if_false]

/-- Orders that are left as they are might as well not be in the queue. -/
theorem Matched.filter (h : Matched o queue fills o' queue')
    (hnodup : (queue.map (·.id)).Nodup) (hspared : ∀ x ∈ queue, x.id = i → x ∈ queue') :
    Matched o (queue.filter fun x => x.id ≠ i) fills o' (queue'.filter fun x => x.id ≠ i) := by
  induction h with
  | stop h => exact .stop (h.imp_right fun he => by rw [he, List.filter_nil])
  | @whole o o' resting queue queue' fills hpos hle htail ih =>
    rw [List.map_cons, List.nodup_cons] at hnodup
    have hne : resting.id ≠ i := fun he => by
      obtain ⟨r, hr, hsame, -⟩ := htail.mem_queue (hspared resting List.mem_cons_self he)
      refine hnodup.1 (List.mem_map.mpr ⟨r, hr, ?_⟩)
      rw [hsame, Order.withQty_id]
    rw [List.filter_cons_of_pos (by simpa using hne)]
    exact .whole hpos hle (ih hnodup.2 fun x hx => hspared x (List.mem_cons_of_mem _ hx))
  | @part o resting queue hpos hlt =>
    rw [List.map_cons, List.nodup_cons] at hnodup
    have hne : resting.id ≠ i := fun he => by
      rcases List.mem_cons.mp (hspared resting List.mem_cons_self he) with hsame | hmem
      · have hqty := congrArg Order.qty hsame
        rw [Order.withQty_qty] at hqty
        omega
      · exact hnodup.1 (List.mem_map_of_mem hmem)
    rw [List.filter_cons_of_pos (by simpa using hne), List.filter_cons_of_pos (by simp [hne])]
    exact .part hpos hlt

/-- An order that comes out of the loop as it went in has met nobody. -/
theorem Matched.untouched (h : Matched o queue fills o' queue') (hqueue : ∀ r ∈ queue, 0 < r.qty)
    (hpos : 0 < o.qty) (hsame : o'.qty = o.qty) : fills = [] ∧ queue' = queue := by
  cases h with
  | stop => exact ⟨rfl, rfl⟩
  | @whole _ _ resting queue _ _ _ _ htail =>
    have hle := htail.incoming_le fun r hr => hqueue r (List.mem_cons_of_mem _ hr)
    have hresting := hqueue resting List.mem_cons_self
    rw [Order.withQty_qty] at hle
    omega
  | part =>
    rw [Order.withQty_qty] at hsame
    omega

end Matched

/-! ## Orders that stay as they are -/

variable {i : Int} {b b' : OrderBook} {op : BookOp} {ops : List BookOp} {k : LevelKey} {x : Order}

private theorem submittedIds_append (ops ops' : List BookOp) :
    submittedIds (ops ++ ops') = submittedIds ops ++ submittedIds ops' := List.filterMap_append

/-- What rests after an operation and has not been submitted by it rested before, with no less to
fill. -/
theorem mem_level_apply (hx : x ∈ (b.apply op).level k) (hid : op.submittedId? ≠ some x.id) :
    ∃ r ∈ b.level k, x = r.withQty x.qty ∧ x.qty ≤ r.qty := by
  by_cases hop : ∃ o, op = .submit o
  · obtain ⟨o, rfl⟩ := hop
    rcases mem_level_submit hx with ⟨r, hr, hsame, hle, -⟩ | ⟨-, hsame, -⟩
    · exact ⟨r, hr, hsame, hle⟩
    · refine absurd (congrArg some ?_) hid
      rw [hsame, (b.matching_matched o).incoming_id]
  · have hsub := b.level_apply_sublist op (fun o ho => hop ⟨o, ho⟩) k
    exact ⟨x, hsub.subset hx, rfl, le_rfl⟩

/-- What rests after a run without a submit of its id is an order that rested before, perhaps
reduced. -/
theorem mem_level_run (hx : x ∈ (run apply b ops).level k) (hid : x.id ∉ submittedIds ops) :
    ∃ r ∈ b.level k, x = r.withQty x.qty ∧ x.qty ≤ r.qty := by
  induction ops generalizing b with
  | nil => exact ⟨x, hx, rfl, le_rfl⟩
  | cons op ops ih =>
    rw [submittedIds_cons, List.mem_append, not_or] at hid
    obtain ⟨r, hr, hsame, hle⟩ := ih hx hid.2
    have hrid : r.id = x.id := by rw [hsame, Order.withQty_id]
    have hnot : op.submittedId? ≠ some r.id := fun he => hid.1 (by rw [he, hrid]; simp)
    obtain ⟨r', hr', hsame', hle'⟩ := mem_level_apply hr hnot
    refine ⟨r', hr', ?_, hle.trans hle'⟩
    rw [hsame, hsame']
    rfl

/-- Every order resting under the id is left as it is. -/
def Spares (i : Int) (b b' : OrderBook) : Prop := ∀ k x, x ∈ b.level k → x.id = i → x ∈ b'.level k

/-- If an order is as it was after a run, it is so at every time. -/
theorem Spares.cons (h : Spares i b (run apply b (op :: ops))) (hd : Distinct b)
    (hfresh : b.Fresh op) (hids : i ∉ submittedIds (op :: ops)) :
    Spares i b (b.apply op) ∧ Spares i (b.apply op) (run apply (b.apply op) ops) := by
  rw [submittedIds_cons, List.mem_append, not_or] at hids
  have hop : ∀ {y : Order}, y.id = i → op.submittedId? ≠ some y.id := fun hy he =>
    hids.1 (by rw [he, hy]; simp)
  have hspares : Spares i b (b.apply op) := by
    rintro k x hx rfl
    obtain ⟨z, hz, hsame, hle⟩ := mem_level_run (b := b.apply op) (h k x hx rfl) hids.2
    have hzid : z.id = x.id := by rw [hsame, Order.withQty_id]
    obtain ⟨w, hw, hsame', hle'⟩ := mem_level_apply hz (hop hzid)
    have hwid : w.id = z.id := by rw [hsame', Order.withQty_id]
    obtain rfl := hd.unique hw hx (hwid.trans hzid)
    have hqty : z.qty = w.qty := le_antisymm hle' hle
    rw [hqty] at hsame'
    have hz' : z = w := hsame'
    rwa [← hz']
  refine ⟨hspares, fun k z hz hzid => ?_⟩
  obtain ⟨w, hw, hsame, -⟩ := mem_level_apply hz (hop hzid)
  have hwid : w.id = i := by rw [← hzid, hsame, Order.withQty_id]
  obtain rfl := (hd.apply hfresh).unique (hspares k w hw hwid) hz (hwid.trans hzid.symm)
  exact h k w hw hwid

/-! ## The book without an order -/

/-- The same book but for the order with the id. -/
structure Without (i : Int) (b b' : OrderBook) : Prop where
  nextId : b'.nextId_ = b.nextId_
  level : ∀ k, b'.level k = (b.level k).filter fun x => x.id ≠ i

/-- The levels of the book without the order hold everything else. -/
theorem Without.mem_level (h : Without i b b') : x ∈ b'.level k ↔ x ∈ b.level k ∧ x.id ≠ i := by
  rw [h.level, List.mem_filter, decide_eq_true_iff]

/-- Taking an order out keeps the ids distinct. -/
theorem Without.distinct (h : Without i b b') (hd : Distinct b) : Distinct b' where
  nodup k := by
    rw [h.level]
    exact (hd.nodup k).sublist (List.filter_sublist.map _)
  apart k k' x y hx hy := hd.apart k k' x y (h.mem_level.mp hx).1 (h.mem_level.mp hy).1

/-- Matching an order against a level that spares the absent one gives the same fills, and the same
level without it. -/
theorem Without.matching (h : Without i b b') (hd : Distinct b) (o : Order)
    (hspared : ∀ x ∈ b.level o.key.opposite, x.id = i → x ∈ (b.matching o).2.2) :
    b'.matching o =
      ((b.matching o).1, (b.matching o).2.1, (b.matching o).2.2.filter fun x => x.id ≠ i) := by
  rw [OrderBook.matching, h.level]
  exact ((b.matching_matched o).filter (hd.nodup _) hspared).loop

/-- A submit that spares the absent order fills the same on both books. -/
theorem Without.submit (h : Without i b b') (hd : Distinct b) {o : Order} (ho : o.id ≠ i)
    (hspares : Spares i b (b.submit o).2) :
    Without i (b.submit o).2 (b'.submit o).2 ∧ (b'.submit o).1 = (b.submit o).1 := by
  by_cases hpos : 0 < o.qty
  swap
  · have hnone := Int.not_lt.mp hpos
    rw [submit_of_nonpos _ hnone, submit_of_nonpos _ hnone]
    exact ⟨h, rfl⟩
  have hmatching := h.matching hd o fun x hx hid => by
    have hleft := hspares _ x hx hid
    rwa [level_submit_opposite b hpos] at hleft
  have hrest : (remainder (b.matching o).2.1).filter (fun x => x.id ≠ i) =
      remainder (b.matching o).2.1 := by
    refine List.filter_eq_self.mpr fun x hx => decide_eq_true ?_
    rw [(mem_remainder.mp hx).1, (b.matching_matched o).incoming_id]
    exact ho
  refine ⟨⟨?_, fun k => ?_⟩, ?_⟩
  · rw [submit_nextId_, submit_nextId_, h.nextId]
  · by_cases hown : k = o.key
    · subst hown
      rw [level_submit_own b hpos, level_submit_own b' hpos, hmatching, List.filter_append, hrest,
        h.level]
    by_cases hopp : k = o.key.opposite
    · subst hopp
      rw [level_submit_opposite b hpos, level_submit_opposite b' hpos, hmatching]
    · rw [level_submit_other b o hown hopp, level_submit_other b' o hown hopp, h.level]
  · rw [submit_fills _ hpos, submit_fills _ hpos, hmatching]

/-- A cancel that spares the absent order answers the same on both books. -/
theorem Without.cancel (h : Without i b b') (hd : Distinct b) {orderId fd : Int} {seq : UInt64}
    (hspares : Spares i b (b.cancel orderId fd seq).2) :
    Without i (b.cancel orderId fd seq).2 (b'.cancel orderId fd seq).2 ∧
      (b'.cancel orderId fd seq).1 = (b.cancel orderId fd seq).1 := by
  have hd' := h.distinct hd
  -- the order itself is not cancelled, and cannot be on the other side
  have hother : (b.cancel orderId fd seq).1 = true → orderId ≠ i := by
    rintro hok rfl
    obtain ⟨x, ⟨k, hx⟩, hid, -⟩ := hd.cancel_iff.mp hok
    have hleft := hspares k x hx hid
    rw [hd.level_cancel hok, List.mem_filter, decide_eq_true_iff] at hleft
    exact hleft.2 hid
  have hreply : (b'.cancel orderId fd seq).1 = (b.cancel orderId fd seq).1 := by
    rw [Bool.eq_iff_iff]
    constructor
    · intro hok
      obtain ⟨x, ⟨k, hx⟩, hid, howner⟩ := hd'.cancel_iff.mp hok
      exact hd.cancel_iff.mpr ⟨x, ⟨k, (h.mem_level.mp hx).1⟩, hid, howner⟩
    · intro hok
      obtain ⟨x, ⟨k, hx⟩, hid, howner⟩ := hd.cancel_iff.mp hok
      have hne : x.id ≠ i := hid.trans_ne (hother hok)
      exact hd'.cancel_iff.mpr ⟨x, ⟨k, h.mem_level.mpr ⟨hx, hne⟩⟩, hid, howner⟩
  refine ⟨⟨?_, fun k => ?_⟩, hreply⟩
  · rw [cancel_nextId_, cancel_nextId_, h.nextId]
  · cases hok : (b.cancel orderId fd seq).1 with
    | true =>
      rw [hd.level_cancel hok, hd'.level_cancel (hreply.trans hok), h.level, List.filter_comm]
    | false => rw [cancel_eq_of_refused hok, cancel_eq_of_refused (hreply.trans hok), h.level]

/-- A call that spares the order acts on the book without it alike. -/
theorem Without.apply (h : Without i b b') (hd : Distinct b) (hcall : Reference.IsCall op)
    (hids : op.submittedId? ≠ some i) (hspares : Spares i b (b.apply op)) :
    Without i (b.apply op) (b'.apply op) ∧ b'.reply op = b.reply op := by
  cases op with
  | nextId => exact ⟨⟨congrArg (· + 1) h.nextId, h.level⟩, congrArg BookReply.id h.nextId⟩
  | submit o =>
    obtain ⟨hbook, hfills⟩ := h.submit hd (fun he => hids (congrArg some he)) hspares
    exact ⟨hbook, congrArg BookReply.fills hfills⟩
  | cancel orderId fd seq =>
    obtain ⟨hbook, hok⟩ := h.cancel hd hspares
    exact ⟨hbook, congrArg BookReply.cancelled hok⟩
  | removeOrdersOf fd => exact hcall.elim
  | rehash order =>
    refine ⟨⟨h.nextId, fun k => ?_⟩, rfl⟩
    simp only [OrderBook.apply, level_rehash, h.level]

/-- A run of calls that spares the absent order answers the same on both books, and leaves them the
same but for it. -/
theorem Without.run (h : Without i b b') (hd : Distinct b)
    (hfresh : Admissible Fresh OrderBook.apply b ops)
    (hcalls : ∀ op ∈ ops, Reference.IsCall op) (hids : i ∉ submittedIds ops)
    (hspares : Spares i b (run OrderBook.apply b ops)) :
    Without i (run OrderBook.apply b ops) (run OrderBook.apply b' ops) ∧
      outputs OrderBook.apply reply b' ops = outputs OrderBook.apply reply b ops := by
  induction ops generalizing b b' with
  | nil => exact ⟨h, rfl⟩
  | cons op ops ih =>
    obtain ⟨hop, hcalls⟩ := List.forall_mem_cons.mp hcalls
    obtain ⟨hfirst, hlater⟩ := hspares.cons hd hfresh.1 hids
    rw [submittedIds_cons, List.mem_append, not_or] at hids
    have hnot : op.submittedId? ≠ some i := fun he => hids.1 (by rw [he]; simp)
    obtain ⟨hstep, hreply⟩ := h.apply hd hop hnot hfirst
    obtain ⟨hbook, hreplies⟩ := ih hstep (hd.apply hfresh.1) hfresh.2 hcalls hids.2 hlater
    exact ⟨hbook, by simp only [outputs, hreply, hreplies]⟩

/-! ## Placing and withdrawing -/

variable {y : Order}

/-- No order with the id rests in the book. -/
def Absent (i : Int) (b : OrderBook) : Prop := ∀ k x, x ∈ b.level k → x.id ≠ i

private theorem Absent.filter (h : Absent i b) (k : LevelKey) :
    (b.level k).filter (fun x => x.id ≠ i) = b.level k :=
  List.filter_eq_self.mpr fun x hx => decide_eq_true (h k x hx)

/-- An id that neither rests nor is submitted does not rest after the run. -/
theorem Absent.run (h : Absent i b) (hids : i ∉ submittedIds ops) :
    Absent i (run OrderBook.apply b ops) := by
  rintro k x hx rfl
  obtain ⟨r, hr, hsame, -⟩ := mem_level_run hx hids
  refine h k r hr ?_
  rw [hsame, Order.withQty_id]

/-- Only the book without the order is left of it. -/
theorem Without.same (h : Without i b b') (habsent : Absent i b) (k : LevelKey) :
    b'.level k = b.level k := (h.level k).trans (habsent.filter k)

/-- An order that rests whole behind its own submit has met nobody. -/
theorem without_submit (hb : Shape b) (habsent : Absent y.id b)
    (hrests : ∃ r ∈ (b.submit y).2.level y.key, y = r.withQty y.qty ∧ y.qty ≤ r.qty) :
    y ∈ (b.submit y).2.level y.key ∧ Without y.id (b.submit y).2 b ∧ (b.submit y).1 = [] := by
  obtain ⟨r, hr, hsame, hle⟩ := hrests
  have hrid : r.id = y.id := by rw [hsame, Order.withQty_id]
  rcases mem_level_submit hr with ⟨x, hx, hfrom, -⟩ | ⟨-, hleft, hrpos⟩
  · refine absurd ?_ (habsent y.key x hx)
    rw [← hrid, hfrom, Order.withQty_id]
  have hmatched := b.matching_matched y
  rw [← hleft] at hmatched
  have hqueue : ∀ x ∈ b.level y.key.opposite, 0 < x.qty := hb.positive _
  have hpos : 0 < y.qty := by
    by_contra hnone
    rw [submit_of_nonpos b (Int.not_lt.mp hnone)] at hr
    exact habsent y.key r hr hrid
  have hqty : r.qty = y.qty := le_antisymm (hmatched.incoming_le hqueue) hle
  obtain ⟨hfills, hqueue'⟩ := hmatched.untouched hqueue hpos hqty
  have hry : r = y := by
    rw [hmatched.incoming, hqty]
    rfl
  have hremains : remainder (b.matching y).2.1 = [y] := by rw [← hleft, hry, remainder, if_pos hpos]
  refine ⟨hry ▸ hr, ⟨(submit_nextId_ b y).symm, fun k => ?_⟩, ?_⟩
  · by_cases hown : k = y.key
    · subst hown
      rw [level_submit_own b hpos, hremains, List.filter_append, habsent.filter,
        List.filter_cons_of_neg (by simp), List.filter_nil, List.append_nil]
    by_cases hopp : k = y.key.opposite
    · subst hopp
      rw [level_submit_opposite b hpos, hqueue', habsent.filter]
    · rw [level_submit_other b y hown hopp, habsent.filter]
  · rw [submit_fills _ hpos, hfills]

/-- Its owner's cancel takes it out again. -/
theorem Without.withdrawn (h : Without y.id b b') (hd : Distinct b) (hy : y ∈ b.level y.key) :
    (b.cancel y.id y.ownerFd y.ownerSeq).1 = true ∧
      Absent y.id (b.cancel y.id y.ownerFd y.ownerSeq).2 ∧
      Without y.id (b.cancel y.id y.ownerFd y.ownerSeq).2 b' := by
  have hok : (b.cancel y.id y.ownerFd y.ownerSeq).1 = true :=
    hd.cancel_iff.mpr ⟨y, ⟨_, hy⟩, rfl, rfl, rfl⟩
  have habsent : Absent y.id (b.cancel y.id y.ownerFd y.ownerSeq).2 := by
    intro k x hx
    rw [hd.level_cancel hok, List.mem_filter, decide_eq_true_iff] at hx
    exact hx.2
  refine ⟨hok, habsent, ⟨h.nextId.trans (cancel_nextId_ ..).symm, fun k => ?_⟩⟩
  rw [habsent.filter, hd.level_cancel hok, h.level]

/-- The id of an order that is submitted and cancelled is submitted at no other time. -/
theorem submitted_once {before mid after : List BookOp} {fd : Int} {seq : UInt64}
    (h : DistinctIds (before ++ .submit y :: mid ++ .cancel y.id fd seq :: after)) :
    y.id ∉ submittedIds before ∧ y.id ∉ submittedIds mid ∧ y.id ∉ submittedIds after := by
  rw [DistinctIds, submittedIds_append, submittedIds_append, submittedIds_cons,
    submittedIds_cons] at h
  simp only [BookOp.submittedId?, Option.toList, List.nil_append, List.append_assoc,
    List.cons_append, List.nodup_middle, List.nodup_cons, List.mem_append, not_or] at h
  exact h.1

/-- In every run of calls with distinct ids: an order that still rests whole when its owner cancels
it has traded with nobody, the cancel is confirmed, and all other calls, between the two and after
them, are answered as if it had never been placed; the book is left the same. -/
theorem run_unplaced (before mid after : List BookOp) (y : Order)
    (hops : DistinctIds (before ++ .submit y :: mid ++ .cancel y.id y.ownerFd y.ownerSeq :: after))
    (hcalls : ∀ op ∈ mid ++ after, Reference.IsCall op)
    (hwhole : y ∈ (run OrderBook.apply {} (before ++ .submit y :: mid)).level y.key) :
    let b := run OrderBook.apply {} before
    let held := run OrderBook.apply {} (before ++ .submit y :: mid)
    let cancelled := held.apply (.cancel y.id y.ownerFd y.ownerSeq)
    let without := run OrderBook.apply {} (before ++ mid)
    b.reply (.submit y) = .fills [] ∧
      held.reply (.cancel y.id y.ownerFd y.ownerSeq) = .cancelled true ∧
      outputs OrderBook.apply reply (b.apply (.submit y)) mid =
        outputs OrderBook.apply reply b mid ∧
      outputs OrderBook.apply reply cancelled after =
        outputs OrderBook.apply reply without after ∧
      (run OrderBook.apply cancelled after).nextId_ = (run OrderBook.apply without after).nextId_ ∧
      ∀ k, (run OrderBook.apply cancelled after).queue? k =
        (run OrderBook.apply without after).queue? k := by
  intro b held cancelled without
  have hall := admissible_fresh_empty hops
  rw [List.append_assoc, List.cons_append, admissible_append] at hall
  obtain ⟨hbefore, hsubmit, hrest⟩ := hall
  obtain ⟨hmid, hcancel₀, hafter₀⟩ := admissible_append.mp hrest
  obtain ⟨hnew, hnotMid, hnotAfter⟩ := submitted_once hops
  have hheld : held = run OrderBook.apply (b.apply (.submit y)) mid := run_append
  have hwithout : without = run OrderBook.apply b mid := run_append
  have hcancel : held.Fresh (.cancel y.id y.ownerFd y.ownerSeq) := hheld ▸ hcancel₀
  have hafter : Admissible Fresh OrderBook.apply cancelled after := by
    simp only [cancelled, hheld]
    exact hafter₀
  -- the order arrives
  have hd : Distinct b := admissible_invariant (fun _ _ hd hf => hd.apply hf) distinct_empty hbefore
  have habsent : Absent y.id b := fun k x hx hid => hnew (hid ▸ submitted_of_rests_run ⟨k, hx⟩)
  obtain ⟨hy, hplaced, hfills⟩ := without_submit (shape_run before) habsent
    (mem_level_run (b := b.apply (.submit y)) (hheld ▸ hwhole) hnotMid)
  have hd₁ : Distinct (b.apply (.submit y)) := hd.apply hsubmit
  have hspares : Spares y.id (b.apply (.submit y)) held := fun k x hx hid => by
    obtain rfl := hd₁.apart k y.key x y hx hy hid
    obtain rfl := hd₁.unique hx hy hid
    exact hwhole
  -- and waits
  obtain ⟨hwaits, hreplies⟩ := hplaced.run hd₁ hmid
    (fun op hop => hcalls op (List.mem_append_left _ hop)) hnotMid (hheld ▸ hspares)
  have hwaiting : Without y.id held without := by
    rw [hheld, hwithout]
    exact hwaits
  -- and is withdrawn
  have hd₂ : Distinct held := hheld ▸
    admissible_invariant (fun _ _ hd hf => hd.apply hf) hd₁ hmid
  obtain ⟨hok, hgone, hrestored⟩ := hwaiting.withdrawn hd₂ hwhole
  obtain ⟨hbook, hreplies'⟩ := hrestored.run (hd₂.apply hcancel) hafter
    (fun op hop => hcalls op (List.mem_append_right _ hop)) hnotAfter
    (fun k x hx hid => absurd hid (hgone k x hx))
  refine ⟨congrArg BookReply.fills hfills, congrArg BookReply.cancelled hok, hreplies.symm,
    hreplies'.symm, hbook.nextId.symm, fun k => ?_⟩
  have hshape : ∀ {b : OrderBook}, Shape b → Shape (run OrderBook.apply b after) :=
    fun hb => run_invariant (fun _ op h => h.apply op) hb after
  rw [(hshape ((shape_run _).apply _)).queue?_eq_stored, (hshape (shape_run _)).queue?_eq_stored,
    hbook.same (hgone.run hnotAfter)]
  rfl

/-- A BUY waits behind another; a SELL takes the first of them only, and the second is cancelled
before a SELL that would have met it. -/
theorem run_unplaced_second_in_line :
    let first : BookOp := .submit ⟨0, .buy, text "JNST", 60, 50, 7, 1⟩
    let y : Order := ⟨1, .buy, text "JNST", 40, 50, 8, 2⟩
    let sell : BookOp := .submit ⟨2, .sell, text "JNST", 60, 50, 9, 3⟩
    let later : BookOp := .submit ⟨3, .sell, text "JNST", 10, 50, 9, 3⟩
    let held := run OrderBook.apply {} [first, .submit y, sell]
    let without := run OrderBook.apply {} [first, sell]
    held.reply (.cancel 1 8 2) = .cancelled true ∧
      outputs OrderBook.apply reply (held.apply (.cancel 1 8 2)) [later] =
        outputs OrderBook.apply reply without [later] ∧
      (run OrderBook.apply without [later]).queue? ⟨text "JNST", .sell, 50⟩ =
        some [⟨3, .sell, text "JNST", 10, 50, 9, 3⟩] := by
  intro first y sell later held without
  obtain ⟨-, hok, -, hlater, -, -⟩ := run_unplaced [first] [sell] [later] y (by decide) (by decide)
    (by decide)
  exact ⟨hok, hlater, by decide⟩

end OrderBook

end SocketExchange
