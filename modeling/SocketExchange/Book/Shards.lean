import SocketExchange.Book.Locality

/-!
# The book in parts

The book may be divided by instruments and prices, and each part kept as a book of its own that
is given only the operations that concern it. Each part then holds what the whole book holds at
its places, and answers as the whole book does.
-/

namespace SocketExchange

open Runs

/-- The ids submitted at certain places. -/
def idsAt (P : Place → Prop) [DecidablePred P] (ops : List BookOp) : List Int :=
  ops.filterMap fun
    | .submit o => if P o.key.place then some o.id else none
    | _ => none

/-- The operation is for the part of the book whose places and ids are given. -/
def BookOp.Concerns (P : Place → Prop) (ids : List Int) : BookOp → Prop
  | .submit o => P o.key.place
  | .cancel orderId _ _ => orderId ∈ ids
  | _ => True

instance (P : Place → Prop) [DecidablePred P] (ids : List Int) :
    DecidablePred (BookOp.Concerns P ids)
  | .submit o => inferInstanceAs (Decidable (P o.key.place))
  | .cancel orderId _ _ => inferInstanceAs (Decidable (orderId ∈ ids))
  | .nextId => .isTrue trivial
  | .removeOrdersOf _ => .isTrue trivial
  | .rehash _ => .isTrue trivial

section Ids

variable {P : Place → Prop} [DecidablePred P] {ops after : List BookOp}

private theorem mem_idsAt {i : Int} :
    i ∈ idsAt P ops ↔ ∃ o, .submit o ∈ ops ∧ P o.key.place ∧ o.id = i := by
  rw [idsAt, List.mem_filterMap]
  constructor
  · rintro ⟨op, hop, hid⟩
    cases op with
    | submit o =>
      rw [Option.ite_none_right_eq_some] at hid
      exact ⟨o, hop, hid.1, Option.some.inj hid.2⟩
    | _ => cases hid
  · rintro ⟨o, ho, hp, rfl⟩
    exact ⟨.submit o, ho, if_pos hp⟩

/-- No id is submitted for two orders. -/
theorem DistinctIds.unique (h : DistinctIds ops) {o o' : Order} (ho : .submit o ∈ ops)
    (ho' : .submit o' ∈ ops) (he : o.id = o'.id) : o = o' := by
  by_contra hne
  have hpair := List.pairwise_filterMap.mp h
  have hsymm : Std.Symm fun a a' : BookOp => ∀ i, a.submittedId? = some i →
      ∀ i', a'.submittedId? = some i' → i ≠ i' :=
    ⟨fun _ _ hr i hi i' hi' => (hr i' hi' i hi).symm⟩
  have hapart : (BookOp.submit o) ≠ .submit o' := fun hsame => hne (BookOp.submit.inj hsame)
  exact hpair.forall ho ho' hapart o.id rfl o'.id rfl he

/-- A selection of the calls of such a run submits no id twice either. -/
theorem DistinctIds.filter (h : DistinctIds ops) (keep : BookOp → Bool) :
    DistinctIds (ops.filter keep) := h.sublist (List.filter_sublist.filterMap _)

/-- The first part of a run submits no id twice either. -/
theorem DistinctIds.left (h : DistinctIds (ops ++ after)) : DistinctIds ops :=
  h.sublist ((List.sublist_append_left ..).filterMap _)

private theorem mem_idsAt_of_submitted (h : DistinctIds ops) {o : Order} (ho : .submit o ∈ ops) :
    o.id ∈ idsAt P ops ↔ P o.key.place := by
  rw [mem_idsAt]
  constructor
  · rintro ⟨o', ho', hp, he⟩
    rwa [h.unique ho ho' he.symm]
  · intro hp
    exact ⟨o, ho, hp, rfl⟩

end Ids

namespace OrderBook

/-- What rests at a level has been submitted for it. -/
theorem submitted_of_mem_run {ops : List BookOp} {k : LevelKey} {x : Order}
    (hx : x ∈ (run apply {} ops).level k) : ∃ o, .submit o ∈ ops ∧ o.key = k ∧ o.id = x.id := by
  induction ops using List.reverseRecOn generalizing x with
  | nil => cases hx
  | append_singleton ops op ih =>
    rw [run_append] at hx
    rcases mem_ids_apply hx with ⟨y, hy, hid⟩ | hnew
    · obtain ⟨o, ho, hkey, he⟩ := ih hy
      exact ⟨o, List.mem_append_left _ ho, hkey, he.trans hid⟩
    · obtain ⟨o, rfl, hkey, he⟩ := mem_newIds.mp hnew
      exact ⟨o, List.mem_append_right _ List.mem_cons_self, hkey.symm, he.symm⟩

/-- The ids are those of the orders at the places. -/
def Marked (P : Place → Prop) (ids : List Int) (b : OrderBook) : Prop :=
  ∀ k x, x ∈ b.level k → (x.id ∈ ids ↔ P k.place)

/-- A book that holds what another holds at certain places, and nothing else. -/
structure Shard (P : Place → Prop) (b shard : OrderBook) : Prop where
  nextId : shard.nextId_ = b.nextId_
  inside : ∀ k, P k.place → shard.level k = b.level k
  outside : ∀ k, ¬ P k.place → shard.level k = []

variable {P : Place → Prop} {ids : List Int} {b shard : OrderBook} {op : BookOp}

/-- A cancel of an order of the shard is answered alike. -/
theorem Shard.cancel_reply (h : Shard P b shard) (hd : Distinct b) (hd' : Distinct shard)
    (hmarked : Marked P ids b) {orderId : Int} (hid : orderId ∈ ids) (fd : Int) (seq : UInt64) :
    (shard.cancel orderId fd seq).1 = (b.cancel orderId fd seq).1 := by
  rw [Bool.eq_iff_iff, hd'.cancel_iff, hd.cancel_iff]
  constructor
  · rintro ⟨x, ⟨k, hx⟩, hxid, howner⟩
    by_cases hk : P k.place
    · rw [h.inside k hk] at hx
      exact ⟨x, ⟨k, hx⟩, hxid, howner⟩
    · rw [h.outside k hk] at hx
      cases hx
  · rintro ⟨x, ⟨k, hx⟩, rfl, howner⟩
    have hk : P k.place := (hmarked k x hx).mp hid
    rw [← h.inside k hk] at hx
    exact ⟨x, ⟨k, hx⟩, rfl, howner⟩

/-- An operation for the shard, other than a removal of all orders of an owner, is answered
alike. -/
theorem Shard.reply (h : Shard P b shard) (hd : Distinct b) (hd' : Distinct shard)
    (hmarked : Marked P ids b) (hop : op.Concerns P ids) (hne : ∀ fd, op ≠ .removeOrdersOf fd) :
    shard.reply op = b.reply op := by
  cases op with
  | nextId => exact congrArg BookReply.id h.nextId
  | submit o =>
    exact congrArg BookReply.fills (submit_congr (h.inside o.key hop)
      (h.inside o.key.opposite hop)).1
  | cancel orderId fd seq =>
    exact congrArg BookReply.cancelled (h.cancel_reply hd hd' hmarked hop fd seq)
  | removeOrdersOf fd => exact absurd rfl (hne fd)
  | rehash order => rfl

/-- An operation for the shard acts on it as on the whole book. -/
theorem Shard.apply (h : Shard P b shard) (hd : Distinct b) (hd' : Distinct shard)
    (hmarked : Marked P ids b) (hop : op.Concerns P ids) :
    Shard P (b.apply op) (shard.apply op) := by
  refine ⟨by rw [apply_nextId_, apply_nextId_, h.nextId], fun k hk => ?_, fun k hk => ?_⟩
  · have hsame := h.inside k hk
    cases op with
    | nextId => exact hsame
    | submit o => exact (submit_congr (h.inside o.key hop) (h.inside o.key.opposite hop)).2 k hsame
    | cancel orderId fd seq =>
      have hreply := h.cancel_reply hd hd' hmarked hop fd seq
      simp only [OrderBook.apply]
      cases hok : (b.cancel orderId fd seq).1 with
      | true => rw [hd.level_cancel hok, hd'.level_cancel (hreply.trans hok), hsame]
      | false => rw [cancel_eq_of_refused hok, cancel_eq_of_refused (hreply.trans hok), hsame]
    | removeOrdersOf fd => simp only [OrderBook.apply, level_removeOrdersOf, hsame]
    | rehash order => simp only [OrderBook.apply, level_rehash, hsame]
  · refine List.eq_nil_iff_forall_not_mem.mpr fun x hx => ?_
    rcases mem_ids_apply hx with ⟨y, hy, -⟩ | hnew
    · rw [h.outside k hk] at hy
      cases hy
    · obtain ⟨o, rfl, rfl, -⟩ := mem_newIds.mp hnew
      exact hk hop

/-- Other operations do not show. -/
theorem Shard.skip (h : Shard P b shard) (hd : Distinct b) (hmarked : Marked P ids b)
    (hop : ¬ op.Concerns P ids) : Shard P (b.apply op) shard := by
  cases op with
  | submit o =>
    refine ⟨h.nextId.trans (submit_nextId_ b o).symm, fun k hk => ?_, h.outside⟩
    have hown : k ≠ o.key := fun he => hop (show P o.key.place from he ▸ hk)
    have hopp : k ≠ o.key.opposite := fun he => hop (show P o.key.opposite.place from he ▸ hk)
    simp only [OrderBook.apply]
    rw [level_submit_other b o hown hopp, h.inside k hk]
  | cancel orderId fd seq =>
    refine ⟨h.nextId.trans (cancel_nextId_ b orderId fd seq).symm, fun k hk => ?_, h.outside⟩
    simp only [OrderBook.apply]
    cases hok : (b.cancel orderId fd seq).1 with
    | false => rw [cancel_eq_of_refused hok, h.inside k hk]
    | true =>
      rw [hd.level_cancel hok, h.inside k hk, eq_comm, List.filter_eq_self]
      intro x hx
      refine decide_eq_true fun hid => hop ?_
      rw [BookOp.Concerns, ← hid]
      exact (hmarked k x hx).mpr hk
  | nextId => exact absurd trivial hop
  | removeOrdersOf fd => exact absurd trivial hop
  | rehash order => exact absurd trivial hop

section Run

variable [DecidablePred P] {before after : List BookOp}

/-- In a run with distinct ids the marks are right. -/
theorem marked_run (hops : DistinctIds (before ++ after)) :
    Marked P (idsAt P (before ++ after)) (run apply {} before) := by
  intro k x hx
  obtain ⟨o, ho, rfl, he⟩ := submitted_of_mem_run hx
  rw [← he]
  exact mem_idsAt_of_submitted hops (List.mem_append_left _ ho)

/-- The operations for the shard keep it up to date. -/
theorem shard_run (hops : DistinctIds (before ++ after)) :
    Shard P (run apply {} before)
      (run apply {} (before.filter (BookOp.Concerns P (idsAt P (before ++ after))))) := by
  induction before using List.reverseRecOn generalizing after with
  | nil => exact ⟨rfl, fun k _ => rfl, fun k _ => rfl⟩
  | append_singleton before op ih =>
    rw [List.append_assoc] at hops ⊢
    have hshard := ih hops
    have hmarked := marked_run (P := P) hops
    have hd := distinct_run hops.left
    have hd' := distinct_run
      (hops.left.filter (BookOp.Concerns P (idsAt P (before ++ ([op] ++ after)))))
    rw [run_append, List.filter_append, run_append, List.filter_singleton]
    cases hkept : decide (op.Concerns P (idsAt P (before ++ ([op] ++ after)))) with
    | true => exact hshard.apply hd hd' hmarked (of_decide_eq_true hkept)
    | false => exact hshard.skip hd hmarked (of_decide_eq_false hkept)

/-- In every run with distinct ids, and for any instruments and prices: wherever the run stands,
the book that has been given only the operations that concern these places, its ids counted on
alike, holds exactly the queues that the whole book has there; and it answers every operation of
its own as the whole book does, a removal of all orders of an owner apart. -/
theorem run_sharded (P : Place → Prop) [DecidablePred P] (before after : List BookOp) (op : BookOp)
    (hops : DistinctIds (before ++ op :: after)) :
    let ids := idsAt P (before ++ op :: after)
    let b := run apply {} before
    let shard := run apply {} (before.filter (BookOp.Concerns P ids))
    shard.nextId_ = b.nextId_ ∧
      (∀ k, shard.queue? k = if P k.place then b.queue? k else none) ∧
      (op.Concerns P ids → (∀ fd, op ≠ .removeOrdersOf fd) → shard.reply op = b.reply op) := by
  intro ids b shard
  have hshard : Shard P b shard := shard_run hops
  refine ⟨hshard.nextId, fun k => ?_, fun hop hne => ?_⟩
  · have hb : Shape b := shape_run _
    have hb' : Shape shard := shape_run _
    split_ifs with hk
    · rw [hb.queue?_eq_stored, hb'.queue?_eq_stored, hshard.inside k hk]
    · rw [hb'.queue?_eq_none_iff, hshard.outside k hk]
  · exact hshard.reply (distinct_run hops.left) (distinct_run (hops.left.filter _))
      (marked_run hops) hop hne

/-- Two orders at one price of an instrument, one at another, and a cancel of each. -/
theorem run_sharded_one_price :
    let before : List BookOp :=
      [.nextId, .submit ⟨0, .buy, text "JNST", 100, 50, 7, 1⟩, .nextId,
        .submit ⟨1, .buy, text "JNST", 30, 51, 7, 1⟩, .nextId,
        .submit ⟨2, .sell, text "JNST", 40, 50, 8, 2⟩, .cancel 1 7 1]
    let shard := run apply {} [.nextId, .submit ⟨0, .buy, text "JNST", 100, 50, 7, 1⟩, .nextId,
      .nextId, .submit ⟨2, .sell, text "JNST", 40, 50, 8, 2⟩]
    shard.queue? ⟨text "JNST", .buy, 50⟩ = some [⟨0, .buy, text "JNST", 60, 50, 7, 1⟩] ∧
      shard.queue? ⟨text "JNST", .buy, 50⟩ =
        (run apply {} before).queue? ⟨text "JNST", .buy, 50⟩ ∧
      shard.reply (.cancel 0 7 1) = (run apply {} before).reply (.cancel 0 7 1) := by
  intro before shard
  have hfilter : before.filter (BookOp.Concerns (· = (text "JNST", 50))
      (idsAt (· = (text "JNST", 50)) (before ++ [.cancel 0 7 1]))) =
        [.nextId, .submit ⟨0, .buy, text "JNST", 100, 50, 7, 1⟩, .nextId, .nextId,
          .submit ⟨2, .sell, text "JNST", 40, 50, 8, 2⟩] := by rfl
  obtain ⟨-, hqueues, hreplies⟩ := run_sharded (· = (text "JNST", 50)) before [] (.cancel 0 7 1)
    (by decide)
  rw [hfilter] at hqueues hreplies
  exact ⟨by decide, hqueues ⟨text "JNST", .buy, 50⟩, hreplies (by decide) (by simp)⟩

end Run

end OrderBook

end SocketExchange
