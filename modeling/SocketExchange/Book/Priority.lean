import SocketExchange.Book.Identity

/-!
# Time priority

The server submits every order at once under the id it has just drawn, so a queue
stands in the order of its ids. A submit consumes a queue from its front only, and
what it consumes is therefore older than what it leaves.
-/

namespace SocketExchange

open Runs

/-- The calls the server makes. -/
inductive ServerCall where
  /-- Accept an order: draw the next id for it and submit it. -/
  | place (o : Order)
  | cancel (orderId requesterFd : Int) (requesterSeq : UInt64)
  /-- Not a call: the instrument table is rearranged. -/
  | rehash (order : List Bytes)

namespace OrderBook

/-- An order under the id the book issues next. -/
def withNextId (b : OrderBook) (o : Order) : Order := { o with id := b.nextId.1 }

@[simp] theorem withNextId_id (b : OrderBook) (o : Order) : (b.withNextId o).id = b.nextId_ := rfl

/-- The book that a call of the server leaves. -/
def serve (b : OrderBook) : ServerCall → OrderBook
  | .place o => (b.apply .nextId).apply (.submit (b.withNextId o))
  | .cancel orderId fd seq => b.apply (.cancel orderId fd seq)
  | .rehash order => b.apply (.rehash order)

/-- Every id issued has been used, and every queue stands in the order of its ids. -/
structure Chronological (b : OrderBook) : Prop where
  shape : Shape b
  identified : Identified b ⟨b.nextId_, []⟩
  ordered : ∀ k, ((b.level k).map (·.id)).Pairwise (· < ·)

/-- The empty book is chronological. -/
theorem chronological_empty : Chronological {} := ⟨shape_empty, identified_empty, fun _ => .nil⟩

/-- Losing orders keeps the queues in order. -/
theorem Chronological.of_apply {b : OrderBook} (h : Chronological b) (op : BookOp)
    (hop : ∀ o, op ≠ .submit o) (hnext : op ≠ .nextId) : Chronological (b.apply op) where
  shape := h.shape.apply op
  identified := by
    have huses : UsesIssued ⟨b.nextId_, []⟩ op := by
      cases op with
      | submit o => exact absurd rfl (hop o)
      | _ => trivial
    have hid := h.identified.apply op huses
    have hstep : Issued.step ⟨b.nextId_, []⟩ op = ⟨(b.apply op).nextId_, []⟩ := by
      rw [apply_nextId_]
      cases op with
      | submit o => exact absurd rfl (hop o)
      | nextId => exact absurd rfl hnext
      | _ => simp only [Issued.step, add_zero]
    rwa [hstep] at hid
  ordered k := (h.ordered k).sublist ((b.level_apply_sublist op hop k).map _)

/-- Placing an order under the next id keeps the queues chronological. -/
theorem Chronological.place {b : OrderBook} (h : Chronological b) (o : Order) :
    Chronological (b.serve (.place o)) where
  shape := (h.shape.apply .nextId).apply (.submit (b.withNextId o))
  identified := by
    have hid := (h.identified.apply .nextId trivial).apply (.submit (b.withNextId o))
      (List.mem_cons_self ..)
    have hnext : (b.serve (.place o)).nextId_ = b.nextId_ + 1 := by
      rw [serve, apply_nextId_, apply_nextId_, add_zero]
    rw [hnext]
    simp only [Issued.step, withNextId_id, List.erase_cons_head] at hid
    exact hid
  ordered k := by
    refine List.Pairwise.sublist (ids_apply_sublist _ _ k) ?_
    refine List.pairwise_append.mpr ⟨h.ordered k, ?_, fun i hi j hj => ?_⟩
    · rw [newIds]
      split
      · exact List.pairwise_singleton _ _
      · exact .nil
    · obtain ⟨_, he, -, rfl⟩ := mem_newIds.mp hj
      obtain ⟨x, hx, rfl⟩ := List.mem_map.mp hi
      cases he
      exact h.identified.below k x hx

/-- Every call of the server keeps the queues chronological. -/
theorem Chronological.serve {b : OrderBook} (h : Chronological b) (call : ServerCall) :
    Chronological (b.serve call) := by
  cases call with
  | place o => exact h.place o
  | cancel orderId fd seq =>
    exact h.of_apply (.cancel orderId fd seq) (by rintro _ ⟨⟩) (by rintro ⟨⟩)
  | rehash order => exact h.of_apply (.rehash order) (by rintro _ ⟨⟩) (by rintro ⟨⟩)

private theorem chronological_run (calls : List ServerCall) : Chronological (run serve {} calls) :=
  run_invariant (fun _ call h => h.serve call) chronological_empty calls

/-! ## Consumption from the front -/

/-- In a queue standing in the order of its ids, an order the loop touches is older than
every order it leaves. -/
theorem Matched.front_first {o o' : Order} {queue queue' : Queue} {fills : List Fill}
    (h : Matched o queue fills o' queue') (hordered : (queue.map (·.id)).Pairwise (· < ·))
    {x : Order} (hx : x ∈ queue) : x ∈ queue' ∨ ∀ y ∈ queue', x.id ≤ y.id := by
  obtain ⟨used, left, rfl, hleft⟩ := h.queue_cases
  rw [List.map_append, List.pairwise_append] at hordered
  obtain ⟨-, hback, hcross⟩ := hordered
  have hused : x ∈ used → ∀ y ∈ left, x.id < y.id := fun hx y hy =>
    hcross _ (List.mem_map_of_mem hx) _ (List.mem_map_of_mem hy)
  rcases hleft with rfl | ⟨r, tail, q, rfl, -, -, rfl⟩
  · rcases List.mem_append.mp hx with hx | hx
    · exact Or.inr fun y hy => (hused hx y hy).le
    · exact Or.inl hx
  · rw [List.map_cons, List.pairwise_cons] at hback
    have htail : ∀ y ∈ r.withQty q :: tail, r.id ≤ y.id := by
      intro y hy
      rcases List.mem_cons.mp hy with rfl | hy
      · exact le_rfl
      · exact (hback.1 _ (List.mem_map_of_mem hy)).le
    rcases List.mem_append.mp hx with hx | hx
    · refine Or.inr fun y hy => ?_
      exact (hused hx r (List.mem_cons_self ..)).le.trans (htail y hy)
    · rcases List.mem_cons.mp hx with rfl | hx
      · exact Or.inr htail
      · exact Or.inl (List.mem_cons_of_mem _ hx)

/-- An order a submit touches is older than every order it leaves at that level. -/
theorem submit_front_first {b : OrderBook}
    (hordered : ∀ k, ((b.level k).map (·.id)).Pairwise (· < ·))
    (o : Order) {k : LevelKey} {x : Order} (hx : x ∈ b.level k) :
    x ∈ (b.submit o).2.level k ∨ ∀ y ∈ (b.submit o).2.level k, x.id ≤ y.id := by
  by_cases hpos : 0 < o.qty
  · by_cases hown : k = o.key
    · subst hown
      exact Or.inl (by rw [level_submit_own b hpos]; exact List.mem_append_left _ hx)
    · by_cases hopp : k = o.key.opposite
      · subst hopp
        rw [level_submit_opposite b hpos]
        exact (b.matching_matched o).front_first (hordered _) hx
      · exact Or.inl (by rwa [level_submit_other b o hown hopp])
  · exact Or.inl (by rwa [submit_of_nonpos b (by omega)])

/-- The order has left the book, or rests in it with less to fill. -/
def Consumed (x : Order) (b : OrderBook) : Prop :=
  (∀ y, b.Rests y → y.id ≠ x.id) ∨ ∃ y, b.Rests y ∧ y.id = x.id ∧ y.qty < x.qty

/-- Time priority: in any book the server can reach, when a further submit reduces a resting
order or takes it out, no older order is left at the same instrument, side and price. -/
theorem run_time_priority (calls : List ServerCall) (o : Order) {x y : Order}
    (hx : (run serve {} calls).Rests x)
    (hless : Consumed x ((run serve {} calls).serve (.place o)))
    (hy : ((run serve {} calls).serve (.place o)).Rests y)
    (hlevel : y.instrument = x.instrument ∧ y.side = x.side ∧ y.price = x.price) :
    ¬ y.id < x.id := by
  have hb := chronological_run calls
  have hafter := hb.serve (.place o)
  obtain ⟨k, hx⟩ := hx
  obtain ⟨k', hy⟩ := hy
  have hkey : k' = k := by
    rw [← hb.shape.filed k x hx, ← hafter.shape.filed k' y hy, Order.key, Order.key,
      hlevel.1, hlevel.2.1, hlevel.2.2]
  subst hkey
  rcases submit_front_first (b := (run serve {} calls).apply .nextId) hb.ordered
      ((run serve {} calls).withNextId o) hx with hkept | holder
  · rcases hless with hgone | ⟨z, ⟨k, hz⟩, hid, hqty⟩
    · exact absurd rfl (hgone x ⟨k', hkept⟩)
    · rw [hafter.identified.unique hz hkept hid] at hqty
      exact absurd hqty (lt_irrefl _)
  · have hle := holder y hy
    omega

/-- Two of three waiting BUYs are consumed, the second only in part: the third waits on. -/
theorem run_time_priority_partial_fill :
    let b := run serve {} [.place ⟨0, .buy, text "JNST", 100, 50, 7, 1⟩,
      .place ⟨0, .buy, text "JNST", 100, 50, 8, 2⟩, .place ⟨0, .buy, text "JNST", 100, 50, 7, 1⟩]
    let x : Order := ⟨1, .buy, text "JNST", 100, 50, 8, 2⟩
    let y : Order := ⟨2, .buy, text "JNST", 100, 50, 7, 1⟩
    let b' := b.serve (.place ⟨0, .sell, text "JNST", 150, 50, 9, 3⟩)
    b.Rests x ∧ Consumed x b' ∧ b'.Rests y ∧ ¬ y.id < x.id := by
  intro b x y b'
  have hx : b.Rests x := ⟨⟨text "JNST", .buy, 50⟩, by decide⟩
  have hless : Consumed x b' :=
    Or.inr ⟨x.withQty 50, ⟨⟨text "JNST", .buy, 50⟩, by decide⟩, rfl, by decide⟩
  have hy : b'.Rests y := ⟨⟨text "JNST", .buy, 50⟩, by decide⟩
  exact ⟨hx, hless, hy, run_time_priority _ _ hx hless hy ⟨rfl, rfl, rfl⟩⟩

end OrderBook

end SocketExchange
