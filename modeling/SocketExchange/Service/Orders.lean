import SocketExchange.Service.Effects

/-!
# Orders and the connections that placed them

The history names every accepted order with its connection. Ids are handed out in
order, every resting order goes back to one acceptance, and the owner fields of an
order lead to its connection and to no other, for as long as that one is open.
-/

namespace SocketExchange

open Containers ClientSession Runs OrderBook

/-- The accepted orders of a history, each with the connection that placed it. -/
def placedOrders (history : List Obs) : List (Nat × Order) :=
  history.filterMap fun
    | .placed k o => some (k, o)
    | _ => none

@[simp] theorem placedOrders_append (h h' : List Obs) :
    placedOrders (h ++ h') = placedOrders h ++ placedOrders h' := List.filterMap_append ..

/-- The placed orders are those recorded as placed. -/
theorem mem_placedOrders {h : List Obs} {k : Nat} {o : Order} :
    (k, o) ∈ placedOrders h ↔ .placed k o ∈ h := by
  rw [placedOrders, List.mem_filterMap]
  constructor
  · rintro ⟨obs, hmem, heq⟩
    cases obs with
    | placed k' o' => cases heq; exact hmem
    | _ => cases heq
  · exact fun hmem => ⟨_, hmem, rfl⟩

/-- Quiet entries place no order. -/
theorem placedOrders_quiet {obs : List Obs} (h : ∀ o ∈ obs, o.Quiet) : placedOrders obs = [] := by
  rw [placedOrders, List.filterMap_eq_nil_iff]
  intro o ho
  have hquiet := h o ho
  cases o with
  | placed => exact hquiet.elim
  | _ => rfl

namespace Server

variable {s s' : Server} {a : Action}

/-! ## The entries of a fill -/

/-- What is said to the owner of an order is a line enqueued. -/
theorem mem_ownerVoice {party : Int × UInt64} {line : Bytes} {o : Obs}
    (h : o ∈ s.ownerVoice party line) : ∃ k, o = .enqueued k line := by
  unfold ownerVoice at h
  split at h
  · cases h
  · split at h
    · exact ⟨_, List.mem_singleton.mp h⟩
    · cases h

/-- Among the entries of a fill are its own, lines for owners, and lines for followers. -/
theorem mem_fillVoice {f : Fill} {o : Obs} (h : o ∈ s.fillVoice f) :
    o = .filled f ∨ (∃ k side, o = .enqueued k (reportLine f side)) ∨
      ∃ k, o = .enqueued k (msgTrade f.instrument f.qty f.price) := by
  have howner : ∀ side, o ∈ s.ownerVoice (f.party side) (reportLine f side) →
      ∃ k side, o = .enqueued k (reportLine f side) := by
    intro side hmem
    obtain ⟨k, hk⟩ := mem_ownerVoice hmem
    exact ⟨k, side, hk⟩
  rcases List.mem_append.mp h with h | h
  · rcases List.mem_append.mp h with h | h
    · rcases List.mem_cons.mp h with h | h
      · exact Or.inl h
      · exact Or.inr (Or.inl (howner .buy h))
    · exact Or.inr (Or.inl (howner .sell h))
  · obtain ⟨k, -, rfl⟩ := List.mem_map.mp h
    exact Or.inr (Or.inr ⟨k, rfl⟩)

/-- Among the entries of an order are its acceptance, its fills, and lines for connections. -/
theorem mem_orderVoice {k : Nat} {o : Order} {entry : Obs} (h : entry ∈ s.orderVoice k o) :
    entry = .placed k o ∨ (∃ f, entry = .filled f) ∨ ∃ k' line, entry = .enqueued k' line := by
  rcases List.mem_append.mp h with h | h
  · rcases List.mem_cons.mp h with h | h
    · exact Or.inl h
    · exact Or.inr (Or.inr ⟨k, _, List.mem_singleton.mp h⟩)
  · obtain ⟨f, -, hmem⟩ := List.mem_flatMap.mp h
    rcases mem_fillVoice hmem with he | ⟨k', side, he⟩ | ⟨k', he⟩
    · exact Or.inr (Or.inl ⟨f, he⟩)
    · exact Or.inr (Or.inr ⟨k', _, he⟩)
    · exact Or.inr (Or.inr ⟨k', _, he⟩)

/-- Just the fills of an order are taken up with it. -/
theorem filled_mem_orderVoice {k : Nat} {o : Order} {f : Fill} :
    .filled f ∈ s.orderVoice k o ↔ f ∈ (s.drawn.submit o).1 := by
  rw [orderVoice, List.mem_append, or_iff_right (by simp), List.mem_flatMap]
  constructor
  · rintro ⟨f', hf', hmem⟩
    rcases mem_fillVoice hmem with he | ⟨_, _, he⟩ | ⟨_, he⟩
    · rwa [Obs.filled.inj he]
    · cases he
    · cases he
  · intro hf
    exact ⟨f, hf, List.mem_append_left _ (List.mem_append_left _ List.mem_cons_self)⟩

/-- Reporting fills places no order. -/
theorem placedOrders_fillVoices (fills : List Fill) :
    placedOrders (fills.flatMap s.fillVoice) = [] := by
  rw [placedOrders, List.filterMap_eq_nil_iff]
  intro o ho
  obtain ⟨f, -, hmem⟩ := List.mem_flatMap.mp ho
  rcases mem_fillVoice hmem with rfl | ⟨k, side, rfl⟩ | ⟨k, rfl⟩ <;> rfl

/-- Placing an order records that order, and no other. -/
theorem placedOrders_orderVoice (k : Nat) (o : Order) :
    placedOrders (s.orderVoice k o) = [(k, o)] := by
  rw [orderVoice, placedOrders_append, placedOrders_fillVoices]
  rfl

/-- The line that asks for an order records that order, and no other. -/
theorem placedOrders_placed (s : Server) (k : Nat) (line : Bytes) (o : Order) :
    placedOrders (.received k line :: s.orderVoice k o) = [(k, o)] :=
  placedOrders_orderVoice k o

/-! ## The invariant -/

/-- The book and the sessions, seen against the accepted orders. -/
structure Tracked (s : Server) : Prop where
  chronological : Chronological s.book
  /-- The ids of the accepted orders count up from 0. -/
  ids : (placedOrders s.history).map (·.2.id) =
    (List.range (placedOrders s.history).length).map Int.ofNat
  nextId : s.book.nextId_ = (placedOrders s.history).length
  /-- What rests is left over from an accepted order. -/
  origin : ∀ x, s.book.Rests x → ∃ k o, (k, o) ∈ placedOrders s.history ∧
    x = o.withQty x.qty ∧ x.qty ≤ o.qty
  /-- The owner fields are those of the connection that placed the order. -/
  owner : ∀ k o, (k, o) ∈ placedOrders s.history → k < s.accepted ∧ o.ownerSeq = seqOf k ∧
    ∀ fd c, s.sessions.lookup fd = some c → c.conn = k → o.ownerFd = fd

/-- An id names one accepted order. -/
theorem Tracked.unique (h : Tracked s) {p q : Nat × Order} (hp : p ∈ placedOrders s.history)
    (hq : q ∈ placedOrders s.history) (he : p.2.id = q.2.id) : p = q := by
  have hnodup : ((placedOrders s.history).map (·.2.id)).Nodup := by
    rw [h.ids]
    exact List.nodup_range.map fun _ _ hij => Int.ofNat.inj hij
  exact List.inj_on_of_nodup_map hnodup hp hq he

/-- The owner fields of an accepted order go on leading to its connection alone. -/
private theorem owner_moves (hm : Moves s a s') {k : Nat} {ownerFd : Int} (hk : k < s.accepted)
    (hfd : ∀ fd c, s.sessions.lookup fd = some c → c.conn = k → ownerFd = fd) :
    k < s'.accepted ∧ ∀ fd c, s'.sessions.lookup fd = some c → c.conn = k → ownerFd = fd := by
  rcases hm.keeps with ⟨cfd, -, rfl⟩ | hkeeps
  · refine ⟨hk.trans (Nat.lt_succ_self _), fun fd c hc hconn => ?_⟩
    rcases lookup_join hc with ⟨-, rfl⟩ | ⟨-, hc⟩
    · exact absurd hk (by rw [← hconn]; exact lt_irrefl _)
    · exact hfd fd c hc hconn
  · refine ⟨hkeeps.accepted ▸ hk, fun fd c hc hconn => ?_⟩
    obtain ⟨c₀, hc₀, hcontinues⟩ := hkeeps.sessions fd c hc
    exact hfd fd c₀ hc₀ (hcontinues.conn.symm.trans hconn)

/-- A move that places no order. -/
private theorem Tracked.unplaced (h : Tracked s) (hm : Moves s a s')
    (hplaced : placedOrders s'.history = placedOrders s.history)
    (hchron : Chronological s'.book) (hnext : s'.book.nextId_ = s.book.nextId_)
    (hrests : ∀ x, s'.book.Rests x → s.book.Rests x) : Tracked s' where
  chronological := hchron
  ids := by rw [hplaced, h.ids]
  nextId := by rw [hnext, hplaced, h.nextId]
  origin x hx := by
    rw [hplaced]
    exact h.origin x (hrests x hx)
  owner k o ho := by
    rw [hplaced] at ho
    obtain ⟨hk, hseq, hfd⟩ := h.owner k o ho
    obtain ⟨hk', hfd'⟩ := owner_moves hm hk hfd
    exact ⟨hk', hseq, hfd'⟩

/-- The book after an accepted order is the one the server's call leaves. -/
theorem serve_place {b : OrderBook} {o : Order} (hid : o.id = b.nextId_) :
    b.serve (.place o) = (b.nextId.2.submit o).2 := by
  have hsame : b.withNextId o = o := by
    rw [withNextId, nextId, ← hid]
  rw [serve, hsame]
  rfl

/-- What rests after an accepted order rested before with no less to fill, or is left of
the order itself. -/
theorem rests_submit {b : OrderBook} (hshape : Shape b) {o x : Order}
    (hx : (b.submit o).2.Rests x) :
    (∃ r, b.Rests r ∧ x = r.withQty x.qty ∧ x.qty ≤ r.qty) ∨
      (x = o.withQty x.qty ∧ x.qty ≤ o.qty) := by
  obtain ⟨k, hx⟩ := hx
  rcases mem_level_submit hx with ⟨r, hr, he, hle, -⟩ | ⟨rfl, rfl, -⟩
  · exact Or.inl ⟨r, ⟨k, hr⟩, he, hle⟩
  · have hm := b.matching_matched o
    exact Or.inr ⟨hm.incoming, hm.incoming_le (hshape.positive _)⟩

private theorem Tracked.placed (hc : Consistent s) (h : Tracked s) (hm : Moves s a s') {fd : Int}
    {c : ClientSession} {o : Order} (hsession : s.sessions.lookup fd = some c)
    (hid : o.id = s.book.nextId_) (howner : o.OwnedBy c.fd c.sessionSeq)
    (hbook : s'.book = (s.drawn.submit o).2)
    (hplaced : placedOrders s'.history = placedOrders s.history ++ [(c.conn, o)]) : Tracked s' where
  chronological := by
    rw [hbook, drawn, ← serve_place hid]
    exact h.chronological.place o
  ids := by
    have hn : o.id = Int.ofNat (placedOrders s.history).length := hid.trans h.nextId
    rw [hplaced, List.map_append, h.ids, List.length_append, List.length_singleton,
      List.range_succ, List.map_append, List.map_singleton, List.map_singleton, hn]
  nextId := by
    rw [hbook, submit_nextId_, hplaced, List.length_append, List.length_singleton, Nat.cast_add,
      ← h.nextId]
    rfl
  origin x hx := by
    rw [hbook] at hx
    rw [hplaced]
    rcases rests_submit (h.chronological.shape.apply .nextId) hx with ⟨r, hr, he, hle⟩ | ⟨he, hle⟩
    · obtain ⟨k, o', hmem, her, hler⟩ := h.origin r hr
      refine ⟨k, o', List.mem_append_left _ hmem, ?_, hle.trans hler⟩
      rw [he, her, Order.withQty_qty, Order.withQty_withQty]
    · exact ⟨c.conn, o, List.mem_append_right _ (List.mem_singleton_self _), he, hle⟩
  owner k o' ho' := by
    rw [hplaced, List.mem_append, List.mem_singleton] at ho'
    rcases ho' with ho' | ho'
    · obtain ⟨hk, hseq, hfd⟩ := h.owner k o' ho'
      obtain ⟨hk', hfd'⟩ := owner_moves hm hk hfd
      exact ⟨hk', hseq, hfd'⟩
    · obtain ⟨rfl, rfl⟩ := Prod.mk.inj ho'
      have hfd : ∀ fd' c', s.sessions.lookup fd' = some c' → c'.conn = c.conn →
          o'.ownerFd = fd' := by
        intro fd' c' hc' hconn
        rw [howner.1, hc.keyed fd c hsession, hc.distinct fd fd' c c' hsession hc' hconn.symm]
      obtain ⟨hk', hfd'⟩ := owner_moves hm (hc.numbered fd c hsession) hfd
      exact ⟨hk', howner.2.trans (hc.sequenced fd c hsession), hfd'⟩

/-- A move keeps the book in step with the orders accepted. -/
theorem Tracked.moves (hc : Consistent s) (h : Tracked s) (hm : Moves s a s') : Tracked s' := by
  obtain ⟨obs, hhistory, heffect⟩ := hm.effect
  have hplaced : placedOrders s'.history = placedOrders s.history ++ placedOrders obs := by
    rw [hhistory, placedOrders_append]
  generalize hbook : s'.book = book at heffect
  cases heffect with
  | quiet hobs =>
    rw [placedOrders_quiet hobs, List.append_nil] at hplaced
    exact h.unplaced hm hplaced (hbook ▸ h.chronological) (by rw [hbook])
      fun x hx => by rwa [hbook] at hx
  | rehashed order =>
    have hnone : placedOrders [] = [] := rfl
    rw [hnone, List.append_nil] at hplaced
    refine h.unplaced hm hplaced (hbook ▸ h.chronological.serve (.rehash order))
      (by rw [hbook]; rfl) ?_
    rintro x ⟨k, hx⟩
    rw [hbook, level_rehash] at hx
    exact ⟨k, hx⟩
  | @placed fd c line o hsession hline hid howner =>
    rw [placedOrders_placed] at hplaced
    exact h.placed hc hm hsession hid howner hbook hplaced
  | @cancelled fd c line oid hsession hoid hok =>
    have hnone : placedOrders [.received c.conn line, .enqueued c.conn (msgOrderCancelled oid)] =
        [] := rfl
    rw [hnone, List.append_nil] at hplaced
    have hchron := h.chronological.serve (.cancel oid c.fd c.sessionSeq)
    have hnext := s.book.apply_nextId_ (.cancel oid c.fd c.sessionSeq)
    refine h.unplaced hm hplaced (hbook ▸ hchron) (by rw [hbook]; exact hnext.trans (add_zero _)) ?_
    rintro x ⟨k, hx⟩
    rw [hbook] at hx
    exact ⟨k, (s.book.level_cancel_sublist oid c.fd c.sessionSeq k).subset hx⟩

private theorem tracked_start (kq listenFd : Int) (sends : List SendResult) :
    Tracked (start kq listenFd sends).view where
  chronological := chronological_empty
  ids := rfl
  nextId := rfl
  origin x hx := by
    obtain ⟨k, hx⟩ := hx
    cases hx
  owner k o ho := by cases ho

/-- In every reachable state the book is in step with the orders accepted. -/
theorem Reachable.tracked {s : Server} (h : Reachable s) : Tracked s.view :=
  h.view_invariant tracked_start fun _ _ hs ht hm => ht.moves hs.consistent hm

/-- In every reachable state no stored queue is empty. -/
theorem Reachable.queue?_eq_stored {s : Server} (h : Reachable s) (key : LevelKey) :
    s.book.queue? key = stored (s.book.level key) :=
  h.tracked.chronological.shape.queue?_eq_stored key

end Server

end SocketExchange
