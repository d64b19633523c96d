import SocketExchange.Book.Representation
import SocketExchange.Service.Calls

/-!
# The representation under the server

The server submits only orders in range, under the id it has just drawn, for sessions
that exist; so the book's representation holds throughout, and no fill is out of range.
-/

namespace SocketExchange

open Containers ClientSession Runs OrderBook

/-- An order that a line places is valid. -/
theorem Places.valid {line : Bytes} {o : Order} (h : Places line o) : o.Valid := by
  obtain ⟨quantity, limit, -, hinstrument, hqty, hprice⟩ := h
  obtain ⟨-, -, hqty⟩ := parsePositiveInt_eq_some.mp hqty
  obtain ⟨-, -, hprice⟩ := parsePositiveInt_eq_some.mp hprice
  exact ⟨hinstrument, hqty, hprice⟩

/-- As long as the counter has not wrapped, the number of a connection counts it. -/
theorem toNat_seqOf {k : Nat} (hk : k + 1 < 2 ^ 64) : (seqOf k).toNat = k + 1 := by
  rw [seqOf, UInt64.toNat_ofNat']
  exact Nat.mod_eq_of_lt hk

namespace Server

variable {s s' : Server} {a : Action}

/-- The sequence number has been given to an accepted connection. -/
def Given (s : Server) (seq : UInt64) : Prop := ∃ k < s.accepted, seq = seqOf k

/-- The book is well represented, and the fills so far were in range. -/
structure Bookkept (s : Server) : Prop where
  represents : Represents s.Given s.book
  fills : ∀ f, .filled f ∈ s.history → InRange f.qty ∧ InRange f.price

/-- The order that the server places may be submitted. -/
theorem submittable_drawn {line : Bytes} {o : Order} (h : Represents s.Given s.book)
    (hplaces : Places line o) (hnonneg : 0 ≤ s.book.nextId_) (hid : o.id = s.book.nextId_)
    (hgiven : s.Given o.ownerSeq) : Submittable s.Given s.drawn o where
  valid := hplaces.valid
  issued := by
    have hdrawn : s.drawn.nextId_ = s.book.nextId_ + 1 := rfl
    omega
  newest k x hx := by
    rw [hid]
    exact (h.issued k x hx).2
  owned := hgiven

/-- Drawing an id keeps the representation invariant. -/
theorem Represents.drawn {given : UInt64 → Prop} (h : Represents given s.book) :
    Represents given s.drawn := h.apply .nextId nofun

private theorem Bookkept.moves (h : Bookkept s) (hc : Consistent s) (ht : Tracked s)
    (hm : Moves s a s') : Bookkept s' := by
  obtain ⟨obs, hhistory, heffect⟩ := hm.effect
  have hgiven : ∀ seq, s.Given seq → s'.Given seq := by
    rintro seq ⟨k, hk, rfl⟩
    exact ⟨k, hk.trans_le hm.accepted_le, rfl⟩
  have hfilled : (∀ f, .filled f ∈ obs → InRange f.qty ∧ InRange f.price) →
      ∀ f, .filled f ∈ s'.history → InRange f.qty ∧ InRange f.price := by
    intro hobs f hf
    rw [hhistory, List.mem_append] at hf
    exact hf.elim (h.fills f) (hobs f)
  generalize hbook : s'.book = book at heffect
  cases heffect with
  | quiet hobs =>
    refine ⟨by rw [hbook]; exact h.represents.mono hgiven, hfilled fun f hf => ?_⟩
    exact (hobs _ hf).elim
  | rehashed order =>
    have hrepresents := (h.represents.apply (.rehash order) nofun).mono hgiven
    exact ⟨by rw [hbook]; exact hrepresents, hfilled fun f hf => by cases hf⟩
  | @placed fd c line o hsession hline hid howner =>
    have hnonneg : 0 ≤ s.book.nextId_ := by
      rw [ht.nextId]
      exact Int.natCast_nonneg _
    have hseq : s.Given o.ownerSeq := by
      refine ⟨c.conn, hc.numbered fd c hsession, ?_⟩
      rw [howner.2, hc.sequenced fd c hsession]
    have hdrawn := Represents.drawn h.represents
    have hsubmit := submittable_drawn h.represents hline hnonneg hid hseq
    refine ⟨by rw [hbook]; exact (hdrawn.submit hsubmit).mono hgiven, hfilled fun f hf => ?_⟩
    rcases List.mem_cons.mp hf with hf | hf
    · cases hf
    · exact (hdrawn.fills hline.valid).1 f (filled_mem_orderVoice.mp hf)
  | @cancelled fd c line oid =>
    have hrepresents := (h.represents.apply (.cancel oid c.fd c.sessionSeq) nofun).mono hgiven
    refine ⟨by rw [hbook]; exact hrepresents, hfilled fun f hf => ?_⟩
    simp only [List.mem_cons, reduceCtorEq, List.not_mem_nil, or_self] at hf

/-- In every reachable state the book is well represented. -/
theorem Reachable.bookkept (h : Reachable s) : Bookkept s.view := by
  refine h.view_invariant (fun kq listenFd sends => ?_) fun s a hs hb hm =>
    hb.moves hs.consistent hs.tracked hm
  exact ⟨represents_empty _, fun f hf => by cases hf⟩

/-- While the counter has not wrapped, the sessions' sequence numbers are distinct and below the
next one. -/
theorem Consistent.numbers (h : Consistent s) (hwrap : s.accepted + 1 < 2 ^ 64) :
    (∀ fd c, s.sessions.lookup fd = some c → c.sessionSeq < s.nextSessionSeq) ∧
      ∀ fd fd' c c', s.sessions.lookup fd = some c → s.sessions.lookup fd' = some c' →
        c.sessionSeq = c'.sessionSeq → fd = fd' := by
  refine ⟨fun fd c hc => ?_, fun fd fd' c c' hc hc' heq => ?_⟩
  · have hlt := h.numbered fd c hc
    rw [h.sequenced fd c hc, h.nextSeq, UInt64.lt_iff_toNat_lt, toNat_seqOf hwrap,
      toNat_seqOf (by omega)]
    omega
  · have hlt := h.numbered fd c hc
    have hlt' := h.numbered fd' c' hc'
    rw [h.sequenced fd c hc, h.sequenced fd' c' hc'] at heq
    exact h.distinct fd fd' c c' hc hc' (seqOf_inj (by omega) (by omega) heq)

/-- In every run the book is well represented: no level is empty, every order rests under its own
fields, which are in range, with an id of its own below the next one, ids increase along each
queue, and owners have been given their numbers. While the counter has not wrapped, the sessions'
numbers are distinct and below the next one. Every operation of the book keeps the representation,
and all fills are in range. -/
theorem run_book_represented (kq listenFd : Int) (sends : List SendResult)
    (actions : List Action) :
    let s := run act (start kq listenFd sends) actions
    Represents s.Given s.book ∧ (s.book.orders.map (·.id)).Nodup ∧
      (∀ f, .filled f ∈ s.history → InRange f.qty ∧ InRange f.price) ∧
      (s.accepted + 1 < 2 ^ 64 →
        (∀ fd c, s.sessions.lookup fd = some c → c.sessionSeq < s.nextSessionSeq) ∧
        ∀ fd fd' c c', s.sessions.lookup fd = some c → s.sessions.lookup fd' = some c' →
          c.sessionSeq = c'.sessionSeq → fd = fd') ∧
      ∀ given b, Represents given b →
        (∀ o, Submittable given b o → Represents given (b.submit o).2 ∧
          (∀ f ∈ (b.submit o).1, InRange f.qty ∧ InRange f.price) ∧
          0 ≤ (b.matching o).2.1.qty) ∧
        (∀ orderId fd seq, Represents given (b.cancel orderId fd seq).2) ∧
        ∀ fd, Represents given (b.removeOrdersOf fd).2 := by
  intro s
  have hs : Reachable s := ⟨kq, listenFd, sends, actions, rfl⟩
  have hbookkept := hs.bookkept
  have hrepresents : Represents s.Given s.book := hbookkept.represents
  refine ⟨hrepresents, hrepresents.nodup, hbookkept.fills, ?_, fun given b h => ⟨?_, ?_, ?_⟩⟩
  · exact (consistent_of_view hs.consistent).numbers
  · intro o ho
    exact ⟨h.submit ho, h.fills ho.valid⟩
  · exact fun orderId fd seq => h.apply (.cancel orderId fd seq) nofun
  · exact fun fd => h.apply (.removeOrdersOf fd) nofun

end Server

end SocketExchange
