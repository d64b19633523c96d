import SocketExchange.Book.Locality
import SocketExchange.Exchange.Refinement
import SocketExchange.Service.Transmission
import SocketExchange.Service.Usernames

/-!
# A slow reader disturbs nobody

How the sends go decides what waits in the output queues and when descriptors become
writable, and nothing else. Two runs with the same accepts, reads and closes, whose sends go
differently and whose backlogs are flushed at other times, therefore have the same orders and
the same sessions and enqueue the same lines.
-/

namespace SocketExchange

open Containers ClientSession Runs OrderBook

/-- The books hold the same orders at every level, wherever the instruments stand in the tables. -/
structure OrderBook.Alike (b b' : OrderBook) : Prop where
  nextId : b'.nextId_ = b.nextId_
  level : ∀ k, b'.level k = b.level k

namespace OrderBook.Alike

variable {b b' : OrderBook}

/-- Books that are alike draw the same id. -/
theorem drawn (h : Alike b b') : Alike b.nextId.2 b'.nextId.2 :=
  ⟨congrArg (· + 1) h.nextId, h.level⟩

/-- A submit returns the same fills from both and leaves them alike. -/
theorem submit (h : Alike b b') (o : Order) :
    (b'.submit o).1 = (b.submit o).1 ∧ Alike (b.submit o).2 (b'.submit o).2 := by
  obtain ⟨hfills, hlevels⟩ := submit_congr (h.level o.key) (h.level o.key.opposite)
  refine ⟨hfills, ?_, fun k => hlevels k (h.level k)⟩
  rw [submit_nextId_, submit_nextId_, h.nextId]

/-- A cancel answers the same on both and leaves them alike, when no two orders share an id. -/
theorem cancel (h : Alike b b') (hd : Distinct b) (hd' : Distinct b') (orderId fd : Int)
    (seq : UInt64) :
    (b'.cancel orderId fd seq).1 = (b.cancel orderId fd seq).1 ∧
      Alike (b.cancel orderId fd seq).2 (b'.cancel orderId fd seq).2 := by
  obtain ⟨hreply, hlevels⟩ := hd.cancel_congr hd' h.level
  refine ⟨hreply, ?_, hlevels⟩
  rw [cancel_nextId_, cancel_nextId_, h.nextId]

/-- Either of two books that are alike is like the other. -/
theorem symm (h : Alike b b') : Alike b' b := ⟨h.nextId.symm, fun k => (h.level k).symm⟩

/-- Books that are like a third one are alike. -/
theorem trans {b'' : OrderBook} (h : Alike b b') (h' : Alike b' b'') : Alike b b'' :=
  ⟨h'.nextId.trans h.nextId, fun k => (h'.level k).trans (h.level k)⟩

/-- The order of the table is not visible in the levels. -/
theorem rehashed (b : OrderBook) (order : List Bytes) : Alike b (b.rehash order) :=
  ⟨rfl, level_rehash b order⟩

end OrderBook.Alike

namespace Server

/-- The servers differ in the arrangement of their tables at most, and have enqueued the same
lines to every connection. -/
structure Alike (s t : Server) : Prop where
  kq : t.kq = s.kq
  listenFd : t.listenFd = s.listenFd
  nextSessionSeq : t.nextSessionSeq = s.nextSessionSeq
  accepted : t.accepted = s.accepted
  session : ∀ fd, t.sessions.lookup fd = s.sessions.lookup fd
  book : s.book.Alike t.book
  lines : ∀ k, linesTo k t.history = linesTo k s.history

variable {s t : Server} {fd : Int} {c : ClientSession}

namespace Alike

/-- Views stay alike when both log entries with the same lines. -/
theorem log (h : Alike s t) {obs obs' : List Obs} (hobs : ∀ k, linesTo k obs' = linesTo k obs) :
    Alike (s.log obs) (t.log obs') where
  kq := h.kq
  listenFd := h.listenFd
  nextSessionSeq := h.nextSessionSeq
  accepted := h.accepted
  session := h.session
  book := h.book
  lines k := by
    rw [Server.log, Server.log, linesTo_append, linesTo_append, h.lines, hobs]

/-- Views stay alike when both change a session in the same way. -/
theorem update (h : Alike s t) (fd : Int) (f : ClientSession → ClientSession) :
    Alike (s.update fd f) (t.update fd f) where
  kq := h.kq
  listenFd := h.listenFd
  nextSessionSeq := h.nextSessionSeq
  accepted := h.accepted
  session fd' := by
    rw [Server.update, UnorderedMap.lookup_modify, Server.update, UnorderedMap.lookup_modify,
      h.session]
  book := h.book
  lines := h.lines

/-- Views stay alike when both take on books that are alike. -/
theorem withBook (h : Alike s t) {b b' : OrderBook} (hbook : b.Alike b') :
    Alike (s.withBook b) (t.withBook b') where
  kq := h.kq
  listenFd := h.listenFd
  nextSessionSeq := h.nextSessionSeq
  accepted := h.accepted
  session := h.session
  book := hbook
  lines := h.lines

/-- Views stay alike when both forget a session. -/
theorem forget (h : Alike s t) (fd : Int) : Alike (s.forget fd) (t.forget fd) := by
  unfold Server.forget
  rw [h.session]
  cases s.sessions.lookup fd with
  | none => exact h
  | some c =>
    refine Alike.log (s := s.eraseSession fd) (t := t.eraseSession fd) ?_ fun _ => rfl
    refine ⟨h.kq, h.listenFd, h.nextSessionSeq, h.accepted, fun fd' => ?_, h.book, h.lines⟩
    by_cases hfd : fd' = fd
    · rw [hfd, eraseSession, AList.lookup_erase, eraseSession, AList.lookup_erase]
    · rw [eraseSession, AList.lookup_erase_ne hfd, eraseSession, AList.lookup_erase_ne hfd,
        h.session]

/-- Views stay alike when both open a session. -/
theorem join (h : Alike s t) (cfd : Int) : Alike (s.join cfd) (t.join cfd) where
  kq := h.kq
  listenFd := h.listenFd
  nextSessionSeq := congrArg (· + 1) h.nextSessionSeq
  accepted := congrArg (· + 1) h.accepted
  session fd' := by
    by_cases hfd : fd' = cfd
    · rw [hfd, Server.join, AList.lookup_insert, Server.join, AList.lookup_insert,
        h.nextSessionSeq, h.accepted]
    · rw [Server.join, AList.lookup_insert_ne hfd, Server.join, AList.lookup_insert_ne hfd,
        h.session]
  book := h.book
  lines k := by
    rw [Server.join, Server.join, linesTo_append, linesTo_append, h.lines]
    rfl

/-- Either of two views that are alike is like the other. -/
theorem symm (h : Alike s t) : Alike t s where
  kq := h.kq.symm
  listenFd := h.listenFd.symm
  nextSessionSeq := h.nextSessionSeq.symm
  accepted := h.accepted.symm
  session fd := (h.session fd).symm
  book := h.book.symm
  lines k := (h.lines k).symm

/-- Views that are like a third one are alike. -/
theorem trans {u : Server} (h : Alike s t) (h' : Alike t u) : Alike s u where
  kq := h'.kq.trans h.kq
  listenFd := h'.listenFd.trans h.listenFd
  nextSessionSeq := h'.nextSessionSeq.trans h.nextSessionSeq
  accepted := h'.accepted.trans h.accepted
  session fd := (h'.session fd).trans (h.session fd)
  book := h.book.trans h'.book
  lines k := (h'.lines k).trans (h.lines k)

/-- However the tables are rearranged. -/
theorem rehashed (s : Server) (sessionOrder : List Int) (bookOrder : List Bytes) :
    Alike s (s.rehash sessionOrder bookOrder) where
  kq := rfl
  listenFd := rfl
  nextSessionSeq := rfl
  accepted := rfl
  session _ := UnorderedMap.lookup_reorder ..
  book := .rehashed s.book bookOrder
  lines _ := rfl

/-! ## Deciding and acting -/

/-- In views that are alike the same sessions follow the same instruments. -/
theorem follows (h : Alike s t) (k : Nat) (i : Bytes) : t.follows k i = s.follows k i := by
  rw [Bool.eq_iff_iff, follows_iff, follows_iff]
  simp only [h.session]

/-- A fill is reported alike. -/
theorem fillVoice (h : Alike s t) (hs : Consistent s) (ht : Consistent t) (f : Fill) (k : Nat) :
    linesTo k (t.fillVoice f) = linesTo k (s.fillVoice f) := by
  have howner : ∀ party line, t.ownerVoice party line = s.ownerVoice party line := by
    intro party line
    rw [ownerVoice, h.session, ownerVoice]
  simp only [Server.fillVoice, linesTo_append, howner, ht.linesTo_tradeVoice,
    hs.linesTo_tradeVoice, h.follows]

/-- A session stands alike. -/
theorem standing (h : Alike s t) (hd : Distinct s.book) (hd' : Distinct t.book)
    (c : ClientSession) : t.standing c = s.standing c := by
  have htaken : (t.standing c).taken = (s.standing c).taken := by
    funext name
    rw [Bool.eq_iff_iff, taken_iff rfl, taken_iff rfl, NameTaken, NameTaken]
    simp only [h.session]
  have howns : (t.standing c).owns = (s.standing c).owns := by
    funext oid
    exact (h.book.cancel hd hd' oid c.fd c.sessionSeq).1
  exact Standing.ext rfl rfl htaken howns

/-- A decision is carried out alike. -/
theorem carryOut (h : Alike s t) (hs : Consistent s) (ht : Consistent t) (hd : Distinct s.book)
    (hd' : Distinct t.book) (fd : Int) (c : ClientSession) (d : Decision) :
    (t.carryOut fd c d).2 = (s.carryOut fd c d).2 ∧
      Alike (s.carryOut fd c d).1 (t.carryOut fd c d).1 := by
  cases d with
  | rejected reason => exact ⟨rfl, h.log fun _ => rfl⟩
  | loggedIn name => exact ⟨rfl, (h.update fd _).log fun _ => rfl⟩
  | placed side instrument qty price =>
    refine ⟨rfl, ?_⟩
    have hordered : t.ordered c side instrument qty price =
        s.ordered c side instrument qty price := by
      rw [Server.ordered, h.book.nextId, Server.ordered]
    have hdrawn : s.drawn.Alike t.drawn := h.book.drawn
    obtain ⟨hfills, hbook⟩ := hdrawn.submit (s.ordered c side instrument qty price)
    simp only [Server.carryOut, hordered, accept]
    refine (h.withBook hbook).log fun k => ?_
    rw [linesTo_append, linesTo_append, hfills, linesTo_flatMap, linesTo_flatMap]
    congr 1
    exact List.flatMap_congr fun f _ => h.fillVoice hs ht f k
  | cancelled oid =>
    refine ⟨rfl, ?_⟩
    obtain ⟨-, hbook⟩ := h.book.cancel hd hd' oid c.fd c.sessionSeq
    exact (h.withBook hbook).log fun _ => rfl
  | subscribed instrument => exact ⟨rfl, (h.update fd _).log fun _ => rfl⟩
  | unsubscribed instrument => exact ⟨rfl, (h.update fd _).log fun _ => rfl⟩
  | quit => exact ⟨rfl, h.forget c.fd⟩

/-- A line is handled alike. -/
theorem handleLine (h : Alike s.view t.view) (hs : Consistent s.view) (ht : Consistent t.view)
    (hd : Distinct s.book) (hd' : Distinct t.book) {c' : ClientSession}
    (hc : s.sessions.lookup fd = some c) (hc' : t.sessions.lookup fd = some c')
    (hprofile : c'.profile = c.profile) (line : Bytes) :
    (t.handleLine fd line).2 = (s.handleLine fd line).2 ∧
      Alike (s.handleLine fd line).1.view (t.handleLine fd line).1.view := by
  let c₁ := inferRole (commandWord line) c.profile
  let s₁ := s.view.noted fd c.profile line
  let t₁ := t.view.noted fd c.profile line
  have hnoted : Alike s₁ t₁ := (h.log fun _ => rfl).update fd (inferRole (commandWord line))
  have hstanding : t₁.standing c₁ = s₁.standing c₁ := hnoted.standing hd hd' c₁
  have hview : ((s.handleLine fd line).1.view, (s.handleLine fd line).2) =
      s₁.carryOut fd c₁ ((s₁.standing c₁).decision line) := handleLine_view hc line
  have hview' : ((t.handleLine fd line).1.view, (t.handleLine fd line).2) =
      t₁.carryOut fd c₁ ((t₁.standing c₁).decision line) := by
    have hown := handleLine_view hc' line
    rw [hprofile] at hown
    exact hown
  obtain ⟨halive, hacted⟩ := hnoted.carryOut (hs.keeps (keeps_noted ..)) (ht.keeps (keeps_noted ..))
    hd hd' fd c₁ ((s₁.standing c₁).decision line)
  rw [hstanding] at hview'
  rw [← hview, ← hview'] at halive hacted
  exact ⟨halive, hacted⟩

end Alike

/-! ## The listening socket -/

/-- No move changes the listening descriptor. -/
theorem Moves.listenFd {a : Action} {s' : Server} (h : Moves s a s') :
    s'.listenFd = s.listenFd := by
  cases h with
  | idle => rfl
  | admitted => rfl
  | fed => rfl
  | handled hc hr =>
    cases hr with
    | quit => exact listenFd_forget ..
    | _ => rfl
  | closed => exact listenFd_forget ..
  | rehashed => rfl

private theorem dispatch_listenFd (s : Server) (e : Event) :
    (s.dispatch e).listenFd = s.listenFd := by
  have hact : ∀ (s : Server) (a : Action), (s.act a).listenFd = s.listenFd :=
    fun s a => (act_moves s a).listenFd
  obtain ⟨actions, hactions⟩ := dispatch_reaches s e
  rw [← hactions]
  exact run_preorder (r := fun s s' : Server => s'.listenFd = s.listenFd) (fun _ => rfl)
    (fun h h' => h'.trans h) hact s actions

/-! ## Servers with other sends -/

/-- Two servers whose sends do not fail, and whose clients cannot tell one from the other but by
when the bytes arrive. -/
structure Twins (s t : Server) : Prop where
  reachable : Reachable s
  reachable' : Reachable t
  soft : ∀ r ∈ s.kernel.sends, r.soft = true
  soft' : ∀ r ∈ t.kernel.sends, r.soft = true
  alike : Alike s.view t.view

/-- A server uses the results of its sends one after the other. -/
theorem Reachable.act_soft (hs : Reachable s) (hsoft : ∀ r ∈ s.kernel.sends, r.soft = true)
    (a : Action) : ∀ r ∈ (s.act a).kernel.sends, r.soft = true := by
  obtain ⟨used, hused, -⟩ := hs.run_used [a]
  intro r hr
  refine hsoft r ?_
  rw [hused]
  exact List.mem_append_right _ hr

/-- A flush without a failure does not show. -/
theorem Reachable.soft_flush (hs : Reachable s) (hsoft : ∀ r ∈ s.kernel.sends, r.soft = true)
    (fd : Int) : (s.onWritable fd).view = s.view := by
  simp only [onWritable]
  cases hc : s.sessions.lookup fd with
  | none => rfl
  | some c =>
    have hfull := ((attendedAt_some hc).mp (hs.wakeful fd)).full
    have hstop := drainLoop_soft hsoft hfull
    dsimp only
    split
    · rw [view_setOutbuf, view_transmit]
    · rename_i hfailed
      exact absurd hfailed hstop
    · split
      · rw [view_setWantWrite, view_kqDel, view_setOutbuf, view_transmit]
      · rw [view_setOutbuf, view_transmit]

namespace Twins

/-- Either of two twins is the other's. -/
theorem symm (h : Twins s t) : Twins t s :=
  ⟨h.reachable', h.reachable, h.soft', h.soft, h.alike.symm⟩

/-- Twins remain twins when their views stay alike. -/
theorem act (h : Twins s t) (a a' : Action) (halike : Alike (s.act a).view (t.act a').view) :
    Twins (s.act a) (t.act a') :=
  ⟨h.reachable.reaches (.act s a), h.reachable'.reaches (.act t a'),
    h.reachable.act_soft h.soft a, h.reachable'.act_soft h.soft' a', halike⟩

/-- Twins know the same clients under each descriptor. -/
theorem profile (h : Twins s t) (fd : Int) :
    (t.sessions.lookup fd).map ClientSession.profile =
      (s.sessions.lookup fd).map ClientSession.profile := by
  have hsession := h.alike.session fd
  rwa [lookup_view, lookup_view] at hsession

private theorem lookup_none (h : Twins s t) (hnone : s.sessions.lookup fd = none) :
    t.sessions.lookup fd = none := by
  have hprofile := h.profile fd
  rwa [hnone, Option.map_none, Option.map_eq_none_iff] at hprofile

private theorem lookup_some (h : Twins s t) (hc : s.sessions.lookup fd = some c) :
    ∃ c', t.sessions.lookup fd = some c' ∧ c'.profile = c.profile := by
  have hprofile := h.profile fd
  rwa [hc, Option.map_some, Option.map_eq_some_iff] at hprofile

/-- Twins remain so however their tables are rehashed. -/
theorem rehash (h : Twins s t) (sessionOrder sessionOrder' : List Int)
    (bookOrder bookOrder' : List Bytes) :
    Twins (s.rehash sessionOrder bookOrder) (t.rehash sessionOrder' bookOrder') := by
  refine h.act (.rehash sessionOrder bookOrder) (.rehash sessionOrder' bookOrder') ?_
  have hs := Alike.rehashed s.view sessionOrder bookOrder
  have ht := Alike.rehashed t.view sessionOrder' bookOrder'
  rw [← view_rehash] at hs ht
  exact hs.symm.trans (h.alike.trans ht)

/-- A write event makes no difference, whichever of the two it happens to. -/
theorem flush (h : Twins s t) (sessionOrder : List Int) (bookOrder : List Bytes) (fd : Int) :
    Twins ((s.rehash sessionOrder bookOrder).onWritable fd) t := by
  have hrehash : Reachable (s.rehash sessionOrder bookOrder) :=
    h.reachable.reaches (.act s (.rehash sessionOrder bookOrder))
  have hsoft : ∀ r ∈ (s.rehash sessionOrder bookOrder).kernel.sends, r.soft = true := h.soft
  refine ⟨hrehash.reaches (.act _ (.writable fd)), h.reachable',
    hrehash.act_soft hsoft (.writable fd), h.soft', ?_⟩
  have hs := Alike.rehashed s.view sessionOrder bookOrder
  rw [← view_rehash, ← hrehash.soft_flush hsoft fd] at hs
  exact hs.symm.trans h.alike

/-- Twins have the same descriptors free. -/
theorem free (h : Twins s t) (cfd : Int) : t.Free cfd ↔ s.Free cfd := by
  have hkq : t.kq = s.kq := h.alike.kq
  have hlisten : t.listenFd = s.listenFd := h.alike.listenFd
  rw [Free, Free, hkq, hlisten]
  refine and_congr_right fun _ => and_congr_right fun _ => ⟨h.symm.lookup_none, h.lookup_none⟩

/-- Twins remain so when both open a session. -/
theorem openSession (h : Twins s t) {cfd : Int} (hfree : s.Free cfd) :
    Twins (s.openSession cfd) (t.openSession cfd) := by
  have hfree' := (h.free cfd).mpr hfree
  have hs : s.act (.accept cfd) = s.openSession cfd := if_pos hfree
  have ht : t.act (.accept cfd) = t.openSession cfd := if_pos hfree'
  have htwins := h.act (.accept cfd) (.accept cfd)
  rw [hs, ht, view_openSession hfree, view_openSession hfree'] at htwins
  exact htwins (h.alike.join cfd)

/-- Twins remain so when both accept the same connections. -/
theorem acceptNew (h : Twins s t) (results : List AcceptResult) :
    Twins (s.acceptNew results) (t.acceptNew results) := by
  induction results generalizing s t with
  | nil => exact h
  | cons result results ih =>
    cases result with
    | accepted cfd =>
      rw [Server.acceptNew, Server.acceptNew]
      by_cases hfree : s.Free cfd
      · rw [if_pos hfree, if_pos ((h.free cfd).mpr hfree)]
        exact ih (h.openSession hfree)
      · rw [if_neg hfree, if_neg (mt (h.free cfd).mp hfree)]
        exact ih h
    | again => exact h
    | eintr => exact ih h
    | aborted => exact ih h
    | failed => exact h

/-- Twins remain so when both close a session. -/
theorem closeSession (h : Twins s t) (fd : Int) :
    Twins (s.closeSession fd) (t.closeSession fd) := by
  refine h.act (.drop fd) (.drop fd) ?_
  rw [Server.act, Server.act, view_closeSession, view_closeSession]
  exact h.alike.forget fd

/-- Twins remain so when both hang up on a client. -/
theorem hangup (h : Twins s t) (fd : Int) : Twins (s.hangup fd) (t.hangup fd) := by
  refine h.act (.hangup fd) (.hangup fd) ?_
  rw [Server.act, Server.act, Server.hangup, Server.hangup]
  cases hc : s.sessions.lookup fd with
  | none =>
    rw [h.lookup_none hc]
    exact h.alike
  | some c =>
    obtain ⟨c', hc', hprofile⟩ := h.lookup_some hc
    rw [hc']
    dsimp only
    rw [view_closeSession, view_closeSession, view_log, view_log]
    have hconn' : c'.profile.conn = c.profile.conn := congrArg ClientSession.conn hprofile
    have hconn : c'.conn = c.conn := hconn'
    rw [hconn]
    exact (h.alike.log fun _ => rfl).forget fd

/-- Twins remain so when both take in the same chunk. -/
theorem feed (h : Twins s t) (fd : Int) (chunk : Chunk) :
    Twins (s.feed fd chunk) (t.feed fd chunk) := by
  refine h.act (.feed fd chunk) (.feed fd chunk) ?_
  rw [Server.act, Server.act, Server.feed, Server.feed, view_feedInbuf, view_feedInbuf]
  exact h.alike.update fd _

/-- Twins have buffered the same bytes. -/
theorem buffered (h : Twins s t) (fd : Int) : t.buffered fd = s.buffered fd := by
  rw [← t.buffered_view, ← s.buffered_view, Server.buffered, h.alike.session, Server.buffered]

/-! ## Lines -/

/-- The next line of a session's input is taken and handled alike. -/
theorem takeLine (h : Twins s t) (fd : Int) :
    (s.takeLine fd = none ∧ t.takeLine fd = none) ∨
      ∃ r r', s.takeLine fd = some r ∧ t.takeLine fd = some r' ∧ r'.2 = r.2 ∧ Twins r.1 r'.1 := by
  cases hc : s.sessions.lookup fd with
  | none =>
    refine Or.inl ⟨?_, ?_⟩
    · simp only [Server.takeLine, hc]
    · simp only [Server.takeLine, h.lookup_none hc]
  | some c =>
    obtain ⟨c', hc', hprofile⟩ := h.lookup_some hc
    have hinbuf' : c'.profile.inbuf = c.profile.inbuf := congrArg ClientSession.inbuf hprofile
    have hinbuf : c'.inbuf = c.inbuf := hinbuf'
    cases hline : c.inbuf.nextLine with
    | none =>
      refine Or.inl ⟨?_, ?_⟩
      · simp only [Server.takeLine, hc, hline]
      · simp only [Server.takeLine, hc', hinbuf, hline]
    | some taken =>
      obtain ⟨line, inbuf⟩ := taken
      let s₁ := s.update fd (setInbuf inbuf)
      let t₁ := t.update fd (setInbuf inbuf)
      have hs₁ : Consistent s₁.view := by
        rw [view_setInbuf]
        exact h.reachable.consistent.keeps (keeps_update _ fd _ fun _ => ⟨rfl, Or.inr rfl⟩)
      have ht₁ : Consistent t₁.view := by
        rw [view_setInbuf]
        exact h.reachable'.consistent.keeps (keeps_update _ fd _ fun _ => ⟨rfl, Or.inr rfl⟩)
      have halike : Alike s₁.view t₁.view := by
        rw [view_setInbuf, view_setInbuf]
        exact h.alike.update fd _
      have hd : Distinct s₁.book := h.reachable.tracked.chronological.identified.distinct
      have hd' : Distinct t₁.book := h.reachable'.tracked.chronological.identified.distinct
      have hset : s₁.sessions.lookup fd = some (setInbuf inbuf c) := lookup_update_of hc _
      have hset' : t₁.sessions.lookup fd = some (setInbuf inbuf c') := lookup_update_of hc' _
      have hsame : (setInbuf inbuf c').profile = (setInbuf inbuf c).profile := by
        have hinput := congrArg (setInbuf inbuf) hprofile
        exact hinput
      obtain ⟨halive, hacted⟩ := halike.handleLine hs₁ ht₁ hd hd' hset hset' hsame line
      have htaken : s.takeLine fd = some (s₁.handleLine fd line) := takeLine_eq hc hline
      have htaken' : t.takeLine fd = some (t₁.handleLine fd line) :=
        takeLine_eq hc' (hinbuf ▸ hline)
      have htwins := h.act (.line fd) (.line fd)
      rw [act_line htaken, act_line htaken'] at htwins
      exact Or.inr ⟨_, _, htaken, htaken', halive, htwins hacted⟩

/-- Twins handle the same lines to the same end. -/
theorem handleLines (h : Twins s t) (fuel : Nat) (fd : Int) :
    (handleLines fuel t fd).2 = (handleLines fuel s fd).2 ∧
      Twins (handleLines fuel s fd).1 (handleLines fuel t fd).1 := by
  induction fuel generalizing s t with
  | zero => exact ⟨rfl, h⟩
  | succ fuel ih =>
    rw [Server.handleLines, Server.handleLines]
    rcases h.takeLine fd with ⟨hnone, hnone'⟩ | ⟨⟨s', alive⟩, ⟨t', alive'⟩, hr, hr', halive, htwins⟩
    · rw [hnone, hnone']
      exact ⟨rfl, h⟩
    · obtain rfl : alive' = alive := halive
      rw [hr, hr']
      cases alive' with
      | true => exact ih htwins
      | false => exact ⟨rfl, htwins⟩

/-! ## Events -/

/-- Twins remain so over the same reads. -/
theorem recvLoop (h : Twins s t) (recvs : List RecvResult) (fd : Int) :
    Twins (s.recvLoop fd recvs) (t.recvLoop fd recvs) := by
  induction recvs generalizing s t with
  | nil => exact h
  | cons result recvs ih =>
    cases result with
    | data chunk =>
      have hfed := h.feed fd chunk
      obtain ⟨halive, hlines⟩ := hfed.handleLines ((s.feed fd chunk).buffered fd) fd
      rw [Server.recvLoop, Server.recvLoop, hfed.buffered]
      generalize Server.handleLines ((s.feed fd chunk).buffered fd) (s.feed fd chunk) fd = r
        at halive hlines ⊢
      generalize Server.handleLines ((s.feed fd chunk).buffered fd) (t.feed fd chunk) fd = r'
        at halive hlines ⊢
      obtain ⟨s', alive⟩ := r
      obtain ⟨t', alive'⟩ := r'
      obtain rfl : alive' = alive := halive
      cases alive' with
      | true => exact ih hlines
      | false => exact hlines
    | fin => exact h.hangup fd
    | eintr => exact ih h
    | again => exact h
    | reset => exact h.hangup fd
    | failed => exact h.hangup fd

/-- Twins remain so when both serve the same reads. -/
theorem onReadable (h : Twins s t) (fd : Int) (recvs : List RecvResult) :
    Twins (s.onReadable fd recvs) (t.onReadable fd recvs) := by
  rw [Server.onReadable, Server.onReadable]
  cases hc : s.sessions.lookup fd with
  | none =>
    rw [h.lookup_none hc]
    exact h
  | some c =>
    obtain ⟨c', hc', -⟩ := h.lookup_some hc
    rw [hc']
    exact h.recvLoop recvs fd

/-- Twins have the same sessions. -/
theorem isSome (h : Twins s t) (fd : Int) :
    (t.sessions.lookup fd).isSome = (s.sessions.lookup fd).isSome := by
  have hprofile := congrArg Option.isSome (h.profile fd)
  rwa [Option.isSome_map, Option.isSome_map] at hprofile

end Twins

/-- The event says that a backlog can be flushed, and nothing else. -/
def Event.flushes (listenFd : Int) (e : Event) : Bool :=
  !e.event.error && e.event.ident ≠ listenFd && e.event.filter = .write

/-- What an event brings, whatever the tables look like at its time. -/
def Event.brings (e : Event) : Kevent × List AcceptResult × List RecvResult :=
  (e.event, e.accepts, e.recvs)

namespace Twins

/-- An event that brings the same to both is dealt with alike. -/
theorem dispatch (h : Twins s t) {e e' : Event} (hkept : e.flushes s.listenFd = false)
    (hbrings : e.brings = e'.brings) : Twins (s.dispatch e) (t.dispatch e') := by
  obtain ⟨event, accepts, recvs, sessionOrder, bookOrder⟩ := e
  obtain ⟨event', accepts', recvs', sessionOrder', bookOrder'⟩ := e'
  obtain ⟨rfl, hrest⟩ := Prod.mk.inj hbrings
  obtain ⟨rfl, rfl⟩ := Prod.mk.inj hrest
  have hrehash := h.rehash sessionOrder sessionOrder' bookOrder bookOrder'
  have hlisten₁ : (s.rehash sessionOrder bookOrder).listenFd = s.listenFd := rfl
  have hlisten₂ : (t.rehash sessionOrder' bookOrder').listenFd = s.listenFd := h.alike.listenFd
  simp only [Server.dispatch, hlisten₁, hlisten₂]
  generalize s.rehash sessionOrder bookOrder = s₁ at hrehash
  generalize t.rehash sessionOrder' bookOrder' = t₁ at hrehash
  cases herror : event.error with
  | true =>
    simp only [if_true]
    split
    · exact hrehash.closeSession event.ident
    · exact hrehash
  | false =>
    simp only [Bool.false_eq_true, if_false]
    by_cases hlisten : event.ident = s.listenFd
    · rw [if_pos hlisten, if_pos hlisten]
      exact hrehash.acceptNew accepts
    rw [if_neg hlisten, if_neg hlisten]
    cases hfilter : event.filter with
    | read =>
      have hread := hrehash.onReadable event.ident recvs
      dsimp only
      rw [hread.isSome]
      split
      · exact hread.closeSession event.ident
      · exact hread
    | write =>
      have hflushes : event.error = false ∧ event.ident ≠ s.listenFd ∧ event.filter = .write :=
        ⟨herror, hlisten, hfilter⟩
      simp [Event.flushes, hflushes] at hkept

/-- A write event disturbs neither side. -/
theorem dispatch_flush (h : Twins s t) {e : Event} (hdropped : e.flushes s.listenFd = true) :
    Twins (s.dispatch e) t := by
  obtain ⟨event, accepts, recvs, sessionOrder, bookOrder⟩ := e
  simp only [Event.flushes, Bool.and_eq_true, Bool.not_eq_true', decide_eq_true_eq] at hdropped
  obtain ⟨⟨herror, hlisten⟩, hfilter⟩ := hdropped
  have hlisten₁ : (s.rehash sessionOrder bookOrder).listenFd = s.listenFd := rfl
  simp only [Server.dispatch, herror, hlisten₁, if_neg hlisten, hfilter, Bool.false_eq_true,
    if_false]
  exact h.flush sessionOrder bookOrder event.ident

end Twins

private theorem twins_start (kq listenFd : Int) {sends₁ sends₂ : List SendResult}
    (hsoft₁ : ∀ r ∈ sends₁, r.soft = true) (hsoft₂ : ∀ r ∈ sends₂, r.soft = true) :
    Twins (start kq listenFd sends₁) (start kq listenFd sends₂) where
  reachable := .start kq listenFd sends₁
  reachable' := .start kq listenFd sends₂
  soft := hsoft₁
  soft' := hsoft₂
  alike := ⟨rfl, rfl, rfl, rfl, fun _ => rfl, ⟨rfl, fun _ => rfl⟩, fun _ => rfl⟩

/-- In two runs with the same accepts, reads and closes in the same order, whatever the sends do
short of failing and whenever backlogs are flushed, the book, the next id and everybody's role,
username, subscriptions and unconsumed input are the same, and so are the lines enqueued to every
connection. -/
theorem slow_readers_disturb_nobody (kq listenFd : Int) (sends₁ sends₂ : List SendResult)
    (events₁ events₂ : List Event) (hsoft₁ : ∀ r ∈ sends₁, r.soft = true)
    (hsoft₂ : ∀ r ∈ sends₂, r.soft = true)
    (hevents : (events₁.filter fun e => !e.flushes listenFd).map Event.brings =
      (events₂.filter fun e => !e.flushes listenFd).map Event.brings) :
    let s₁ := run dispatch (start kq listenFd sends₁) events₁
    let s₂ := run dispatch (start kq listenFd sends₂) events₂
    s₂.book.nextId_ = s₁.book.nextId_ ∧ (∀ key, s₂.book.queue? key = s₁.book.queue? key) ∧
      (∀ fd, (s₂.sessions.lookup fd).map ClientSession.profile =
        (s₁.sessions.lookup fd).map ClientSession.profile) ∧
      ∀ k, linesTo k s₂.history = linesTo k s₁.history := by
  intro s₁ s₂
  let R : Server → Server → Prop := fun s t => Twins s t ∧ s.listenFd = listenFd
  have hstart : R (start kq listenFd sends₁) (start kq listenFd sends₂) :=
    ⟨twins_start kq listenFd hsoft₁ hsoft₂, rfl⟩
  have hkeep : ∀ s t e e', R s t → (!e.flushes listenFd) = true → e.brings = e'.brings →
      R (s.dispatch e) (t.dispatch e') := by
    rintro s t e e' ⟨htwins, hlisten⟩ hkept hbrings
    refine ⟨htwins.dispatch ?_ hbrings, (dispatch_listenFd s e).trans hlisten⟩
    rw [hlisten]
    simpa using hkept
  have hdrop : ∀ s t e, R s t → (!e.flushes listenFd) = false → R (s.dispatch e) t := by
    rintro s t e ⟨htwins, hlisten⟩ hdropped
    refine ⟨htwins.dispatch_flush ?_, (dispatch_listenFd s e).trans hlisten⟩
    rw [hlisten]
    simpa using hdropped
  have hdrop' : ∀ s t e, R s t → (!e.flushes listenFd) = false → R s (t.dispatch e) := by
    rintro s t e ⟨htwins, hlisten⟩ hdropped
    have hlisten' : t.listenFd = listenFd := htwins.alike.listenFd.trans hlisten
    refine ⟨(htwins.symm.dispatch_flush ?_).symm, hlisten⟩
    rw [hlisten']
    simpa using hdropped
  have hrun : R s₁ s₂ := run_stutter hkeep hdrop hdrop' hstart hevents
  obtain ⟨htwins, -⟩ := hrun
  refine ⟨htwins.alike.book.nextId, fun key => ?_, htwins.profile, htwins.alike.lines⟩
  have hlevel : s₂.book.level key = s₁.book.level key := htwins.alike.book.level key
  rw [htwins.reachable.queue?_eq_stored, htwins.reachable'.queue?_eq_stored, hlevel]

/-- One client's window is full half a line into its reply, so its backlog is flushed later; in
the other run every send is accepted whole. -/
theorem slow_readers_disturb_nobody_full_window :
    let accepts : Event :=
      { event := ⟨4, .read, false, false⟩, accepts := [.accepted 5, .accepted 6, .again] }
    let order : Event :=
      { event := ⟨5, .read, false, false⟩
        recvs := [.data ⟨text "BUY JNST 5 10\n", by decide, by decide⟩, .again] }
    let trade : Event :=
      { event := ⟨6, .read, false, false⟩
        recvs := [.data ⟨text "SELL JNST 5 10\nFOO", by decide, by decide⟩, .again] }
    let flush : Event := { event := ⟨5, .write, false, false⟩ }
    let sends₁ : List SendResult := [.sent 2, .again, .eintr, .sent 99, .sent 3]
    let sends₂ : List SendResult := [.sent 99, .sent 99, .sent 99, .sent 99]
    let s₁ := run dispatch (start 3 4 sends₁) [accepts, order, flush, trade, flush]
    let s₂ := run dispatch (start 3 4 sends₂) [accepts, order, trade]
    linesTo 0 s₂.history = linesTo 0 s₁.history ∧
      s₁.kernel.wire 0 ≠ s₂.kernel.wire 0 := by
  intro accepts order trade flush sends₁ sends₂ s₁ s₂
  have hsoft₁ : ∀ r ∈ sends₁, r.soft = true := by decide
  have hsoft₂ : ∀ r ∈ sends₂, r.soft = true := by decide
  have h := slow_readers_disturb_nobody 3 4 sends₁ sends₂ [accepts, order, flush, trade, flush]
    [accepts, order, trade] hsoft₁ hsoft₂ rfl
  have hwire : s₁.kernel.wire 0 ≠ s₂.kernel.wire 0 := by decide
  exact ⟨h.2.2.2 0, hwire⟩

end Server

end SocketExchange
