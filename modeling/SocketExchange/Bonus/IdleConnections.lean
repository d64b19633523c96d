import SocketExchange.Exchange.Observers
import SocketExchange.Service.Closings
import SocketExchange.Service.Transmission
import SocketExchange.Service.Wakeups

/-!
# Idle connections

A client that has never sent a whole line, as the connections of the generator never do, has no
role, no subscription and no order. The server has nothing to say to it, waits for nothing but its
bytes, and keeps its session for as long as the client keeps the connection.
-/

namespace SocketExchange

open Containers ClientSession Runs

/-! ## Owners -/

namespace Reference

variable {P : UInt64 → Prop} {o : Order} {rs : List Order} {f : Fill}

private theorem tradeOldest_owners {o' : Order} {rs' : List Order} (ho : P o.ownerSeq)
    (hrs : ∀ x ∈ rs, P x.ownerSeq) (h : tradeOldest o rs = some (f, o', rs')) :
    P f.buyerSeq ∧ P f.sellSeq ∧ P o'.ownerSeq ∧ ∀ x ∈ rs', P x.ownerSeq := by
  induction rs generalizing rs' with
  | nil => cases h
  | cons r rs ih =>
    obtain ⟨hr, hrs⟩ := List.forall_mem_cons.mp hrs
    rw [tradeOldest] at h
    split at h
    · obtain ⟨rfl, rfl, rfl⟩ := by simpa only [Option.some.injEq, Prod.mk.injEq] using h
      refine ⟨?_, ?_, ho, ?_⟩
      · split
        · exact ho
        · exact hr
      · split
        · exact hr
        · exact ho
      · split
        · exact hrs
        · exact List.forall_mem_cons.mpr ⟨hr, hrs⟩
    · obtain ⟨⟨f', o'', rs''⟩, ht, he⟩ := Option.map_eq_some_iff.mp h
      obtain ⟨rfl, rfl, rfl⟩ := by simpa only [Prod.mk.injEq] using he
      obtain ⟨hbuyer, hseller, ho', hrs'⟩ := ih hrs ht
      exact ⟨hbuyer, hseller, ho', List.forall_mem_cons.mpr ⟨hr, hrs'⟩⟩

private theorem trade_owners (ho : P o.ownerSeq) (hrs : ∀ x ∈ rs, P x.ownerSeq) :
    (∀ f ∈ (trade o rs).1, P f.buyerSeq ∧ P f.sellSeq) ∧ P (trade o rs).2.1.ownerSeq ∧
      ∀ x ∈ (trade o rs).2.2, P x.ownerSeq := by
  induction o, rs using trade.induct with
  | case1 o rs hpos hnone =>
    rw [trade_none hnone]
    exact ⟨List.forall_mem_nil _, ho, hrs⟩
  | case2 o rs hpos f o' rs' hsome ih =>
    obtain ⟨hbuyer, hseller, ho', hrs'⟩ := tradeOldest_owners ho hrs hsome
    obtain ⟨hfills, hrest⟩ := ih ho' hrs'
    rw [trade_some hpos hsome]
    exact ⟨List.forall_mem_cons.mpr ⟨⟨hbuyer, hseller⟩, hfills⟩, hrest⟩
  | case3 o rs hpos =>
    rw [trade_of_nonpos hpos]
    exact ⟨List.forall_mem_nil _, ho, hrs⟩

/-- The sides of a trade and the orders that rest after it belong to those who owned the orders
before. -/
theorem submit_owners {r : Reference} (ho : P o.ownerSeq) (hr : ∀ x ∈ r.orders, P x.ownerSeq) :
    (∀ f ∈ (r.submit o).1, P f.buyerSeq ∧ P f.sellSeq) ∧
      ∀ x ∈ (r.submit o).2.orders, P x.ownerSeq := by
  obtain ⟨hfills, hleft, hrest⟩ := trade_owners ho hr
  rw [submit]
  split
  · exact ⟨List.forall_mem_nil _, hr⟩
  · refine ⟨hfills, fun x hx => ?_⟩
    dsimp only at hx
    split at hx
    · rcases List.mem_append.mp hx with hx | hx
      · exact hrest x hx
      · rw [List.mem_singleton.mp hx]
        exact hleft
    · exact hrest x hx

private theorem mem_cancel {r : Reference} {oid fd : Int} {seq : UInt64} {x : Order}
    (hx : x ∈ (r.cancel oid fd seq).2.orders) : x ∈ r.orders := by
  rw [cancel] at hx
  split at hx
  · exact hx
  · split at hx
    · exact (List.mem_filter.mp hx).1
    · exact hx

end Reference

/-! ## Nothing is said to those who are silent -/

namespace Exchange

variable {e : Exchange} {ds : List Deed} {d : Deed} {k : Nat} {m : Member} {line : Bytes}

/-- Resting orders belong to those who have sent lines, and nobody else has been sent any. -/
structure Spoken (ds : List Deed) (e : Exchange) : Prop where
  owners : ∀ x ∈ e.book.orders, ∃ k < 2 ^ 64, x.ownerSeq = seqOf k ∧ sentBy k ds ≠ []
  sent : ∀ k < 2 ^ 64, sentBy k ds = [] → e.sent k = []

/-- A fill makes no report for a member without a role who has no part in it. -/
theorem reports_eq_nil {f : Fill} (hmember : ∀ m, e.member k = some m → m.role = .unknown)
    (hbuyer : f.buyerSeq ≠ seqOf k) (hseller : f.sellSeq ≠ seqOf k) : e.reports k f = [] := by
  unfold reports
  cases hm : e.member k with
  | none => rfl
  | some m =>
    have hfollows : ¬ m.Follows f.instrument := by
      rintro ⟨hrole, -⟩
      rw [hmember m hm] at hrole
      cases hrole
    simp [hbuyer, hseller, hfollows]

/-- What a line does to those who have been silent. -/
theorem Spoken.act (h : Spoken ds e) (htold : Told ds e) (hk : k < 2 ^ 64) (m : Member)
    (line : Bytes) : Spoken (ds ++ [.sends k line]) (e.act k m line) := by
  let m₁ := m.inferRole (commandWord line)
  have hspeaks : sentBy k (ds ++ [.sends k line]) ≠ [] := by
    rw [sentBy_append]
    simp [sentBy]
  have hgrown : ∀ k', sentBy k' ds ≠ [] → sentBy k' (ds ++ [.sends k line]) ≠ [] := by
    intro k' hne
    rw [sentBy_append]
    exact List.append_ne_nil_of_left_ne_nil hne _
  have hsilent : ∀ k', sentBy k' (ds ++ [.sends k line]) = [] → k' ≠ k ∧ sentBy k' ds = [] := by
    intro k' hnone
    refine ⟨?_, by_contra fun hne => hgrown k' hne hnone⟩
    rintro rfl
    exact hspeaks hnone
  -- It is enough that the line leaves the book alone and is answered to its sender only.
  have hreplied : ∀ e' : Exchange, (∀ x ∈ e'.book.orders, x ∈ e.book.orders) →
      (∀ k', k' ≠ k → e'.sent k' = e.sent k') → Spoken (ds ++ [.sends k line]) e' := by
    intro e' hbook hsent
    constructor
    · intro x hx
      obtain ⟨k', hk', howner, hspoke⟩ := h.owners x (hbook x hx)
      exact ⟨k', hk', howner, hgrown k' hspoke⟩
    · intro k' hk' hnone
      obtain ⟨hne, hbefore⟩ := hsilent k' hnone
      rw [hsent k' hne]
      exact h.sent k' hk' hbefore
  rw [act_eq]
  have hjustified := Standing.decision_justified ((e.enroll k m₁).standing k m₁) line
  generalize ((e.enroll k m₁).standing k m₁).decision line = decision at hjustified
  cases hjustified with
  | rejected => exact hreplied _ (fun x hx => hx) fun k' hne => sent_say_ne _ hne _
  | loggedIn => exact hreplied _ (fun x hx => hx) fun k' hne => sent_say_ne _ hne _
  | cancelled =>
    exact hreplied _ (fun x hx => Reference.mem_cancel hx) fun k' hne => sent_say_ne _ hne _
  | subscribed => exact hreplied _ (fun x hx => hx) fun k' hne => sent_say_ne _ hne _
  | unsubscribed => exact hreplied _ (fun x hx => hx) fun k' hne => sent_say_ne _ hne _
  | quit => exact hreplied _ (fun x hx => hx) fun _ _ => rfl
  | @placed side instrument quantity limit qty price =>
    let o := (e.enroll k m₁).ordered k side instrument qty price
    let P : UInt64 → Prop := fun seq =>
      ∃ k' < 2 ^ 64, seq = seqOf k' ∧ sentBy k' (ds ++ [.sends k line]) ≠ []
    have hbefore : ∀ x ∈ e.book.orders, P x.ownerSeq := by
      intro x hx
      obtain ⟨k', hk', howner, hspoke⟩ := h.owners x hx
      exact ⟨k', hk', howner, hgrown k' hspoke⟩
    have hown : P o.ownerSeq := ⟨k, hk, rfl, hspeaks⟩
    obtain ⟨hfills, hrest⟩ := Reference.submit_owners (o := o)
      (r := { e.book with nextId_ := e.book.nextId_ + 1 }) hown hbefore
    refine ⟨hrest, fun k' hk' hnone => ?_⟩
    obtain ⟨hne, hquiet⟩ := hsilent k' hnone
    have hother : ∀ seq, P seq → seq ≠ seqOf k' := by
      rintro seq ⟨k'', hk'', rfl, hspoke⟩ hsame
      rw [seqOf_inj hk'' hk' hsame] at hspoke
      exact hspoke hnone
    have hreports : ∀ f ∈ (Reference.submit { e.book with nextId_ := e.book.nextId_ + 1 } o).1,
        (e.enroll k m₁).reports k' f = [] := by
      intro f hf
      refine reports_eq_nil (fun m' hm' => ?_) (hother _ (hfills f hf).1) (hother _ (hfills f hf).2)
      rw [member_enroll_ne e hne] at hm'
      rw [htold.role k' m' hm', hquiet]
      rfl
    have hsaid : ((e.enroll k m₁).say k (msgOrderAccepted o.id)).sent k' = [] :=
      (sent_say_ne _ hne _).trans (h.sent k' hk' hquiet)
    exact List.append_eq_nil_iff.mpr ⟨hsaid, List.flatMap_eq_nil_iff.mpr hreports⟩

/-- After a deed still nobody who has sent no line owns an order or has been sent a line. -/
theorem Spoken.step (h : Spoken ds e) (htold : Told ds e) (hd : d.conn < 2 ^ 64) :
    Spoken (ds ++ [d]) (e.step d) := by
  have hgrown : ∀ k, sentBy k ds ≠ [] → sentBy k (ds ++ [d]) ≠ [] := by
    intro k hne
    rw [sentBy_append]
    exact List.append_ne_nil_of_left_ne_nil hne _
  have hsame : ∀ e' : Exchange, e'.book = e.book → e'.sent = e.sent → Spoken (ds ++ [d]) e' := by
    intro e' hbook hsent
    constructor
    · intro x hx
      rw [hbook] at hx
      obtain ⟨k, hk, howner, hspoke⟩ := h.owners x hx
      exact ⟨k, hk, howner, hgrown k hspoke⟩
    · intro k hk hnone
      rw [hsent]
      exact h.sent k hk (by_contra fun hne => hgrown k hne hnone)
  cases d with
  | joins k => exact hsame _ rfl rfl
  | leaves k => exact hsame _ rfl rfl
  | sends k line =>
    rw [Exchange.step]
    cases e.member k with
    | none => exact hsame _ rfl rfl
    | some m => exact h.act htold hd m line

private theorem spoken_run (horderly : Orderly ds) (hds : ∀ d ∈ ds, d.conn < 2 ^ 64) :
    Spoken ds (run step {} ds) := by
  induction ds using List.reverseRecOn with
  | nil => exact ⟨List.forall_mem_nil _, fun _ _ _ => rfl⟩
  | append_singleton ds d ih =>
    obtain ⟨hbefore, -, -⟩ := List.pairwise_append.mp horderly
    obtain ⟨hds, hd⟩ := List.forall_mem_append.mp hds
    rw [run_append]
    exact (ih hbefore hds).step (told_run hbefore) (hd d (List.mem_singleton.mpr rfl))

end Exchange

/-! ## Nothing waits for an idle connection -/

/-- If nothing waits for a connection and no line is enqueued to it, no send on it fails. -/
theorem Channels.unfailing_idle {k : Nat} {ch : Channels} {outputs : List Output}
    (hqueue : ch.queue k = []) (hlines : ∀ line, .line k line ∉ outputs) :
    ch.Unfailing k outputs := by
  induction outputs generalizing ch with
  | nil => exact trivial
  | cons o outputs ih =>
    have hrest : ∀ line, .line k line ∉ outputs := fun line hmem =>
      hlines line (List.mem_cons_of_mem _ hmem)
    cases o with
    | line k' line =>
      have hne : k' ≠ k := by
        rintro rfl
        exact hlines line List.mem_cons_self
      refine ⟨fun hfails => hne hfails.1, ih ?_ hrest⟩
      rw [step]
      split
      · exact (Function.update_of_ne hne.symm ..).trans hqueue
      · exact (Function.update_of_ne hne.symm ..).trans hqueue
    | flush k' =>
      by_cases hk : k' = k
      · subst hk
        refine ⟨fun hfails => ?_, ih ?_ hrest⟩
        · have hstop := hfails.2
          rw [hqueue, Server.drainLoop] at hstop
          cases hstop
        · rw [step, hqueue, Server.drainLoop]
          exact Function.update_self ..
      · refine ⟨fun hfails => hk hfails.1, ih ?_ hrest⟩
        exact (Function.update_of_ne (Ne.symm hk) ..).trans hqueue
    | drop k' =>
      refine ⟨id, ih ?_ hrest⟩
      by_cases hk : k' = k
      · subst hk
        exact Function.update_self ..
      · exact (Function.update_of_ne (Ne.symm hk) ..).trans hqueue

namespace Server

variable {s : Server} {k : Nat} {e : Event}

/-- Whoever has sent no line has been sent none. -/
theorem Reachable.unspoken (hs : Reachable s) (hacc : s.accepted ≤ 2 ^ 64) (hk : k < 2 ^ 64)
    (hsilent : linesFrom k s.history = []) : linesTo k s.history = [] := by
  have hds : ∀ d ∈ deeds s.history, d.conn < 2 ^ 64 := fun d hd =>
    (hs.deed_accepted hd).trans_le hacc
  have hspoken := (Exchange.spoken_run hs.orderly hds).sent k hk
  rw [sentBy_deeds] at hspoken
  exact ((hs.simulates hacc).sent k).symm.trans (hspoken hsilent)

/-- The event completes no line of the connection and does not end it. -/
def Spares (k : Nat) (s : Server) (e : Event) : Prop :=
  10 ∉ s.brought k e ∧ ∀ c ∈ s.sessions.lookup e.event.ident, c.conn = k →
    e.event.error = false ∧ (s.Reads e → recvEnd e.recvs = .drained ∧ e.event.eof = false)

instance (k : Nat) (s : Server) (e : Event) : Decidable (Spares k s e) :=
  inferInstanceAs (Decidable (_ ∧ _))

/-- The connection has its session, and its client has not sent a whole line. -/
structure Idle (k : Nat) (s : Server) : Prop where
  reachable : Reachable s
  drained : Drained s
  delivered : Delivered k s
  heard : ∃ stream, Heard s k stream ∧ 10 ∉ stream
  stays : .closed k ∉ s.history

private theorem Idle.linesFrom_eq (h : Idle k s) : linesFrom k s.history = [] := by
  obtain ⟨stream, hheard, hplain⟩ := h.heard
  rw [hheard.lines, framedLines_of_not_mem hplain]
  rfl

/-- Nothing waits for the connection. -/
theorem Idle.queue_eq (h : Idle k s) (hlines : linesTo k s.history = []) :
    s.channels.queue k = [] := by
  refine backlog_eq (fun fd c hc hconn => ?_) fun _ => rfl
  subst hconn
  have hs : Consistent s := consistent_of_view h.reachable.consistent
  have hwhole := h.delivered.whole (connected_iff.mpr ⟨fd, c, hc, rfl⟩)
  have hbacklog : s.channels.queue c.conn = c.outbuf := hs.backlog hc
  rw [Channels.content, hbacklog, stream, hlines, List.flatMap_nil, List.append_eq_nil_iff,
    List.flatten_eq_nil_iff] at hwhole
  have hfull := ((attendedAt_some hc).mp (h.reachable.wakeful fd)).full
  exact List.eq_nil_iff_forall_not_mem.mpr fun entry hmem => hfull entry hmem (hwhole.2 entry hmem)

/-- An event that spares an idle connection leaves it idle. -/
theorem Idle.dispatch (h : Idle k s) (hk : k < 2 ^ 64) (hacc : (s.dispatch e).accepted ≤ 2 ^ 64)
    (hspares : Spares k s e) : Idle k (s.dispatch e) := by
  have hs : Consistent s := consistent_of_view h.reachable.consistent
  have hs' : Reachable (s.dispatch e) := h.reachable.reaches (dispatch_reaches s e)
  have hbefore : s.accepted ≤ 2 ^ 64 := (dispatch_reaches s e).accepted_le.trans hacc
  have hnone := h.reachable.unspoken hbefore hk h.linesFrom_eq
  have hheard : ∃ stream, Heard (s.dispatch e) k stream ∧ 10 ∉ stream := by
    obtain ⟨stream, hheard, hplain⟩ := h.heard
    refine ⟨_, hheard.dispatch hs h.drained e, ?_⟩
    rw [List.mem_append, not_or]
    exact ⟨hplain, hspares.1⟩
  have hnone' : linesTo k (s.dispatch e).history = [] := by
    refine hs'.unspoken hacc hk ?_
    obtain ⟨stream, hheard, hplain⟩ := hheard
    rw [hheard.lines, framedLines_of_not_mem hplain]
    rfl
  have hwell : EventSendsWell k s e := by
    refine Channels.unfailing_idle (h.queue_eq hnone) fun line hmem => ?_
    rw [eventOutputs, List.mem_append] at hmem
    rcases hmem with hflush | hmem
    · split at hflush
      · cases hc : s.sessions.lookup e.event.ident <;> simp [hc] at hflush
      · cases hflush
    · obtain ⟨o, ho, houtput⟩ := List.mem_filterMap.mp hmem
      have hline : .enqueued k line ∈ (s.dispatch e).history := by
        cases o with
        | enqueued k' line' =>
          cases houtput
          exact List.mem_of_mem_drop ho
        | _ => cases houtput
      rw [← mem_linesTo, hnone'] at hline
      cases hline
  refine ⟨hs', h.drained.dispatch hs e, h.delivered.dispatch hs hwell, hheard, fun hclosed => ?_⟩
  obtain ⟨c, hc, hconn, hcause⟩ := closed_cause h.reachable h.drained hwell h.stays hclosed
  obtain ⟨herror, hends⟩ := hspares.2 c hc hconn
  rcases hcause with hflagged | ⟨hreads, hquit | hended | heof⟩
  · rw [herror] at hflagged
    cases hflagged
  · -- A QUIT would be a whole line.
    have hbrought : 10 ∉ (streamOf e.recvs).1 := by
      have hplain := hspares.1
      rwa [brought, if_pos ⟨hreads, by rw [input_eq hc, Option.map_some, hconn]⟩] at hplain
    have hinbuf : 10 ∉ c.inbuf.buf_ := h.drained _ _ _ (input_eq hc)
    have hnoLine : 10 ∉ (c.inbuf.feed (streamOf e.recvs).1).buf_ := by
      rw [LineBuffer.feed, List.mem_append, not_or]
      exact ⟨hinbuf, hbrought⟩
    obtain ⟨line, hline, -⟩ := hquit
    rw [LineBuffer.lines_none hnoLine] at hline
    cases hline
  · exact hended (hends hreads).1
  · rw [(hends hreads).2] at heof
    cases heof

/-- In every run of the event loop with at most 2^64 connections: a connection on which no whole
line has come, and for whose descriptor no end of the stream, no failed read, no EV_EOF and no error
event has been reported, not even one left over from a connection before it, still has its session.
No line has been enqueued to it and no byte sent, nothing waits for it, and it is registered for
reading only. -/
theorem run_holds_idle (kq listenFd : Int) (sends : List SendResult) (events : List Event) (k : Nat)
    (hspares : Admissible (Spares k) dispatch (start kq listenFd sends) events)
    (hk : k < (run dispatch (start kq listenFd sends) events).accepted)
    (hacc : (run dispatch (start kq listenFd sends) events).accepted ≤ 2 ^ 64) :
    let s := run dispatch (start kq listenFd sends) events
    linesTo k s.history = [] ∧ s.kernel.wire k = [] ∧
      ∃ fd c, s.sessions.lookup fd = some c ∧ c.conn = k ∧ c.outbuf = [] ∧
        (fd, .read) ∈ s.kernel.registered ∧ (fd, .write) ∉ s.kernel.registered := by
  intro s
  have hlt : k < 2 ^ 64 := hk.trans_le hacc
  have hidle : Idle k s := by
    clear hk
    induction events using List.reverseRecOn with
    | nil =>
      refine ⟨.start kq listenFd sends, run_drained kq listenFd sends [],
        delivered_start kq listenFd sends k, ⟨[], heard_start kq listenFd sends k, ?_⟩, ?_⟩
      · exact List.not_mem_nil
      · exact List.not_mem_nil
    | append_singleton events e ih =>
      obtain ⟨hbefore, he, -⟩ := admissible_append.mp hspares
      have hrun : s = (run dispatch (Server.start kq listenFd sends) events).dispatch e :=
        run_append
      have hacc' : s.accepted ≤ 2 ^ 64 := hacc
      rw [hrun] at hacc' ⊢
      have hle := (dispatch_reaches (run dispatch (Server.start kq listenFd sends) events)
        e).accepted_le
      exact (ih hbefore (hle.trans hacc')).dispatch hlt hacc' he
  have hnone := hidle.reachable.unspoken hacc hlt hidle.linesFrom_eq
  have hwire : s.kernel.wire k = [] := by
    have hsent := hidle.delivered.sent
    rw [stream, hnone] at hsent
    exact List.prefix_nil.mp hsent
  obtain ⟨fd, c, hc, hconn⟩ :=
    connected_iff.mp ((hidle.reachable.recorded.connected k).mpr ⟨hk, hidle.stays⟩)
  have hs : Consistent s := consistent_of_view hidle.reachable.consistent
  have hbacklog : s.channels.queue c.conn = c.outbuf := hs.backlog hc
  rw [hconn, hidle.queue_eq hnone] at hbacklog
  have hattended := (attendedAt_some hc).mp (hidle.reachable.wakeful fd)
  refine ⟨hnone, hwire, fd, c, hc, hconn, hbacklog.symm, hattended.read, fun harmed => ?_⟩
  exact hattended.waiting.mp (hattended.armed.mp harmed) hbacklog.symm

/-- A connection sends half a command and no more, while two others trade. -/
theorem run_holds_idle_half_a_command :
    let events : List Event :=
      [{ event := ⟨4, .read, false, false⟩
         accepts := [.accepted 5, .accepted 6, .accepted 7, .again] },
        { event := ⟨6, .read, false, false⟩
          recvs := [.data ⟨text "SELL JNST 5 10\n", by decide, by decide⟩, .again] },
        { event := ⟨5, .read, false, false⟩
          recvs := [.data ⟨text "BUY JNST", by decide, by decide⟩, .again] },
        { event := ⟨7, .read, false, false⟩
          recvs := [.data ⟨text "BUY JNST 5 10\n", by decide, by decide⟩, .fin] }]
    let s := run dispatch (start 3 4 [.sent 99, .sent 99, .sent 99, .sent 99]) events
    s.kernel.wire 0 = [] ∧ s.kernel.wire 1 = text "ORDER_ACCEPTED 0\nSOLD JNST 5 10\n" ∧
      ∃ fd c, s.sessions.lookup fd = some c ∧ c.conn = 0 := by
  intro events s
  obtain ⟨-, hwire, fd, c, hc, hconn, -⟩ := run_holds_idle 3 4
    [.sent 99, .sent 99, .sent 99, .sent 99] events 0 (by decide) (by decide) (by decide)
  exact ⟨hwire, by decide, fd, c, hc, hconn⟩

end Server

end SocketExchange
