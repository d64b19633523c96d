import SocketExchange.Service.Orders
import SocketExchange.Service.Outcomes

/-!
# Roles

The first command of a kind settles the role of a connection for good. Only a trader
logs in or places orders, only a market-data connection subscribes; so what a session
holds, and what rests in its name, tells its role.
-/

namespace SocketExchange

open Containers ClientSession Runs OrderBook

/-- A username belongs to a trader, a subscription to a market-data connection. -/
structure ClientSession.Exclusive (c : ClientSession) : Prop where
  username : c.username ≠ [] → c.role = .trader
  subscriptions : c.subscriptions ≠ ∅ → c.role = .marketData

namespace Server

variable {s s' : Server} {a : Action}

/-! ## Properties of single sessions -/

/-- Every session has the property. -/
def Everywhere (P : ClientSession → Prop) (s : Server) : Prop :=
  ∀ fd c, s.sessions.lookup fd = some c → P c

/-- A new session has the property, and no change that a move makes to a session destroys it. -/
structure SessionStable (P : ClientSession → Prop) : Prop where
  fresh : ∀ fd seq conn, P { fd := fd, sessionSeq := seq, conn := conn }
  inbuf : ∀ c inbuf, P c → P (setInbuf inbuf c)
  role : ∀ c cmd, P c → P (inferRole cmd c)
  username : ∀ c name, c.role = .trader → P c → P (setUsername name c)
  subscribe : ∀ c i, c.role = .marketData → P c → P (ClientSession.subscribe i c)
  unsubscribe : ∀ c i, c.role = .marketData → P c → P (ClientSession.unsubscribe i c)

section Stable

variable {P : ClientSession → Prop}

/-- A change that keeps the property keeps it everywhere. -/
theorem Everywhere.update (h : Everywhere P s) {fd : Int} {f : ClientSession → ClientSession}
    (hf : ∀ c, s.sessions.lookup fd = some c → P c → P (f c)) : Everywhere P (s.update fd f) := by
  intro fd' c' hc'
  rw [Server.update, UnorderedMap.lookup_modify, Option.map_eq_some_iff] at hc'
  obtain ⟨c, hc, rfl⟩ := hc'
  split
  · rename_i hfd
    exact hf c (hfd ▸ hc) (h fd' c hc)
  · exact h fd' c hc

/-- Forgetting a session keeps the property everywhere. -/
theorem Everywhere.forget (h : Everywhere P s) (fd : Int) : Everywhere P (s.forget fd) :=
  fun fd' c hc => h fd' c (lookup_of_forget hc)

private theorem Everywhere.handled (hP : SessionStable P) (h : Everywhere P s) {fd : Int}
    {c : ClientSession} {line : Bytes} {r : Server × Bool} (hc : s.sessions.lookup fd = some c)
    (hr : Handled s fd c line r) : Everywhere P r.1 := by
  have hsame : ∀ c', s.sessions.lookup fd = some c' → c' = c := fun c' hc' =>
    Option.some.inj (hc'.symm.trans hc)
  cases hr with
  | rejected => exact h
  | @loggedIn name hline hrole =>
    exact h.update fun c' hc' => hP.username c' name (hsame c' hc' ▸ hrole)
  | placed => exact h
  | cancelled => exact h
  | @subscribed i hline hrole =>
    exact h.update fun c' hc' => hP.subscribe c' i (hsame c' hc' ▸ hrole)
  | @unsubscribed i hline hrole =>
    exact h.update fun c' hc' => hP.unsubscribe c' i (hsame c' hc' ▸ hrole)
  | quit => exact h.forget c.fd

/-- Every move keeps a stable property everywhere. -/
theorem Everywhere.moves (hP : SessionStable P) (h : Everywhere P s) (hm : Moves s a s') :
    Everywhere P s' := by
  cases hm with
  | idle => exact h
  | @admitted cfd hfree =>
    intro fd c hc
    rcases lookup_join hc with ⟨-, rfl⟩ | ⟨-, hc⟩
    · exact hP.fresh _ _ _
    · exact h fd c hc
  | fed hf =>
    refine h.update fun c _ hPc => ?_
    obtain ⟨inbuf, he⟩ := hf c
    rw [he]
    exact hP.inbuf c inbuf hPc
  | @handled fd c inbuf line r hc hr =>
    have hset : Everywhere P (s.update fd (setInbuf inbuf)) :=
      h.update fun c _ => hP.inbuf c inbuf
    have hnoted : Everywhere P ((s.update fd (setInbuf inbuf)).noted fd c line) := by
      refine Everywhere.update (s := (s.update fd (setInbuf inbuf)).log _) hset ?_
      exact fun c _ => hP.role c _
    exact hnoted.handled hP (lookup_noted hc line) hr
  | closed => exact Everywhere.forget (s := s.log _) h _
  | rehashed =>
    intro fd c hc
    rw [Server.rehash, UnorderedMap.lookup_reorder] at hc
    exact h fd c hc

/-- A property of single sessions that every change keeps holds in every reachable state. -/
theorem SessionStable.reachable (hP : SessionStable P) (h : Reachable s) :
    Everywhere P s.view := by
  refine h.view_invariant (fun kq listenFd sends fd c hc => ?_) fun _ _ _ hs hm => hs.moves hP hm
  rw [lookup_view] at hc
  cases hc

end Stable

/-! ## What a session holds -/

/-- No change of a session parts a username or a subscription from its role. -/
theorem exclusive_stable : SessionStable Exclusive where
  fresh fd seq conn := ⟨fun h => absurd rfl h, fun h => absurd rfl h⟩
  inbuf c inbuf h := ⟨h.username, h.subscriptions⟩
  role c cmd h := by
    have hcontinues := (continues_inferRole cmd c).role
    refine ⟨fun hne => ?_, fun hne => ?_⟩
    · rw [inferRole_username] at hne
      have hrole := h.username hne
      rcases hcontinues with hunknown | hsame
      · rw [hunknown] at hrole
        cases hrole
      · rw [hsame, hrole]
    · rw [inferRole_subscriptions] at hne
      have hrole := h.subscriptions hne
      rcases hcontinues with hunknown | hsame
      · rw [hunknown] at hrole
        cases hrole
      · rw [hsame, hrole]
  username c name hrole h := ⟨fun _ => hrole, h.subscriptions⟩
  subscribe c i hrole h := ⟨h.username, fun _ => hrole⟩
  unsubscribe c i hrole h := ⟨h.username, fun _ => hrole⟩

/-- A connection that has placed an order is a trader while it is open. -/
def TradersPlace (s : Server) : Prop :=
  ∀ k o, (k, o) ∈ placedOrders s.history → ∀ fd c, s.sessions.lookup fd = some c → c.conn = k →
    c.role = .trader

/-- An order accepted in handling a line is the session's, and the session is a trader. -/
private theorem Handled.placer {fd : Int} {c : ClientSession} {line : Bytes} {r : Server × Bool}
    (h : Handled s fd c line r) {k : Nat} {o : Order} (ho : (k, o) ∈ placedOrders r.1.history) :
    (k, o) ∈ placedOrders s.history ∨
      (k = c.conn ∧ c.role = .trader ∧ r.1.sessions = s.sessions) := by
  have hkept : ∀ obs, placedOrders obs = [] → (k, o) ∈ placedOrders (s.history ++ obs) →
      (k, o) ∈ placedOrders s.history := by
    intro obs hnone hmem
    rwa [placedOrders_append, hnone, List.append_nil] at hmem
  cases h with
  | placed hline hrole =>
    have hmem : (k, o) ∈ placedOrders (s.history ++ s.orderVoice c.conn _) := ho
    rw [placedOrders_append, placedOrders_orderVoice, List.mem_append, List.mem_singleton] at hmem
    exact hmem.imp_right fun he => ⟨congrArg Prod.fst he, hrole, rfl⟩
  | rejected => exact Or.inl (hkept _ rfl ho)
  | loggedIn => exact Or.inl (hkept _ rfl ho)
  | cancelled => exact Or.inl (hkept _ rfl ho)
  | subscribed => exact Or.inl (hkept _ rfl ho)
  | unsubscribed => exact Or.inl (hkept _ rfl ho)
  | quit =>
    obtain ⟨obs, hhistory, -, hquiet⟩ := quiet_forget s c.fd
    rw [hhistory] at ho
    exact Or.inl (hkept _ (placedOrders_quiet hquiet) ho)

/-- An order accepted in a move was placed by a session that the move leaves a trader. -/
private theorem Moves.placer (hm : Moves s a s') (hc : Consistent s) {k : Nat} {o : Order}
    (ho : (k, o) ∈ placedOrders s'.history) :
    (k, o) ∈ placedOrders s.history ∨
      ∀ fd c, s'.sessions.lookup fd = some c → c.conn = k → c.role = .trader := by
  cases hm with
  | idle => exact Or.inl ho
  | @admitted cfd =>
    have hnone : placedOrders [.accepted s.accepted cfd] = [] := rfl
    have hmem : (k, o) ∈ placedOrders (s.history ++ [.accepted s.accepted cfd]) := ho
    rw [placedOrders_append, hnone, List.append_nil] at hmem
    exact Or.inl hmem
  | fed => exact Or.inl ho
  | @handled fd c inbuf line r hlookup hr =>
    have hset : Consistent (s.update fd (setInbuf inbuf)) :=
      hc.keeps (keeps_update s fd _ fun _ => ⟨rfl, Or.inr rfl⟩)
    have hnoted := hset.keeps (keeps_noted _ fd c line)
    have hsession : ((s.update fd (setInbuf inbuf)).noted fd c line).sessions.lookup fd =
        some (inferRole (commandWord line) c) := lookup_noted hlookup line
    rcases hr.placer ho with ho | ⟨rfl, hrole, hsessions⟩
    · have hmem : (k, o) ∈ placedOrders (s.history ++ [.received c.conn line]) := ho
      rw [placedOrders_append, List.mem_append] at hmem
      exact Or.inl (hmem.resolve_right List.not_mem_nil)
    · refine Or.inr fun fd' c' hc' hconn => ?_
      rw [hsessions] at hc'
      obtain rfl := hnoted.distinct fd' fd c' _ hc' hsession hconn
      rwa [← Option.some.inj (hsession.symm.trans hc')]
  | @closed fd c obs hlookup hobs =>
    obtain ⟨obs', hhistory, -, hquiet⟩ := quiet_forget (s.log obs) fd
    have hnone : placedOrders obs = [] := by
      rcases hobs with ⟨-, rfl⟩ | ⟨-, rfl⟩ | ⟨-, rfl⟩ <;> rfl
    have hlog : (s.log obs).history = s.history ++ obs := rfl
    rw [hhistory, placedOrders_append, placedOrders_quiet hquiet, List.append_nil, hlog,
      placedOrders_append, hnone, List.append_nil] at ho
    exact Or.inl ho
  | rehashed => exact Or.inl ho

/-- After a move the connections that have placed orders are still traders. -/
theorem TradersPlace.moves (h : TradersPlace s) (hc : Consistent s) (ht : Tracked s)
    (hm : Moves s a s') : TradersPlace s' := by
  intro k o ho fd c' hc' hconn
  rcases hm.placer hc ho with hold | htrader
  · obtain ⟨hk, -⟩ := ht.owner k o hold
    obtain ⟨c, hlookup, hcontinues⟩ := hm.continues hc' (hconn ▸ hk)
    have hrole := h k o hold fd c hlookup (hcontinues.conn.symm.trans hconn)
    rcases hcontinues.role with hunknown | hsame
    · rw [hunknown] at hrole
      cases hrole
    · rw [hsame, hrole]
  · exact htrader fd c' hc' hconn

private theorem Reachable.tradersPlace (h : Reachable s) : TradersPlace s.view := by
  refine h.view_invariant (fun kq listenFd sends k o ho => by cases ho) ?_
  exact fun s a hs hplace hm => hplace.moves hs.consistent hs.tracked hm

/-- As long as the sequence numbers have not wrapped, the owner of a resting order is a
trader while it is connected. -/
theorem Reachable.owner_is_trader (hs : Reachable s) (hacc : s.accepted ≤ 2 ^ 64) {fd : Int}
    {c : ClientSession} (hc : s.sessions.lookup fd = some c) {x : Order} (hx : s.book.Rests x)
    (howner : x.ownerSeq = c.sessionSeq) : c.role = .trader := by
  have hview : s.view.sessions.lookup fd = some c.profile := lookup_view_of hc
  obtain ⟨k, o, ho, he, -⟩ := hs.tracked.origin x hx
  obtain ⟨hk, hseq, -⟩ := hs.tracked.owner k o ho
  have hnumber : c.conn < s.accepted := hs.consistent.numbered fd c.profile hview
  have hsession : c.sessionSeq = seqOf c.conn := hs.consistent.sequenced fd c.profile hview
  have hlt : k < s.accepted := hk
  have hconn : c.conn = k := by
    refine seqOf_inj (by omega) (by omega) ?_
    rw [← hsession, ← howner, he, Order.withQty_ownerSeq, hseq]
  exact hs.tradersPlace k o ho fd c.profile hview hconn

/-! ## What a line may change -/

section Lines

variable {fd : Int} {c : ClientSession}

private theorem inferRole_of_settled {cmd : Bytes} (h : c.role ≠ .unknown) :
    inferRole cmd c = c := by
  rw [inferRole, if_neg h]

private theorem Handled.readOnly {line : Bytes} {r : Server × Bool} (h : Handled s fd c line r)
    (hrole : c.role = .marketData) : r.1.book = s.book := by
  have htrader : c.role ≠ .trader := by
    rw [hrole]
    decide
  cases h with
  | rejected => rfl
  | loggedIn _ htrader' => exact absurd htrader' htrader
  | placed _ htrader' => exact absurd htrader' htrader
  | cancelled _ htrader' => exact absurd htrader' htrader
  | subscribed => rfl
  | unsubscribed => rfl
  | quit =>
    obtain ⟨-, -, hbook, -⟩ := quiet_forget s c.fd
    exact hbook

/-- A line of a market-data connection leaves the book and the next id alone. -/
theorem handleLine_readOnly (hc : s.sessions.lookup fd = some c) (hrole : c.role = .marketData)
    (line : Bytes) : (s.handleLine fd line).1.book = s.book := by
  have hprofile : c.profile.role = .marketData := hrole
  have hhandled := handleLine_handled hc line
  rw [inferRole_of_settled (by rw [hprofile]; decide)] at hhandled
  exact hhandled.readOnly hprofile

/-- The subscriptions of every session that is left are those it had. -/
def SubscriptionsKept (s s' : Server) : Prop :=
  ∀ fd c', s'.sessions.lookup fd = some c' →
    ∃ c, s.sessions.lookup fd = some c ∧ c'.subscriptions = c.subscriptions

/-- A change that keeps the subscriptions of a session keeps them all. -/
theorem SubscriptionsKept.update {fd : Int} {f : ClientSession → ClientSession}
    (h : SubscriptionsKept s s') (hf : ∀ c, (f c).subscriptions = c.subscriptions) :
    SubscriptionsKept s (s'.update fd f) := by
  intro fd' c' hc'
  rw [Server.update, UnorderedMap.lookup_modify, Option.map_eq_some_iff] at hc'
  obtain ⟨c₁, hc₁, rfl⟩ := hc'
  obtain ⟨c, hc, hsubs⟩ := h fd' c₁ hc₁
  refine ⟨c, hc, ?_⟩
  split
  · rw [hf, hsubs]
  · exact hsubs

private theorem Handled.keeps_subscriptions {line : Bytes} {r : Server × Bool}
    (h : Handled s fd c line r) (hrole : c.role = .trader) : SubscriptionsKept s r.1 := by
  have hmarket : c.role ≠ .marketData := by
    rw [hrole]
    decide
  have hsame : SubscriptionsKept s s := fun _ c hc => ⟨c, hc, rfl⟩
  cases h with
  | rejected => exact hsame
  | loggedIn => exact hsame.update fun _ => rfl
  | placed => exact hsame
  | cancelled => exact hsame
  | subscribed _ hmarket' => exact absurd hmarket' hmarket
  | unsubscribed _ hmarket' => exact absurd hmarket' hmarket
  | quit => exact fun fd' c' hc' => hsame fd' c' (lookup_of_forget hc')

/-- A line of a trader changes nobody's subscriptions. -/
theorem handleLine_keeps_subscriptions (hc : s.sessions.lookup fd = some c)
    (hrole : c.role = .trader) (line : Bytes) :
    SubscriptionsKept s (s.handleLine fd line).1 := by
  have hprofile : c.profile.role = .trader := hrole
  have hhandled := handleLine_handled hc line
  rw [inferRole_of_settled (by rw [hprofile]; decide)] at hhandled
  have hnoted : SubscriptionsKept s.view (s.view.noted fd c.profile line) := by
    have hlogged : SubscriptionsKept s.view (s.view.log [.received c.conn line]) :=
      fun _ c hc => ⟨c, hc, rfl⟩
    exact hlogged.update (inferRole_subscriptions _)
  intro fd' c' hc'
  have hview : (s.handleLine fd line).1.view.sessions.lookup fd' = some c'.profile :=
    lookup_view_of hc'
  obtain ⟨c₁, hc₁, hsubs⟩ := hhandled.keeps_subscriptions hprofile fd' c'.profile hview
  obtain ⟨c₂, hc₂, hsubs'⟩ := hnoted fd' c₁ hc₁
  rw [lookup_view, Option.map_eq_some_iff] at hc₂
  obtain ⟨c₀, hc₀, rfl⟩ := hc₂
  exact ⟨c₀, hc₀, hsubs.trans hsubs'⟩

end Lines

/-! ## The main result -/

/-- A connection that has just been accepted has done nothing yet, whichever descriptor it got. -/
theorem openSession_fresh {cfd : Int} (hfree : s.Free cfd) :
    (s.openSession cfd).sessions.lookup cfd =
      some { fd := cfd, sessionSeq := s.nextSessionSeq, conn := s.accepted } := by
  obtain ⟨-, -, hnone⟩ := hfree
  simp only [openSession, kqAdd, hnone, Option.getD_none, AList.lookup_insert]

/-- A connection that has just been accepted owns no order. -/
theorem openSession_owns_nothing (hs : Reachable s) {cfd : Int} (hacc : s.accepted < 2 ^ 64)
    {x : Order} (hx : (s.openSession cfd).book.Rests x) : x.ownerSeq ≠ s.nextSessionSeq := by
  intro howner
  obtain ⟨k, o, ho, he, -⟩ := hs.tracked.origin x hx
  obtain ⟨hk, hseq, -⟩ := hs.tracked.owner k o ho
  have hnext : s.nextSessionSeq = seqOf s.accepted := hs.consistent.nextSeq
  have hlt : k < s.accepted := hk
  have hconn : k = s.accepted := by
    refine seqOf_inj (by omega) hacc ?_
    rw [← hnext, ← howner, he, Order.withQty_ownerSeq, hseq]
  omega

/-- In every run a username or, while the sequence numbers have not wrapped, a resting order
belongs to a trader without subscriptions, and a subscription to a market-data connection without
a username; a settled role stays; what a line may change depends on it; and a new connection has
nothing. -/
theorem run_roles_exclusive (kq listenFd : Int) (sends : List SendResult)
    (actions : List Action) :
    let s := run act (start kq listenFd sends) actions
    (∀ fd c, s.sessions.lookup fd = some c →
      (c.username ≠ [] → c.role = .trader ∧ c.subscriptions = ∅) ∧
      (c.subscriptions ≠ ∅ → c.role = .marketData ∧ c.username = []) ∧
      (s.accepted ≤ 2 ^ 64 → ∀ x, s.book.Rests x → x.OwnedBy fd c.sessionSeq →
        c.role = .trader ∧ c.subscriptions = ∅) ∧
      (c.role ≠ .unknown → ∀ more fd' c', (run act s more).sessions.lookup fd' = some c' →
        c'.conn = c.conn → c'.role = c.role) ∧
      (∀ line, c.role = .marketData → (s.handleLine fd line).1.book = s.book) ∧
      ∀ line, c.role = .trader → SubscriptionsKept s (s.handleLine fd line).1) ∧
    ∀ cfd, s.Free cfd → ∃ c, (s.openSession cfd).sessions.lookup cfd = some c ∧
      c.role = .unknown ∧ c.username = [] ∧ c.subscriptions = ∅ ∧ c.inbuf = {} ∧ c.outbuf = [] ∧
      ((s.openSession cfd).accepted ≤ 2 ^ 64 →
        ∀ x, (s.openSession cfd).book.Rests x → ¬ x.OwnedBy cfd c.sessionSeq) := by
  intro s
  have hs : Reachable s := ⟨kq, listenFd, sends, actions, rfl⟩
  refine ⟨fun fd c hc => ?_, fun cfd hfree => ?_⟩
  · have hview : s.view.sessions.lookup fd = some c.profile := lookup_view_of hc
    have hexclusive : c.profile.Exclusive := exclusive_stable.reachable hs fd c.profile hview
    have hnosubs : c.role = .trader → c.subscriptions = ∅ := by
      intro hrole
      by_contra hne
      exact absurd ((hexclusive.subscriptions hne).symm.trans hrole) (by decide)
    have hnoname : c.role = .marketData → c.username = [] := by
      intro hrole
      by_contra hne
      exact absurd ((hexclusive.username hne).symm.trans hrole) (by decide)
    refine ⟨fun hne => ?_, fun hne => ?_, fun hacc x hx howner => ?_, ?_, ?_, ?_⟩
    · have hrole := hexclusive.username hne
      exact ⟨hrole, hnosubs hrole⟩
    · have hrole := hexclusive.subscriptions hne
      exact ⟨hrole, hnoname hrole⟩
    · have hrole := hs.owner_is_trader hacc hc hx howner.2
      exact ⟨hrole, hnosubs hrole⟩
    · intro hsettled more fd' c' hc' hconn
      have hview' : (run act s more).view.sessions.lookup fd' = some c'.profile :=
        lookup_view_of hc'
      have hnumber := hs.consistent.numbered fd c.profile hview
      have hold : c'.profile.conn < s.accepted := hconn.trans_lt hnumber
      obtain ⟨c₀, hc₀, hcontinues⟩ := run_continues more hview' hold
      have hsame := hs.consistent.distinct fd' fd c₀ c.profile hc₀ hview
        (hcontinues.conn.symm.trans hconn)
      rw [hsame, hview] at hc₀
      obtain rfl := Option.some.inj hc₀
      exact hcontinues.role.resolve_left hsettled
    · exact fun line hrole => handleLine_readOnly hc hrole line
    · exact fun line hrole => handleLine_keeps_subscriptions hc hrole line
  · refine ⟨_, openSession_fresh hfree, rfl, rfl, rfl, rfl, rfl, fun hacc x hx howner => ?_⟩
    have hbound : s.accepted + 1 ≤ 2 ^ 64 := hacc
    exact openSession_owns_nothing hs (by omega) hx howner.2

/-! ## When the sequence numbers wrap -/

/-- The same descriptor is handed out and closed again, a number of times. -/
def recycle (cfd : Int) (n : Nat) : List Action :=
  (List.replicate n [.accept cfd, .drop cfd]).flatten

private theorem act_recycle {cfd : Int} (hfree : s.Free cfd) :
    let s' := (s.act (.accept cfd)).act (.drop cfd)
    (∀ fd, s.Free fd → s'.Free fd) ∧ s'.book = s.book ∧ s'.accepted = s.accepted + 1 := by
  have hopen : s.act (.accept cfd) = s.openSession cfd := if_pos hfree
  have hclose : (s.openSession cfd).closeSession cfd =
      ((((s.openSession cfd).kqDel cfd .read).close cfd).eraseSession cfd).log
        [.closed s.accepted] := by
    simp only [closeSession, openSession_fresh hfree]
    rfl
  rw [hopen, act, hclose]
  refine ⟨fun fd hfd => ?_, rfl, rfl⟩
  obtain ⟨hkq, hlisten, hnone⟩ := hfd
  refine ⟨hkq, hlisten, ?_⟩
  rw [lookup_log, eraseSession]
  by_cases he : fd = cfd
  · rw [he, AList.lookup_erase]
  · have hother : (s.openSession cfd).sessions.lookup fd = s.sessions.lookup fd :=
      AList.lookup_insert_ne he
    exact (AList.lookup_erase_ne he).trans (hother.trans hnone)

/-- Recycling takes no descriptor for good. -/
theorem run_recycle {cfd : Int} (hfree : s.Free cfd) (n : Nat) :
    let s' := run act s (recycle cfd n)
    (∀ fd, s.Free fd → s'.Free fd) ∧ s'.book = s.book ∧ s'.accepted = s.accepted + n := by
  induction n generalizing s with
  | zero => exact ⟨fun _ hfd => hfd, rfl, rfl⟩
  | succ n ih =>
    obtain ⟨hkept, hbook, hacc⟩ := act_recycle hfree
    obtain ⟨hkept', hbook', hacc'⟩ := ih (hkept cfd hfree)
    refine ⟨fun fd hfd => hkept' fd (hkept fd hfd), hbook'.trans hbook, hacc'.trans ?_⟩
    rw [hacc, add_assoc, add_comm 1 n]

/-- The connection 2^64 after the first has its sequence number again. -/
theorem seqOf_wrapped : seqOf (1 + (2 ^ 64 - 1)) = 1 := by
  refine UInt64.toNat.inj ?_
  rw [seqOf, UInt64.toNat_ofNat']
  norm_num
  rfl

/-- A connection places an order and leaves, and its descriptor is recycled as often as it takes
for the next sequence number to be its own. -/
private theorem run_roles_recycled {n : Nat} (hwrap : seqOf (1 + n) = 1) :
    let s := run act (start 3 4 []) ([.accept 5,
      .feed 5 ⟨text "BUY JNST 15 50\n", by decide, by decide⟩, .line 5, .drop 5] ++
      recycle 5 n ++ [.accept 5])
    ∃ c x, s.sessions.lookup 5 = some c ∧ s.book.Rests x ∧ x.OwnedBy 5 c.sessionSeq ∧
      c.role ≠ .trader := by
  rw [run_append, run_append]
  generalize hplaced : run act (start 3 4 []) [.accept 5,
    .feed 5 ⟨text "BUY JNST 15 50\n", by decide, by decide⟩, .line 5, .drop 5] = s₁
  have hfree : s₁.Free 5 := by
    rw [← hplaced]
    decide
  have haccepted : s₁.accepted = 1 := by
    rw [← hplaced]
    decide
  have hrests : s₁.book.Rests ⟨0, .buy, text "JNST", 15, 50, 5, 1⟩ := by
    refine ⟨⟨text "JNST", .buy, 50⟩, ?_⟩
    rw [← hplaced]
    decide
  have hreach : Reachable s₁ := ⟨3, 4, [], _, hplaced⟩
  have hreach' := hreach.reaches ⟨recycle 5 n, rfl⟩
  obtain ⟨hkept, hbook, hacc⟩ := run_recycle hfree n
  have hfree' := hkept 5 hfree
  generalize run act s₁ (recycle 5 n) = s₂ at hreach' hfree' hbook hacc ⊢
  have hopen : run act s₂ [.accept 5] = s₂.openSession 5 := if_pos hfree'
  have hnext : s₂.nextSessionSeq = seqOf s₂.accepted := hreach'.consistent.nextSeq
  have hseq : s₂.nextSessionSeq = 1 := by
    rw [hnext, hacc, haccepted, hwrap]
  have hsame : (s₂.openSession 5).book = s₁.book := hbook
  have hrole : Role.unknown ≠ .trader := by decide
  rw [hopen]
  exact ⟨_, _, openSession_fresh hfree', hsame ▸ hrests, ⟨rfl, hseq.symm⟩, hrole⟩

/-- After 2^64 acceptances a new connection has the descriptor and the sequence number of the
first, and so owns its order without being a trader. -/
theorem run_roles_wrapped :
    let s := run act (start 3 4 []) ([.accept 5,
      .feed 5 ⟨text "BUY JNST 15 50\n", by decide, by decide⟩, .line 5, .drop 5] ++
      recycle 5 (2 ^ 64 - 1) ++ [.accept 5])
    ∃ c x, s.sessions.lookup 5 = some c ∧ s.book.Rests x ∧ x.OwnedBy 5 c.sessionSeq ∧
      c.role ≠ .trader :=
  run_roles_recycled seqOf_wrapped

end Server

end SocketExchange
