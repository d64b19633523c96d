import SocketExchange.Service.Lines
import SocketExchange.Service.Subscriptions

/-!
# Market data

Every fill is one TRADE line to each connection that follows its instrument when the
book produces it, and there are no other TRADE lines. Which connections follow an
instrument is told by their own commands alone.
-/

namespace SocketExchange

open Containers ClientSession Runs OrderBook

/-- The public line of a fill. -/
def tradeLine (f : Fill) : Bytes := msgTrade f.instrument f.qty f.price

/-- The TRADE lines enqueued to a connection. -/
def tradeLines (k : Nat) : List Obs → List Bytes :=
  linesWhere fun k' line => k' = k && firstWord line = text "TRADE"

namespace Server

/-- The connection is open, has the role MARKET_DATA and is subscribed to the instrument. -/
def follows (s : Server) (k : Nat) (instrument : Bytes) : Bool :=
  s.sessions.entries.any fun e => e.2.conn = k && e.2.Follows instrument

/-- The fills the book produces for the orders that an action places. -/
def bookFills (s : Server) (a : Action) : List Fill :=
  (placedOrders (s.since (s.act a))).flatMap fun p => (s.book.nextId.2.submit p.2).1

/-- Those of them that are in an instrument the connection follows. -/
def followed (k : Nat) (s : Server) (a : Action) : List Fill :=
  (s.bookFills a).filter fun f => s.follows k f.instrument

end Server

/-! ## Trade lines -/

@[simp] theorem tradeLines_append (k : Nat) (h h' : List Obs) :
    tradeLines k (h ++ h') = tradeLines k h ++ tradeLines k h' := linesWhere_append ..

private theorem firstWord_of_trade {k k' : Nat} {line : Bytes}
    (h : (k' = k && firstWord line = text "TRADE") = true) : firstWord line = text "TRADE" :=
  of_decide_eq_true (Bool.and_eq_true_iff.mp h).2

private theorem tradeLines_quiet {k : Nat} {obs : List Obs} (h : ∀ o ∈ obs, o.Quiet) :
    tradeLines k obs = [] := by
  refine linesWhere_quiet (fun k' line htrade => ?_) h
  rw [firstWord_of_trade htrade]
  decide

private theorem tradeLines_enqueued (k k' : Nat) (line : Bytes) :
    tradeLines k [.enqueued k' line] =
      if k' = k ∧ firstWord line = text "TRADE" then [line] else [] := by
  rw [tradeLines, linesWhere_enqueued]
  simp only [Bool.and_eq_true, decide_eq_true_eq]

private theorem tradeLines_map_enqueued (k : Nat) (f : Fill) {ks : List Nat} (hks : ks.Nodup) :
    tradeLines k (ks.map fun k' => .enqueued k' (tradeLine f)) =
      if k ∈ ks then [tradeLine f] else [] := by
  refine linesWhere_map_enqueued (fun k' => ?_) hks
  have hword : firstWord (tradeLine f) = text "TRADE" := firstWord_msgTrade ..
  rw [hword, decide_eq_true rfl, Bool.and_true]

namespace Server

variable {s s' : Server} {a : Action}

/-! ## Who follows an instrument -/

/-- A connection follows an instrument when its session is subscribed to it. -/
theorem follows_iff {k : Nat} {i : Bytes} :
    s.follows k i = true ↔ ∃ fd c, s.sessions.lookup fd = some c ∧ c.conn = k ∧ c.Follows i := by
  simp only [follows, List.any_eq_true, Bool.and_eq_true, decide_eq_true_eq]
  constructor
  · rintro ⟨⟨fd, c⟩, hmem, hc⟩
    exact ⟨fd, c, UnorderedMap.mem_entries_iff.mp hmem, hc⟩
  · rintro ⟨fd, c, hc, hrest⟩
    exact ⟨⟨fd, c⟩, UnorderedMap.mem_entries_iff.mpr hc, hrest⟩

@[simp] theorem follows_view (k : Nat) (i : Bytes) : s.view.follows k i = s.follows k i := by
  rw [Bool.eq_iff_iff, follows_iff, follows_iff]
  constructor
  · rintro ⟨fd, c, hc, hrest⟩
    rw [lookup_view, Option.map_eq_some_iff] at hc
    obtain ⟨c₀, hc₀, rfl⟩ := hc
    exact ⟨fd, c₀, hc₀, hrest⟩
  · rintro ⟨fd, c, hc, hrest⟩
    exact ⟨fd, c.profile, lookup_view_of hc, hrest⟩

private theorem follower_eq_some {i : Bytes} {fd : Int} {k : Nat} :
    s.follower i fd = some k ↔ ∃ c, s.sessions.lookup fd = some c ∧ c.conn = k ∧ c.Follows i := by
  unfold follower
  cases s.sessions.lookup fd with
  | none => simp only [reduceCtorEq, false_and, exists_false]
  | some c =>
    simp only [Option.some.injEq, exists_eq_left']
    split
    · rename_i hfollows
      simp only [Option.some.injEq, hfollows, and_true]
    · rename_i hfollows
      simp only [reduceCtorEq, hfollows, and_false]

/-- The followers of an instrument are the connections that follow it. -/
theorem mem_followers {k : Nat} {i : Bytes} : k ∈ s.followers i ↔ s.follows k i = true := by
  rw [followers, List.mem_filterMap, follows_iff]
  constructor
  · rintro ⟨fd, -, hfd⟩
    exact ⟨fd, follower_eq_some.mp hfd⟩
  · rintro ⟨fd, c, hc, hrest⟩
    exact ⟨fd, UnorderedMap.mem_keys_iff.mpr ⟨c, hc⟩, follower_eq_some.mpr ⟨c, hc, hrest⟩⟩

/-- No connection is told of a fill twice. -/
theorem nodup_followers (h : Consistent s) (i : Bytes) : (s.followers i).Nodup := by
  refine List.Nodup.filterMap ?_ s.sessions.keys_nodup
  intro fd fd' k hfd hfd'
  obtain ⟨c, hc, hconn, -⟩ := follower_eq_some.mp hfd
  obtain ⟨c', hc', hconn', -⟩ := follower_eq_some.mp hfd'
  exact h.distinct fd fd' c c' hc hc' (hconn.trans hconn'.symm)

/-! ## The trade lines of one action -/

private theorem tradeLines_ownerVoice (k : Nat) (party : Int × UInt64) (f : Fill) (side : Side) :
    tradeLines k (s.ownerVoice party (reportLine f side)) = [] := by
  refine linesWhere_ownerVoice (fun k' line htrade => ?_) party f side
  rw [firstWord_of_trade htrade]
  decide

/-- The entries of a fill hold one TRADE line for each follower. -/
theorem tradeLines_fillVoice (h : Consistent s) (k : Nat) (f : Fill) :
    tradeLines k (s.fillVoice f) = if s.follows k f.instrument then [tradeLine f] else [] := by
  have htrade := tradeLines_map_enqueued k f (nodup_followers h f.instrument)
  have hfilled : tradeLines k [.filled f] = [] := rfl
  rw [fillVoice, ← List.singleton_append]
  simp only [tradeLines_append, tradeLines_ownerVoice, hfilled, List.nil_append]
  simp only [mem_followers] at htrade
  exact htrade

private theorem tradeLines_fillVoices (h : Consistent s) (k : Nat) (fills : List Fill) :
    tradeLines k (fills.flatMap s.fillVoice) =
      (fills.filter fun f => s.follows k f.instrument).map tradeLine := by
  induction fills with
  | nil => rfl
  | cons f fills ih =>
    rw [List.flatMap_cons, tradeLines_append, tradeLines_fillVoice h, ih, List.filter_cons]
    split <;> rfl

/-- The TRADE lines of an action are those of the fills that the connection follows. -/
theorem tradeLines_act (hc : Consistent s.view) (k : Nat) (a : Action) :
    tradeLines k (s.act a).history =
      tradeLines k s.history ++ (followed k s a).map tradeLine := by
  obtain ⟨obs, hhistory, heffect⟩ := act_effect s a
  rw [hhistory, tradeLines_append, followed, bookFills, since_of_append hhistory]
  congr 1
  generalize (s.act a).book = book at heffect
  cases heffect with
  | quiet hobs =>
    rw [tradeLines_quiet hobs, placedOrders_quiet hobs]
    rfl
  | rehashed => rfl
  | @cancelled fd c line oid =>
    have hreply : tradeLines k [.enqueued c.conn (msgOrderCancelled oid)] = [] := by
      rw [tradeLines_enqueued, if_neg fun h => absurd h.2 (by
        rw [firstWord_msgOrderCancelled]
        decide)]
    exact hreply
  | @placed fd c line o =>
    have hhead : tradeLines k [.placed c.conn o, .enqueued c.conn (msgOrderAccepted o.id)] =
        [] := by
      rw [← List.singleton_append, tradeLines_append, tradeLines_enqueued,
        if_neg fun h => absurd h.2 (by
          rw [firstWord_msgOrderAccepted]
          decide)]
      rfl
    have hlines : tradeLines k (.received c.conn line :: s.view.orderVoice c.conn o) =
        (((s.drawn.submit o).1).filter fun f => s.follows k f.instrument).map tradeLine := by
      have hfills := tradeLines_fillVoices hc k (s.drawn.submit o).1
      simp only [follows_view] at hfills
      rw [← hfills, ← List.singleton_append, tradeLines_append, orderVoice, tradeLines_append,
        hhead]
      rfl
    rw [hlines, placedOrders_placed, List.flatMap_singleton]
    rfl

/-! ## Whole runs -/

/-- A connection that is no market-data client has been sent no TRADE line. -/
structure Silent (s : Server) : Prop where
  role : ∀ fd c, s.sessions.lookup fd = some c → c.role ≠ .marketData →
    tradeLines c.conn s.history = []
  future : ∀ k, s.accepted ≤ k → tradeLines k s.history = []

/-- A session that is no market-data client after a move is new or was none before. -/
theorem Moves.not_marketData (hm : Moves s a s') {fd : Int} {c' : ClientSession}
    (hc' : s'.sessions.lookup fd = some c') (hrole : c'.role ≠ .marketData) :
    c'.conn = s.accepted ∨
      ∃ c, s.sessions.lookup fd = some c ∧ c.conn = c'.conn ∧ c.role ≠ .marketData := by
  rcases hm.keeps with ⟨cfd, -, rfl⟩ | hkeeps
  · rcases lookup_join hc' with ⟨-, rfl⟩ | ⟨-, hold⟩
    · exact Or.inl rfl
    · exact Or.inr ⟨c', hold, rfl, hrole⟩
  · obtain ⟨c, hc, hcontinues⟩ := hkeeps.sessions fd c' hc'
    refine Or.inr ⟨c, hc, hcontinues.conn.symm, ?_⟩
    rcases hcontinues.role with hunknown | hsame
    · rw [hunknown]
      decide
    · exact hsame ▸ hrole

/-- Who has no session in the role MARKET_DATA is sent no TRADE line by an action. -/
private theorem tradeLines_act_of_role (hc : Consistent s.view) {k : Nat}
    (hk : ∀ fd c, s.view.sessions.lookup fd = some c → c.conn = k → c.role ≠ .marketData)
    (a : Action) : tradeLines k (s.act a).history = tradeLines k s.history := by
  have hnone : followed k s a = [] := by
    rw [followed, List.filter_eq_nil_iff]
    intro f _ hfollows
    rw [← follows_view] at hfollows
    obtain ⟨fd, c, hlookup, hconn, hrole, -⟩ := follows_iff.mp hfollows
    exact hk fd c hlookup hconn hrole
  rw [tradeLines_act hc, hnone, List.map_nil, List.append_nil]

/-- An action sends no TRADE line to a connection that is no market-data client after it. -/
theorem Silent.act (h : Silent s.view) (hc : Consistent s.view) (a : Action) :
    Silent (s.act a).view := by
  have hm := act_moves s a
  have hfuture : ∀ k, s.accepted ≤ k → tradeLines k (s.act a).history = [] := by
    intro k hk
    rw [tradeLines_act_of_role hc ?_ a]
    · exact h.future k hk
    · intro fd c hlookup hconn
      exact absurd (hc.numbered fd c hlookup) (not_lt.mpr (hconn ▸ hk))
  refine ⟨fun fd c' hc' hrole => ?_, fun k hk => hfuture k ?_⟩
  · rcases hm.not_marketData hc' hrole with hnew | ⟨c, hlookup, hconn, hrole⟩
    · exact hfuture c'.conn hnew.ge
    · rw [← hconn, view_history, tradeLines_act_of_role hc ?_ a]
      · exact h.role fd c hlookup hrole
      · intro fd' d hd he
        obtain rfl := hc.distinct fd' fd d c hd hlookup he
        rw [hlookup] at hd
        exact Option.some.inj hd ▸ hrole
  · rcases hm.keeps with ⟨cfd, -, he⟩ | hkeeps
    · have haccepted : (s.act a).accepted = s.accepted + 1 := congrArg Server.accepted he
      have hle : s.accepted + 1 ≤ k := haccepted ▸ hk
      exact (Nat.le_succ _).trans hle
    · exact hkeeps.accepted ▸ hk

private theorem silent_start (kq listenFd : Int) (sends : List SendResult) :
    Silent (start kq listenFd sends).view where
  role fd c hc := by rw [lookup_view] at hc; cases hc
  future k _ := rfl

/-- In no reachable state has a connection that is no market-data client been sent a TRADE line. -/
theorem Reachable.silent (h : Reachable s) : Silent s.view :=
  h.view_invariant silent_start fun _ a hs hsilent _ => hsilent.act hs.consistent a

/-- The TRADE lines of a run are those of the fills followed on the way. -/
theorem tradeLines_run (hs : Reachable s) (k : Nat) (actions : List Action) :
    tradeLines k (run act s actions).history =
      tradeLines k s.history ++ (outputs act (followed k) s actions).flatten.map tradeLine := by
  induction actions generalizing s with
  | nil => exact (List.append_nil _).symm
  | cons a actions ih =>
    have htail := ih (hs.reaches (.act s a))
    rw [run_cons, htail, tradeLines_act hs.consistent, outputs, List.flatten_cons,
      List.map_append, List.append_assoc]

/-- The TRADE lines that a run adds. -/
theorem tradeLines_since (hs : Reachable s) (k : Nat) (actions : List Action) :
    tradeLines k (s.since (run act s actions)) =
      (outputs act (followed k) s actions).flatten.map tradeLine := by
  obtain ⟨obs, hobs⟩ := history_run s actions
  have hrun := tradeLines_run hs k actions
  rw [hobs, tradeLines_append] at hrun
  rw [since_of_append hobs]
  exact List.append_cancel_left hrun

/-- Connections that follow the same instruments follow the same fills. -/
theorem outputs_followed_congr {k k' : Nat} {actions : List Action}
    (h : Admissible (fun s _ => ∀ i, s.follows k i = s.follows k' i) act s actions) :
    outputs act (followed k) s actions = outputs act (followed k') s actions := by
  induction actions generalizing s with
  | nil => rfl
  | cons a actions ih =>
    obtain ⟨hsame, htail⟩ := h
    simp only [outputs, ih htail, followed, hsame]

/-- In every run, a connection is sent one TRADE line for each fill of an instrument it follows
when the book produces the fill, in the order of the fills, and no other; it follows what it
last subscribed to, and connections that follow the same are sent the same. A subscription is
recorded for a line that asks for it and is answered with OK, and for no other. -/
theorem run_trades_complete_and_exclusive (kq listenFd : Int) (sends : List SendResult)
    (actions : List Action) (k : Nat) :
    let s := run act (start kq listenFd sends) actions
    tradeLines k s.history =
        (outputs act (followed k) (start kq listenFd sends) actions).flatten.map tradeLine ∧
      (∀ fd c, s.sessions.lookup fd = some c → c.conn = k →
        (∀ i, i ∈ c.subscriptions ↔ Subscribed s.history k i) ∧
        (c.role ≠ .marketData → tradeLines k s.history = [])) ∧
      (∀ k' during, Admissible (fun s _ => ∀ i, s.follows k i = s.follows k' i) act s during →
        tradeLines k (s.since (run act s during)) =
          tradeLines k' (s.since (run act s during))) ∧
      ∀ a, Commanded (text "SUBSCRIBE") .subscribed (s.since (s.act a)) ∧
        Commanded (text "UNSUBSCRIBE") .unsubscribed (s.since (s.act a)) := by
  intro s
  have hs : Reachable s := ⟨kq, listenFd, sends, actions, rfl⟩
  have hlistening := hs.listening
  have hsilent := hs.silent
  refine ⟨?_, fun fd c hc hconn => ?_, fun k' during hsame => ?_, act_commanded s⟩
  · rw [tradeLines_run (.start kq listenFd sends) k actions]
    rfl
  · subst hconn
    have hview : s.view.sessions.lookup fd = some c.profile := lookup_view_of hc
    exact ⟨hlistening.current fd c.profile hview, hsilent.role fd c.profile hview⟩
  · rw [tradeLines_since hs, tradeLines_since hs, outputs_followed_congr hsame]

end Server

end SocketExchange
