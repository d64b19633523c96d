import SocketExchange.Exchange.Leaving
import SocketExchange.Exchange.Refinement

/-!
# A departure disturbs nobody else

Two runs go on from one state with the same deeds of all clients but one, which at most leaves:
sooner in one run than in the other, or not at all. Whatever descriptors are handed out
after that, the orders that the client left behind trade alike, and everybody else is sent
the same lines.
-/

namespace SocketExchange

open Containers ClientSession Runs OrderBook

/-- The deeds of everybody but one client. -/
def othersDeeds (x : Nat) (history : List Obs) : List Deed :=
  (deeds history).filter fun d => d.conn ≠ x

/-- The deeds of a history are those its entries record. -/
theorem mem_deeds {history : List Obs} {d : Deed} :
    d ∈ deeds history ↔ ∃ o ∈ history, o.deed = some d := List.mem_filterMap

private theorem received_of_mem_deeds {history : List Obs} {k : Nat} {line : Bytes}
    (h : .sends k line ∈ deeds history) : .received k line ∈ history := by
  obtain ⟨o, ho, hdeed⟩ := mem_deeds.mp h
  cases o with
  | received k' line' =>
    obtain ⟨rfl, rfl⟩ := Deed.sends.inj (Option.some.inj hdeed)
    exact ho
  | accepted => cases hdeed
  | closed => cases hdeed
  | _ => cases hdeed

namespace Server

variable {s s' s₁ s₂ : Server} {fd : Int} {c : ClientSession}

/-- The connections accepted, in turn. -/
def accepts (history : List Obs) : List Nat :=
  history.filterMap fun
    | .accepted k _ => some k
    | _ => none

/-- The connections accepted in two histories, one after the other. -/
theorem accepts_append (h h' : List Obs) : accepts (h ++ h') = accepts h ++ accepts h' :=
  List.filterMap_append ..

private theorem accepts_eq_nil {obs : List Obs} (h : ∀ o ∈ obs, ∀ k fd, o ≠ .accepted k fd) :
    accepts obs = [] := by
  rw [accepts, List.filterMap_eq_nil_iff]
  intro o ho
  cases o with
  | accepted k fd => exact absurd rfl (h _ ho k fd)
  | _ => rfl

/-- Connections are numbered as they are accepted. -/
theorem Reachable.accepts (hs : Reachable s) : accepts s.history = List.range s.accepted := by
  have hquiet : ∀ {s s' : Server} {obs : List Obs},
      Server.accepts s.history = List.range s.accepted → s'.history = s.history ++ obs →
      s'.accepted = s.accepted →
      (∀ o ∈ obs, ∀ k fd, o ≠ .accepted k fd) →
      Server.accepts s'.history = List.range s'.accepted := by
    intro s s' obs h hhistory haccepted hobs
    rw [hhistory, accepts_append, accepts_eq_nil hobs, List.append_nil, haccepted, h]
  refine hs.call_invariant (P := fun s => Server.accepts s.history = List.range s.accepted)
    (fun _ _ _ => rfl) (fun s s' hs h hcall => ?_) fun s fd c hs hc h => ?_
  · cases hcall with
    | logged hsilent =>
      refine hquiet h rfl rfl fun o ho k fd he => ?_
      rw [he] at ho
      exact hsilent _ ho
    | booked => exact h
    | changed => exact h
    | @enqueued fd c line hc =>
      have hview : (s.enqueue fd line).view.accepted = (s.view.log _).accepted :=
        congrArg Server.accepted (s.view_enqueue fd line)
      refine hquiet h (history_enqueue hc line) hview fun o ho k fd he => ?_
      rw [List.mem_singleton.mp ho] at he
      cases he
    | closed hc =>
      refine hquiet h (history_close hc) (accepted_closeSession ..) fun o ho k fd he => ?_
      rw [List.mem_singleton.mp ho] at he
      cases he
    | @opened cfd =>
      have hopened : (s.openSession cfd).history = s.history ++ [.accepted s.accepted cfd] := rfl
      have haccepted : (s.openSession cfd).accepted = s.accepted + 1 := rfl
      rw [hopened, accepts_append, haccepted, List.range_succ, h]
      rfl
    | rehashed => exact h
  · obtain ⟨obs, hhistory, -, hobs, -⟩ := onWritable_channels hs hc
    refine hquiet h hhistory (accepted_onWritable ..) fun o ho k fd he => ?_
    rcases hobs o ho with hfailed | hclosed
    · rw [hfailed] at he
      cases he
    · rw [hclosed] at he
      cases he

/-- A connection that is accepted in a run is a new one. -/
theorem Reachable.joins_fresh (hs : Reachable s) (hs' : Reachable s') {obs : List Obs}
    (hhistory : s'.history = s.history ++ obs) {k : Nat} {fd : Int} (hk : .accepted k fd ∈ obs) :
    s.accepted ≤ k := by
  have hall := hs'.accepts
  rw [hhistory, accepts_append, hs.accepts] at hall
  have hnodup : (List.range s.accepted ++ Server.accepts obs).Nodup := by
    rw [hall]
    exact List.nodup_range
  have hmem : k ∈ Server.accepts obs := List.mem_filterMap.mpr ⟨_, hk, rfl⟩
  rw [← Nat.not_lt]
  intro hlt
  exact (List.disjoint_of_nodup_append hnodup) (List.mem_range.mpr hlt) hmem

/-- The sequence numbers tell all connections apart. -/
def SeqIdentifies (s : Server) : Prop :=
  ∀ k k', k < s.accepted → k' < s.accepted → seqOf k = seqOf k' → k = k'

/-- While the sequence numbers identify the sessions, at most 2^64 have been accepted. -/
theorem SeqIdentifies.unwrapped (h : SeqIdentifies s) : s.accepted ≤ 2 ^ 64 := by
  by_contra hmore
  have hlt : 2 ^ 64 < s.accepted := Nat.not_le.mp hmore
  have hwrapped : seqOf 0 = seqOf (2 ^ 64) := by decide
  have hzero := h 0 (2 ^ 64) (by omega) hlt hwrapped
  exact absurd hzero (by decide)

/-- Exchanges with the same book stand for books that differ in descriptors alone. -/
theorem Simulates.same_book {e₁ e₂ : Exchange} (h₁ : Simulates s₁ e₁) (h₂ : Simulates s₂ e₂)
    (hbook : e₁.book = e₂.book) :
    s₁.book.nextId_ = s₂.book.nextId_ ∧ ∀ k,
      (s₁.book.level k).map (Order.renamed .seqOnly) =
        (s₂.book.level k).map (Order.renamed .seqOnly) := by
  obtain ⟨r₁, hr₁, hbook₁⟩ := h₁.book
  obtain ⟨r₂, hr₂, hbook₂⟩ := h₂.book
  have hsame : r₁.renamed .seqOnly = r₂.renamed .seqOnly := hbook₁.symm.trans (hbook.trans hbook₂)
  have hnext : (r₁.renamed .seqOnly).nextId_ = (r₂.renamed .seqOnly).nextId_ :=
    congrArg Reference.nextId_ hsame
  have horders : (r₁.renamed .seqOnly).orders = (r₂.renamed .seqOnly).orders :=
    congrArg Reference.orders hsame
  refine ⟨hr₁.next.trans (hnext.trans hr₂.next.symm), fun k => ?_⟩
  rw [hr₁.level, hr₂.level, ← Reference.levelOf_renamed, ← Reference.levelOf_renamed]
  exact congrArg (Reference.levelOf k) horders

/-- Books with the same levels but for descriptors hold the same queues but for descriptors. -/
theorem Reachable.same_queues (hs₁ : Reachable s₁) (hs₂ : Reachable s₂) {key : LevelKey}
    (hlevel : (s₁.book.level key).map (Order.renamed .seqOnly) =
      (s₂.book.level key).map (Order.renamed .seqOnly)) :
    (s₁.book.queue? key).map (List.map (Order.renamed .seqOnly)) =
      (s₂.book.queue? key).map (List.map (Order.renamed .seqOnly)) := by
  rw [hs₁.queue?_eq_stored, hs₂.queue?_eq_stored, map_stored, map_stored, hlevel]

/-- Books with the same next id have issued the same ids. -/
theorem Reachable.same_ids (hs₁ : Reachable s₁) (hs₂ : Reachable s₂)
    (hnext : s₁.book.nextId_ = s₂.book.nextId_) :
    (placedOrders s₁.history).map (·.2.id) = (placedOrders s₂.history).map (·.2.id) := by
  have hids₁ := hs₁.tracked.ids
  have hids₂ := hs₂.tracked.ids
  have hlength : (placedOrders s₁.history).length = (placedOrders s₂.history).length :=
    Int.ofNat.inj (hs₁.tracked.nextId.symm.trans (hnext.trans hs₂.tracked.nextId))
  rw [view_history] at hids₁ hids₂
  rw [hids₁, hids₂, hlength]

/-- Up to what concerns the client alone, the run is the exchange's by the others' deeds. -/
theorem run_departure {e : Exchange} (hs : Reachable s) (h : Simulates s.view e)
    (hc : s.sessions.lookup fd = some c) (actions : List Action)
    (hacc : (run act s actions).accepted ≤ 2 ^ 64)
    (hquits : ∀ line, .received c.conn line ∈ s.since (run act s actions) →
      commandWord line = text "QUIT")
    (hlogin : ∀ k line, k ≠ c.conn → .sends k line ∈ othersDeeds c.conn
      (s.since (run act s actions)) → tokenize line ≠ [text "LOGIN", c.username]) :
    ∃ e', Simulates (run act s actions).view e' ∧ e'.without c.conn =
      run Exchange.step (e.without c.conn) (othersDeeds c.conn (s.since (run act s actions))) := by
  obtain ⟨obs, hhistory, hsim⟩ := run_simulates h hs actions hacc
  rw [since_of_append hhistory] at hquits hlogin ⊢
  have hc' : s.view.sessions.lookup fd = some c.profile := lookup_view_of hc
  have hconsistent := hs.consistent
  have hs' : Reachable (run act s actions) := hs.reaches ⟨actions, rfl⟩
  refine ⟨_, hsim, Exchange.run_without c.username (fun m hm => ?_) (fun d hd hown => ?_)
    fun d hd hother hclaims => ?_⟩
  · obtain ⟨fd', hfd'⟩ := (h.member _ _).mp hm
    obtain ⟨c', hc₁, hconn, rfl⟩ := roll_eq_some.mp hfd'
    obtain rfl := hconsistent.distinct fd' fd c' c.profile hc₁ hc' hconn
    rw [hc'] at hc₁
    rw [← Option.some.inj hc₁]
    rfl
  · obtain ⟨o, ho, hdeed⟩ := mem_deeds.mp hd
    cases o with
    | accepted k cfd =>
      obtain rfl := Option.some.inj hdeed
      have hfresh := hs.joins_fresh hs' hhistory ho
      have hold := hconsistent.numbered fd c.profile hc'
      have hk : k = c.profile.conn := hown
      exact absurd hold (Nat.not_lt.mpr (hk ▸ hfresh))
    | received k line =>
      obtain rfl := Option.some.inj hdeed
      have hk : k = c.conn := hown
      exact hquits line (hk ▸ ho)
    | closed k =>
      obtain rfl := Option.some.inj hdeed
      exact trivial
    | _ => cases hdeed
  · cases d with
    | sends k line =>
      exact hlogin k line hother (List.mem_filter.mpr ⟨hd, decide_eq_true hother⟩) hclaims
    | joins k => exact hclaims
    | leaves k => exact hclaims

/-- If from some state on a client at most leaves, and the deeds of all others and their order are
the same in two runs, with no LOGIN for the client's username among them, then the two runs end
with the same book but for descriptors, have issued the same ids, and have sent the same lines to
everybody else. -/
theorem departure_disturbs_nobody (hs : Reachable s) (hc : s.sessions.lookup fd = some c)
    (actions₁ actions₂ : List Action) (hseq₁ : SeqIdentifies (run act s actions₁))
    (hseq₂ : SeqIdentifies (run act s actions₂))
    (hquits₁ : ∀ line, .received c.conn line ∈ s.since (run act s actions₁) →
      commandWord line = text "QUIT")
    (hquits₂ : ∀ line, .received c.conn line ∈ s.since (run act s actions₂) →
      commandWord line = text "QUIT")
    (hothers : othersDeeds c.conn (s.since (run act s actions₁)) =
      othersDeeds c.conn (s.since (run act s actions₂)))
    (hlogin : ∀ k line, k ≠ c.conn → .received k line ∈ s.since (run act s actions₁) →
      tokenize line ≠ [text "LOGIN", c.username]) :
    let s₁ := run act s actions₁
    let s₂ := run act s actions₂
    s₁.book.nextId_ = s₂.book.nextId_ ∧
      (∀ key, (s₁.book.queue? key).map (List.map (Order.renamed .seqOnly)) =
        (s₂.book.queue? key).map (List.map (Order.renamed .seqOnly))) ∧
      (placedOrders s₁.history).map (·.2.id) = (placedOrders s₂.history).map (·.2.id) ∧
      ∀ k, k ≠ c.conn → linesTo k s₁.history = linesTo k s₂.history := by
  intro s₁ s₂
  have hacc₁ := hseq₁.unwrapped
  have hacc₂ := hseq₂.unwrapped
  have hs₁ : Reachable s₁ := hs.reaches ⟨actions₁, rfl⟩
  have hs₂ : Reachable s₂ := hs.reaches ⟨actions₂, rfl⟩
  have hclaims : ∀ k line, k ≠ c.conn → .sends k line ∈ othersDeeds c.conn (s.since s₁) →
      tokenize line ≠ [text "LOGIN", c.username] := fun k line hk hmem =>
    hlogin k line hk (received_of_mem_deeds (List.mem_of_mem_filter hmem))
  have h := hs.simulates ((run_accepted_le s actions₁).trans hacc₁)
  obtain ⟨e₁, h₁, hleft₁⟩ := run_departure hs h hc actions₁ hacc₁ hquits₁ hclaims
  rw [hothers] at hclaims hleft₁
  obtain ⟨e₂, h₂, hleft₂⟩ := run_departure hs h hc actions₂ hacc₂ hquits₂ hclaims
  have hsame : e₁.without c.conn = e₂.without c.conn := hleft₁.trans hleft₂.symm
  have hbook : (e₁.without c.conn).book = (e₂.without c.conn).book := congrArg Exchange.book hsame
  obtain ⟨hnext, hlevels⟩ := h₁.same_book h₂ hbook
  refine ⟨hnext, fun key => ?_, ?_, fun k hk => ?_⟩
  · exact hs₁.same_queues hs₂ (hlevels key)
  · exact hs₁.same_ids hs₂ hnext
  · have hsent : (e₁.without c.conn).sent k = (e₂.without c.conn).sent k := by rw [hsame]
    rw [Exchange.sent_without_ne hk, Exchange.sent_without_ne hk, h₁.sent, h₂.sent] at hsent
    exact hsent

/-- The seller leaves and its descriptor goes to the buyer, or the buyer gets another one: the
order trades either way. -/
theorem departure_disturbs_nobody_recycled :
    let before : List Action :=
      [.accept 5, .feed 5 ⟨text "SELL JNST 5 10\n", by decide, by decide⟩, .line 5]
    let stays : List Action :=
      [.accept 7, .feed 7 ⟨text "BUY JNST 5 10\n", by decide, by decide⟩, .line 7]
    let leaves : List Action :=
      [.hangup 5, .accept 5, .feed 5 ⟨text "BUY JNST 5 10\n", by decide, by decide⟩, .line 5]
    let s := run act (start 3 4 []) before
    (run act s stays).book.nextId_ = (run act s leaves).book.nextId_ ∧
      linesTo 1 (run act s stays).history = linesTo 1 (run act s leaves).history ∧
      linesTo 1 (run act s leaves).history =
        [msgOrderAccepted 1, msgBought (text "JNST") 5 10] := by
  intro before stays leaves s
  obtain ⟨c, hc, hconn, hname⟩ : ∃ c, (run act (start 3 4 []) before).sessions.lookup 5 = some c ∧
      c.conn = 0 ∧ c.username = [] := ⟨_, rfl, rfl, rfl⟩
  have hreachable : Reachable s := ⟨3, 4, [], before, rfl⟩
  have hseq : ∀ s' : Server, s'.accepted = 2 → SeqIdentifies s' := by
    intro s' haccepted k k' hk hk'
    rw [haccepted] at hk hk'
    exact seqOf_inj (by omega) (by omega)
  have hseq₁ : (run act s stays).accepted = 2 := by decide
  have hseq₂ : (run act s leaves).accepted = 2 := by decide
  let buy : Deed := .sends 1 (text "BUY JNST 5 10")
  have honly : ∀ history, (∀ d ∈ deeds history, d ∈ [.leaves 0, .joins 1, buy]) → ∀ k line,
      .received k line ∈ history → k = 1 ∧ line = text "BUY JNST 5 10" := by
    intro history hdeeds k line hmem
    have hsent : .sends k line ∈ [.leaves 0, .joins 1, buy] :=
      hdeeds _ (mem_deeds.mpr ⟨_, hmem, rfl⟩)
    simpa [buy] using hsent
  have hquits : ∀ history, (∀ d ∈ deeds history, d ∈ [.leaves 0, .joins 1, buy]) → ∀ line,
      .received c.conn line ∈ history → commandWord line = text "QUIT" := by
    intro history hdeeds line hmem
    exact absurd ((honly history hdeeds _ line hmem).1.symm.trans hconn) (by decide)
  have hdeeds₁ : ∀ d ∈ deeds (s.since (run act s stays)), d ∈ [.leaves 0, .joins 1, buy] := by
    decide
  have hdeeds₂ : ∀ d ∈ deeds (s.since (run act s leaves)), d ∈ [.leaves 0, .joins 1, buy] := by
    decide
  have hothers : othersDeeds 0 (s.since (run act s stays)) =
      othersDeeds 0 (s.since (run act s leaves)) := by decide
  rw [← hconn] at hothers
  have hlogin : ∀ k line, k ≠ c.conn → .received k line ∈ s.since (run act s stays) →
      tokenize line ≠ [text "LOGIN", c.username] := by
    intro k line _ hmem
    rw [(honly _ hdeeds₁ k line hmem).2, hname]
    decide
  obtain ⟨hnext, -, -, hlines⟩ := departure_disturbs_nobody hreachable hc stays leaves
    (hseq _ hseq₁) (hseq _ hseq₂) (hquits _ hdeeds₁) (hquits _ hdeeds₂) hothers hlogin
  have hbuyer : 1 ≠ c.conn := by
    rw [hconn]
    decide
  have hreplies : linesTo 1 (run act s leaves).history =
      [msgOrderAccepted 1, msgBought (text "JNST") 5 10] := by decide
  with_reducible exact ⟨hnext, hlines 1 hbuyer, hreplies⟩

end Server

end SocketExchange
