import SocketExchange.Service.Actions

/-!
# Connections, descriptors and sequence numbers

A connection keeps its descriptor and its sequence number from its acceptance to its
end; only an acceptance makes a session, and it makes it under the next number. So the
sessions are told apart by their numbers for as long as the counter has not wrapped.
-/

namespace SocketExchange

open Containers ClientSession Runs

/-- The sequence number of a connection: the counter starts at one and wraps. -/
def seqOf (conn : Nat) : UInt64 := UInt64.ofNat (conn + 1)

/-- Below 2^64 connections have distinct sequence numbers. -/
theorem seqOf_inj {k k' : Nat} (hk : k < 2 ^ 64) (hk' : k' < 2 ^ 64)
    (h : seqOf k = seqOf k') : k = k' := by
  have hnat := congrArg UInt64.toNat h
  simp only [seqOf, UInt64.toNat_ofNat'] at hnat
  omega

private theorem seqOf_succ (k : Nat) : seqOf (k + 1) = seqOf k + 1 := by
  simp only [seqOf, UInt64.ofNat_add]
  rfl

/-- What identifies a session: its descriptor, its connection and its sequence number. -/
def ClientSession.identity (c : ClientSession) : Int × Nat × UInt64 :=
  (c.fd, c.conn, c.sessionSeq)

/-- The second is the first at a later time: a role, once settled, stays. -/
structure ClientSession.Continues (c c' : ClientSession) : Prop where
  identity : c'.identity = c.identity
  role : c.role = .unknown ∨ c'.role = c.role

namespace ClientSession

variable {c c' c'' : ClientSession}

/-- A session continues itself. -/
theorem Continues.refl (c : ClientSession) : Continues c c := ⟨rfl, Or.inr rfl⟩

/-- What continues a continuation continues the session. -/
theorem Continues.trans (h : Continues c c') (h' : Continues c' c'') : Continues c c'' where
  identity := h'.identity.trans h.identity
  role := by
    rcases h.role with hunknown | hrole
    · exact Or.inl hunknown
    · rw [← hrole]
      exact h'.role

/-- A session keeps its descriptor. -/
theorem Continues.fd (h : Continues c c') : c'.fd = c.fd := congrArg (·.1) h.identity

/-- A session keeps its connection. -/
theorem Continues.conn (h : Continues c c') : c'.conn = c.conn := congrArg (·.2.1) h.identity

/-- A session keeps its sequence number. -/
theorem Continues.sessionSeq (h : Continues c c') : c'.sessionSeq = c.sessionSeq :=
  congrArg (·.2.2) h.identity

end ClientSession

namespace Server

variable {s s' : Server} {a : Action}

/-- Inferring a role continues the session. -/
theorem continues_inferRole (cmd : Bytes) (c : ClientSession) : Continues c (inferRole cmd c) := by
  unfold inferRole
  by_cases hrole : c.role = .unknown
  · rw [if_pos hrole]
    split_ifs <;> exact ⟨rfl, Or.inl hrole⟩
  · rw [if_neg hrole]
    exact .refl c

/-- The connection has a session. -/
def connected (s : Server) (k : Nat) : Bool := s.sessions.entries.any fun e => e.2.conn = k

/-- A number is connected exactly when a session has it. -/
theorem connected_iff {k : Nat} :
    s.connected k = true ↔ ∃ fd c, s.sessions.lookup fd = some c ∧ c.conn = k := by
  simp only [connected, List.any_eq_true, decide_eq_true_eq]
  constructor
  · rintro ⟨⟨fd, c⟩, hmem, hconn⟩
    exact ⟨fd, c, UnorderedMap.mem_entries_iff.mp hmem, hconn⟩
  · rintro ⟨fd, c, hc, hconn⟩
    exact ⟨⟨fd, c⟩, UnorderedMap.mem_entries_iff.mpr hc, hconn⟩

/-- Sessions of the same connections at the same descriptors make the same connections. -/
theorem connected_congr
    (h : ∀ fd, (s'.sessions.lookup fd).map (·.conn) = (s.sessions.lookup fd).map (·.conn))
    (k : Nat) : s'.connected k = s.connected k := by
  have hiff : ∀ s : Server, s.connected k = true ↔
      ∃ fd, (s.sessions.lookup fd).map (·.conn) = some k := by
    intro s
    rw [connected_iff]
    simp only [Option.map_eq_some_iff]
  rw [Bool.eq_iff_iff, hiff, hiff]
  simp only [h]

@[simp] theorem connected_view (k : Nat) : s.view.connected k = s.connected k := by
  refine connected_congr (fun fd => ?_) k
  rw [lookup_view, Option.map_map]
  rfl

/-- Logging connects and disconnects nobody. -/
theorem connected_log (obs : List Obs) (k : Nat) : (s.log obs).connected k = s.connected k := rfl

/-- Changing a session under its number connects and disconnects nobody. -/
theorem connected_update (fd : Int) {f : ClientSession → ClientSession}
    (hf : ∀ c, (f c).conn = c.conn) (k : Nat) : (s.update fd f).connected k = s.connected k := by
  refine connected_congr (fun fd' => ?_) k
  rw [update, UnorderedMap.lookup_modify, Option.map_map]
  congr 1
  funext c
  simp only [Function.comp_apply]
  split
  · exact hf c
  · rfl

/-- Rehashing connects and disconnects nobody. -/
theorem connected_rehash (sessionOrder : List Int) (bookOrder : List Bytes) (k : Nat) :
    (s.rehash sessionOrder bookOrder).connected k = s.connected k := by
  refine connected_congr (fun fd => ?_) k
  rw [rehash, UnorderedMap.lookup_reorder]

/-! ## What moves do to the sessions -/

/-- Every session of the second state is one of the first, and none was accepted between. -/
structure Keeps (s s' : Server) : Prop where
  accepted : s'.accepted = s.accepted
  nextSeq : s'.nextSessionSeq = s.nextSessionSeq
  sessions : ∀ fd c', s'.sessions.lookup fd = some c' →
    ∃ c, s.sessions.lookup fd = some c ∧ Continues c c'

/-- A server keeps its own sessions. -/
theorem Keeps.refl (s : Server) : Keeps s s := ⟨rfl, rfl, fun _ c hc => ⟨c, hc, .refl c⟩⟩

/-- Keeping the sessions twice is keeping them. -/
theorem Keeps.trans {s'' : Server} (h : Keeps s s') (h' : Keeps s' s'') : Keeps s s'' where
  accepted := h'.accepted.trans h.accepted
  nextSeq := h'.nextSeq.trans h.nextSeq
  sessions fd c'' hc'' := by
    obtain ⟨c', hc', he'⟩ := h'.sessions fd c'' hc''
    obtain ⟨c, hc, he⟩ := h.sessions fd c' hc'
    exact ⟨c, hc, he.trans he'⟩

/-- Logging keeps the sessions. -/
theorem keeps_log (s : Server) (obs : List Obs) : Keeps s (s.log obs) :=
  ⟨rfl, rfl, fun _ c hc => ⟨c, hc, .refl c⟩⟩

/-- A new book keeps the sessions. -/
theorem keeps_withBook (s : Server) (book : OrderBook) : Keeps s (s.withBook book) :=
  ⟨rfl, rfl, fun _ c hc => ⟨c, hc, .refl c⟩⟩

/-- A change that continues the session keeps the sessions. -/
theorem keeps_update (s : Server) (fd : Int) (f : ClientSession → ClientSession)
    (hf : ∀ c, Continues c (f c)) : Keeps s (s.update fd f) := by
  refine ⟨rfl, rfl, fun fd' c' hc' => ?_⟩
  rw [update, UnorderedMap.lookup_modify, Option.map_eq_some_iff] at hc'
  obtain ⟨c, hc, rfl⟩ := hc'
  refine ⟨c, hc, ?_⟩
  split
  · exact hf c
  · exact .refl c

/-- Forgetting a session leaves the others as they are. -/
theorem lookup_of_forget {fd fd' : Int} {c : ClientSession}
    (hc : (s.forget fd).sessions.lookup fd' = some c) : s.sessions.lookup fd' = some c := by
  unfold forget at hc
  cases h : s.sessions.lookup fd with
  | none => simpa only [h] using hc
  | some c₀ =>
    simp only [h, lookup_log] at hc
    by_cases hfd : fd' = fd
    · subst hfd
      rw [eraseSession, AList.lookup_erase] at hc
      cases hc
    · rwa [eraseSession, AList.lookup_erase_ne hfd] at hc

/-- Forgetting a session keeps the others. -/
theorem keeps_forget (s : Server) (fd : Int) : Keeps s (s.forget fd) := by
  have hsame : (s.forget fd).accepted = s.accepted ∧
      (s.forget fd).nextSessionSeq = s.nextSessionSeq := by
    unfold forget
    cases s.sessions.lookup fd with
    | none => exact ⟨rfl, rfl⟩
    | some c => exact ⟨rfl, rfl⟩
  exact ⟨hsame.1, hsame.2, fun fd' c hc => ⟨c, lookup_of_forget hc, .refl c⟩⟩

private theorem keeps_rehash (s : Server) (sessionOrder : List Int) (bookOrder : List Bytes) :
    Keeps s (s.rehash sessionOrder bookOrder) := by
  refine ⟨rfl, rfl, fun fd c hc => ⟨c, ?_, .refl c⟩⟩
  rwa [rehash, UnorderedMap.lookup_reorder] at hc

/-- Noting a line keeps the sessions. -/
theorem keeps_noted (s : Server) (fd : Int) (c : ClientSession) (line : Bytes) :
    Keeps s (s.noted fd c line) :=
  (keeps_log s _).trans (keeps_update _ fd _ (continues_inferRole _))

/-- Handling a line accepts nobody. -/
theorem Handled.keeps {fd : Int} {c : ClientSession} {line : Bytes} {r : Server × Bool}
    (h : Handled s fd c line r) : Keeps s r.1 := by
  cases h with
  | rejected => exact keeps_log s _
  | @loggedIn name =>
    exact (keeps_update s fd (setUsername name) fun _ => ⟨rfl, Or.inr rfl⟩).trans (keeps_log _ _)
  | placed => exact (keeps_withBook s _).trans (keeps_log _ _)
  | cancelled => exact (keeps_withBook s _).trans (keeps_log _ _)
  | @subscribed i =>
    exact (keeps_update s fd (subscribe i) fun _ => ⟨rfl, Or.inr rfl⟩).trans (keeps_log _ _)
  | @unsubscribed i =>
    exact (keeps_update s fd (unsubscribe i) fun _ => ⟨rfl, Or.inr rfl⟩).trans (keeps_log _ _)
  | quit => exact keeps_forget s _

/-- A move accepts one connection or none. -/
theorem Moves.keeps (h : Moves s a s') :
    (∃ cfd, s.Free cfd ∧ s' = s.join cfd) ∨ Keeps s s' := by
  cases h with
  | idle => exact Or.inr (.refl s)
  | admitted hfree => exact Or.inl ⟨_, hfree, rfl⟩
  | fed hf =>
    refine Or.inr (keeps_update s _ _ fun c => ?_)
    obtain ⟨inbuf, he⟩ := hf c
    rw [he]
    exact ⟨rfl, Or.inr rfl⟩
  | @handled fd c inbuf line r hc hr =>
    have hset : Keeps s (s.update fd (setInbuf inbuf)) :=
      keeps_update s fd _ fun _ => ⟨rfl, Or.inr rfl⟩
    exact Or.inr ((hset.trans (keeps_noted _ fd c line)).trans hr.keeps)
  | closed => exact Or.inr ((keeps_log s _).trans (keeps_forget _ _))
  | rehashed => exact Or.inr (keeps_rehash s _ _)

/-! ## The invariant -/

/-- Sessions carry their descriptor, their number and the sequence number that goes with it. -/
structure Consistent (s : Server) : Prop where
  keyed : ∀ fd c, s.sessions.lookup fd = some c → c.fd = fd
  numbered : ∀ fd c, s.sessions.lookup fd = some c → c.conn < s.accepted
  sequenced : ∀ fd c, s.sessions.lookup fd = some c → c.sessionSeq = seqOf c.conn
  /-- No connection has two sessions. -/
  distinct : ∀ fd fd' c c', s.sessions.lookup fd = some c → s.sessions.lookup fd' = some c' →
    c.conn = c'.conn → fd = fd'
  nextSeq : s.nextSessionSeq = seqOf s.accepted

/-- A step that keeps the sessions keeps them consistent. -/
theorem Consistent.keeps (h : Consistent s) (hk : Keeps s s') : Consistent s' where
  keyed fd c' hc' := by
    obtain ⟨c, hc, he⟩ := hk.sessions fd c' hc'
    exact he.fd.trans (h.keyed fd c hc)
  numbered fd c' hc' := by
    obtain ⟨c, hc, he⟩ := hk.sessions fd c' hc'
    rw [he.conn, hk.accepted]
    exact h.numbered fd c hc
  sequenced fd c' hc' := by
    obtain ⟨c, hc, he⟩ := hk.sessions fd c' hc'
    rw [he.conn]
    exact he.sessionSeq.trans (h.sequenced fd c hc)
  distinct fd fd' c' d' hc' hd' hconn := by
    obtain ⟨c, hc, he⟩ := hk.sessions fd c' hc'
    obtain ⟨d, hd, he'⟩ := hk.sessions fd' d' hd'
    exact h.distinct fd fd' c d hc hd (by rw [← he.conn, hconn, he'.conn])
  nextSeq := by rw [hk.nextSeq, hk.accepted, h.nextSeq]

/-- The session found after an acceptance is the new one or an old one. -/
theorem lookup_join {cfd fd : Int} {c : ClientSession}
    (hc : (s.join cfd).sessions.lookup fd = some c) :
    (fd = cfd ∧ c = { fd := cfd, sessionSeq := s.nextSessionSeq, conn := s.accepted }) ∨
      (fd ≠ cfd ∧ s.sessions.lookup fd = some c) := by
  by_cases hfd : fd = cfd
  · subst hfd
    rw [join, AList.lookup_insert] at hc
    exact Or.inl ⟨rfl, (Option.some.inj hc).symm⟩
  · rw [join, AList.lookup_insert_ne hfd] at hc
    exact Or.inr ⟨hfd, hc⟩

/-- A new session under the next number keeps the sessions consistent. -/
theorem Consistent.join (h : Consistent s) (cfd : Int) : Consistent (s.join cfd) where
  keyed fd c hc := by
    rcases lookup_join hc with ⟨rfl, rfl⟩ | ⟨-, hc⟩
    · rfl
    · exact h.keyed fd c hc
  numbered fd c hc := by
    rcases lookup_join hc with ⟨rfl, rfl⟩ | ⟨-, hc⟩
    · exact Nat.lt_succ_self _
    · exact (h.numbered fd c hc).trans (Nat.lt_succ_self _)
  sequenced fd c hc := by
    rcases lookup_join hc with ⟨rfl, rfl⟩ | ⟨-, hc⟩
    · exact h.nextSeq
    · exact h.sequenced fd c hc
  distinct fd fd' c c' hc hc' hconn := by
    rcases lookup_join hc with ⟨hfd, rfl⟩ | ⟨-, hc⟩ <;>
      rcases lookup_join hc' with ⟨hfd', rfl⟩ | ⟨-, hc'⟩
    · rw [hfd, hfd']
    · exact absurd (h.numbered fd' c' hc') (by rw [← hconn]; exact lt_irrefl _)
    · exact absurd (h.numbered fd c hc) (by rw [hconn]; exact lt_irrefl _)
    · exact h.distinct fd fd' c c' hc hc' hconn
  nextSeq := by
    have hnext := h.nextSeq
    simp only [Server.join, hnext, seqOf_succ]

/-- Every move keeps the sessions consistent. -/
theorem Consistent.moves (h : Consistent s) (hm : Moves s a s') : Consistent s' := by
  rcases hm.keeps with ⟨cfd, -, rfl⟩ | hk
  · exact h.join cfd
  · exact h.keeps hk

/-! ## Who is connected -/

/-- Joining connects the next number and no other. -/
theorem connected_join {cfd : Int} (hfree : s.sessions.lookup cfd = none) (k : Nat) :
    (s.join cfd).connected k = true ↔ s.connected k = true ∨ k = s.accepted := by
  rw [connected_iff, connected_iff]
  constructor
  · rintro ⟨fd, c, hc, hconn⟩
    rcases lookup_join hc with ⟨-, rfl⟩ | ⟨-, hc⟩
    · exact Or.inr hconn.symm
    · exact Or.inl ⟨fd, c, hc, hconn⟩
  · rintro (⟨fd, c, hc, hconn⟩ | rfl)
    · refine ⟨fd, c, ?_, hconn⟩
      have hne : fd ≠ cfd := by
        rintro rfl
        rw [hfree] at hc
        cases hc
      rwa [Server.join, AList.lookup_insert_ne hne]
    · refine ⟨cfd, { fd := cfd, sessionSeq := s.nextSessionSeq, conn := s.accepted }, ?_, rfl⟩
      rw [Server.join, AList.lookup_insert]

/-- Forgetting a session leaves every other connection. -/
theorem Consistent.connected_forget (h : Consistent s) {fd : Int} {c : ClientSession}
    (hc : s.sessions.lookup fd = some c) (k : Nat) :
    (s.forget fd).connected k = true ↔ s.connected k = true ∧ k ≠ c.conn := by
  rw [forget_eq hc, connected_log]
  rw [connected_iff, connected_iff]
  constructor
  · rintro ⟨fd', c', hc', hconn⟩
    have hne : fd' ≠ fd := by
      rintro rfl
      rw [eraseSession, AList.lookup_erase] at hc'
      cases hc'
    rw [eraseSession, AList.lookup_erase_ne hne] at hc'
    refine ⟨⟨fd', c', hc', hconn⟩, fun he => hne ?_⟩
    exact h.distinct fd' fd c' c hc' hc (hconn.trans he)
  · rintro ⟨⟨fd', c', hc', hconn⟩, hk⟩
    have hne : fd' ≠ fd := by
      rintro rfl
      rw [hc] at hc'
      obtain rfl := Option.some.inj hc'
      exact hk hconn.symm
    exact ⟨fd', c', by rwa [eraseSession, AList.lookup_erase_ne hne], hconn⟩

/-- A connection that is open after a move was open before, or has just been accepted. -/
theorem Moves.connected (hm : Moves s a s') {k : Nat} (hk : s'.connected k = true) :
    s.connected k = true ∨ s.accepted ≤ k := by
  obtain ⟨fd, c', hc', hconn⟩ := connected_iff.mp hk
  rcases hm.keeps with ⟨cfd, -, rfl⟩ | hkeeps
  · rcases lookup_join hc' with ⟨-, rfl⟩ | ⟨-, hold⟩
    · exact Or.inr hconn.le
    · exact Or.inl (connected_iff.mpr ⟨fd, c', hold, hconn⟩)
  · obtain ⟨c, hc, hcontinues⟩ := hkeeps.sessions fd c' hc'
    exact Or.inl (connected_iff.mpr ⟨fd, c, hc, hcontinues.conn.symm.trans hconn⟩)

/-- A session found after a move is a new one, or it was there before. -/
theorem Moves.continues (hm : Moves s a s') {fd : Int} {c' : ClientSession}
    (hc' : s'.sessions.lookup fd = some c') (hold : c'.conn < s.accepted) :
    ∃ c, s.sessions.lookup fd = some c ∧ Continues c c' := by
  rcases hm.keeps with ⟨cfd, -, rfl⟩ | hkeeps
  · rcases lookup_join hc' with ⟨-, rfl⟩ | ⟨-, hc⟩
    · exact absurd hold (lt_irrefl _)
    · exact ⟨c', hc, .refl c'⟩
  · exact hkeeps.sessions fd c' hc'

/-- A move never takes back an accepted connection. -/
theorem Moves.accepted_le (hm : Moves s a s') : s.accepted ≤ s'.accepted := by
  rcases hm.keeps with ⟨cfd, -, rfl⟩ | hkeeps
  · exact Nat.le_succ _
  · exact hkeeps.accepted.ge

/-- A run never takes back an accepted connection. -/
theorem run_accepted_le (s : Server) (actions : List Action) :
    s.accepted ≤ (run act s actions).accepted := by
  have hact : ∀ (s : Server) a, s.accepted ≤ (s.act a).accepted :=
    fun s a => (act_moves s a).accepted_le
  exact run_preorder (r := fun s s' : Server => s.accepted ≤ s'.accepted) (fun _ => le_rfl)
    le_trans hact s actions

/-- Only accepted connections are connected. -/
theorem Consistent.connected_lt (h : Consistent s) {k : Nat} (hk : s.connected k = true) :
    k < s.accepted := by
  obtain ⟨fd, c, hc, rfl⟩ := connected_iff.mp hk
  exact h.numbered fd c hc

/-- A server that starts is consistent. -/
theorem consistent_start (kq listenFd : Int) (sends : List SendResult) :
    Consistent (start kq listenFd sends).view where
  keyed fd c hc := by rw [lookup_view] at hc; cases hc
  numbered fd c hc := by rw [lookup_view] at hc; cases hc
  sequenced fd c hc := by rw [lookup_view] at hc; cases hc
  distinct fd fd' c c' hc := by rw [lookup_view] at hc; cases hc
  nextSeq := rfl

/-- Every reachable server is consistent. -/
theorem Reachable.consistent (h : Reachable s) : Consistent s.view :=
  h.view_invariant consistent_start fun _ _ _ hc hm => hc.moves hm

/-- A session of an old connection at the end of a run was there from its beginning on. -/
theorem run_continues (actions : List Action) {fd : Int} {c' : ClientSession}
    (hc' : (run act s actions).view.sessions.lookup fd = some c') (hold : c'.conn < s.accepted) :
    ∃ c, s.view.sessions.lookup fd = some c ∧ Continues c c' := by
  induction actions generalizing s with
  | nil => exact ⟨c', hc', .refl c'⟩
  | cons a actions ih =>
    have hmoves := act_moves s a
    obtain ⟨c₁, hc₁, hcontinues₁⟩ := ih hc' (hold.trans_le hmoves.accepted_le)
    obtain ⟨c, hc, hcontinues⟩ := hmoves.continues hc₁ (hcontinues₁.conn ▸ hold)
    exact ⟨c, hc, hcontinues.trans hcontinues₁⟩

end Server

end SocketExchange
