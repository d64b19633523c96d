import SocketExchange.Service.Calls
import SocketExchange.Service.Lines
import SocketExchange.Service.Wakeups

/-!
# Output channels

Seen from the kernel, a server is a set of channels, one for each connection, that share
the results of the sends: a line is sent or waits behind what waits already, a backlog is
flushed, a channel is dropped. Which of these an action does is read off the entries it
adds to the history, and the channels of the server are moved by them alone.
-/

namespace SocketExchange

open Containers ClientSession Runs

/-- The output side of all connections. -/
@[ext]
structure Channels where
  sends : List SendResult
  /-- The bytes accepted on each connection. -/
  wire : Nat → Bytes
  /-- What waits for each connection. -/
  queue : Nat → List Bytes

/-- What is done to a channel. -/
inductive Output where
  | line (k : Nat) (line : Bytes)
  | flush (k : Nat)
  | drop (k : Nat)
  deriving DecidableEq

/-- The connection that an output is for. -/
def Output.conn : Output → Nat
  | .line k _ => k
  | .flush k => k
  | .drop k => k

/-- The entry as a step of the channels, if it is one. -/
def Obs.output : Obs → Option Output
  | .enqueued k line => some (.line k line)
  | .closed k => some (.drop k)
  | _ => none

namespace Channels

/-- What an output does to the channels. -/
def step (ch : Channels) : Output → Channels
  | .line k line =>
    if ch.queue k ≠ [] then
      { ch with queue := Function.update ch.queue k (ch.queue k ++ [framed line]) }
    else
      let r := Server.sendLoop ch.sends (framed line)
      { sends := r.sends
        wire := Function.update ch.wire k (ch.wire k ++ r.accepted)
        queue := Function.update ch.queue k (if r.stop = .blocked then [r.left] else []) }
  | .flush k =>
    let r := Server.drainLoop ch.sends (ch.queue k)
    { sends := r.sends
      wire := Function.update ch.wire k (ch.wire k ++ r.accepted)
      queue := Function.update ch.queue k r.left }
  | .drop k => { ch with queue := Function.update ch.queue k [] }

/-- In this step a send of the connection fails hard. -/
def FailsOn (k : Nat) (ch : Channels) : Output → Prop
  | .line k' line => k' = k ∧ ch.queue k = [] ∧ fails ch.sends (framed line).length = true
  | .flush k' => k' = k ∧ (Server.drainLoop ch.sends (ch.queue k)).stop = .failed
  | .drop _ => False

instance (k : Nat) (ch : Channels) : ∀ o, Decidable (FailsOn k ch o)
  | .line .. => inferInstanceAs (Decidable (_ ∧ _ ∧ _))
  | .flush _ => inferInstanceAs (Decidable (_ ∧ _))
  | .drop _ => .isFalse id

/-- No step fails on the connection. -/
def Unfailing (k : Nat) (ch : Channels) (outputs : List Output) : Prop :=
  Admissible (fun ch o => ¬ FailsOn k ch o) step ch outputs

instance (k : Nat) (ch : Channels) (outputs : List Output) : Decidable (Unfailing k ch outputs) :=
  inferInstanceAs (Decidable (Admissible ..))

end Channels

namespace Server

variable {s s' : Server} {fd : Int} {c : ClientSession} {k : Nat}

/-- What waits for a connection. -/
def backlog (s : Server) (k : Nat) : List Bytes :=
  ((s.sessions.entries.find? fun e => e.2.conn = k).map fun e => e.2.outbuf).getD []

/-- The channels of a server. -/
def channels (s : Server) : Channels := ⟨s.kernel.sends, s.kernel.wire, s.backlog⟩

/-- The backlog of a connection is its session's queue, and empty if it has none. -/
theorem backlog_eq {q : List Bytes}
    (hopen : ∀ fd c, s.sessions.lookup fd = some c → c.conn = k → c.outbuf = q)
    (hgone : s.connected k = false → q = []) : s.backlog k = q := by
  unfold backlog
  cases hfind : s.sessions.entries.find? fun e => e.2.conn = k with
  | none =>
    refine (hgone ?_).symm
    rw [connected, List.any_eq_false]
    exact List.find?_eq_none.mp hfind
  | some e =>
    have hmem := List.mem_of_find?_eq_some hfind
    have hconn := List.find?_some hfind
    exact hopen e.1 e.2 (UnorderedMap.mem_entries_iff.mp hmem) (of_decide_eq_true hconn)

/-- The backlog of a connection is the output buffer of its session. -/
theorem Consistent.backlog (h : Consistent s) (hc : s.sessions.lookup fd = some c) :
    s.backlog c.conn = c.outbuf := by
  refine backlog_eq (fun fd' c' hc' hconn => ?_) fun hgone => ?_
  · obtain rfl := h.distinct fd' fd c' c hc' hc hconn
    rw [Option.some.inj (hc'.symm.trans hc)]
  · have hopen := connected_iff.mpr ⟨fd, c, hc, rfl⟩
    rw [hgone] at hopen
    cases hopen

/-- A connection without a session has no backlog. -/
theorem backlog_gone (h : s.connected k = false) : s.backlog k = [] := by
  refine backlog_eq (fun fd c hc hconn => ?_) fun _ => rfl
  have hopen := connected_iff.mpr ⟨fd, c, hc, hconn⟩
  rw [h] at hopen
  cases hopen

/-- Sessions with the same connections and queues make the same backlogs. -/
theorem Consistent.backlog_congr (h : Consistent s)
    (hsame : ∀ fd, (s'.sessions.lookup fd).map (fun c => (c.conn, c.outbuf)) =
      (s.sessions.lookup fd).map fun c => (c.conn, c.outbuf)) : s'.backlog = s.backlog := by
  funext k
  refine backlog_eq (fun fd c' hc' hconn => ?_) fun hgone => backlog_gone ?_
  · have hat := hsame fd
    rw [hc', Option.map_some, eq_comm, Option.map_eq_some_iff] at hat
    obtain ⟨c, hc, he⟩ := hat
    obtain ⟨hconn', houtbuf⟩ := Prod.mk.inj he
    rw [← hconn, ← hconn', h.backlog hc, houtbuf]
  · rw [← hgone]
    refine (connected_congr (fun fd => ?_) k).symm
    have hat := congrArg (Option.map Prod.fst) (hsame fd)
    rwa [Option.map_map, Option.map_map] at hat

/-- A change of one session, or its end, changes its backlog alone. -/
theorem Consistent.backlog_at (h : Consistent s) (hc : s.sessions.lookup fd = some c)
    (hconn : ∀ c', s'.sessions.lookup fd = some c' → c'.conn = c.conn)
    (hother : ∀ fd', fd' ≠ fd → s'.sessions.lookup fd' = s.sessions.lookup fd') :
    s'.backlog = Function.update s.backlog c.conn
      (((s'.sessions.lookup fd).map fun c => c.outbuf).getD []) := by
  funext k
  by_cases hk : k = c.conn
  · subst hk
    rw [Function.update_self]
    refine backlog_eq (fun fd' c' hc' hconn' => ?_) fun hgone => ?_
    · by_cases hfd : fd' = fd
      · rw [← hfd, hc', Option.map_some, Option.getD_some]
      · rw [hother fd' hfd] at hc'
        exact absurd (h.distinct fd' fd c' c hc' hc hconn') hfd
    · cases hself : s'.sessions.lookup fd with
      | none => rfl
      | some c' =>
        have hopen := connected_iff.mpr ⟨fd, c', hself, hconn c' hself⟩
        rw [hgone] at hopen
        cases hopen
  · rw [Function.update_of_ne hk]
    refine backlog_eq (fun fd' c' hc' hconn' => ?_) fun hgone => backlog_gone ?_
    · by_cases hfd : fd' = fd
      · subst hfd
        exact absurd (hconn'.symm.trans (hconn c' hc')) hk
      · rw [hother fd' hfd] at hc'
        rw [← hconn', h.backlog hc']
    · rw [Bool.eq_false_iff] at hgone ⊢
      intro hopen
      obtain ⟨fd', c', hc', hconn'⟩ := connected_iff.mp hopen
      refine hgone (connected_iff.mpr ⟨fd', c', ?_, hconn'⟩)
      rw [hother fd' ?_]
      · exact hc'
      · rintro rfl
        rw [hc] at hc'
        exact hk (hconn'.symm.trans (congrArg ClientSession.conn (Option.some.inj hc').symm))

/-! ## What calls and flushes do to the channels -/

/-- Closing a session adds the entry that says so. -/
theorem history_close (hc : s.sessions.lookup fd = some c) :
    (s.closeSession fd).history = s.history ++ [.closed c.conn] := by
  simp only [closeSession, hc]
  split <;> rfl

/-- Changing a session changes the backlog of its connection only. -/
theorem Consistent.backlog_update (h : Consistent s) (hc : s.sessions.lookup fd = some c)
    {f : ClientSession → ClientSession} (hconn : (f c).conn = c.conn) :
    (s.update fd f).backlog = Function.update s.backlog c.conn (f c).outbuf := by
  have hself : (s.update fd f).sessions.lookup fd = some (f c) := lookup_update_of hc _
  have hconn' : ∀ c', (s.update fd f).sessions.lookup fd = some c' → c'.conn = c.conn :=
    fun c' hc' => Option.some.inj (hself.symm.trans hc') ▸ hconn
  have hat := h.backlog_at hc hconn' fun fd' hne => UnorderedMap.lookup_modify_ne hne ..
  rw [hat, hself, Option.map_some, Option.getD_some]

/-- An enqueued line is a step of the channels. -/
theorem channels_enqueue (h : Consistent s) (hc : s.sessions.lookup fd = some c) (line : Bytes) :
    (s.enqueue fd line).channels = s.channels.step (.line c.conn line) := by
  have hbacklog : s.channels.queue c.conn = c.outbuf := h.backlog hc
  have henqueues := enqueue_enqueues hc line
  generalize s.enqueue fd line = s' at henqueues ⊢
  rw [Channels.step, hbacklog]
  have hscript : s.channels.sends = s.kernel.sends := rfl
  rw [hscript]
  let r := sendLoop s.kernel.sends (framed line)
  have hsent : Consistent (((s.log [.enqueued c.conn line]).transmit c.conn r.accepted r.sends)) :=
    ⟨h.keyed, h.numbered, h.sequenced, h.distinct, h.nextSeq⟩
  cases henqueues with
  | behind hwaits =>
    have hlogged : Consistent (s.log [.enqueued c.conn line]) := h.keeps (keeps_log s _)
    rw [if_pos hwaits]
    refine Channels.ext rfl rfl ?_
    exact hlogged.backlog_update (f := setOutbuf (c.outbuf ++ [framed line])) hc rfl
  | direct hempty hstop =>
    rw [if_neg (not_not.mpr hempty)]
    refine Channels.ext rfl rfl ?_
    dsimp only
    rw [if_neg hstop, ← hempty, ← hbacklog, Function.update_eq_self]
    rfl
  | held hempty hstop =>
    rw [if_neg (not_not.mpr hempty)]
    refine Channels.ext rfl rfl ?_
    dsimp only
    rw [if_pos hstop]
    exact hsent.backlog_update (f := setOutbuf [r.left]) hc rfl
  | armed hempty hstop =>
    rw [if_neg (not_not.mpr hempty)]
    refine Channels.ext rfl rfl ?_
    dsimp only
    rw [if_pos hstop]
    have hqueued := hsent.backlog_update (f := setOutbuf [r.left]) hc rfl
    have hkept := hsent.keeps (keeps_update _ fd (setOutbuf [r.left]) fun _ => ⟨rfl, Or.inr rfl⟩)
    refine Eq.trans (hkept.backlog_congr fun fd' => ?_) hqueued
    exact map_lookup_update _ fd (setWantWrite true) (fun _ => rfl) fd'

/-- A change that keeps the output side of a session keeps the channels. -/
theorem channels_changed (h : Consistent s) {f : ClientSession → ClientSession}
    (hf : ∀ c, Keeping c (f c)) (fd : Int) : (s.update fd f).channels = s.channels := by
  refine Channels.ext rfl rfl (h.backlog_congr fun fd' => ?_)
  refine map_lookup_update s fd f (fun c => ?_) fd'
  rw [(hf c).outbuf, (hf c).continues.conn]

/-- Closing a session drops its channel. -/
theorem channels_close (h : Consistent s) (hc : s.sessions.lookup fd = some c) :
    (s.closeSession fd).channels = s.channels.step (.drop c.conn) := by
  obtain ⟨hsends, hwire⟩ := closeSession_kernel s fd
  have hnone := lookup_closeSession s fd
  have hconn : ∀ c', (s.closeSession fd).sessions.lookup fd = some c' → c'.conn = c.conn := by
    intro c' hc'
    rw [hnone] at hc'
    cases hc'
  have hat := h.backlog_at hc hconn fun fd' hne => ?_
  · rw [hnone] at hat
    exact Channels.ext hsends hwire hat
  · simp only [closeSession, hc]
    rw [lookup_log, eraseSession, AList.lookup_erase_ne hne]
    split <;> rfl

/-- A new session has an empty channel. -/
theorem channels_open (h : Consistent s) {cfd : Int} (hfree : s.Free cfd) :
    (s.openSession cfd).channels = s.channels := by
  refine Channels.ext rfl rfl (funext fun k => ?_)
  refine backlog_eq (fun fd c hc hconn => ?_) fun hgone => ?_
  · by_cases hfd : fd = cfd
    · subst hfd
      rw [openSession_fresh hfree] at hc
      obtain rfl := Option.some.inj hc
      refine (backlog_gone (Bool.eq_false_iff.mpr fun hopen => ?_)).symm
      exact absurd (h.connected_lt hopen) (by rw [← hconn]; exact lt_irrefl _)
    · have hold : s.sessions.lookup fd = some c := by
        rwa [openSession, kqAdd, AList.lookup_insert_ne hfd] at hc
      rw [← hconn]
      exact (h.backlog hold).symm
  · refine backlog_gone (Bool.eq_false_iff.mpr fun hopen => ?_)
    obtain ⟨fd, c, hc, hconn⟩ := connected_iff.mp hopen
    rw [Bool.eq_false_iff] at hgone
    refine hgone (connected_iff.mpr ⟨fd, c, ?_, hconn⟩)
    have hne : fd ≠ cfd := by
      rintro rfl
      rw [hfree.2.2] at hc
      cases hc
    rw [openSession, kqAdd, AList.lookup_insert_ne hne]
    exact hc

/-- Every call is in the channels what its entries are. -/
theorem Call.channels (h : Consistent s) (hcall : Call s s') :
    ∃ obs, s'.history = s.history ++ obs ∧
      s'.channels = run Channels.step s.channels (obs.filterMap Obs.output) := by
  cases hcall with
  | @logged obs hsilent =>
    refine ⟨obs, rfl, ?_⟩
    have hnone : obs.filterMap Obs.output = [] := by
      rw [List.filterMap_eq_nil_iff]
      intro o ho
      have ho' := hsilent o ho
      cases o with
      | enqueued => exact ho'.elim
      | closed => exact ho'.elim
      | _ => rfl
    rw [hnone]
    rfl
  | booked => exact ⟨[], (List.append_nil _).symm, rfl⟩
  | changed hf => exact ⟨[], (List.append_nil _).symm, channels_changed h hf _⟩
  | @enqueued fd c line hc =>
    exact ⟨_, history_enqueue hc line, channels_enqueue h hc line⟩
  | @closed fd c hc => exact ⟨_, history_close hc, channels_close h hc⟩
  | @opened cfd hfree => exact ⟨[.accepted s.accepted cfd], rfl, channels_open h hfree⟩
  | rehashed =>
    refine ⟨[], (List.append_nil _).symm, Channels.ext rfl rfl (h.backlog_congr fun fd => ?_)⟩
    rw [rehash, UnorderedMap.lookup_reorder]

end Server

end SocketExchange
