import SocketExchange.Book.Levels
import SocketExchange.Server.ExchangeServer

/-!
# The server without its output

What a command does to the book, to the sessions and to the history does not
depend on how the sends go. The view of a server forgets the output queues, the
write registrations and the kernel; on the view, enqueueing a line is one entry of
the history, and the reports of a fill are a list of entries that can be written down.
-/

namespace SocketExchange

open Containers ClientSession

/-- A session without its output. -/
def ClientSession.profile (c : ClientSession) : ClientSession :=
  { c with outbuf := [], wantWrite := false }

/-- The session is sent the trades of an instrument. -/
def ClientSession.Follows (c : ClientSession) (instrument : Bytes) : Prop :=
  c.role = .marketData ∧ instrument ∈ c.subscriptions

instance (c : ClientSession) (instrument : Bytes) : Decidable (c.Follows instrument) :=
  inferInstanceAs (Decidable (_ ∧ _))

namespace Server

/-- A server without output queues and without the kernel. -/
def view (s : Server) : Server :=
  { s with sessions := UnorderedMap.mapValues ClientSession.profile s.sessions, kernel := {} }

variable {s : Server} {fd : Int} {c : ClientSession}

@[simp] theorem view_history : s.view.history = s.history := rfl
@[simp] theorem view_accepted : s.view.accepted = s.accepted := rfl

@[simp] theorem lookup_view :
    s.view.sessions.lookup fd = (s.sessions.lookup fd).map ClientSession.profile :=
  UnorderedMap.lookup_mapValues ..

/-- A session of the server shows its profile in the view. -/
theorem lookup_view_of (hc : s.sessions.lookup fd = some c) :
    s.view.sessions.lookup fd = some c.profile := by
  rw [lookup_view, hc, Option.map_some]

@[simp] theorem keys_view : s.view.sessions.keys = s.sessions.keys := UnorderedMap.keys_mapValues ..

@[simp] theorem lookup_update_self (s : Server) (fd : Int) (f : ClientSession → ClientSession) :
    (s.update fd f).sessions.lookup fd = (s.sessions.lookup fd).map f :=
  UnorderedMap.lookup_modify_self ..

/-- A changed session is found changed. -/
theorem lookup_update_of (hc : s.sessions.lookup fd = some c)
    (f : ClientSession → ClientSession) :
    (s.update fd f).sessions.lookup fd = some (f c) := by
  rw [lookup_update_self, hc, Option.map_some]

/-- Changing one session leaves the others alone. -/
theorem lookup_update_ne (s : Server) {fd fd' : Int} (h : fd' ≠ fd)
    (f : ClientSession → ClientSession) :
    (s.update fd f).sessions.lookup fd' = s.sessions.lookup fd' :=
  UnorderedMap.lookup_modify_ne h ..

/-- A change of a session that keeps some of its fields keeps them in the table. -/
theorem map_lookup_update {α : Type} {g : ClientSession → α} (s : Server) (fd : Int)
    (f : ClientSession → ClientSession) (hg : ∀ c, g (f c) = g c) (fd' : Int) :
    ((s.update fd f).sessions.lookup fd').map g = (s.sessions.lookup fd').map g := by
  rw [update, UnorderedMap.lookup_modify, Option.map_map]
  congr 1
  funext c
  rw [Function.comp_apply]
  split
  · exact hg c
  · rfl

@[simp] theorem view_log (obs : List Obs) : (s.log obs).view = s.view.log obs := rfl
@[simp] theorem view_withBook (book : OrderBook) :
    (s.withBook book).view = s.view.withBook book := rfl
@[simp] theorem view_kqAdd (filter : Filter) : (s.kqAdd fd filter).view = s.view := rfl
@[simp] theorem view_kqDel (filter : Filter) : (s.kqDel fd filter).view = s.view := rfl
@[simp] theorem view_close : (s.close fd).view = s.view := rfl
@[simp] theorem view_transmit (conn : Nat) (bytes : Bytes) (sends : List SendResult) :
    (s.transmit conn bytes sends).view = s.view := rfl

@[simp] theorem view_eraseSession : (s.eraseSession fd).view = s.view.eraseSession fd := by
  simp only [view, eraseSession, UnorderedMap.mapValues_erase]

/-- Logging twice is logging both. -/
theorem log_log (obs obs' : List Obs) : (s.log obs).log obs' = s.log (obs ++ obs') := by
  simp only [log, List.append_assoc]

@[simp] theorem log_nil : s.log [] = s := by
  simp only [log, List.append_nil]

/-- The book and the history are set independently. -/
theorem withBook_log (obs : List Obs) (book : OrderBook) :
    (s.log obs).withBook book = (s.withBook book).log obs := rfl

/-- Only the last book counts. -/
theorem withBook_withBook (book book' : OrderBook) :
    (s.withBook book).withBook book' = s.withBook book' := rfl

@[simp] theorem lookup_log (obs : List Obs) :
    (s.log obs).sessions.lookup fd = s.sessions.lookup fd := rfl

/-- A change of a session shows in the view as the change of its profile. -/
theorem view_update {f g : ClientSession → ClientSession}
    (h : ∀ c, (f c).profile = g c.profile) : (s.update fd f).view = s.view.update fd g := by
  simp only [view, update, UnorderedMap.mapValues_modify h]

/-- A change of the output alone does not show. -/
theorem view_update_output {f : ClientSession → ClientSession}
    (h : ∀ c, (f c).profile = c.profile) : (s.update fd f).view = s.view := by
  rw [view_update (g := id) h]
  simp only [update, UnorderedMap.modify_id]

@[simp] theorem view_setOutbuf (outbuf : List Bytes) :
    (s.update fd (setOutbuf outbuf)).view = s.view := view_update_output fun _ => rfl
@[simp] theorem view_setWantWrite (wantWrite : Bool) :
    (s.update fd (setWantWrite wantWrite)).view = s.view := view_update_output fun _ => rfl

@[simp] theorem view_setUsername (name : Bytes) :
    (s.update fd (setUsername name)).view = s.view.update fd (setUsername name) :=
  view_update fun _ => rfl
@[simp] theorem view_subscribe (instrument : Bytes) :
    (s.update fd (subscribe instrument)).view = s.view.update fd (subscribe instrument) :=
  view_update fun _ => rfl
@[simp] theorem view_unsubscribe (instrument : Bytes) :
    (s.update fd (unsubscribe instrument)).view = s.view.update fd (unsubscribe instrument) :=
  view_update fun _ => rfl
@[simp] theorem view_feedInbuf (bytes : Bytes) :
    (s.update fd (feedInbuf bytes)).view = s.view.update fd (feedInbuf bytes) :=
  view_update fun _ => rfl
@[simp] theorem view_setInbuf (inbuf : LineBuffer) :
    (s.update fd (setInbuf inbuf)).view = s.view.update fd (setInbuf inbuf) :=
  view_update fun _ => rfl

/-- The role is inferred from the profile alone. -/
theorem profile_inferRole (cmd : Bytes) (c : ClientSession) :
    (inferRole cmd c).profile = inferRole cmd c.profile := by
  unfold inferRole
  have hrole : c.profile.role = c.role := rfl
  rw [hrole]
  split_ifs <;> rfl

@[simp] theorem view_inferRole (cmd : Bytes) :
    (s.update fd (inferRole cmd)).view = s.view.update fd (inferRole cmd) :=
  view_update (profile_inferRole cmd)

/-- Inferring a role leaves the input buffer alone. -/
theorem inferRole_inbuf (cmd : Bytes) (c : ClientSession) :
    (inferRole cmd c).inbuf = c.inbuf := by
  unfold inferRole
  split_ifs <;> rfl

/-- Inferring a role leaves the username alone. -/
theorem inferRole_username (cmd : Bytes) (c : ClientSession) :
    (inferRole cmd c).username = c.username := by
  unfold inferRole
  split_ifs <;> rfl

/-- Inferring a role leaves the subscriptions alone. -/
theorem inferRole_subscriptions (cmd : Bytes) (c : ClientSession) :
    (inferRole cmd c).subscriptions = c.subscriptions := by
  unfold inferRole
  split_ifs <;> rfl

/-- An empty command word infers nothing. -/
theorem inferRole_nil : inferRole [] = id := by
  funext c
  unfold inferRole
  split_ifs with hrole htrader hmd
  · exact absurd htrader (by decide)
  · exact absurd hmd (by decide)
  · rfl
  · rfl

/-- A trader's command makes a trader of any session that is not for market data. -/
theorem inferRole_trader {cmd : Bytes} {c : ClientSession} (hcmd : traderCmd cmd = true)
    (hrole : c.role ≠ .marketData) : (inferRole cmd c).role = .trader := by
  unfold inferRole
  split_ifs with hunknown
  · rfl
  · cases h : c.role with
    | unknown => exact absurd h hunknown
    | trader => rfl
    | marketData => exact absurd h hrole

/-! ## Enqueueing -/

/-- The entry made by a line for the session of a descriptor, if there is one. -/
def voice (s : Server) (fd : Int) (line : Bytes) : List Obs :=
  match s.sessions.lookup fd with
  | none => []
  | some c => [.enqueued c.conn line]

/-- However the sends go, an enqueued line is one entry. -/
theorem view_enqueue (s : Server) (fd : Int) (line : Bytes) :
    (s.enqueue fd line).view = s.view.log (s.view.voice fd line) := by
  simp only [enqueue, voice, lookup_view]
  cases s.sessions.lookup fd with
  | none => rw [Option.map_none, log_nil]
  | some c =>
    simp only [Option.map_some]
    have hconn : c.profile.conn = c.conn := rfl
    rw [hconn]
    split
    · rw [view_setOutbuf, view_log]
    · split
      · rfl
      · rfl
      · split
        · rw [view_setOutbuf, view_transmit, view_log]
        · rw [view_setWantWrite, view_kqAdd, view_setOutbuf, view_transmit, view_log]

@[simp] theorem book_enqueue (s : Server) (fd : Int) (line : Bytes) :
    (s.enqueue fd line).book = s.book := by
  have hview := congrArg Server.book (s.view_enqueue fd line)
  exact hview

/-- An enqueued line is an entry, whatever becomes of its sends. -/
theorem history_enqueue (hc : s.sessions.lookup fd = some c) (line : Bytes) :
    (s.enqueue fd line).history = s.history ++ [.enqueued c.conn line] := by
  have hview := congrArg Server.history (s.view_enqueue fd line)
  rw [voice, lookup_view, hc] at hview
  exact hview

/-- A reply to a session that exists is one entry. -/
theorem view_reply (s : Server) (hc : s.sessions.lookup fd = some c) (reply : Bytes) :
    (s.enqueue fd reply).view = s.view.log [.enqueued c.conn reply] := by
  rw [view_enqueue, voice, lookup_view, hc]
  rfl

/-! ## Reporting a fill -/

/-- The entry made by a report for the owner named in a fill. -/
def ownerVoice (s : Server) (party : Int × UInt64) (line : Bytes) : List Obs :=
  match s.sessions.lookup party.1 with
  | none => []
  | some c => if c.sessionSeq = party.2 then [.enqueued c.conn line] else []

/-- The connection of a descriptor, if it follows the trades of an instrument. -/
def follower (s : Server) (instrument : Bytes) (fd : Int) : Option Nat :=
  match s.sessions.lookup fd with
  | none => none
  | some c => if c.Follows instrument then some c.conn else none

/-- The connections that are sent the trades of an instrument. -/
def followers (s : Server) (instrument : Bytes) : List Nat :=
  s.sessions.keys.filterMap (s.follower instrument)

/-- The line that reports a fill to the owner on a side. -/
def reportLine (f : Fill) : Side → Bytes
  | .buy => msgBought f.instrument f.qty f.price
  | .sell => msgSold f.instrument f.qty f.price

/-- The TRADE lines of a fill. -/
def tradeVoice (s : Server) (f : Fill) : List Obs :=
  (s.followers f.instrument).map fun k => .enqueued k (msgTrade f.instrument f.qty f.price)

/-- The entries a fill makes: the buyer's report, the seller's, and the public trade. -/
def fillVoice (s : Server) (f : Fill) : List Obs :=
  .filled f :: s.ownerVoice (f.party .buy) (reportLine f .buy) ++
    s.ownerVoice (f.party .sell) (reportLine f .sell) ++ s.tradeVoice f

/-- What is said of a fill does not depend on the history. -/
theorem fillVoice_log (s : Server) (obs : List Obs) : (s.log obs).fillVoice = s.fillVoice := rfl

private theorem view_notify (s : Server) (fd : Int) (seq : UInt64) (line : Bytes) :
    (s.notify fd seq line).view = s.view.log (s.view.ownerVoice (fd, seq) line) := by
  simp only [notify, ownerVoice, lookup_view]
  cases h : s.sessions.lookup fd with
  | none => rw [Option.map_none, log_nil]
  | some c =>
    simp only [Option.map_some]
    have hseq : c.profile.sessionSeq = c.sessionSeq := rfl
    rw [hseq]
    split
    · rw [view_enqueue, voice, lookup_view, h]
      rfl
    · rw [log_nil]

private theorem view_tradeTo (instrument msg : Bytes) (s : Server) (fd : Int) :
    (s.tradeTo instrument msg fd).view =
      s.view.log ((s.view.follower instrument fd).toList.map (.enqueued · msg)) := by
  simp only [tradeTo, follower, lookup_view]
  cases h : s.sessions.lookup fd with
  | none => simp only [Option.map_none, Option.toList_none, List.map_nil, log_nil]
  | some c =>
    simp only [Option.map_some]
    by_cases hfollows : c.Follows instrument
    · have hvoice : s.view.voice fd msg = [.enqueued c.conn msg] := by
        rw [voice, lookup_view, h]
        rfl
      have hprofile : c.profile.Follows instrument := hfollows
      obtain ⟨hrole, hsub⟩ := hfollows
      simp only [hrole, hsub, ne_eq, not_true_eq_false, if_false, if_pos hprofile,
        Option.toList_some, List.map_cons, List.map_nil, view_enqueue, hvoice]
      rfl
    · have hprofile : ¬ c.profile.Follows instrument := hfollows
      rw [if_neg hprofile, Option.toList_none, List.map_nil, log_nil]
      split
      · rfl
      · split
        · rfl
        · rename_i hrole hsub
          exact absurd ⟨not_not.mp hrole, not_not.mp hsub⟩ hfollows

private theorem view_broadcast (instrument msg : Bytes) (fds : List Int) (s : Server) :
    (fds.foldl (tradeTo instrument msg) s).view =
      s.view.log ((fds.filterMap (s.view.follower instrument)).map (.enqueued · msg)) := by
  induction fds generalizing s with
  | nil => simp only [List.foldl_nil, List.filterMap_nil, List.map_nil, log_nil]
  | cons fd fds ih =>
    have hsame : (s.tradeTo instrument msg fd).view.follower instrument =
        s.view.follower instrument := by
      rw [view_tradeTo]
      rfl
    rw [List.foldl_cons, ih, hsame, view_tradeTo, log_log, ← List.map_append, List.filterMap_cons]
    cases s.view.follower instrument fd <;> rfl

private theorem view_broadcastTrade (s : Server) (instrument : Bytes) (qty price : Int) :
    (s.broadcastTrade instrument qty price).view =
      s.view.log ((s.view.followers instrument).map
        (.enqueued · (msgTrade instrument qty price))) := by
  rw [broadcastTrade, view_broadcast, followers, keys_view]

private theorem view_reportFill (s : Server) (f : Fill) :
    (s.reportFill f).view = s.view.log (s.view.fillVoice f) := by
  simp only [reportFill, view_broadcastTrade, view_notify, view_log, log_log, fillVoice,
    List.append_assoc]
  rfl

/-- The loop over the fills makes the entries of each in turn. -/
theorem view_reportFills (fills : List Fill) (s : Server) :
    (fills.foldl reportFill s).view = s.view.log (fills.flatMap s.view.fillVoice) := by
  induction fills generalizing s with
  | nil => rw [List.foldl_nil, List.flatMap_nil, log_nil]
  | cons f fills ih =>
    rw [List.foldl_cons, ih, view_reportFill, List.flatMap_cons, log_log]
    rfl

/-! ## Closing -/

/-- Closing a session, as it shows in the view. -/
def forget (s : Server) (fd : Int) : Server :=
  match s.sessions.lookup fd with
  | none => s
  | some c => (s.eraseSession fd).log [.closed c.conn]

/-- Forgetting a session erases it and records its end. -/
theorem forget_eq (hc : s.sessions.lookup fd = some c) :
    s.forget fd = (s.eraseSession fd).log [.closed c.conn] := by
  simp only [forget, hc]

/-- Forgetting a session records its end. -/
theorem history_forget (hc : s.sessions.lookup fd = some c) :
    (s.forget fd).history = s.history ++ [.closed c.conn] := by
  rw [forget_eq hc]
  rfl

/-- Forgetting a session leaves the listening socket. -/
theorem listenFd_forget (s : Server) (fd : Int) : (s.forget fd).listenFd = s.listenFd := by
  unfold forget
  cases s.sessions.lookup fd <;> rfl

/-- Forgetting adds at most the entry that says so. -/
theorem forget_entries (s : Server) (fd : Int) :
    ∃ obs, (s.forget fd).history = s.history ++ obs ∧ ∀ o ∈ obs, ∃ k, o = .closed k := by
  unfold forget
  cases s.sessions.lookup fd with
  | none => exact ⟨[], (List.append_nil _).symm, List.forall_mem_nil _⟩
  | some c => exact ⟨[.closed c.conn], rfl, List.forall_mem_singleton.mpr ⟨c.conn, rfl⟩⟩

/-- `close_session` forgets the session, as far as the view goes. -/
theorem view_closeSession (s : Server) (fd : Int) :
    (s.closeSession fd).view = s.view.forget fd := by
  simp only [closeSession, forget, lookup_view]
  cases s.sessions.lookup fd with
  | none => rfl
  | some c =>
    simp only [Option.map_some]
    split <;> simp only [view_log, view_eraseSession, view_close, view_kqDel] <;> rfl

end Server

end SocketExchange
