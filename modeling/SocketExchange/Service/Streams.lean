import SocketExchange.Library.Runs
import SocketExchange.Server.ExchangeServer

/-!
# Output streams

What a session has been sent and what waits in its output queue make up the lines
enqueued to it, byte for byte, as long as no send fails. A send that fails while the
backlog is flushed ends the connection, so that nothing follows the gap; a send that
fails inside `enqueue` does not.
-/

namespace SocketExchange

open Containers ClientSession Runs

/-- The bytes of a line on the wire. -/
def framed (line : Bytes) : Bytes := line ++ [10]

/-- A result that is no failure. -/
def SendResult.soft : SendResult → Bool
  | .sent _ => true
  | .eintr => true
  | .again => true
  | .zero => false
  | .failed => false

/-- A send returns 0 or fails before `n` bytes are accepted and before the window is full. -/
def fails : List SendResult → Nat → Bool
  | [], _ => false
  | .sent m :: sends, n => fails sends (n - (m + 1))
  | .eintr :: sends, n => fails sends n
  | .again :: _, _ => false
  | .zero :: _, n => n ≠ 0
  | .failed :: _, n => n ≠ 0

/-- What is done to the output of one session. -/
inductive OutputCall where
  | enqueue (line : Bytes)
  | onWritable
  deriving DecidableEq

/-- The bytes a call adds to the stream. -/
def OutputCall.bytes : OutputCall → Bytes
  | .enqueue line => framed line
  | .onWritable => []

namespace Server

/-- What a call that sends does to the server. -/
def output (fd : Int) (s : Server) : OutputCall → Server
  | .enqueue line => s.enqueue fd line
  | .onWritable => s.onWritable fd

/-! ## The send loops -/

/-- No send is no failing send. -/
theorem fails_zero (sends : List SendResult) : fails sends 0 = false := by
  induction sends with
  | nil => rfl
  | cons result sends ih =>
    cases result with
    | sent m =>
      rw [fails, Nat.zero_sub]
      exact ih
    | eintr => exact ih
    | _ => rfl

/-- However the sends of a line go, what is accepted and what is left make up the line. -/
theorem sendLoop_contract (sends : List SendResult) (data : Bytes) :
    let r := sendLoop sends data
    r.accepted ++ r.left = data ∧ (r.stop = .done ↔ r.left = []) ∧
      (r.stop = .failed ↔ fails sends data.length = true) ∧ r.sends <:+ sends := by
  induction sends, data using sendLoop.induct with
  | case1 sends =>
    simp only [sendLoop, List.length_nil, fails_zero]
    exact ⟨rfl, by decide, by decide, List.suffix_refl _⟩
  | case2 data hne =>
    have hstop : data ≠ [] := hne
    simp only [sendLoop, fails, List.nil_append, hstop]
    exact ⟨trivial, by decide, by decide, List.suffix_refl _⟩
  | case3 n sends data hne ih =>
    obtain ⟨hdata, hdone, hfailed, hsends⟩ := ih
    simp only [sendLoop, fails, List.length_drop] at hfailed ⊢
    refine ⟨?_, hdone, hfailed, hsends.trans (List.suffix_cons ..)⟩
    rw [List.append_assoc, hdata, List.take_append_drop]
  | case4 sends data hne ih =>
    obtain ⟨hdata, hdone, hfailed, hsends⟩ := ih
    simp only [sendLoop, fails]
    exact ⟨hdata, hdone, hfailed, hsends.trans (List.suffix_cons ..)⟩
  | case5 sends data hne =>
    have hstop : data ≠ [] := hne
    simp only [sendLoop, fails, List.nil_append, hstop]
    exact ⟨trivial, by decide, by decide, List.suffix_cons ..⟩
  | case6 sends data hne =>
    have hstop : data ≠ [] := hne
    simp only [sendLoop, fails, List.nil_append, hstop, ne_eq, List.length_eq_zero_iff]
    exact ⟨trivial, by decide, by decide, List.suffix_cons ..⟩
  | case7 sends data hne =>
    have hstop : data ≠ [] := hne
    simp only [sendLoop, fails, List.nil_append, hstop, ne_eq, List.length_eq_zero_iff]
    exact ⟨trivial, by decide, by decide, List.suffix_cons ..⟩

/-- However the sends of a backlog go, what is accepted and what is left make up the backlog,
and no entry is left empty. -/
theorem drainLoop_contract (sends : List SendResult) (outbuf : List Bytes) :
    let r := drainLoop sends outbuf
    r.accepted ++ r.left.flatten = outbuf.flatten ∧
      ((∀ e ∈ outbuf, e ≠ []) → ∀ e ∈ r.left, e ≠ []) ∧ r.sends <:+ sends := by
  induction sends, outbuf using drainLoop.induct with
  | case1 sends =>
    simp only [drainLoop]
    exact ⟨rfl, id, List.suffix_refl _⟩
  | case2 outbuf hne =>
    simp only [drainLoop]
    exact ⟨rfl, id, List.suffix_refl _⟩
  | case3 n sends queue =>
    simp only [drainLoop, if_true]
    exact ⟨rfl, id, List.suffix_cons ..⟩
  | case4 n sends front queue hfront hshort =>
    simp only [drainLoop, if_neg hfront, if_pos hshort]
    refine ⟨?_, fun hall => ?_, List.suffix_cons ..⟩
    · rw [List.flatten_cons, List.flatten_cons, ← List.append_assoc, List.take_append_drop]
    · obtain ⟨-, hqueue⟩ := List.forall_mem_cons.mp hall
      refine List.forall_mem_cons.mpr ⟨fun hnil => ?_, hqueue⟩
      rw [List.drop_eq_nil_iff] at hnil
      omega
  | case5 n sends front queue hfront hwhole ih =>
    obtain ⟨hflat, hleft, hsends⟩ := ih
    simp only [drainLoop, if_neg hfront, if_neg hwhole]
    refine ⟨?_, fun hall => hleft (List.forall_mem_cons.mp hall).2,
      hsends.trans (List.suffix_cons ..)⟩
    rw [List.append_assoc, hflat, List.flatten_cons]
  | case6 sends outbuf hne ih =>
    obtain ⟨hflat, hleft, hsends⟩ := ih
    simp only [drainLoop]
    exact ⟨hflat, hleft, hsends.trans (List.suffix_cons ..)⟩
  | case7 sends outbuf hne =>
    simp only [drainLoop]
    exact ⟨rfl, id, List.suffix_cons ..⟩
  | case8 sends outbuf hne =>
    simp only [drainLoop]
    exact ⟨rfl, id, List.suffix_cons ..⟩
  | case9 sends outbuf hne =>
    simp only [drainLoop]
    exact ⟨rfl, id, List.suffix_cons ..⟩

/-- Soft results fail no line. -/
theorem fails_soft {sends : List SendResult} (hsoft : ∀ r ∈ sends, r.soft = true) (n : Nat) :
    fails sends n = false := by
  induction sends generalizing n with
  | nil => rfl
  | cons result sends ih =>
    obtain ⟨hresult, hsends⟩ := List.forall_mem_cons.mp hsoft
    cases result with
    | sent m => exact ih hsends _
    | eintr => exact ih hsends _
    | again => rfl
    | zero => cases hresult
    | failed => cases hresult

/-- Soft results fail no backlog. -/
theorem drainLoop_soft {sends : List SendResult} (hsoft : ∀ r ∈ sends, r.soft = true)
    {outbuf : List Bytes} (hfull : ∀ e ∈ outbuf, e ≠ []) :
    (drainLoop sends outbuf).stop ≠ .failed := by
  induction sends, outbuf using drainLoop.induct with
  | case1 sends => simp only [drainLoop, ne_eq, reduceCtorEq, not_false_eq_true]
  | case2 outbuf hne => simp only [drainLoop, ne_eq, reduceCtorEq, not_false_eq_true]
  | case3 n sends queue => exact absurd rfl (hfull [] List.mem_cons_self)
  | case4 n sends front queue hfront hshort =>
    simp only [drainLoop, if_neg hfront, if_pos hshort, ne_eq, reduceCtorEq, not_false_eq_true]
  | case5 n sends front queue hfront hwhole ih =>
    simp only [drainLoop, if_neg hfront, if_neg hwhole]
    exact ih (List.forall_mem_cons.mp hsoft).2 (List.forall_mem_cons.mp hfull).2
  | case6 sends outbuf hne ih =>
    simp only [drainLoop]
    exact ih (List.forall_mem_cons.mp hsoft).2 hfull
  | case7 sends outbuf hne => simp only [drainLoop, ne_eq, reduceCtorEq, not_false_eq_true]
  | case8 sends outbuf hne => cases (List.forall_mem_cons.mp hsoft).1
  | case9 sends outbuf hne => cases (List.forall_mem_cons.mp hsoft).1

/-! ## One session's output -/

/-- The session of a descriptor is the connection's; what it was sent and what waits make up
the stream. -/
def Streaming (s : Server) (fd : Int) (k : Nat) (stream : Bytes) : Prop :=
  ∃ c, s.sessions.lookup fd = some c ∧ c.conn = k ∧ (∀ e ∈ c.outbuf, e ≠ []) ∧
    s.kernel.wire k ++ c.outbuf.flatten = stream

/-- The session is gone; what it was sent begins the stream. -/
def Ended (s : Server) (fd : Int) (k : Nat) (stream : Bytes) : Prop :=
  s.sessions.lookup fd = none ∧ s.kernel.wire k <+: stream

/-- If `enqueue` is about to send the line itself, none of its sends fails. -/
def Unfailing (fd : Int) (s : Server) : OutputCall → Prop
  | .enqueue line => ∀ c ∈ s.sessions.lookup fd, c.outbuf = [] →
      fails s.kernel.sends (framed line).length = false
  | .onWritable => True

instance (fd : Int) (s : Server) : ∀ call, Decidable (Unfailing fd s call)
  | .enqueue line => inferInstanceAs (Decidable (∀ c ∈ s.sessions.lookup fd, c.outbuf = [] →
      fails s.kernel.sends (framed line).length = false))
  | .onWritable => .isTrue trivial

variable {s : Server} {fd : Int} {k : Nat} {stream : Bytes}

@[simp] theorem kernel_log (s : Server) (obs : List Obs) : (s.log obs).kernel = s.kernel := rfl
@[simp] theorem kernel_update (s : Server) (fd : Int) (f : ClientSession → ClientSession) :
    (s.update fd f).kernel = s.kernel := rfl
@[simp] theorem sends_transmit (s : Server) (k : Nat) (bytes : Bytes) (sends : List SendResult) :
    (s.transmit k bytes sends).kernel.sends = sends := rfl
@[simp] theorem wire_transmit (s : Server) (k : Nat) (bytes : Bytes) (sends : List SendResult) :
    (s.transmit k bytes sends).kernel.wire k = s.kernel.wire k ++ bytes :=
  Function.update_self ..

/-- What `enqueue` does for a session that exists. -/
inductive Enqueues (s : Server) (fd : Int) (c : ClientSession) (line : Bytes) : Server → Prop
  /-- The line joins the backlog. -/
  | behind (hwaits : c.outbuf ≠ []) :
    Enqueues s fd c line
      ((s.log [.enqueued c.conn line]).update fd (setOutbuf (c.outbuf ++ [framed line])))
  /-- The line is sent, or what is left of it is dropped. -/
  | direct (hempty : c.outbuf = [])
      (hstop : (sendLoop s.kernel.sends (framed line)).stop ≠ .blocked) :
    Enqueues s fd c line ((s.log [.enqueued c.conn line]).transmit c.conn
      (sendLoop s.kernel.sends (framed line)).accepted
      (sendLoop s.kernel.sends (framed line)).sends)
  /-- What is left of the line begins a backlog. -/
  | held (hempty : c.outbuf = [])
      (hstop : (sendLoop s.kernel.sends (framed line)).stop = .blocked)
      (hwant : c.wantWrite = true) :
    Enqueues s fd c line (((s.log [.enqueued c.conn line]).transmit c.conn
      (sendLoop s.kernel.sends (framed line)).accepted
      (sendLoop s.kernel.sends (framed line)).sends).update fd
        (setOutbuf [(sendLoop s.kernel.sends (framed line)).left]))
  /-- And the descriptor is registered for writing. -/
  | armed (hempty : c.outbuf = [])
      (hstop : (sendLoop s.kernel.sends (framed line)).stop = .blocked)
      (hwant : c.wantWrite = false) :
    Enqueues s fd c line (((((s.log [.enqueued c.conn line]).transmit c.conn
      (sendLoop s.kernel.sends (framed line)).accepted
      (sendLoop s.kernel.sends (framed line)).sends).update fd
        (setOutbuf [(sendLoop s.kernel.sends (framed line)).left])).kqAdd c.fd .write).update fd
          (setWantWrite true))

/-- `enqueue` meets its description. -/
theorem enqueue_enqueues {c : ClientSession} (hc : s.sessions.lookup fd = some c) (line : Bytes) :
    Enqueues s fd c line (s.enqueue fd line) := by
  simp only [enqueue, hc]
  by_cases hempty : c.outbuf = []
  swap
  · rw [if_pos hempty]
    exact .behind hempty
  have hkernel : (s.log [.enqueued c.conn line]).kernel = s.kernel := rfl
  rw [if_neg (not_not.mpr hempty), ← framed, hkernel]
  cases hstop : (sendLoop s.kernel.sends (framed line)).stop with
  | failed => exact .direct hempty (by rw [hstop]; decide)
  | done => exact .direct hempty (by rw [hstop]; decide)
  | blocked =>
    rw [hempty, List.nil_append]
    cases hwant : c.wantWrite with
    | true => exact .held hempty hstop hwant
    | false => exact .armed hempty hstop hwant

/-- While a backlog waits, `enqueue` sends nothing and adds the line to it. -/
theorem enqueue_behind {c : ClientSession} (hc : s.sessions.lookup fd = some c)
    (hwaits : c.outbuf ≠ []) (line : Bytes) :
    (s.enqueue fd line).kernel = s.kernel ∧
      (s.enqueue fd line).sessions.lookup fd =
        some (setOutbuf (c.outbuf ++ [framed line]) c) := by
  have henqueues := enqueue_enqueues hc line
  generalize s.enqueue fd line = s' at henqueues ⊢
  cases henqueues with
  | behind =>
    refine ⟨rfl, ?_⟩
    rw [update, UnorderedMap.lookup_modify_self]
    exact congrArg (Option.map _) hc
  | direct hempty => exact absurd hempty hwaits
  | held hempty => exact absurd hempty hwaits
  | armed hempty => exact absurd hempty hwaits

/-- Without a backlog `enqueue` sends the line, and what must wait becomes the backlog. -/
theorem enqueue_direct {c : ClientSession} (hc : s.sessions.lookup fd = some c)
    (hempty : c.outbuf = []) (line : Bytes) :
    let r := sendLoop s.kernel.sends (framed line)
    (s.enqueue fd line).kernel.sends = r.sends ∧
      (s.enqueue fd line).kernel.wire c.conn = s.kernel.wire c.conn ++ r.accepted ∧
      ∃ c', (s.enqueue fd line).sessions.lookup fd = some c' ∧ c'.conn = c.conn ∧
        c'.outbuf = if r.stop = .blocked then [r.left] else [] := by
  intro r
  have hwire : ((s.log [.enqueued c.conn line]).transmit c.conn r.accepted r.sends).kernel.wire
      c.conn = s.kernel.wire c.conn ++ r.accepted := by rw [wire_transmit, kernel_log]
  have hqueue : (((s.log [.enqueued c.conn line]).transmit c.conn r.accepted r.sends).update fd
      (setOutbuf [r.left])).sessions.lookup fd = some (setOutbuf [r.left] c) := by
    rw [update, UnorderedMap.lookup_modify_self]
    exact congrArg (Option.map _) hc
  have henqueues := enqueue_enqueues hc line
  generalize s.enqueue fd line = s' at henqueues ⊢
  cases henqueues with
  | behind hwaits => exact absurd hempty hwaits
  | direct _ hstop => exact ⟨rfl, hwire, c, hc, rfl, by rw [if_neg hstop, hempty]⟩
  | held _ hstop => exact ⟨rfl, hwire, _, hqueue, rfl, (if_pos hstop).symm⟩
  | armed _ hstop =>
    refine ⟨rfl, hwire, setWantWrite true (setOutbuf [r.left] c), ?_, rfl, (if_pos hstop).symm⟩
    rw [update, UnorderedMap.lookup_modify_self]
    exact congrArg (Option.map _) hqueue

/-- A line whose sends do not fail joins the stream. -/
theorem Streaming.enqueue (h : Streaming s fd k stream) {line : Bytes}
    (hok : Unfailing fd s (.enqueue line)) :
    Streaming (s.enqueue fd line) fd k (stream ++ framed line) := by
  obtain ⟨c, hc, rfl, hfull, hstream⟩ := h
  by_cases hempty : c.outbuf = []
  · obtain ⟨-, hwire, c', hc', hconn, hqueue⟩ := enqueue_direct hc hempty line
    have hsound := hok c hc hempty
    obtain ⟨hline, hdone, hfailed, -⟩ := sendLoop_contract s.kernel.sends (framed line)
    rw [hempty, List.flatten_nil, List.append_nil] at hstream
    refine ⟨c', hc', hconn, ?_, ?_⟩
    · rw [hqueue]
      split
      · rename_i hblocked
        intro e he
        rw [List.mem_singleton.mp he]
        intro hnil
        rw [hdone.mpr hnil] at hblocked
        cases hblocked
      · exact fun e he => by cases he
    · rw [hwire, hstream, hqueue, List.append_assoc]
      congr 1
      cases hstop : (sendLoop s.kernel.sends (framed line)).stop with
      | blocked =>
        rw [if_pos rfl, List.flatten_singleton]
        exact hline
      | done =>
        rw [hdone.mp hstop] at hline
        exact hline
      | failed =>
        rw [hfailed.mp hstop] at hsound
        cases hsound
  · obtain ⟨hkernel, hqueue⟩ := enqueue_behind hc hempty line
    refine ⟨_, hqueue, rfl, ?_, ?_⟩
    · intro e he
      rcases List.mem_append.mp he with he | he
      · exact hfull e he
      · have hframed : framed line ≠ [] := List.append_ne_nil_of_right_ne_nil _ (by decide)
        exact List.mem_singleton.mp he ▸ hframed
    · rw [← hstream, hkernel, List.append_assoc]
      congr 1
      exact List.flatten_append.trans (congrArg _ List.flatten_singleton)

/-! ## Flushing -/

/-- A closed session is gone. -/
theorem lookup_closeSession (s : Server) (fd : Int) :
    (s.closeSession fd).sessions.lookup fd = none := by
  unfold closeSession
  cases hc : s.sessions.lookup fd with
  | none => exact hc
  | some c => exact AList.lookup_erase ..

/-- Closing a session sends nothing. -/
theorem closeSession_kernel (s : Server) (fd : Int) :
    (s.closeSession fd).kernel.sends = s.kernel.sends ∧
      (s.closeSession fd).kernel.wire = s.kernel.wire := by
  unfold closeSession
  cases s.sessions.lookup fd with
  | none => exact ⟨rfl, rfl⟩
  | some c =>
    dsimp only
    split <;> exact ⟨rfl, rfl⟩

/-- The state in which a backlog has been sent as far as it goes. -/
def flushed (s : Server) (fd : Int) (c : ClientSession) : Server :=
  let r := drainLoop s.kernel.sends c.outbuf
  (s.transmit c.conn r.accepted r.sends).update fd (setOutbuf r.left)

/-- A flushed session keeps what the kernel did not take. -/
theorem lookup_flushed {c : ClientSession} (hc : s.sessions.lookup fd = some c) :
    (s.flushed fd c).sessions.lookup fd =
      some (setOutbuf (drainLoop s.kernel.sends c.outbuf).left c) := by
  rw [flushed, update, UnorderedMap.lookup_modify_self]
  exact congrArg (Option.map _) hc

/-- What `onWritable` does for a session that exists. -/
inductive Flushes (s : Server) (fd : Int) (c : ClientSession) : Server → Prop
  /-- Something still waits, or the descriptor is not registered for writing. -/
  | settled (hstop : (drainLoop s.kernel.sends c.outbuf).stop ≠ .failed)
      (hwant : (drainLoop s.kernel.sends c.outbuf).stop = .done → c.wantWrite = false) :
    Flushes s fd c (s.flushed fd c)
  /-- Nothing waits any more, and the descriptor is unregistered for writing. -/
  | disarmed (hstop : (drainLoop s.kernel.sends c.outbuf).stop = .done)
      (hwant : c.wantWrite = true) :
    Flushes s fd c (((s.flushed fd c).kqDel fd .write).update fd (setWantWrite false))
  | failed (hstop : (drainLoop s.kernel.sends c.outbuf).stop = .failed) :
    Flushes s fd c (((s.flushed fd c).log [.sendFailed c.conn]).closeSession fd)

/-- `on_writable` meets its description. -/
theorem onWritable_cases {c : ClientSession} (hc : s.sessions.lookup fd = some c) :
    Flushes s fd c (s.onWritable fd) := by
  simp only [onWritable, hc]
  cases hstop : (drainLoop s.kernel.sends c.outbuf).stop with
  | blocked => exact .settled (by simp [hstop]) (by simp [hstop])
  | failed => exact .failed hstop
  | done =>
    cases hwant : c.wantWrite with
    | true => exact .disarmed hstop hwant
    | false => exact .settled (by simp [hstop]) fun _ => hwant

/-- What `onWritable` does with the results of its sends. -/
theorem onWritable_flushes {c : ClientSession} (hc : s.sessions.lookup fd = some c) :
    let r := drainLoop s.kernel.sends c.outbuf
    (s.onWritable fd).kernel.sends = r.sends ∧
      (s.onWritable fd).kernel.wire c.conn = s.kernel.wire c.conn ++ r.accepted ∧
      (if r.stop = .failed then (s.onWritable fd).sessions.lookup fd = none
        else ∃ c', (s.onWritable fd).sessions.lookup fd = some c' ∧ c'.conn = c.conn ∧
          c'.outbuf = r.left) := by
  intro r
  have hset := lookup_flushed hc
  have hsends : (s.flushed fd c).kernel.sends = r.sends := by
    rw [flushed, kernel_update, sends_transmit]
  have hwire : (s.flushed fd c).kernel.wire c.conn = s.kernel.wire c.conn ++ r.accepted := by
    rw [flushed, kernel_update, wire_transmit]
  have hflushes := onWritable_cases hc
  generalize s.onWritable fd = s' at hflushes
  cases hflushes with
  | settled hstop =>
    rw [if_neg hstop]
    exact ⟨hsends, hwire, _, hset, rfl, rfl⟩
  | disarmed hstop =>
    have hne : r.stop ≠ .failed := by simp [r, hstop]
    rw [if_neg hne]
    refine ⟨hsends, hwire, setWantWrite false (setOutbuf r.left c), ?_, rfl, rfl⟩
    rw [update, UnorderedMap.lookup_modify_self]
    exact congrArg (Option.map _) hset
  | failed hstop =>
    obtain ⟨hsends', hwire'⟩ := closeSession_kernel ((s.flushed fd c).log [.sendFailed c.conn]) fd
    rw [if_pos hstop]
    refine ⟨hsends'.trans hsends, ?_, lookup_closeSession ..⟩
    rw [hwire', kernel_log, hwire]

/-- Flushing moves bytes from the queue to the wire, or ends the session. -/
theorem Streaming.onWritable (h : Streaming s fd k stream) :
    Streaming (s.onWritable fd) fd k stream ∨ Ended (s.onWritable fd) fd k stream := by
  obtain ⟨c, hc, rfl, hfull, hstream⟩ := h
  obtain ⟨-, hwire, hend⟩ := onWritable_flushes hc
  obtain ⟨hflat, hleft, -⟩ := drainLoop_contract s.kernel.sends c.outbuf
  split_ifs at hend with hfailed
  · refine Or.inr ⟨hend, ?_⟩
    rw [hwire, ← hstream, ← hflat, ← List.append_assoc]
    exact List.prefix_append ..
  · obtain ⟨c', hc', hconn, hqueue⟩ := hend
    refine Or.inl ⟨c', hc', hconn, ?_, ?_⟩
    · rw [hqueue]
      exact hleft hfull
    · rw [hwire, hqueue, List.append_assoc, hflat, hstream]

/-! ## Whole runs -/

/-- Nothing is sent any more to a session that is gone. -/
theorem Ended.output (h : Ended s fd k stream) (call : OutputCall) :
    Ended (s.output fd call) fd k (stream ++ call.bytes) := by
  obtain ⟨hgone, hprefix⟩ := h
  have hsame : s.output fd call = s := by
    cases call with
    | enqueue line => simp only [Server.output, Server.enqueue, hgone]
    | onWritable => simp only [Server.output, Server.onWritable, hgone]
  rw [hsame]
  exact ⟨hgone, hprefix.trans (List.prefix_append ..)⟩

/-- A call that does not fail adds its bytes to the stream, unless it ends the session. -/
theorem Streaming.output (h : Streaming s fd k stream) {call : OutputCall}
    (hok : Unfailing fd s call) :
    Streaming (s.output fd call) fd k (stream ++ call.bytes) ∨
      Ended (s.output fd call) fd k (stream ++ call.bytes) := by
  cases call with
  | enqueue line => exact Or.inl (h.enqueue hok)
  | onWritable =>
    rw [OutputCall.bytes, List.append_nil]
    exact h.onWritable

private theorem run_streaming (h : Streaming s fd k stream ∨ Ended s fd k stream)
    {calls : List OutputCall} (hok : Admissible (Unfailing fd) (output fd) s calls) :
    Streaming (run (output fd) s calls) fd k (stream ++ calls.flatMap OutputCall.bytes) ∨
      Ended (run (output fd) s calls) fd k (stream ++ calls.flatMap OutputCall.bytes) := by
  induction calls generalizing s stream with
  | nil =>
    rw [List.flatMap_nil, List.append_nil]
    exact h
  | cons call calls ih =>
    rw [List.flatMap_cons, ← List.append_assoc]
    refine ih ?_ hok.2
    rcases h with h | h
    · exact h.output hok.1
    · exact Or.inr (h.output call)

/-- The sends of a call take results off the front of the script. -/
theorem output_sends_suffix {c : ClientSession} (hc : s.sessions.lookup fd = some c)
    (call : OutputCall) : (s.output fd call).kernel.sends <:+ s.kernel.sends := by
  cases call with
  | enqueue line =>
    rw [output]
    by_cases hempty : c.outbuf = []
    · obtain ⟨hsends, -⟩ := enqueue_direct hc hempty line
      obtain ⟨-, -, -, hsuffix⟩ := sendLoop_contract s.kernel.sends (framed line)
      rw [hsends]
      exact hsuffix
    · rw [(enqueue_behind hc hempty line).1]
  | onWritable =>
    obtain ⟨hsends, -⟩ := onWritable_flushes hc
    obtain ⟨-, -, hsuffix⟩ := drainLoop_contract s.kernel.sends c.outbuf
    rw [output, hsends]
    exact hsuffix

/-- While no send fails the session stays open. -/
theorem Streaming.output_soft (h : Streaming s fd k stream)
    (hsoft : ∀ r ∈ s.kernel.sends, r.soft = true) (call : OutputCall) :
    Streaming (s.output fd call) fd k (stream ++ call.bytes) ∧
      ∀ r ∈ (s.output fd call).kernel.sends, r.soft = true := by
  have hok : Unfailing fd s call := by
    cases call with
    | enqueue line => exact fun _ _ _ => fails_soft hsoft _
    | onWritable => trivial
  have hopen := h.output hok
  obtain ⟨c, hc, -, hfull, -⟩ := h
  refine ⟨hopen.resolve_right ?_, fun r hr =>
    hsoft r ((output_sends_suffix hc call).subset hr)⟩
  rintro ⟨hgone, -⟩
  cases call with
  | enqueue line =>
    rw [Server.output] at hgone
    by_cases hempty : c.outbuf = []
    · obtain ⟨-, -, c', hc', -⟩ := enqueue_direct hc hempty line
      rw [hc'] at hgone
      cases hgone
    · rw [(enqueue_behind hc hempty line).2] at hgone
      cases hgone
  | onWritable =>
    obtain ⟨-, -, hend⟩ := onWritable_flushes hc
    rw [if_neg (drainLoop_soft hsoft hfull)] at hend
    obtain ⟨c', hc', -⟩ := hend
    rw [Server.output, hc'] at hgone
    cases hgone

private theorem Streaming.run_soft (h : Streaming s fd k stream)
    (hsoft : ∀ r ∈ s.kernel.sends, r.soft = true) (calls : List OutputCall) :
    Streaming (run (Server.output fd) s calls) fd k (stream ++ calls.flatMap OutputCall.bytes) := by
  induction calls generalizing s stream with
  | nil =>
    rw [List.flatMap_nil, List.append_nil]
    exact h
  | cons call calls ih =>
    obtain ⟨hstep, hsoft'⟩ := h.output_soft hsoft call
    rw [List.flatMap_cons, ← List.append_assoc]
    exact ih hstep hsoft'

/-- A new session has the empty stream. -/
theorem streaming_new {c : ClientSession} (hc : s.sessions.lookup fd = some c)
    (hempty : c.outbuf = []) (hwire : s.kernel.wire c.conn = []) : Streaming s fd c.conn [] := by
  refine ⟨c, hc, rfl, ?_, ?_⟩
  · rw [hempty]
    exact List.forall_mem_nil _
  · rw [hempty, hwire]
    rfl

/-- As long as no send fails, what a connection has been sent and what waits for it are the
lines enqueued to it, in order. -/
theorem run_keeps_stream {c : ClientSession} (hc : s.sessions.lookup fd = some c)
    (hempty : c.outbuf = []) (hwire : s.kernel.wire c.conn = [])
    (hsoft : ∀ r ∈ s.kernel.sends, r.soft = true) (calls : List OutputCall) :
    ∃ c', (run (output fd) s calls).sessions.lookup fd = some c' ∧ c'.conn = c.conn ∧
      (run (output fd) s calls).kernel.wire c.conn ++ c'.outbuf.flatten =
        calls.flatMap OutputCall.bytes := by
  have hrun := (streaming_new hc hempty hwire).run_soft hsoft calls
  rw [List.nil_append] at hrun
  obtain ⟨c', hc', hconn, -, hstream⟩ := hrun
  exact ⟨c', hc', hconn, hstream⟩

/-- A line is cut by the window, a second one waits behind it, and the backlog goes in two
pieces. -/
theorem run_keeps_stream_short_writes :
    let s :=
      (start 3 4 [.eintr, .sent 2, .again, .sent 0, .eintr, .sent 99, .sent 99]).openSession 5
    let calls := [.enqueue (text "ORDER_ACCEPTED 0"), .enqueue (text "BOUGHT JNST 1 5"),
      .onWritable, .onWritable]
    ∃ c', (run (output 5) s calls).sessions.lookup 5 = some c' ∧ c'.conn = 0 ∧
      (run (output 5) s calls).kernel.wire 0 ++ c'.outbuf.flatten =
        calls.flatMap OutputCall.bytes := by
  intro s calls
  have hc : s.sessions.lookup 5 = some { fd := 5, sessionSeq := 1, conn := 0 } := rfl
  have hsoft : ∀ r ∈ s.kernel.sends, r.soft = true := by decide
  exact run_keeps_stream hc rfl rfl hsoft calls

/-- If no send of `enqueue` itself fails, the bytes sent on a connection are at every point the
first bytes of the lines enqueued to it, whatever the sends of the backlog return. -/
theorem run_leaves_no_hole {c : ClientSession} (hc : s.sessions.lookup fd = some c)
    (hempty : c.outbuf = []) (hwire : s.kernel.wire c.conn = []) {calls : List OutputCall}
    (hok : Admissible (Unfailing fd) (output fd) s calls) :
    (run (output fd) s calls).kernel.wire c.conn <+: calls.flatMap OutputCall.bytes := by
  have hstart := streaming_new hc hempty hwire
  rcases run_streaming (Or.inl hstart) hok with ⟨c', -, -, -, hstream⟩ | ⟨-, hprefix⟩
  · rw [List.nil_append] at hstream
    rw [← hstream]
    exact List.prefix_append ..
  · exact hprefix

/-- The backlog fails in the middle of a line: the session is closed and no byte follows. -/
theorem run_leaves_no_hole_backlog :
    let s := (start 3 4 [.sent 2, .again, .sent 0, .failed, .sent 99]).openSession 5
    let calls := [.enqueue (text "ORDER_ACCEPTED 0"), .onWritable, .onWritable,
      .enqueue (text "BOUGHT JNST 1 5")]
    (run (output 5) s calls).kernel.wire 0 <+: calls.flatMap OutputCall.bytes := by
  intro s calls
  have hok : Admissible (Unfailing 5) (output 5) s calls := by decide
  have hc : s.sessions.lookup 5 = some { fd := 5, sessionSeq := 1, conn := 0 } := rfl
  exact run_leaves_no_hole hc rfl rfl hok

/-- A send of `enqueue` fails in the middle of a line, the rest of the line is dropped, and the
next line follows the gap. -/
theorem run_hole_after_failed_send :
    let s := (start 3 4 [.sent 2, .failed, .sent 99]).openSession 5
    let calls := [.enqueue (text "ORDER_ACCEPTED 0"), .enqueue (text "BOUGHT JNST 1 5")]
    ∃ c, s.sessions.lookup 5 = some c ∧ c.outbuf = [] ∧ s.kernel.wire c.conn = [] ∧
      ¬ (run (output 5) s calls).kernel.wire c.conn <+: calls.flatMap OutputCall.bytes := by
  refine ⟨_, rfl, rfl, rfl, ?_⟩
  decide

end Server

end SocketExchange
