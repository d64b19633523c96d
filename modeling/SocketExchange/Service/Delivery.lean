import SocketExchange.Service.Channels

/-!
# Delivery

While no send of a connection fails hard, what has been accepted on it and what waits for
it are the lines enqueued to it; so its client can read off every line as it was written,
however the bytes arrive. A goodbye drops what still waits, and loses nothing exactly when
nothing waits.
-/

namespace SocketExchange

open Containers ClientSession Runs

/-- The lines enqueued to a connection. -/
def linesTo (k : Nat) : List Obs → List Bytes := linesWhere fun k' _ => k' = k

/-- The bytes of the lines enqueued to a connection. -/
def stream (k : Nat) (history : List Obs) : Bytes := (linesTo k history).flatMap framed

/-- The lines to a connection in two histories, one after the other. -/
theorem linesTo_append (k : Nat) (h h' : List Obs) :
    linesTo k (h ++ h') = linesTo k h ++ linesTo k h' := linesWhere_append ..

/-- An enqueued line is a line to its own connection. -/
theorem linesTo_enqueued (k k' : Nat) (line : Bytes) :
    linesTo k [.enqueued k' line] = if k' = k then [line] else [] := by
  rw [linesTo, linesWhere_enqueued]
  simp only [decide_eq_true_eq]

namespace Channels

variable {ch : Channels} {k k' : Nat}

/-- What has been accepted on a connection and what waits for it. -/
def content (ch : Channels) (k : Nat) : Bytes := ch.wire k ++ (ch.queue k).flatten

/-- A step for another connection does not touch this one. -/
theorem content_other (ch : Channels) {o : Output} (h : o.conn ≠ k) :
    (ch.step o).wire k = ch.wire k ∧ (ch.step o).content k = ch.content k := by
  have hsame : (ch.step o).wire k = ch.wire k ∧ (ch.step o).queue k = ch.queue k := by
    cases o with
    | line k' line =>
      rw [step]
      split
      · exact ⟨rfl, Function.update_of_ne h.symm ..⟩
      · exact ⟨Function.update_of_ne h.symm .., Function.update_of_ne h.symm ..⟩
    | flush k' => exact ⟨Function.update_of_ne h.symm .., Function.update_of_ne h.symm ..⟩
    | drop k' => exact ⟨rfl, Function.update_of_ne h.symm ..⟩
  exact ⟨hsame.1, by rw [content, content, hsame.1, hsame.2]⟩

/-- The outputs of other connections leave a channel as it is. -/
theorem content_others (ch : Channels) {outputs : List Output} (h : ∀ o ∈ outputs, o.conn ≠ k) :
    (run step ch outputs).wire k = ch.wire k ∧
      (run step ch outputs).content k = ch.content k := by
  induction outputs generalizing ch with
  | nil => exact ⟨rfl, rfl⟩
  | cons o outputs ih =>
    obtain ⟨ho, houtputs⟩ := List.forall_mem_cons.mp h
    obtain ⟨hwire, hcontent⟩ := content_other ch ho
    obtain ⟨hwire', hcontent'⟩ := ih (ch.step o) houtputs
    exact ⟨hwire'.trans hwire, hcontent'.trans hcontent⟩

/-- A line that does not fail joins the content. -/
theorem content_line {line : Bytes} (hok : ¬ FailsOn k ch (.line k line)) :
    (ch.step (.line k line)).content k = ch.content k ++ framed line := by
  by_cases hempty : ch.queue k = []
  · obtain ⟨hdata, hdone, hfailed, -⟩ := Server.sendLoop_contract ch.sends (framed line)
    rw [step, if_neg (not_not.mpr hempty)]
    simp only [content, Function.update_self, hempty, List.flatten_nil, List.append_nil,
      List.append_assoc]
    congr 1
    cases hstop : (Server.sendLoop ch.sends (framed line)).stop with
    | blocked =>
      rw [if_pos rfl, List.flatten_singleton]
      exact hdata
    | done =>
      rw [hdone.mp hstop, List.append_nil] at hdata
      rw [if_neg (by simp), List.flatten_nil, List.append_nil]
      exact hdata
    | failed => exact absurd ⟨rfl, hempty, hfailed.mp hstop⟩ hok
  · rw [step, if_pos hempty]
    simp only [content, Function.update_self, List.flatten_append, List.flatten_singleton,
      List.append_assoc]

/-- A flush moves content to the wire. -/
theorem content_flush : (ch.step (.flush k)).content k = ch.content k := by
  obtain ⟨hflat, -⟩ := Server.drainLoop_contract ch.sends (ch.queue k)
  simp only [step, content, Function.update_self]
  rw [List.append_assoc, hflat]

end Channels

namespace Server

variable {s s' : Server} {fd : Int} {c : ClientSession} {k : Nat}

/-- What an action does to the channels: a flush, or what its entries say. -/
def outputs (s : Server) (a : Action) : List Output :=
  (match a with
    | .writable fd => ((s.sessions.lookup fd).map fun c => Output.flush c.conn).toList
    | _ => []) ++ (s.since (s.act a)).filterMap Obs.output

/-- No send of the connection fails hard in the action. -/
def SendsWell (k : Nat) (s : Server) (a : Action) : Prop := s.channels.Unfailing k (s.outputs a)

instance (k : Nat) (s : Server) (a : Action) : Decidable (SendsWell k s a) :=
  inferInstanceAs (Decidable (Channels.Unfailing ..))

/-- What has been accepted on a connection is the first part of the lines enqueued to it; and
while it is open, the rest of them waits. -/
structure Delivered (k : Nat) (s : Server) : Prop where
  whole : s.connected k = true → s.channels.content k = stream k s.history
  sent : s.kernel.wire k <+: stream k s.history
  unborn : s.accepted ≤ k → s.kernel.wire k = [] ∧ linesTo k s.history = []

/-- What adds no line to the connection and leaves its channel alone. -/
theorem Delivered.same (hs : Consistent s) (h : Delivered k s)
    (hwire : s'.kernel.wire k = s.kernel.wire k)
    (hcontent : s'.channels.content k = s.channels.content k)
    (hlines : linesTo k s'.history = linesTo k s.history) (haccepted : s.accepted ≤ s'.accepted)
    (hopen : s'.connected k = true → s.connected k = true ∨ s.accepted ≤ k) : Delivered k s' where
  whole hk := by
    rw [hcontent, stream, hlines, ← stream]
    rcases hopen hk with hk | hk
    · exact h.whole hk
    · obtain ⟨hnothing, hnone⟩ := h.unborn hk
      have hgone : s.connected k = false :=
        Bool.eq_false_iff.mpr fun hk' => absurd (hs.connected_lt hk') (not_lt.mpr hk)
      have hempty : s.channels.queue k = [] := backlog_gone hgone
      have hwire' : s.channels.wire k = [] := hnothing
      rw [Channels.content, hempty, hwire', stream, hnone]
      rfl
  sent := by
    rw [hwire, stream, hlines]
    exact h.sent
  unborn hk := by
    rw [hwire, hlines]
    exact h.unborn (haccepted.trans hk)

/-- Enqueueing a line connects and disconnects nobody. -/
theorem connected_enqueue (s : Server) (fd : Int) (line : Bytes) (k : Nat) :
    (s.enqueue fd line).connected k = s.connected k := by
  rw [← connected_view, view_enqueue, connected_log, connected_view]

/-- A closed session's connection is not open any more, and the others are as they were. -/
theorem connected_close (h : Consistent s) (hc : s.sessions.lookup fd = some c) (k : Nat) :
    (s.closeSession fd).connected k = true ↔ s.connected k = true ∧ k ≠ c.conn := by
  have hview : s.view.sessions.lookup fd = some c.profile := lookup_view_of hc
  rw [← connected_view, view_closeSession, (consistent_view h).connected_forget hview,
    connected_view]
  rfl

/-- A line enqueued without a failure keeps the account of what was delivered. -/
theorem Delivered.enqueue (hs : Consistent s) (h : Delivered k s)
    (hc : s.sessions.lookup fd = some c) {line : Bytes}
    (hok : ¬ Channels.FailsOn k s.channels (.line c.conn line)) :
    Delivered k (s.enqueue fd line) := by
  have hchannels := channels_enqueue hs hc line
  have hlines := linesTo_append k s.history [.enqueued c.conn line]
  rw [← history_enqueue hc line, linesTo_enqueued] at hlines
  have haccepted : (s.enqueue fd line).accepted = s.accepted := by
    have hview := congrArg Server.accepted (s.view_enqueue fd line)
    exact hview
  by_cases hk : c.conn = k
  · subst hk
    have hopen : s.connected c.conn = true := connected_iff.mpr ⟨fd, c, hc, rfl⟩
    have hwhole : (s.enqueue fd line).channels.content c.conn =
        stream c.conn (s.enqueue fd line).history := by
      rw [hchannels, Channels.content_line hok, h.whole hopen, stream, stream, hlines, if_pos rfl,
        List.flatMap_append, List.flatMap_singleton]
    refine ⟨fun _ => hwhole, hwhole ▸ List.prefix_append .., fun hle => ?_⟩
    rw [haccepted] at hle
    exact absurd (hs.numbered fd c hc) (not_lt.mpr hle)
  · obtain ⟨hwire, hcontent⟩ := Channels.content_other s.channels
      (show (Output.line c.conn line).conn ≠ k from hk)
    rw [← hchannels] at hwire hcontent
    rw [if_neg hk, List.append_nil] at hlines
    refine h.same hs hwire hcontent hlines haccepted.ge fun hopen => Or.inl ?_
    rwa [connected_enqueue] at hopen

/-- Closing a session accepts nobody. -/
theorem accepted_closeSession (s : Server) (fd : Int) :
    (s.closeSession fd).accepted = s.accepted := by
  have hkeeps := (keeps_forget s.view fd).accepted
  rw [← view_closeSession] at hkeeps
  exact hkeeps

/-- Closing a session keeps the account. -/
theorem Delivered.close (hs : Consistent s) (h : Delivered k s)
    (hc : s.sessions.lookup fd = some c) : Delivered k (s.closeSession fd) := by
  have hchannels := channels_close hs hc
  have hlines := linesTo_append k s.history [.closed c.conn]
  rw [← history_close hc] at hlines
  have hsame : linesTo k (s.closeSession fd).history = linesTo k s.history :=
    hlines.trans (List.append_nil _)
  have haccepted := accepted_closeSession s fd
  by_cases hk : c.conn = k
  · subst hk
    obtain ⟨-, hwire⟩ := closeSession_kernel s fd
    refine ⟨fun hopen => ?_, ?_, fun hle => ?_⟩
    · exact absurd rfl ((connected_close hs hc _).mp hopen).2
    · rw [hwire, stream, hsame]
      exact h.sent
    · rw [hwire, hsame]
      exact h.unborn (haccepted ▸ hle)
  · obtain ⟨hwire, hcontent⟩ := Channels.content_other s.channels
      (show (Output.drop c.conn).conn ≠ k from hk)
    rw [← hchannels] at hwire hcontent
    refine h.same hs hwire hcontent hsame haccepted.ge fun hopen => Or.inl ?_
    exact ((connected_close hs hc k).mp hopen).1

/-- A call whose sends on the connection do not fail keeps what has been delivered. -/
theorem Call.delivers (hs : Consistent s) (hcall : Call s s') (k : Nat) :
    ∃ obs, s'.history = s.history ++ obs ∧
      s'.channels = run Channels.step s.channels (obs.filterMap Obs.output) ∧
      (Delivered k s → s.channels.Unfailing k (obs.filterMap Obs.output) → Delivered k s') := by
  obtain ⟨obs, hhistory, hchannels⟩ := hcall.channels hs
  refine ⟨obs, hhistory, hchannels, fun h hok => ?_⟩
  cases hcall with
  | @logged obs' hsilent =>
    refine h.same hs rfl rfl ?_ le_rfl Or.inl
    have hnone : linesTo k obs' = [] := linesWhere_eq_nil fun k' line hmem => (hsilent _ hmem).elim
    exact (linesTo_append k s.history obs').trans (by rw [hnone, List.append_nil])
  | booked => exact h.same hs rfl rfl rfl le_rfl Or.inl
  | @changed fd f hf =>
    have hsame := congrArg (Channels.content · k) (channels_changed hs hf fd)
    refine h.same hs rfl hsame rfl le_rfl fun hopen => Or.inl ?_
    rwa [connected_update fd fun c => (hf c).continues.conn] at hopen
  | @enqueued fd c line hc =>
    have hadded := history_enqueue hc line
    obtain rfl := List.append_cancel_left (hhistory.symm.trans hadded)
    exact h.enqueue hs hc hok.1
  | closed hc => exact h.close hs hc
  | @opened cfd hfree =>
    have hsame := congrArg (Channels.content · k) (channels_open hs hfree)
    have hlines := linesTo_append k s.history [.accepted s.accepted cfd]
    refine h.same hs rfl hsame (hlines.trans (List.append_nil _)) (Nat.le_succ _) fun hopen => ?_
    obtain ⟨fd, c, hc, hconn⟩ := connected_iff.mp hopen
    by_cases hfd : fd = cfd
    · subst hfd
      rw [openSession_fresh hfree] at hc
      obtain rfl := Option.some.inj hc
      exact Or.inr hconn.le
    · rw [openSession, kqAdd, AList.lookup_insert_ne hfd] at hc
      exact Or.inl (connected_iff.mpr ⟨fd, c, hc, hconn⟩)
  | @rehashed sessionOrder bookOrder =>
    have hsame : (s.rehash sessionOrder bookOrder).channels = s.channels := by
      have hnone := List.append_cancel_left (hhistory.symm.trans (List.append_nil _).symm)
      rw [hchannels, hnone]
      rfl
    refine h.same hs rfl (congrArg (Channels.content · k) hsame) rfl le_rfl fun hopen => Or.inl ?_
    rwa [connected_rehash] at hopen

/-- The same of a sequence of calls. -/
theorem Calls.delivers (hs : Consistent s) (hcalls : Calls s s') (k : Nat) :
    ∃ obs, s'.history = s.history ++ obs ∧
      s'.channels = run Channels.step s.channels (obs.filterMap Obs.output) ∧
      (Delivered k s → s.channels.Unfailing k (obs.filterMap Obs.output) → Delivered k s') := by
  induction hcalls with
  | refl => exact ⟨[], (List.append_nil _).symm, rfl, fun h _ => h⟩
  | tail hinit hlast ih =>
    obtain ⟨obs, hhistory, hchannels, hdelivers⟩ := ih
    obtain ⟨obs', hhistory', hchannels', hdelivers'⟩ := hlast.delivers (hs.calls hinit) k
    refine ⟨obs ++ obs', ?_, ?_, fun h hok => ?_⟩
    · rw [hhistory', hhistory, List.append_assoc]
    · rw [hchannels', hchannels, List.filterMap_append, run_append]
    · rw [List.filterMap_append, Channels.Unfailing, admissible_append, ← hchannels] at hok
      exact hdelivers' (hdelivers h hok.1) hok.2

/-! ## Flushes -/

/-- The sends of a flush are a step of the channels. -/
theorem flushed_channels (hs : Consistent s) (hc : s.sessions.lookup fd = some c) :
    Consistent (s.flushed fd c) ∧ (∀ k, (s.flushed fd c).connected k = s.connected k) ∧
      (s.flushed fd c).channels = s.channels.step (.flush c.conn) := by
  have hkept : Consistent (s.transmit c.conn (drainLoop s.kernel.sends c.outbuf).accepted
      (drainLoop s.kernel.sends c.outbuf).sends) :=
    ⟨hs.keyed, hs.numbered, hs.sequenced, hs.distinct, hs.nextSeq⟩
  have hqueue : s.channels.queue c.conn = c.outbuf := hs.backlog hc
  refine ⟨?_, fun k => ?_, ?_⟩
  · exact hkept.keeps (keeps_update _ fd _ fun _ => ⟨rfl, Or.inr rfl⟩)
  · exact connected_update fd (f := setOutbuf _) (fun _ => rfl) k
  · rw [Channels.step, hqueue]
    exact Channels.ext rfl rfl (hkept.backlog_update (f := setOutbuf _) hc rfl)

/-- A flush is a step of the channels; if it fails, the session is closed. -/
theorem onWritable_channels (hs : Consistent s) (hc : s.sessions.lookup fd = some c) :
    ∃ obs, (s.onWritable fd).history = s.history ++ obs ∧
      (s.onWritable fd).channels =
        run Channels.step s.channels (.flush c.conn :: obs.filterMap Obs.output) ∧
      (∀ o ∈ obs, o = .sendFailed c.conn ∨ o = .closed c.conn) ∧
      ((drainLoop s.kernel.sends c.outbuf).stop ≠ .failed → obs = []) ∧
      ∀ k, ((drainLoop s.kernel.sends c.outbuf).stop ≠ .failed ∨ k ≠ c.conn) →
        (s.onWritable fd).connected k = s.connected k := by
  obtain ⟨hconsistent, hconnected, hchannels⟩ := flushed_channels hs hc
  have hhistory : (s.flushed fd c).history = s.history := rfl
  simp only [run_cons, ← hchannels]
  have hflushes := onWritable_cases hc
  generalize s.onWritable fd = s' at hflushes ⊢
  cases hflushes with
  | settled =>
    exact ⟨[], (List.append_nil _).symm, rfl, List.forall_mem_nil _, fun _ => rfl,
      fun k _ => hconnected k⟩
  | disarmed =>
    refine ⟨[], (List.append_nil _).symm, ?_, List.forall_mem_nil _, fun _ => rfl, fun k _ => ?_⟩
    · refine Channels.ext rfl rfl (hconsistent.backlog_congr fun fd' => ?_)
      exact map_lookup_update _ fd (setWantWrite false) (fun _ => rfl) fd'
    · rw [← hconnected k]
      exact connected_update fd (f := setWantWrite false) (fun _ => rfl) k
  | failed hstop =>
    have hlogged : Consistent ((s.flushed fd c).log [.sendFailed c.conn]) :=
      hconsistent.keeps (keeps_log ..)
    have hlookup : ((s.flushed fd c).log [.sendFailed c.conn]).sessions.lookup fd =
        some (setOutbuf (drainLoop s.kernel.sends c.outbuf).left c) := lookup_flushed hc
    have hclose := channels_close hlogged hlookup
    refine ⟨[.sendFailed c.conn, .closed c.conn], ?_, hclose, ?_, fun h => absurd hstop h,
      fun k hk => ?_⟩
    · refine (history_close hlookup).trans ?_
      rw [log, hhistory, List.append_assoc]
      rfl
    · intro o ho
      simpa only [List.mem_cons, List.not_mem_nil, or_false] using ho
    · have hne : k ≠ c.conn := hk.resolve_left (not_not.mpr hstop)
      rw [Bool.eq_iff_iff, connected_close hlogged hlookup, ← hconnected k]
      exact and_iff_left hne

/-- Flushing accepts nobody. -/
theorem accepted_onWritable (s : Server) (fd : Int) :
    (s.onWritable fd).accepted = s.accepted := by
  cases hc : s.sessions.lookup fd with
  | none => simp only [onWritable, hc]
  | some c =>
    have hflushes := onWritable_cases hc
    generalize s.onWritable fd = s' at hflushes ⊢
    cases hflushes with
    | settled => rfl
    | disarmed => rfl
    | failed => exact accepted_closeSession ..

/-- A flush without a failure keeps the account. -/
theorem Delivered.flush (hs : Consistent s) (h : Delivered k s)
    (hc : s.sessions.lookup fd = some c)
    (hok : ¬ Channels.FailsOn k s.channels (.flush c.conn)) : Delivered k (s.onWritable fd) := by
  obtain ⟨obs, hhistory, hchannels, hobs, hsoft, hconnected⟩ := onWritable_channels hs hc
  have hlines : linesTo k (s.onWritable fd).history = linesTo k s.history := by
    have hnone : linesTo k obs = [] := by
      refine linesWhere_eq_nil fun k' line hmem => ?_
      rcases hobs _ hmem with he | he <;> cases he
    rw [hhistory, linesTo_append, hnone, List.append_nil]
  have haccepted := accepted_onWritable s fd
  by_cases hk : c.conn = k
  · subst hk
    have hqueue : s.channels.queue c.conn = c.outbuf := hs.backlog hc
    have hstop : (drainLoop s.kernel.sends c.outbuf).stop ≠ .failed := by
      intro hfailed
      rw [← hqueue] at hfailed
      exact hok ⟨rfl, hfailed⟩
    rw [hsoft hstop] at hchannels
    have hopen : s.connected c.conn = true := connected_iff.mpr ⟨fd, c, hc, rfl⟩
    have hwhole : (s.onWritable fd).channels.content c.conn =
        stream c.conn (s.onWritable fd).history := by
      rw [hchannels, stream, hlines, ← stream, ← h.whole hopen]
      exact Channels.content_flush
    refine ⟨fun _ => hwhole, hwhole ▸ List.prefix_append .., fun hle => ?_⟩
    rw [haccepted] at hle
    exact absurd (hs.numbered fd c hc) (not_lt.mpr hle)
  · have hothers : ∀ o ∈ Output.flush c.conn :: obs.filterMap Obs.output, o.conn ≠ k := by
      refine List.forall_mem_cons.mpr ⟨hk, fun o ho => ?_⟩
      obtain ⟨o', ho', he⟩ := List.mem_filterMap.mp ho
      rcases hobs o' ho' with rfl | rfl
      · cases he
      · exact Option.some.inj he ▸ hk
    obtain ⟨hwire, hcontent⟩ := Channels.content_others s.channels hothers
    rw [← hchannels] at hwire hcontent
    refine h.same hs hwire hcontent hlines haccepted.ge fun hopen => Or.inl ?_
    rwa [hconnected k (Or.inr (Ne.symm hk))] at hopen

/-! ## Actions and runs -/

private theorem outputs_of_not_writable {a : Action} (ha : ∀ fd, a ≠ .writable fd) :
    s.outputs a = (s.since (s.act a)).filterMap Obs.output := by
  cases a with
  | writable fd => exact absurd rfl (ha fd)
  | _ => rfl

private theorem outputs_writable (hc : s.sessions.lookup fd = some c) :
    s.outputs (.writable fd) =
      .flush c.conn :: (s.since (s.onWritable fd)).filterMap Obs.output := by
  simp only [outputs, hc]
  rfl

/-- An action moves the channels by its outputs, and if none of its sends on the connection
fails, it keeps what has been delivered. -/
theorem act_delivers (hs : Consistent s) (a : Action) :
    (s.act a).channels = run Channels.step s.channels (s.outputs a) ∧
      ∀ k, Delivered k s → SendsWell k s a → Delivered k (s.act a) := by
  by_cases ha : ∃ fd, a = .writable fd
  · obtain ⟨fd, rfl⟩ := ha
    cases hc : s.sessions.lookup fd with
    | none =>
      have hsame : s.act (.writable fd) = s := by
        simp only [Server.act, onWritable, hc]
      have hnone : s.outputs (.writable fd) = [] := by
        have hsince : s.since s = [] := since_of_append (List.append_nil _).symm
        simp only [outputs, hc, hsame, hsince]
        rfl
      rw [hsame, hnone]
      exact ⟨rfl, fun k h _ => h⟩
    | some c =>
      obtain ⟨obs, hhistory, hchannels, -⟩ := onWritable_channels hs hc
      have houtputs := outputs_writable hc
      rw [since_of_append hhistory] at houtputs
      refine ⟨?_, fun k h hok => h.flush hs hc ?_⟩
      · rw [houtputs]
        exact hchannels
      · rw [SendsWell, houtputs] at hok
        exact hok.1
  · have hother : ∀ fd, a ≠ .writable fd := not_exists.mp ha
    have hcalls := calls_act s hother
    obtain ⟨obs, hhistory, hchannels, -⟩ := hcalls.delivers hs 0
    have houtputs := outputs_of_not_writable (s := s) hother
    rw [since_of_append hhistory] at houtputs
    refine ⟨houtputs ▸ hchannels, fun k h hok => ?_⟩
    obtain ⟨obs', hhistory', -, hdelivers⟩ := hcalls.delivers hs k
    obtain rfl := List.append_cancel_left (hhistory.symm.trans hhistory')
    rw [SendsWell, houtputs] at hok
    exact hdelivers h hok

/-- At the start nothing is to be delivered. -/
theorem delivered_start (kq listenFd : Int) (sends : List SendResult) (k : Nat) :
    Delivered k (start kq listenFd sends) :=
  ⟨nofun, List.nil_prefix, fun _ => ⟨rfl, rfl⟩⟩

/-- What holds at the start holds as long as no send on the connection fails hard. -/
theorem run_delivered {kq listenFd : Int} {sends : List SendResult} {actions : List Action}
    (hok : Admissible (SendsWell k) act (start kq listenFd sends) actions) :
    Delivered k (run act (start kq listenFd sends) actions) := by
  have hstart := consistent_of_view (consistent_start kq listenFd sends)
  refine (admissible_invariant (P := fun s => Consistent s ∧ Delivered k s) ?_
    ⟨hstart, delivered_start kq listenFd sends k⟩ hok).2
  rintro s a ⟨hs, h⟩ hwell
  exact ⟨hs.act a, (act_delivers hs a).2 k h hwell⟩

end Server

end SocketExchange
