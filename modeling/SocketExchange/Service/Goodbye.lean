import SocketExchange.Service.Delivery

/-!
# Goodbyes

A client says goodbye by a QUIT or by shutting down its sending side, and still reads. The
session is closed at once, together with whatever waits for the window to open again; so
the client is sent all lines if and only if none of them waits at that moment.
-/

namespace SocketExchange

open Containers ClientSession Runs

namespace Server

variable {s : Server} {fd : Int} {c : ClientSession}

/-- The action is the goodbye of the descriptor's session: its `recv` returns 0, or its next line
is a QUIT. -/
def Goodbye (fd : Int) (c : ClientSession) : Action → Prop
  | .hangup fd' => fd' = fd
  | .line fd' => fd' = fd ∧
      ∃ line rest, c.inbuf.nextLine = some (line, rest) ∧ commandWord line = text "QUIT"
  | _ => False

/-- A goodbye closes the session and sends nothing more. -/
theorem Goodbye.closes (hs : Consistent s) (hc : s.sessions.lookup fd = some c) {a : Action}
    (h : Goodbye fd c a) :
    ∃ s' c', Calls s s' ∧ s'.sessions.lookup fd = some c' ∧ c'.conn = c.conn ∧
      s'.kernel.wire = s.kernel.wire ∧ linesTo c.conn s'.history = linesTo c.conn s.history ∧
      s.act a = s'.closeSession fd := by
  cases a with
  | hangup fd' =>
    obtain rfl : fd' = fd := h
    refine ⟨s.log [.ended c.conn], c, calls_log s trivial, hc, rfl, rfl, ?_, ?_⟩
    · exact (linesTo_append ..).trans (List.append_nil _)
    · simp only [act, hangup, hc]
  | line fd' =>
    obtain ⟨rfl, line, rest, hnext, hword⟩ := h
    let s₁ := s.update fd' (setInbuf rest)
    have hc₁ : s₁.sessions.lookup fd' = some (setInbuf rest c) := lookup_update_of hc _
    have hset : Calls s s₁ := calls_update s fd' fun _ => ⟨⟨rfl, Or.inr rfl⟩, rfl, rfl⟩
    have hreceived : Calls s₁ (s₁.log [.received c.conn line]) := calls_log s₁ trivial
    have hnoted : Calls s (s₁.noted fd' (setInbuf rest c) line) :=
      (hset.trans hreceived).trans (calls_update _ fd' (keeping_inferRole _))
    refine ⟨_, _, hnoted, lookup_noted hc₁ line, ?_, rfl, ?_, ?_⟩
    · exact (continues_inferRole ..).conn
    · exact (linesTo_append ..).trans (List.append_nil _)
    · have hfd : (setInbuf rest c).fd = fd' := hs.keyed fd' c hc
      have hquit := handleLine_quit hc₁ hword
      rw [hfd] at hquit
      rw [act_line (takeLine_eq hc hnext)]
      exact congrArg Prod.fst hquit
  | _ => exact h.elim

/-- Take any run in which no send on a connection fails hard, and the goodbye of its session at
the end of it. The session is closed, and every byte of the lines enqueued to it has been accepted
by then if and only if nothing waits in its output queue when the goodbye comes. -/
theorem run_goodbye_loses_nothing_iff (kq listenFd : Int) (sends : List SendResult)
    (actions : List Action) {fd : Int} {c : ClientSession} {a : Action}
    (hwell : Admissible (SendsWell c.conn) act (start kq listenFd sends) actions)
    (hc : (run act (start kq listenFd sends) actions).sessions.lookup fd = some c)
    (hbye : Goodbye fd c a) :
    let s := run act (start kq listenFd sends) (actions ++ [a])
    s.connected c.conn = false ∧
      (s.kernel.wire c.conn = stream c.conn s.history ↔ c.outbuf = []) := by
  intro s
  let s₀ := run act (start kq listenFd sends) actions
  have hs₀ : Reachable s₀ := ⟨kq, listenFd, sends, actions, rfl⟩
  have hconsistent := consistent_of_view hs₀.consistent
  obtain ⟨s', c', hcalls, hc', hconn, hwire, hlines, hact⟩ := hbye.closes hconsistent hc
  have hs : s = s'.closeSession fd := by
    rw [← hact]
    exact run_append
  have hclosed := connected_close (hconsistent.calls hcalls) hc' c.conn
  refine ⟨Bool.eq_false_iff.mpr fun hopen => ?_, ?_⟩
  · rw [hs] at hopen
    exact (hclosed.mp hopen).2 hconn.symm
  · have hwire' : s.kernel.wire c.conn = s₀.kernel.wire c.conn := by
      rw [hs, (closeSession_kernel s' fd).2, hwire]
    have hstream : stream c.conn s.history = stream c.conn s₀.history := by
      rw [hs, stream, history_close hc', linesTo_append, hlines]
      exact congrArg (List.flatMap framed) (List.append_nil _)
    have hwhole := (run_delivered hwell).whole (connected_iff.mpr ⟨fd, c, hc, rfl⟩)
    have hqueue : s₀.channels.queue c.conn = c.outbuf := hconsistent.backlog hc
    have hfull := ((attendedAt_some hc).mp (hs₀.wakeful fd)).full
    rw [hwire', hstream, ← hwhole, Channels.content, hqueue]
    constructor
    · intro hall
      have hnothing : c.outbuf.flatten = [] := List.self_eq_append_right.mp hall
      refine List.eq_nil_iff_forall_not_mem.mpr fun e he => hfull e he ?_
      exact List.flatten_eq_nil_iff.mp hnothing e he
    · intro hempty
      rw [hempty, List.flatten_nil, List.append_nil]
      rfl

/-- The reply to a command waited and went out before the client shut down its sending side. -/
theorem run_goodbye_loses_nothing_drained :
    let sends : List SendResult := [.sent 2, .again, .sent 99]
    let actions : List Action := [.accept 5, .feed 5 ⟨text "FOO\n", by decide, by decide⟩,
      .line 5, .writable 5]
    let s := run act (start 3 4 sends) (actions ++ [.hangup 5])
    s.connected 0 = false ∧ s.kernel.wire 0 = stream 0 s.history := by
  intro sends actions s
  obtain ⟨c, hc, hconn, hempty⟩ : ∃ c, (run act (start 3 4 sends) actions).sessions.lookup 5 =
      some c ∧ c.conn = 0 ∧ c.outbuf = [] := ⟨_, rfl, rfl, rfl⟩
  have hwell : Admissible (SendsWell c.conn) act (start 3 4 sends) actions := by
    rw [hconn]
    decide
  have hbye : Goodbye 5 c (.hangup 5) := rfl
  obtain ⟨hclosed, hiff⟩ := run_goodbye_loses_nothing_iff 3 4 sends actions hwell hc hbye
  rw [hconn] at hclosed hiff
  with_reducible exact ⟨hclosed, hiff.mpr hempty⟩

/-- A client whose window is full after three bytes of a reply says QUIT: the rest of the reply
is never sent. -/
theorem run_goodbye_loses_reply :
    let sends : List SendResult := [.sent 2, .again]
    let actions : List Action := [.accept 5, .feed 5 ⟨text "FOO\nQUIT\n", by decide, by decide⟩,
      .line 5]
    let s := run act (start 3 4 sends) actions
    Admissible (SendsWell 0) act (start 3 4 sends) actions ∧
      (∃ c, s.sessions.lookup 5 = some c ∧ c.conn = 0 ∧ Goodbye 5 c (.line 5)) ∧
      (s.act (.line 5)).connected 0 = false ∧ (s.act (.line 5)).kernel.wire 0 = text "ERR" ∧
      stream 0 (s.act (.line 5)).history = text "ERROR unknown command\n" := by
  intro sends actions s
  refine ⟨by decide, ⟨_, rfl, rfl, rfl, _, _, rfl, ?_⟩, by decide, by decide, by decide⟩
  decide

end Server

end SocketExchange
