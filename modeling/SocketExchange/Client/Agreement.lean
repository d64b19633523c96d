import SocketExchange.Client.Session
import SocketExchange.Service.Hearing

/-!
# Client and server agree on the end of a session

The last line that a client sends is a QUIT, and no other line it sends is one. The
server cuts the bytes into the same lines, acts on each of them, and closes the
session on the last. So nothing that was sent is ignored.
-/

namespace SocketExchange

open Containers Runs Segments Server

variable {args : List Bytes}

/-! ## The lines sent -/

/-- A CR at the end does not change the command word. -/
theorem commandWord_stripCr (line : Bytes) : commandWord (stripCr line) = commandWord line := by
  rw [commandWord, tokenize_stripCr, commandWord]

private theorem commandWord_greeting {w rest : Bytes} (hw : IsWord w) :
    commandWord (w ++ 32 :: rest) = w := commandWord_eq (tokenize_cons hw)

/-- A start-up line is no QUIT. -/
theorem greeting_ne_quit (p : Program) (args : List Bytes) :
    ∀ line ∈ p.greeting args, commandWord line ≠ text "QUIT" := by
  intro line hline
  cases p with
  | traderClient =>
    cases args with
    | nil => cases hline
    | cons username args =>
      have hlogin : text "LOGIN " = text "LOGIN" ++ [32] := rfl
      rw [List.mem_singleton.mp hline, hlogin, List.append_assoc, List.singleton_append,
        commandWord_greeting (by decide)]
      decide
  | marketDataClient =>
    obtain ⟨instrument, -, rfl⟩ := List.mem_map.mp hline
    have hsubscribe : text "SUBSCRIBE " = text "SUBSCRIBE" ++ [32] := rfl
    rw [hsubscribe, List.append_assoc, List.singleton_append, commandWord_greeting (by decide)]
    decide

/-- Arguments without newlines make start-up lines without newlines. -/
theorem greeting_no_newline (p : Program) (hargs : ∀ a ∈ args, 10 ∉ a) :
    ∀ line ∈ p.greeting args, 10 ∉ line := by
  intro line hline
  have hlogin : 10 ∉ text "LOGIN " := by decide
  have hsubscribe : 10 ∉ text "SUBSCRIBE " := by decide
  cases p with
  | traderClient =>
    cases args with
    | nil => cases hline
    | cons username args =>
      rw [List.mem_singleton.mp hline, List.mem_append]
      exact not_or.mpr ⟨hlogin, hargs username List.mem_cons_self⟩
  | marketDataClient =>
    obtain ⟨instrument, hinstrument, rfl⟩ := List.mem_map.mp hline
    rw [List.mem_append]
    exact not_or.mpr ⟨hsubscribe, hargs instrument hinstrument⟩

/-- Lines up to a QUIT are lines without a QUIT and then one. -/
theorem untilQuit_cases {ls : List Bytes} (h : ∃ line ∈ ls, commandWord line = text "QUIT") :
    ∃ before last, untilQuit ls = before ++ [last] ∧ commandWord last = text "QUIT" ∧
      ∀ line ∈ before, commandWord line ≠ text "QUIT" := by
  induction ls with
  | nil => simp at h
  | cons line ls ih =>
    rw [untilQuit]
    by_cases hline : commandWord line = text "QUIT"
    · rw [if_pos hline]
      exact ⟨[], line, rfl, hline, by simp⟩
    · rw [List.exists_mem_cons_iff] at h
      obtain ⟨before, last, hsplit, hlast, hbefore⟩ := ih (h.resolve_left hline)
      rw [if_neg hline, hsplit]
      exact ⟨line :: before, last, rfl, hlast, List.forall_mem_cons.mpr ⟨hline, hbefore⟩⟩

/-- A session ends with its only QUIT. -/
theorem sessionLines_cases (input : Bytes) :
    ∃ before last, sessionLines input = before ++ [last] ∧ commandWord last = text "QUIT" ∧
      ∀ line ∈ before, commandWord line ≠ text "QUIT" := by
  rw [sessionLines_eq]
  exact untilQuit_cases ⟨text "QUIT", by simp, by decide⟩

private theorem mem_of_mem_untilQuit {ls : List Bytes} {line : Bytes} (h : line ∈ untilQuit ls) :
    line ∈ ls := by
  induction ls with
  | nil => cases h
  | cons l ls ih =>
    rw [untilQuit] at h
    split at h
    · rw [List.mem_singleton.mp h]
      exact List.mem_cons_self
    · rcases List.mem_cons.mp h with rfl | h
      · exact List.mem_cons_self
      · exact List.mem_cons_of_mem _ (ih h)

private theorem mem_stripCr {line : Bytes} {b : UInt8} (h : b ∈ stripCr line) : b ∈ line := by
  unfold stripCr at h
  split at h
  · exact List.mem_of_mem_dropLast h
  · exact h

/-- No line of a session holds a newline. -/
theorem sessionLines_no_newline (input : Bytes) : ∀ line ∈ sessionLines input, 10 ∉ line := by
  intro line hline
  rw [sessionLines_eq] at hline
  rcases List.mem_append.mp (mem_of_mem_untilQuit hline) with hline | hline
  · obtain ⟨seg, hseg, rfl⟩ := List.mem_map.mp hline
    exact fun hmem => not_mem_of_mem_segments hseg (mem_stripCr hmem)
  · rw [List.mem_singleton.mp hline]
    decide

/-- All the lines a client sends. -/
def sentLines (p : Program) (args : List Bytes) (input : Bytes) : List Bytes :=
  p.greeting args ++ sessionLines input

/-- The last of the lines sent is a QUIT, and only that. -/
theorem sentLines_cases (p : Program) (args : List Bytes) (input : Bytes) :
    ∃ before last, sentLines p args input = before ++ [last] ∧ commandWord last = text "QUIT" ∧
      ∀ line ∈ before, commandWord line ≠ text "QUIT" := by
  obtain ⟨before, last, hsession, hlast, hbefore⟩ := sessionLines_cases input
  refine ⟨p.greeting args ++ before, last, ?_, hlast, ?_⟩
  · rw [sentLines, hsession, List.append_assoc]
  · exact List.forall_mem_append.mpr ⟨greeting_ne_quit p args, hbefore⟩

/-- The server cuts what a client sends into the lines sent, and drops a carriage return that is
still there. -/
theorem framedLines_sent (p : Program) (hargs : ∀ a ∈ args, 10 ∉ a) (input : Bytes) :
    framedLines (terminated 10 (sentLines p args input)) =
      (sentLines p args input).map stripCr := by
  rw [framedLines, segments_terminated]
  exact List.forall_mem_append.mpr ⟨greeting_no_newline p hargs, sessionLines_no_newline input⟩

/-- Of the lines sent, the server acts on all. -/
theorem untilQuit_sent (p : Program) (args : List Bytes) (input : Bytes) :
    untilQuit ((sentLines p args input).map stripCr) = (sentLines p args input).map stripCr := by
  obtain ⟨before, last, hsent, hlast, hbefore⟩ := sentLines_cases p args input
  have hbefore' : ∀ line ∈ before.map stripCr, commandWord line ≠ text "QUIT" := by
    rw [List.forall_mem_map]
    intro line hline
    rw [commandWord_stripCr]
    exact hbefore line hline
  rw [hsent, List.map_append, untilQuit_append_of_not hbefore']
  simp [untilQuit, commandWord_stripCr, hlast]

/-- Of the lines as the server cuts them, the last is a QUIT and no other. -/
theorem sent_quit_iff (p : Program) (args : List Bytes) (input : Bytes) {i : Nat} {line : Bytes}
    (hi : ((sentLines p args input).map stripCr)[i]? = some line) :
    commandWord line = text "QUIT" ↔ i + 1 = (sentLines p args input).length := by
  obtain ⟨before, last, hsent, hlast, hbefore⟩ := sentLines_cases p args input
  rw [List.getElem?_map, Option.map_eq_some_iff] at hi
  obtain ⟨line, hi, rfl⟩ := hi
  rw [commandWord_stripCr]
  rw [hsent] at hi ⊢
  rw [List.length_append, List.length_singleton, Nat.add_right_cancel_iff]
  rcases Nat.lt_trichotomy i before.length with hlt | rfl | hgt
  · rw [List.getElem?_append_left hlt] at hi
    have hne := hbefore line (List.mem_of_getElem? hi)
    exact iff_of_false hne hlt.ne
  · rw [List.getElem?_concat_length, Option.some.injEq] at hi
    exact iff_of_true (hi ▸ hlast) rfl
  · rw [List.getElem?_eq_none (by simp; omega)] at hi
    cases hi

/-- A QUIT is among the lines the server cuts. -/
theorem exists_sent_quit (p : Program) (args : List Bytes) (input : Bytes) :
    ∃ line ∈ (sentLines p args input).map stripCr, commandWord line = text "QUIT" := by
  obtain ⟨before, last, hsent, hlast, -⟩ := sentLines_cases p args input
  refine ⟨stripCr last, List.mem_map_of_mem ?_, by rw [commandWord_stripCr, hlast]⟩
  simp [hsent]

/-! ## The two sides -/

/-- What a client sends is a prefix of its lines; all of them once the input has been read, and
nothing after that. -/
theorem client_sends (p : Program) (args : List Bytes) {stdin : List ReadResult}
    {sends : List SendResult} {polls : List Client.Poll} (hstdin : ∀ r ∈ stdin, r.Works)
    (hsends : ∀ r ∈ sends, r.Proceeds)
    (hpolls : Admissible Client.Undisturbed Client.turn (Client.start p args stdin sends) polls) :
    let c := run Client.turn (Client.start p args stdin sends) polls
    c.wire <+: terminated 10 (sentLines p args (typed stdin)) ∧
      (stdin.length < (polls.map Client.Poll.reads).sum → c.shut = true) ∧
      (c.shut = true → ∀ polls',
        (run Client.turn c polls').wire = terminated 10 (sentLines p args (typed stdin))) := by
  intro c
  obtain ⟨_, -, hstart⟩ := Client.start_eq p args stdin hsends
  rcases (Client.start_typing p args hstdin hsends).run hpolls with hended | ⟨hgoes, hleft⟩
  · exact ⟨hended.whole ▸ List.prefix_rfl, fun _ => hended.shut,
      fun _ polls' => (hended.run polls').whole⟩
  · refine ⟨hgoes.whole ▸ List.prefix_append .., fun hread => ?_, fun hshut => ?_⟩
    · rw [hstart] at hleft
      dsimp only at hleft
      omega
    · have hopen : c.shut = false := hgoes.shut
      rw [hopen] at hshut
      cases hshut

/-- A session that has nothing buffered acts on every line of a client, and is closed. -/
theorem deliver_sent (p : Program) (hargs : ∀ a ∈ args, 10 ∉ a) (input : Bytes) {s : Server}
    (hs : Consistent s) {fd : Int} {d : ClientSession} (hd : s.sessions.lookup fd = some d)
    (hempty : d.inbuf = {}) {calls : List (List RecvResult)}
    (hstream : (streamOfCalls calls).1 = terminated 10 (sentLines p args input)) :
    linesFrom d.conn (s.deliver fd calls).history =
        linesFrom d.conn s.history ++ (sentLines p args input).map stripCr ∧
      (s.deliver fd calls).sessions.lookup fd = none := by
  have hframed : framedLines (d.inbuf.buf_ ++ (streamOfCalls calls).1) =
      (sentLines p args input).map stripCr := by
    rw [hempty, hstream, List.nil_append, framedLines_sent p hargs]
  obtain ⟨hlines, hends⟩ := deliver_received hs hd (hempty ▸ List.not_mem_nil) calls
  rw [hframed] at hlines hends
  exact ⟨by rw [hlines, untilQuit_sent], hends (Or.inr (exists_sent_quit p args input))⟩

/-- When a connection has brought every line of a client, all of them have been acted on, and its
session has ended. -/
theorem Server.Heard.sent (p : Program) (hargs : ∀ a ∈ args, 10 ∉ a) {input : Bytes} {s : Server}
    {k : Nat} (h : Heard s k (terminated 10 (sentLines p args input))) :
    linesFrom k s.history = (sentLines p args input).map stripCr ∧ s.connected k = false := by
  have hcut := framedLines_sent p hargs input
  refine ⟨by rw [h.lines, hcut, untilQuit_sent], h.closed ?_⟩
  rw [hcut]
  exact exists_sent_quit p args input

/-! ## The main result -/

/-- For either client, any arguments without newlines and any input, however it is cut into reads:
as long as the sends go on and the client is not cut off, what it sends is its start-up lines and
then the lines of its session, in order; once its input has been read it has sent all of them,
shuts down its sending side, and sends nothing any more. However these bytes are cut into reads of
a session of the server that has nothing buffered, each of the lines is handled and the session is
closed, and so it is in every run in which they come in on a connection, whatever else happens
between; handling a line returns false for the last of them and for no other. -/
theorem client_and_server_agree (p : Program) (args : List Bytes) (stdin : List ReadResult)
    (sends : List SendResult) (polls : List Client.Poll) (hargs : ∀ a ∈ args, 10 ∉ a)
    (hstdin : ∀ r ∈ stdin, r.Works) (hsends : ∀ r ∈ sends, r.Proceeds)
    (hpolls : Admissible Client.Undisturbed Client.turn (Client.start p args stdin sends) polls) :
    let c := run Client.turn (Client.start p args stdin sends) polls
    let lines := p.greeting args ++ sessionLines (typed stdin)
    (Client.start p args stdin sends).wire = terminated 10 (p.greeting args) ∧
      c.wire <+: terminated 10 lines ∧
      (stdin.length < (polls.map Client.Poll.reads).sum → c.shut = true) ∧
      (c.shut = true → ∀ polls', (run Client.turn c polls').wire = terminated 10 lines) ∧
      (∀ kq listenFd sends' events,
        let s₀ := Server.start kq listenFd sends'
        let s := run dispatch s₀ events
        (∀ fd d calls, s.sessions.lookup fd = some d → d.inbuf = {} →
          (streamOfCalls calls).1 = terminated 10 lines →
            linesFrom d.conn (s.deliver fd calls).history =
                linesFrom d.conn s.history ++ lines.map stripCr ∧
              (s.deliver fd calls).sessions.lookup fd = none) ∧
        ∀ k, s₀.receivedOn k events = terminated 10 lines →
          linesFrom k s.history = lines.map stripCr ∧ s.connected k = false) ∧
      ∀ (s : Server) fd d i line, s.sessions.lookup fd = some d →
        (lines.map stripCr)[i]? = some line →
          ((s.handleLine fd line).2 = false ↔ i + 1 = lines.length) := by
  intro c lines
  obtain ⟨_, -, hstart⟩ := Client.start_eq p args stdin hsends
  obtain ⟨hsent, hall, hended⟩ := client_sends p args hstdin hsends hpolls
  refine ⟨by rw [hstart], hsent, hall, hended,
    fun kq listenFd sends' events => ⟨fun fd d calls hd hempty hstream => ?_,
      fun k hreceived => ?_⟩, fun s fd d i line hd hi => ?_⟩
  · have hreachable := (Reachable.start kq listenFd sends').run_dispatch events
    exact deliver_sent p hargs (typed stdin) (consistent_of_view hreachable.consistent) hd hempty
      hstream
  · have hheard := run_heard kq listenFd sends' events k
    rw [hreceived] at hheard
    exact hheard.sent p hargs
  · rw [handleLine_alive hd]
    exact sent_quit_iff p args (typed stdin) hi

/-- The user types a BUY, a QUIT that two reads cut apart and a line that is not sent; the server
reads what is sent in three pieces that cut the lines elsewhere. -/
theorem client_and_server_agree_quit_typed :
    let stdin : List ReadResult :=
      [.data ⟨text "BUY XYZ 5 10\r\nQU", by decide, by decide⟩, .eintr,
        .data ⟨text "IT now\nFOO\n", by decide, by decide⟩]
    let c := run Client.turn (Client.start .traderClient [text "bob"] stdin [.sent 2, .eintr])
      [.ready true none, .eintr, .ready true (some .again), .ready true none]
    let lines := [text "LOGIN bob", text "BUY XYZ 5 10", text "QUIT now"]
    let s := run dispatch (Server.start 3 4 [])
      [{ event := ⟨4, .read, false, false⟩, accepts := [.accepted 5] }]
    let calls : List (List RecvResult) :=
      [[.data ⟨text "LOG", by decide, by decide⟩, .eintr,
          .data ⟨text "IN bob\nBUY XYZ", by decide, by decide⟩, .again],
        [.data ⟨text " 5 10\nQUIT now\n", by decide, by decide⟩, .fin]]
    c.wire = terminated 10 lines ∧ c.shut = true ∧
      linesFrom 0 (s.deliver 5 calls).history = lines ∧
      (s.deliver 5 calls).sessions.lookup 5 = none := by
  intro stdin c lines s calls
  have hlines : Program.traderClient.greeting [text "bob"] ++ sessionLines (typed stdin) =
      lines := by decide
  have hcut : lines.map stripCr = lines := by decide
  obtain ⟨d, hd, hconn, hempty, hbefore⟩ : ∃ d, s.sessions.lookup 5 = some d ∧ d.conn = 0 ∧
      d.inbuf = {} ∧ linesFrom 0 s.history = [] := ⟨_, rfl, rfl, rfl, rfl⟩
  obtain ⟨-, -, -, hwhole, hserver, -⟩ := client_and_server_agree .traderClient [text "bob"]
    stdin [.sent 2, .eintr] [.ready true none, .eintr, .ready true (some .again), .ready true none]
    (by decide) (by decide) (by decide) (by decide)
  rw [hlines] at hwhole hserver
  have hshut : c.shut = true := by decide
  have hfeed : (streamOfCalls calls).1 = terminated 10 lines := by decide
  obtain ⟨hread, -⟩ := hserver 3 4 []
    [{ event := ⟨4, .read, false, false⟩, accepts := [.accepted 5] }]
  obtain ⟨hhandled, hclosed⟩ := hread 5 d calls hd hempty hfeed
  rw [hconn, hbefore, hcut, List.nil_append] at hhandled
  have hwire := hwhole hshut []
  rw [run_nil] at hwire
  exact ⟨hwire, hshut, hhandled, hclosed⟩

end SocketExchange
