import SocketExchange.Library.Runs
import SocketExchange.Service.Commands

/-!
# The event loop as a sequence of actions

An action is the least the server does at a time: it takes one connection, reads one
chunk, handles one line, closes one session, or flushes one backlog. The handlers of an
event are sequences of actions, so that what holds along every sequence of actions
holds throughout the event loop. In the view an action is one of six moves.
-/

namespace SocketExchange

open Containers ClientSession Runs

/-- What can happen to the server at one time. -/
inductive Action where
  /-- The kernel hands out a connection. -/
  | accept (cfd : Int)
  /-- A `recv` returns bytes. -/
  | feed (fd : Int) (chunk : Chunk)
  /-- The next complete line of the session's input is handled. -/
  | line (fd : Int)
  /-- A `recv` returns 0 or fails. -/
  | hangup (fd : Int)
  /-- The event loop closes the session. -/
  | drop (fd : Int)
  /-- The descriptor is reported writable. -/
  | writable (fd : Int)
  /-- The hash tables are rearranged. -/
  | rehash (sessionOrder : List Int) (bookOrder : List Bytes)

namespace Server

/-- What the server does at one time. -/
def act (s : Server) : Action → Server
  | .accept cfd => if s.Free cfd then s.openSession cfd else s
  | .feed fd chunk => s.feed fd chunk
  | .line fd =>
    match s.takeLine fd with
    | none => s
    | some r => r.1
  | .hangup fd => s.hangup fd
  | .drop fd => s.closeSession fd
  | .writable fd => s.onWritable fd
  | .rehash sessionOrder bookOrder => s.rehash sessionOrder bookOrder

/-- A line action is the line taken from the buffer and handled. -/
theorem act_line {s : Server} {fd : Int} {r : Server × Bool} (h : s.takeLine fd = some r) :
    s.act (.line fd) = r.1 := by
  simp only [act, h]

/-! ## Events are sequences of actions -/

/-- Some sequence of actions leads from one state to the other. -/
def Reaches (s s' : Server) : Prop := ∃ actions, run act s actions = s'

/-- The server reaches the state it is in. -/
theorem Reaches.refl (s : Server) : Reaches s s := ⟨[], rfl⟩

/-- What is reached from a reached state is reached. -/
theorem Reaches.trans {s s' s'' : Server} (h : Reaches s s') (h' : Reaches s' s'') :
    Reaches s s'' := by
  obtain ⟨actions, rfl⟩ := h
  obtain ⟨actions', rfl⟩ := h'
  exact ⟨actions ++ actions', run_append⟩

/-- One action is a run. -/
theorem Reaches.act (s : Server) (a : Action) : Reaches s (s.act a) := ⟨[a], rfl⟩

/-- The same, without the event loop closing a session on the way. -/
def Proceeds (s s' : Server) : Prop :=
  ∃ actions, (∀ a ∈ actions, ∀ fd, a ≠ Action.drop fd) ∧ run act s actions = s'

/-- To proceed is to run. -/
theorem Proceeds.reaches {s s' : Server} (h : Proceeds s s') : Reaches s s' := by
  obtain ⟨actions, -, hrun⟩ := h
  exact ⟨actions, hrun⟩

/-- Standing still is proceeding. -/
theorem Proceeds.refl (s : Server) : Proceeds s s := ⟨[], List.forall_mem_nil _, rfl⟩

/-- Proceeding twice is proceeding. -/
theorem Proceeds.trans {s s' s'' : Server} (h : Proceeds s s') (h' : Proceeds s' s'') :
    Proceeds s s'' := by
  obtain ⟨actions, hall, rfl⟩ := h
  obtain ⟨actions', hall', rfl⟩ := h'
  exact ⟨actions ++ actions', List.forall_mem_append.mpr ⟨hall, hall'⟩, run_append⟩

/-- An action that drops no session proceeds. -/
theorem Proceeds.act (s : Server) (a : Action) (ha : ∀ fd, a ≠ .drop fd) :
    Proceeds s (s.act a) :=
  ⟨[a], fun _ ha' => List.mem_singleton.mp ha' ▸ ha, rfl⟩

private theorem acceptNew_proceeds (results : List AcceptResult) (s : Server) :
    Proceeds s (s.acceptNew results) := by
  induction results generalizing s with
  | nil => exact .refl s
  | cons result results ih =>
    cases result with
    | accepted cfd =>
      have hstep := Proceeds.act s (.accept cfd) nofun
      rw [Server.act] at hstep
      rw [acceptNew]
      split
      · rename_i hfree
        rw [if_pos hfree] at hstep
        exact hstep.trans (ih _)
      · exact ih s
    | again => exact .refl s
    | eintr => exact ih s
    | aborted => exact ih s
    | failed => exact .refl s

private theorem handleLines_proceeds (fuel : Nat) (s : Server) (fd : Int) :
    Proceeds s (handleLines fuel s fd).1 := by
  induction fuel generalizing s with
  | zero => exact .refl s
  | succ fuel ih =>
    have hstep := Proceeds.act s (.line fd) nofun
    rw [Server.act] at hstep
    rw [handleLines]
    cases h : s.takeLine fd with
    | none => exact .refl s
    | some r =>
      obtain ⟨s', alive⟩ := r
      rw [h] at hstep
      cases alive with
      | true => exact hstep.trans (ih s')
      | false => exact hstep

private theorem recvLoop_proceeds (recvs : List RecvResult) (s : Server) (fd : Int) :
    Proceeds s (s.recvLoop fd recvs) := by
  induction recvs generalizing s with
  | nil => exact .refl s
  | cons result recvs ih =>
    have hhangup : Proceeds s (s.hangup fd) := .act s (.hangup fd) nofun
    cases result with
    | data chunk =>
      have hlines := (Proceeds.act s (.feed fd chunk) nofun).trans
        (handleLines_proceeds ((s.feed fd chunk).buffered fd) (s.feed fd chunk) fd)
      rw [recvLoop]
      split
      · rename_i s' h
        rw [h] at hlines
        exact hlines.trans (ih s')
      · rename_i s' h
        rw [h] at hlines
        exact hlines
    | fin => exact hhangup
    | eintr => exact ih s
    | again => exact .refl s
    | reset => exact hhangup
    | failed => exact hhangup

/-- Reading from a session proceeds by lines, farewells and hang-ups. -/
theorem onReadable_proceeds (s : Server) (fd : Int) (recvs : List RecvResult) :
    Proceeds s (s.onReadable fd recvs) := by
  unfold onReadable
  cases s.sessions.lookup fd with
  | none => exact .refl s
  | some c => exact recvLoop_proceeds recvs s fd

/-- The state in which the event loop looks at a read event's EV_EOF flag. -/
def afterRead (s : Server) (e : Event) : Server :=
  (s.rehash e.sessionOrder e.bookOrder).onReadable e.event.ident e.recvs

/-- An event proceeds by such actions up to its EV_EOF test. -/
theorem afterRead_proceeds (s : Server) (e : Event) : Proceeds s (s.afterRead e) :=
  (Proceeds.act s (.rehash e.sessionOrder e.bookOrder) nofun).trans (onReadable_proceeds ..)

/-- The event makes the event loop close the session: the flag is set, and the session is still
there after the reading. -/
def ClosesOnEof (s : Server) (e : Event) : Prop :=
  e.event.ident ≠ s.listenFd ∧ e.event.filter = .read ∧ e.event.eof = true ∧
    ((s.afterRead e).sessions.lookup e.event.ident).isSome = true

instance (s : Server) (e : Event) : Decidable (s.ClosesOnEof e) :=
  inferInstanceAs (Decidable (_ ∧ _ ∧ _ ∧ _))

/-- An event whose EV_EOF flag the loop takes drops the session that is under its descriptor then.
-/
theorem dispatch_of_closesOnEof {s : Server} {e : Event} (herror : e.event.error = false)
    (h : s.ClosesOnEof e) : s.dispatch e = (s.afterRead e).act (.drop e.event.ident) := by
  obtain ⟨hlisten, hfilter, heof, hsome⟩ := h
  have hother : e.event.ident ≠ (s.rehash e.sessionOrder e.bookOrder).listenFd := hlisten
  simp only [dispatch, herror, Bool.false_eq_true, if_false, if_neg hother, hfilter]
  rw [if_pos]
  · rfl
  · rw [Bool.and_eq_true]
    exact ⟨hsome, heof⟩

/-- Any other event without an error closes no session by the event loop's own decision. -/
theorem dispatch_proceeds {s : Server} {e : Event} (herror : e.event.error = false)
    (h : ¬ s.ClosesOnEof e) : Proceeds s (s.dispatch e) := by
  have hrehash : Proceeds s (s.rehash e.sessionOrder e.bookOrder) :=
    .act s (.rehash e.sessionOrder e.bookOrder) nofun
  simp only [dispatch, herror, Bool.false_eq_true, if_false]
  by_cases hlisten : e.event.ident = (s.rehash e.sessionOrder e.bookOrder).listenFd
  · rw [if_pos hlisten]
    exact hrehash.trans (acceptNew_proceeds e.accepts _)
  rw [if_neg hlisten]
  cases hfilter : e.event.filter with
  | read =>
    dsimp only
    rw [if_neg]
    · exact afterRead_proceeds s e
    · intro hclose
      obtain ⟨hsome, heof⟩ := Bool.and_eq_true_iff.mp hclose
      exact h ⟨hlisten, hfilter, heof, hsome⟩
  | write => exact hrehash.trans (.act _ (.writable e.event.ident) nofun)

/-- The body of the event loop is a sequence of actions. -/
theorem dispatch_reaches (s : Server) (e : Event) : Reaches s (s.dispatch e) := by
  cases herror : e.event.error with
  | true =>
    refine (Reaches.act s (.rehash e.sessionOrder e.bookOrder)).trans ?_
    simp only [dispatch, herror, if_true, Server.act]
    split
    · exact .act _ (.drop e.event.ident)
    · exact .refl _
  | false =>
    by_cases hclose : s.ClosesOnEof e
    · rw [dispatch_of_closesOnEof herror hclose]
      exact (afterRead_proceeds s e).reaches.trans (.act _ _)
    · exact (dispatch_proceeds herror hclose).reaches

/-- Whatever holds of all sequences of actions holds of the event loop. -/
theorem run_dispatch_reaches (s : Server) (events : List Event) :
    Reaches s (run dispatch s events) :=
  run_preorder Reaches.refl Reaches.trans dispatch_reaches s events

/-! ## Moves of the view -/

/-- A free descriptor's session, as it shows in the view. -/
def join (s : Server) (cfd : Int) : Server :=
  { s with
    sessions := s.sessions.insert cfd
      { fd := cfd, sessionSeq := s.nextSessionSeq, conn := s.accepted }
    nextSessionSeq := s.nextSessionSeq + 1
    accepted := s.accepted + 1
    history := s.history ++ [Obs.accepted s.accepted cfd] }

/-- What one action can do to the view. -/
inductive Moves (s : Server) (a : Action) : Server → Prop
  | idle : Moves s a s
  | admitted {cfd : Int} (hfree : s.Free cfd) : Moves s a (s.join cfd)
  /-- Only a session's input buffer changes. -/
  | fed {fd : Int} {f : ClientSession → ClientSession} (hf : ∀ c, ∃ inbuf, f c = c.setInbuf inbuf) :
    Moves s a (s.update fd f)
  /-- A line has been taken off the session's input and is handled. -/
  | handled {fd : Int} {c : ClientSession} {inbuf : LineBuffer} {line : Bytes} {r : Server × Bool}
      (hc : (s.update fd (setInbuf inbuf)).sessions.lookup fd = some c)
      (hr : Handled ((s.update fd (setInbuf inbuf)).noted fd c line) fd
        (inferRole (commandWord line) c) line r) :
    Moves s a r.1
  /-- A session is closed; the entry before it says why, unless the event loop closes it. -/
  | closed {fd : Int} {c : ClientSession} {obs : List Obs} (hc : s.sessions.lookup fd = some c)
      (hobs : (a = .drop fd ∧ obs = []) ∨ (a = .hangup fd ∧ obs = [.ended c.conn]) ∨
        (a = .writable fd ∧ obs = [.sendFailed c.conn])) :
    Moves s a ((s.log obs).forget fd)
  | rehashed {sessionOrder : List Int} {bookOrder : List Bytes} :
    Moves s a (s.rehash sessionOrder bookOrder)

/-- A session opened under a free descriptor joins the view. -/
theorem view_openSession {s : Server} {cfd : Int} (h : s.Free cfd) :
    (s.openSession cfd).view = s.view.join cfd := by
  obtain ⟨-, -, hnone⟩ := h
  have hopen : s.openSession cfd = (s.join cfd).kqAdd cfd .read := by
    simp only [openSession, hnone, Option.getD_none]
    rfl
  rw [hopen, view_kqAdd]
  simp only [view, join, UnorderedMap.mapValues_insert]
  rfl

/-- Rehashing the tables rehashes those of the view. -/
theorem view_rehash (s : Server) (sessionOrder : List Int) (bookOrder : List Bytes) :
    (s.rehash sessionOrder bookOrder).view = s.view.rehash sessionOrder bookOrder := by
  simp only [rehash, view, UnorderedMap.mapValues_reorder]

/-- A flush does not show, unless it fails and the session is closed. -/
theorem view_onWritable (s : Server) (fd : Int) :
    (s.onWritable fd).view = s.view ∨ ∃ c, s.sessions.lookup fd = some c ∧
      (s.onWritable fd).view = (s.view.log [.sendFailed c.conn]).forget fd := by
  simp only [onWritable]
  cases s.sessions.lookup fd with
  | none => exact Or.inl rfl
  | some c =>
    dsimp only
    split
    · rw [view_setOutbuf]
      exact Or.inl rfl
    · refine Or.inr ⟨c, rfl, ?_⟩
      rw [view_closeSession, view_log, view_setOutbuf]
      rfl
    · split
      · rw [view_setWantWrite, view_kqDel, view_setOutbuf]
        exact Or.inl rfl
      · rw [view_setOutbuf]
        exact Or.inl rfl

/-- Every action makes one move. -/
theorem act_moves (s : Server) (a : Action) : Moves s.view a (s.act a).view := by
  cases a with
  | accept cfd =>
    rw [act]
    split
    · rename_i hfree
      rw [view_openSession hfree]
      obtain ⟨hkq, hlisten, hnone⟩ := hfree
      exact .admitted ⟨hkq, hlisten, by rw [lookup_view, hnone, Option.map_none]⟩
    · exact .idle
  | feed fd chunk =>
    rw [act, feed, view_feedInbuf]
    exact .fed fun c => ⟨c.inbuf.feed chunk.bytes, rfl⟩
  | line fd =>
    obtain hnone | ⟨c, line, inbuf, hc, -, hset, htaken⟩ := s.takeLine_cases fd
    · simp only [act, hnone]
      exact .idle
    · have hhandled := handleLine_handled hset line
      rw [act_line htaken]
      rw [view_setInbuf] at hhandled
      exact .handled (lookup_update_of (lookup_view_of hc) _) hhandled
  | hangup fd =>
    simp only [act, hangup]
    cases hc : s.sessions.lookup fd with
    | none => exact .idle
    | some c =>
      rw [view_closeSession, view_log]
      exact .closed (lookup_view_of hc) (Or.inr (Or.inl ⟨rfl, rfl⟩))
  | drop fd =>
    rw [act, view_closeSession]
    cases hc : s.sessions.lookup fd with
    | none =>
      rw [forget, lookup_view, hc]
      exact .idle
    | some c =>
      have hmove := Moves.closed (lookup_view_of hc) (Or.inl ⟨rfl, rfl⟩)
      rwa [log_nil] at hmove
  | writable fd =>
    rw [act]
    rcases s.view_onWritable fd with hidle | ⟨c, hc, hclosed⟩
    · rw [hidle]
      exact .idle
    · rw [hclosed]
      exact .closed (lookup_view_of hc) (Or.inr (Or.inr ⟨rfl, rfl⟩))
  | rehash sessionOrder bookOrder =>
    rw [act, view_rehash]
    exact .rehashed

/-- The states the server can reach from its start, whatever its environment does. -/
def Reachable (s : Server) : Prop :=
  ∃ kq listenFd sends actions, run act (start kq listenFd sends) actions = s

/-- The server is reachable when it starts. -/
theorem Reachable.start (kq listenFd : Int) (sends : List SendResult) :
    Reachable (start kq listenFd sends) := ⟨kq, listenFd, sends, [], rfl⟩

/-- What a reachable server reaches is reachable. -/
theorem Reachable.reaches {s s' : Server} (h : Reachable s) (h' : Reaches s s') : Reachable s' := by
  obtain ⟨kq, listenFd, sends, actions, rfl⟩ := h
  obtain ⟨actions', rfl⟩ := h'
  exact ⟨kq, listenFd, sends, actions ++ actions', run_append⟩

/-- The event loop stays among the reachable states. -/
theorem Reachable.run_dispatch {s : Server} (h : Reachable s) (events : List Event) :
    Reachable (run dispatch s events) := h.reaches (run_dispatch_reaches s events)

/-- A property of views that holds at the start and that every action keeps holds of every
reachable state. -/
theorem Reachable.view_invariant {P : Server → Prop}
    (hstart : ∀ kq listenFd sends, P (Server.start kq listenFd sends).view)
    (hstep : ∀ s a, Reachable s → P s.view → Moves s.view a (s.act a).view → P (s.act a).view)
    {s : Server} (h : Reachable s) : P s.view := by
  obtain ⟨kq, listenFd, sends, actions, rfl⟩ := h
  have hrun := run_invariant (P := fun s : Server => Reachable s ∧ P s.view)
    (fun s a hs => ⟨hs.1.reaches (.act s a), hstep s a hs.1 hs.2 (act_moves s a)⟩)
    ⟨.start kq listenFd sends, hstart kq listenFd sends⟩ actions
  exact hrun.2

end Server

end SocketExchange
