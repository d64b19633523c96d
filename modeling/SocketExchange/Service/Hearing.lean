import SocketExchange.Service.Reassembly

/-!
# Everything a connection sends is heard

Between two events of the loop, whatever else has happened meanwhile, the lines of a
connection that have been acted on are those of all the bytes received on it, up to and
including the first QUIT; with the QUIT its session ends, and until then the bytes
behind the last complete line are buffered.
-/

namespace SocketExchange

open Containers ClientSession Runs

namespace Server

variable {s s' : Server} {fd : Int} {c : ClientSession} {k : Nat} {stream : Bytes}

/-- What an event brings on a connection: the bytes there are for `recv` when the descriptor of its
session is ready for reading. A QUIT among them keeps the server from reading the rest. -/
def brought (k : Nat) (s : Server) (e : Event) : Bytes :=
  if s.Reads e ∧ (s.input e.event.ident).map Prod.fst = some k then (streamOf e.recvs).1 else []

/-- Everything that these events bring on a connection. -/
def receivedOn (k : Nat) (s : Server) (events : List Event) : Bytes :=
  (Runs.outputs dispatch (brought k) s events).flatten

/-- The lines acted on are those of the stream up to the first QUIT, which has ended the session;
a session that is there has buffered the rest of the stream. -/
structure Heard (s : Server) (k : Nat) (stream : Bytes) : Prop where
  lines : linesFrom k s.history = untilQuit (framedLines stream)
  left : ∀ fd b, s.input fd = some (k, b) → b = (LineBuffer.mk stream).lines.2 ∧
    ∀ line ∈ framedLines stream, commandWord line ≠ text "QUIT"
  /-- Nothing is received on a connection that has not been accepted. -/
  early : s.accepted ≤ k → stream = []

/-- A step that does not hear a connection keeps what has been heard from it. -/
theorem Heard.unheard (h : Heard s k stream) (hs : Unheard k s s') : Heard s' k stream where
  lines := hs.lines.trans h.lines
  left fd b hb := by
    rcases hs.input fd b hb with hbefore | ⟨hle, rfl⟩
    · exact h.left fd b hbefore
    · rw [h.early hle]
      exact ⟨rfl, fun line hline => by cases hline⟩
  early hle := h.early (hs.accepted.trans hle)

/-- A QUIT has ended the session. -/
theorem Heard.closed (h : Heard s k stream)
    (hquit : ∃ line ∈ framedLines stream, commandWord line = text "QUIT") :
    s.connected k = false := by
  rw [← Bool.not_eq_true, connected_iff]
  rintro ⟨fd, c, hc, rfl⟩
  obtain ⟨-, hnoQuit⟩ := h.left fd c.inbuf (input_eq hc)
  obtain ⟨line, hline, hword⟩ := hquit
  exact hnoQuit line hline hword

/-! ## Reading -/

/-- Lines of one connection are not lines of another. -/
theorem handleLine_unheard (hc : s.sessions.lookup fd = some c) (hk : c.conn ≠ k) (line : Bytes) :
    linesFrom k (s.handleLine fd line).1.history = linesFrom k s.history := by
  obtain ⟨obs, hhistory, hobs⟩ := handleLine_adds hc line
  rw [hhistory, linesFrom_append_nil _ (hobs k), linesFrom_append, linesFrom_received, if_neg hk,
    List.append_nil]

private theorem obey_unheard (hs : Consistent s) (hc : s.sessions.lookup fd = some c)
    (hk : c.conn ≠ k)
    (ls : List Bytes) : linesFrom k (s.obey fd ls).1.history = linesFrom k s.history := by
  induction ls generalizing s c with
  | nil => rfl
  | cons line ls ih =>
    have hline := handleLine_unheard hc hk line
    have hinput := handleLine_input hs fd line fd
    have hs' := hs.calls (calls_handleLine s fd line)
    rw [obey]
    generalize s.handleLine fd line = r at hline hinput hs'
    obtain ⟨s', alive⟩ := r
    cases alive with
    | false => exact hline
    | true =>
      obtain ⟨c', hc', hconn, -⟩ := input_eq_some.mp ((hinput (Or.inl rfl)).trans (input_eq hc))
      exact (ih hs' hc' (hconn ▸ hk)).trans hline

private theorem Obeyed.lines_eq {ls : List Bytes} {left : LineBuffer} {r : Server × Bool} {j : Nat}
    (h : Obeyed s fd j ls left r) (k : Nat) :
    linesFrom k r.1.history = linesFrom k (s.obey fd ls).1.history := by
  have hhistory : r.1.core.history = (s.obey fd ls).1.core.history := congrArg history h.core
  exact congrArg (linesFrom k) hhistory

private theorem accepted_onReadable_le (s : Server) (fd : Int) (recvs : List RecvResult) :
    s.accepted ≤ (s.onReadable fd recvs).accepted :=
  (onReadable_proceeds s fd recvs).reaches.accepted_le

/-- Reading from one connection leaves the others unheard. -/
theorem unheard_onReadable (hs : Consistent s) (hdrained : Drained s)
    (hk : (s.input fd).map Prod.fst ≠ some k) (recvs : List RecvResult) :
    Unheard k s (s.onReadable fd recvs) := by
  have haccepted := s.accepted_onReadable_le fd recvs
  cases hc : s.sessions.lookup fd with
  | none =>
    rw [onReadable_gone hc]
    exact .refl k s
  | some c =>
    have hother : c.conn ≠ k := by
      rw [input_eq hc, Option.map_some] at hk
      exact fun he => hk (congrArg some he)
    obtain ⟨r, hr, hobeyed⟩ := onReadable_obeyed recvs hs hc (hdrained fd _ _ (input_eq hc))
    rw [hr] at haccepted ⊢
    refine ⟨?_, fun fd' b hb => ?_, haccepted⟩
    · rw [(unheard_finish k fd r _).lines, hobeyed.lines_eq, obey_unheard hs hc hother]
    · rcases hobeyed.input_cases hb with ⟨-, hbefore⟩ | ⟨-, -, hleft⟩
      · exact Or.inl hbefore
      · exact absurd (congrArg Prod.fst hleft).symm hother

/-- Reading from the connection itself: the lines that the new bytes complete are acted on. -/
theorem Heard.read (h : Heard s k stream) (hs : Consistent s) (hdrained : Drained s)
    (hk : (s.input fd).map Prod.fst = some k) (recvs : List RecvResult) :
    Heard (s.onReadable fd recvs) k (stream ++ (streamOf recvs).1) := by
  obtain ⟨⟨k', b⟩, hinput, rfl⟩ := Option.map_eq_some_iff.mp hk
  obtain ⟨c, hc, hconn, hinbuf⟩ := input_eq_some.mp hinput
  obtain ⟨hleft, hnoQuit⟩ := h.left fd b hinput
  have haccepted := s.accepted_onReadable_le fd recvs
  have hnumbered := hs.numbered fd c hc
  obtain ⟨r, hr, hobeyed⟩ := onReadable_obeyed recvs hs hc (hdrained fd _ _ (input_eq hc))
  have hfeed : (LineBuffer.mk (stream ++ (streamOf recvs).1)).lines =
      ((LineBuffer.mk stream).lines.1 ++ (c.inbuf.feed (streamOf recvs).1).lines.1,
        (c.inbuf.feed (streamOf recvs).1).lines.2) := by
    rw [hinbuf, hleft]
    exact (LineBuffer.mk stream).lines_feed _
  have hall : framedLines (stream ++ (streamOf recvs).1) =
      framedLines stream ++ (c.inbuf.feed (streamOf recvs).1).lines.1 := by
    have hlines := congrArg Prod.fst hfeed
    rwa [LineBuffer.lines_eq_framed, LineBuffer.lines_eq_framed (LineBuffer.mk stream)] at hlines
  obtain ⟨hreceived, hquit⟩ := obey_received hs hc (c.inbuf.feed (streamOf recvs).1).lines.1
  rw [hr] at haccepted ⊢
  rw [hconn] at hnumbered hreceived
  refine ⟨?_, fun fd' b' hb => ?_, fun hle => by omega⟩
  · rw [(unheard_finish k' fd r _).lines, hobeyed.lines_eq, hreceived, h.lines, hall,
      untilQuit_append_of_not hnoQuit, untilQuit_of_not hnoQuit]
  · rcases hobeyed.input_cases hb with ⟨hfd, hbefore⟩ | ⟨-, hstays, hrest⟩
    · obtain ⟨c', hc', hconn', -⟩ := input_eq_some.mp hbefore
      exact absurd (hs.distinct fd' fd c' c hc' hc (hconn'.trans hconn.symm)) hfd
    · obtain ⟨-, rfl⟩ := Prod.mk.inj hrest
      refine ⟨(congrArg Prod.snd hfeed).symm, ?_⟩
      rw [hall]
      refine List.forall_mem_append.mpr ⟨hnoQuit, fun line hline hword => ?_⟩
      rw [hobeyed.alive, hquit.mpr ⟨line, hline, hword⟩] at hstays
      cases hstays

/-! ## The event loop -/

/-- Every event adds to what is heard of a connection just what it brings on it. -/
theorem Heard.dispatch (h : Heard s k stream) (hs : Consistent s) (hdrained : Drained s)
    (e : Event) : Heard (s.dispatch e) k (stream ++ s.brought k e) := by
  by_cases hreads : s.Reads e
  · have hrehash := unheard_rehash k s e.sessionOrder e.bookOrder
    have hs' : Consistent (s.rehash e.sessionOrder e.bookOrder) :=
      hs.act (.rehash e.sessionOrder e.bookOrder)
    have hdrained' : Drained (s.rehash e.sessionOrder e.bookOrder) :=
      hdrained.unheard fun k => unheard_rehash k s e.sessionOrder e.bookOrder
    have hinput : (s.rehash e.sessionOrder e.bookOrder).input e.event.ident =
        s.input e.event.ident := by
      rw [input, rehash, UnorderedMap.lookup_reorder, input]
    by_cases hk : (s.input e.event.ident).map Prod.fst = some k
    · have hheard := (h.unheard hrehash).read hs' hdrained' (by rwa [hinput]) e.recvs
      rw [brought, if_pos ⟨hreads, hk⟩]
      exact hheard.unheard (hreads.unheard k)
    · have hother := unheard_onReadable hs' hdrained' (by rwa [hinput]) e.recvs
      rw [brought, if_neg fun hboth => hk hboth.2, List.append_nil]
      exact h.unheard ((hrehash.trans hother).trans (hreads.unheard k))
  · rw [brought, if_neg fun hboth => hreads hboth.1, List.append_nil]
    exact h.unheard (unheard_dispatch hreads k)

/-- At the start nothing has been heard. -/
theorem heard_start (kq listenFd : Int) (sends : List SendResult) (k : Nat) :
    Heard (start kq listenFd sends) k [] where
  lines := rfl
  left fd b hb := by cases hb
  early _ := rfl

private theorem heard_run {events : List Event} (h : Heard s k stream) (hs : Reachable s)
    (hdrained : Drained s) :
    Heard (run dispatch s events) k (stream ++ s.receivedOn k events) := by
  induction events generalizing s stream with
  | nil => simpa [receivedOn, Runs.outputs] using h
  | cons e events ih =>
    have hconsistent : Consistent s := consistent_of_view hs.consistent
    have hrest := ih (h.dispatch hconsistent hdrained e) (hs.reaches (dispatch_reaches s e))
      (hdrained.dispatch hconsistent e)
    rwa [List.append_assoc] at hrest

/-- In every run, whatever the events, the lines acted on of a connection are those of all the
bytes received on it, up to and including the first QUIT. -/
theorem run_heard (kq listenFd : Int) (sends : List SendResult) (events : List Event) (k : Nat) :
    Heard (run dispatch (start kq listenFd sends) events) k
      ((start kq listenFd sends).receivedOn k events) :=
  heard_run (heard_start kq listenFd sends k) (.start kq listenFd sends)
    (run_drained kq listenFd sends [])

end Server

end SocketExchange
