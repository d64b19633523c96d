import SocketExchange.Client.Transcript
import SocketExchange.Service.Closings

/-!
# The server and its clients

The whole system: one server, a client for each connection, and the two streams between them.
Any of them may move at any time. The network does no more than carry the bytes of each stream
in order, cut anywhere and as late as it likes, and tell a reader of the end of the stream
when its other side has ended it and every byte of it has been read.
-/

namespace SocketExchange

open Containers ClientSession Runs Segments Server

/-- Someone at a client: how the client is started, what is typed, and how its sends go. -/
structure User where
  program : Program
  args : List Bytes
  stdin : List ReadResult
  sends : List SendResult

namespace User

/-- The client as it is started. -/
def client (u : User) : Client := Client.start u.program u.args u.stdin u.sends

/-- The lines the user's client is to send. -/
def lines (u : User) : List Bytes := sentLines u.program u.args (typed u.stdin)

end User

/-- The server, and for each connection, in the order in which they are accepted, its client and
how much of the two streams has been read. -/
structure Network where
  server : Server
  clients : Nat → Client
  /-- What the server has read of each client's stream. -/
  heard : Nat → Bytes
  /-- What each client has received of the server's stream. -/
  shown : Nat → Bytes

/-- Either the server handles an event or a client takes a turn of its loop. -/
inductive Move where
  | serve (e : Event)
  | poll (k : Nat) (p : Client.Poll)

/-- The client has ended its stream. -/
def Client.Finished (c : Client) : Prop := c.shut = true ∨ c.running = false

instance (c : Client) : Decidable c.Finished := inferInstanceAs (Decidable (_ ∨ _))

/-- The poll brings the end of the server's stream. -/
def Client.Poll.fin : Client.Poll → Bool
  | .ready _ (some .fin) => true
  | _ => false

namespace Network

/-- The system before anything has happened. -/
def start (kq listenFd : Int) (sends : List SendResult) (users : Nat → User) : Network :=
  { server := Server.start kq listenFd sends
    clients := fun k => (users k).client
    heard := fun _ => []
    shown := fun _ => [] }

/-- What a move does to the system. -/
def step (n : Network) : Move → Network
  | .serve e =>
    { n with
      server := n.server.dispatch e
      heard := fun k => n.heard k ++ n.server.brought k e }
  | .poll k p =>
    { n with
      clients := Function.update n.clients k ((n.clients k).turn p)
      shown := Function.update n.shown k (n.shown k ++ (n.clients k).received p) }

/-- What the network guarantees: a reader is given the next bytes of the stream, and its end only
behind all of them. -/
def Carries (n : Network) : Move → Prop
  | .serve e => ∀ k ∈ n.server.reading e,
      n.heard k ++ (streamOf e.recvs).1 <+: (n.clients k).wire ∧
        (recvEnd e.recvs = .fin → (n.clients k).Finished ∧
          n.heard k ++ (streamOf e.recvs).1 = (n.clients k).wire)
  | .poll k p => n.shown k ++ (n.clients k).received p <+: n.server.kernel.wire k ∧
      (p.fin = true → n.server.Departed k ∧ n.shown k = n.server.kernel.wire k)

instance (n : Network) : ∀ m, Decidable (n.Carries m)
  | .serve _ => inferInstanceAs (Decidable (∀ k ∈ n.server.reading _, _ ∧ _))
  | .poll _ _ => inferInstanceAs (Decidable (_ ∧ _))

/-- What can wake the server up: the event is for a descriptor that is registered for it and is no
error report, and if it has the server read from a session, there is something to be read, further
bytes of the client or the end of its stream. -/
def Raised (n : Network) : Move → Prop
  | .serve e => (e.event.ident, e.event.filter) ∈ n.server.kernel.registered ∧
      e.event.error = false ∧
      ∀ k ∈ n.server.reading e, n.heard k ≠ (n.clients k).wire ∨ (n.clients k).Finished
  | .poll .. => True

variable {n : Network} {m : Move} {k : Nat}

/-! ## What is carried -/

/-- The streams of a connection are read in order, and the server acts on what it has read. -/
structure Carried (k : Nat) (n : Network) : Prop where
  reachable : Reachable n.server
  drained : Drained n.server
  heard : Heard n.server k (n.heard k)
  up : n.heard k <+: (n.clients k).wire
  down : n.shown k <+: n.server.kernel.wire k

/-- A move keeps what is carried between the two ends of a connection. -/
theorem Carried.step (h : Carried k n) (hm : n.Carries m) : Carried k (n.step m) := by
  cases m with
  | serve e =>
    have hs : Consistent n.server := consistent_of_view h.reachable.consistent
    refine ⟨h.reachable.reaches (dispatch_reaches n.server e), h.drained.dispatch hs e,
      h.heard.dispatch hs h.drained e, ?_, h.down.trans (wire_dispatch hs e k)⟩
    have hup : n.heard k ++ n.server.brought k e <+: (n.clients k).wire := by
      rw [brought_eq]
      split
      · rename_i hreads
        exact (hm k hreads).1
      · rw [List.append_nil]
        exact h.up
    exact hup
  | poll j p =>
    by_cases hk : k = j
    · subst hk
      refine ⟨h.reachable, h.drained, h.heard, ?_, ?_⟩
      · simp only [Network.step, Function.update_self]
        exact h.up.trans (Client.wire_turn ..)
      · simp only [Network.step, Function.update_self]
        exact hm.1
    · refine ⟨h.reachable, h.drained, h.heard, ?_, ?_⟩
      · simp only [Network.step, Function.update_of_ne hk]
        exact h.up
      · simp only [Network.step, Function.update_of_ne hk]
        exact h.down

/-- At the start nothing is under way. -/
theorem carried_start (kq listenFd : Int) (sends : List SendResult) (users : Nat → User) (k : Nat) :
    Carried k (start kq listenFd sends users) where
  reachable := .start kq listenFd sends
  drained := run_drained kq listenFd sends []
  heard := heard_start kq listenFd sends k
  up := List.nil_prefix
  down := List.nil_prefix

private theorem step_reaches (n : Network) (m : Move) : Reaches n.server (n.step m).server := by
  cases m with
  | serve e => exact dispatch_reaches n.server e
  | poll j p => exact .refl _

/-- Over any moves of the network the server takes a run of its own actions. -/
theorem run_reaches (n : Network) (moves : List Move) :
    Reaches n.server (run step n moves).server :=
  run_preorder (r := fun n n' : Network => Reaches n.server n'.server) (fun n => .refl n.server)
    Reaches.trans step_reaches n moves

/-- The move is the server's, or if it is the client's of this connection, it is one of its
turns. -/
theorem client_step (n : Network) (m : Move) (k : Nat) :
    ((n.step m).clients k = n.clients k ∧ (n.step m).shown k = n.shown k) ∨
      ∃ p, m = .poll k p ∧ (n.step m).clients k = (n.clients k).turn p ∧
        (n.step m).shown k = n.shown k ++ (n.clients k).received p := by
  cases m with
  | serve e => exact Or.inl ⟨rfl, rfl⟩
  | poll j p =>
    by_cases hk : k = j
    · subst hk
      exact Or.inr ⟨p, rfl, by simp [step], by simp [step]⟩
    · exact Or.inl ⟨by simp [step, hk], by simp [step, hk]⟩

end Network

end SocketExchange
