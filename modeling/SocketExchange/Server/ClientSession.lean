import SocketExchange.Common.NetUtils
import SocketExchange.Server.OrderBook
import Mathlib.Data.Finset.Insert

/-!
# Sessions and the kernel

A session is what the server knows about one connection. The kernel is what its
system calls answer: each `send` takes the next result of a script, which may be
any script; the events of a batch and what `recv` and `accept` return come with the
event they belong to.
-/

namespace SocketExchange

/-- What a connection has shown itself to be. -/
inductive Role where
  | unknown
  | trader
  | marketData
  deriving DecidableEq, Repr

/-- What the server keeps of a connection. -/
structure ClientSession where
  fd : Int := -1
  sessionSeq : UInt64 := 0
  role : Role := .unknown
  /-- Set on a successful LOGIN. -/
  username : Bytes := []
  /-- The instruments of a market-data client. -/
  subscriptions : Finset Bytes := ∅
  /-- Reassembles newline-delimited messages. -/
  inbuf : LineBuffer := {}
  outbuf : List Bytes := []
  /-- Whether the descriptor is registered for writing. -/
  wantWrite : Bool := false
  /-- Not in the source: how many connections were accepted before this one. -/
  conn : Nat := 0

namespace ClientSession

/-- The client has given a username. -/
def loggedIn (c : ClientSession) : Bool := c.username ≠ []

/-! The assignments that handlers make through a reference to the session. -/

/-- After a LOGIN. -/
def setUsername (name : Bytes) (c : ClientSession) : ClientSession := { c with username := name }

/-- After a SUBSCRIBE; to subscribe twice does nothing. -/
def subscribe (instrument : Bytes) (c : ClientSession) : ClientSession :=
  { c with subscriptions := insert instrument c.subscriptions }

/-- After an UNSUBSCRIBE, whether or not there was a subscription. -/
def unsubscribe (instrument : Bytes) (c : ClientSession) : ClientSession :=
  { c with subscriptions := c.subscriptions.erase instrument }

/-- After a line has been taken off the input. -/
def setInbuf (inbuf : LineBuffer) (c : ClientSession) : ClientSession := { c with inbuf := inbuf }

/-- After bytes have been received. -/
def feedInbuf (bytes : Bytes) (c : ClientSession) : ClientSession :=
  { c with inbuf := c.inbuf.feed bytes }

/-- After output has been queued or sent. -/
def setOutbuf (outbuf : List Bytes) (c : ClientSession) : ClientSession :=
  { c with outbuf := outbuf }

/-- After the descriptor has been registered for writing, or unregistered. -/
def setWantWrite (wantWrite : Bool) (c : ClientSession) : ClientSession :=
  { c with wantWrite := wantWrite }

end ClientSession

/-! ## System calls -/

/-- The outcome of one `send`. -/
inductive SendResult where
  /-- Some bytes are accepted: `n + 1` of them, or all that were offered. -/
  | sent (n : Nat)
  /-- The call returned 0. -/
  | zero
  | eintr
  /-- The peer's receive window is full. -/
  | again
  /-- Any other error. -/
  | failed
  deriving DecidableEq, Repr

/-- The bytes one `recv` into the server's buffer can return. -/
structure Chunk where
  bytes : Bytes
  nonempty : bytes ≠ []
  fits : bytes.length ≤ 4096

/-- The outcome of one `recv`. -/
inductive RecvResult where
  | data (chunk : Chunk)
  /-- The peer shut down its sending side. -/
  | fin
  | eintr
  /-- Nothing more to read. -/
  | again
  | reset
  | failed

/-- The outcome of one `accept`. -/
inductive AcceptResult where
  | accepted (cfd : Int)
  /-- No connection is waiting. -/
  | again
  | eintr
  | aborted
  | failed

/-- What a descriptor is registered for. -/
inductive Filter where
  | read
  | write
  deriving DecidableEq, Repr

/-- An event as `kevent` returns it. -/
structure Kevent where
  ident : Int
  filter : Filter
  eof : Bool := false
  error : Bool := false
  deriving DecidableEq, Repr

/-- How a sequence of sends comes to its end. -/
inductive SendEnd where
  /-- Everything has been accepted. -/
  | done
  /-- The rest must wait. -/
  | blocked
  | failed
  deriving DecidableEq, Repr

/-- The kernel as far as the server sees it. -/
structure Kernel where
  /-- What the next sends will return; after the last one the window stays full. -/
  sends : List SendResult := []
  /-- The registrations of the kqueue. -/
  registered : Finset (Int × Filter) := ∅
  /-- The bytes accepted so far on each connection. -/
  wire : Nat → Bytes := fun _ => []

/-! ## What happens in a run -/

/-- An entry of a run's history, in terms of connections instead of descriptors. -/
inductive Obs where
  | accepted (conn : Nat) (fd : Int)
  /-- A line was taken from the connection's input and handled. -/
  | received (conn : Nat) (line : Bytes)
  /-- A BUY or SELL of the connection was accepted as this order. -/
  | placed (conn : Nat) (o : Order)
  /-- A SUBSCRIBE of the connection was carried out. -/
  | subscribed (conn : Nat) (instrument : Bytes)
  /-- An UNSUBSCRIBE of the connection was carried out. -/
  | unsubscribed (conn : Nat) (instrument : Bytes)
  /-- The server takes up a fill that the book has returned. -/
  | filled (f : Fill)
  /-- A line was enqueued to the connection. -/
  | enqueued (conn : Nat) (line : Bytes)
  /-- A `recv` of the connection returned 0 or failed hard. -/
  | ended (conn : Nat)
  /-- A send of the connection's backlog failed hard. -/
  | sendFailed (conn : Nat)
  | closed (conn : Nat)
  deriving DecidableEq, Repr

end SocketExchange
