import SocketExchange.Server.ClientSession

/-!
# The exchange server

The functions of the single-threaded event loop. A session is reached through its
descriptor; what the source does to a session through a reference is an `update` in
place. The history records what happens and is read by no function.
-/

namespace SocketExchange

open Containers ClientSession

/-- The state of the event loop. -/
structure Server where
  kq : Int := -1
  listenFd : Int := -1
  book : OrderBook := {}
  /-- The sessions by descriptor. -/
  sessions : UnorderedMap Int ClientSession := ∅
  nextSessionSeq : UInt64 := 1
  kernel : Kernel := {}
  /-- Not in the source: how many connections have been accepted. -/
  accepted : Nat := 0
  history : List Obs := []

namespace Server

/-- Change the session of a descriptor in place. -/
def update (s : Server) (fd : Int) (f : ClientSession → ClientSession) : Server :=
  { s with sessions := UnorderedMap.modify fd f s.sessions }

/-- The book takes the place of the server's. -/
def withBook (s : Server) (book : OrderBook) : Server := { s with book := book }

/-- Record what has happened. -/
def log (s : Server) (obs : List Obs) : Server := { s with history := s.history ++ obs }

/-- Register a descriptor with the kqueue. -/
def kqAdd (s : Server) (fd : Int) (filter : Filter) : Server :=
  { s with kernel := { s.kernel with registered := insert (fd, filter) s.kernel.registered } }

/-- Take a descriptor's registration back. -/
def kqDel (s : Server) (fd : Int) (filter : Filter) : Server :=
  { s with kernel := { s.kernel with registered := s.kernel.registered.erase (fd, filter) } }

/-- The kernel drops a closed descriptor's registrations by itself. -/
def close (s : Server) (fd : Int) : Server :=
  { s with
    kernel := { s.kernel with registered := s.kernel.registered.filter fun r => r.1 ≠ fd } }

/-- Forget the session of a descriptor. -/
def eraseSession (s : Server) (fd : Int) : Server := { s with sessions := s.sessions.erase fd }

/-! ## Sending -/

/-- How far a sequence of sends got, and the results left for later ones. -/
structure Sending (α : Type) where
  accepted : Bytes
  left : α
  stop : SendEnd
  sends : List SendResult

/-- The sends of one framed line, from its first byte not yet accepted. -/
def sendLoop : List SendResult → Bytes → Sending Bytes
  | sends, [] => ⟨[], [], .done, sends⟩
  | [], data => ⟨[], data, .blocked, []⟩
  | .sent n :: sends, data =>
    let r := sendLoop sends (data.drop (n + 1))
    { r with accepted := data.take (n + 1) ++ r.accepted }
  | .eintr :: sends, data => sendLoop sends data
  | .again :: sends, data => ⟨[], data, .blocked, sends⟩
  | .zero :: sends, data => ⟨[], data, .failed, sends⟩
  | .failed :: sends, data => ⟨[], data, .failed, sends⟩

/-- The sends that flush a backlog, entry by entry. -/
def drainLoop : List SendResult → List Bytes → Sending (List Bytes)
  | sends, [] => ⟨[], [], .done, sends⟩
  | [], outbuf => ⟨[], outbuf, .blocked, []⟩
  | .sent n :: sends, front :: queue =>
    -- A send of no bytes returns 0.
    if front = [] then ⟨[], front :: queue, .failed, sends⟩
    else if n + 1 < front.length then
      ⟨front.take (n + 1), front.drop (n + 1) :: queue, .blocked, sends⟩
    else
      let r := drainLoop sends queue
      { r with accepted := front ++ r.accepted }
  | .eintr :: sends, outbuf => drainLoop sends outbuf
  | .again :: sends, outbuf => ⟨[], outbuf, .blocked, sends⟩
  | .zero :: sends, outbuf => ⟨[], outbuf, .failed, sends⟩
  | .failed :: sends, outbuf => ⟨[], outbuf, .failed, sends⟩

/-- The kernel has accepted bytes on a connection. -/
def transmit (s : Server) (conn : Nat) (bytes : Bytes) (sends : List SendResult) : Server :=
  { s with
    kernel := { s.kernel with
      sends := sends
      wire := Function.update s.kernel.wire conn (s.kernel.wire conn ++ bytes) } }

/-- Send a line to a session, or queue what the kernel does not take; behind output that waits it
waits too. A hard error drops the line and leaves the session to its next event. -/
def enqueue (s : Server) (fd : Int) (line : Bytes) : Server :=
  match s.sessions.lookup fd with
  | none => s
  | some c =>
    let framed := line ++ [10]
    let s := s.log [.enqueued c.conn line]
    if c.outbuf ≠ [] then s.update fd (setOutbuf (c.outbuf ++ [framed]))
    else
      let r := sendLoop s.kernel.sends framed
      let s := s.transmit c.conn r.accepted r.sends
      match r.stop with
      | .failed => s
      | .done => s
      | .blocked =>
        let s := s.update fd (setOutbuf (c.outbuf ++ [r.left]))
        if c.wantWrite then s
        else (s.kqAdd c.fd .write).update fd (setWantWrite true)

/-! ## Closing -/

/-- Unregister the descriptor, close the socket and forget the session; resting
orders stay in the book. -/
def closeSession (s : Server) (fd : Int) : Server :=
  match s.sessions.lookup fd with
  | none => s
  | some c =>
    let s := s.kqDel fd .read
    let s := if c.wantWrite then s.kqDel fd .write else s
    let s := s.close fd
    (s.eraseSession fd).log [.closed c.conn]

/-! ## Commands -/

/-- One turn of the loop over the sessions. -/
def tradeTo (instrument msg : Bytes) (s : Server) (fd : Int) : Server :=
  match s.sessions.lookup fd with
  | none => s
  | some sub =>
    if sub.role ≠ .marketData then s
    else if instrument ∉ sub.subscriptions then s
    else s.enqueue fd msg

/-- Tell every market-data client that is subscribed to the instrument of a fill. -/
def broadcastTrade (s : Server) (instrument : Bytes) (qty price : Int) : Server :=
  let msg := msgTrade instrument qty price
  s.sessions.keys.foldl (tradeTo instrument msg) s

/-- Enqueue a line to the session of a descriptor if it still has this sequence number. -/
def notify (s : Server) (fd : Int) (seq : UInt64) (line : Bytes) : Server :=
  match s.sessions.lookup fd with
  | none => s
  | some c => if c.sessionSeq = seq then s.enqueue fd line else s

/-- One turn of the loop over the fills of a submit. -/
def reportFill (s : Server) (f : Fill) : Server :=
  let s := s.log [.filled f]
  let s := s.notify f.buyerFd f.buyerSeq (msgBought f.instrument f.qty f.price)
  let s := s.notify f.sellFd f.sellSeq (msgSold f.instrument f.qty f.price)
  s.broadcastTrade f.instrument f.qty f.price

/-- The commands of traders. -/
def traderCmd (cmd : Bytes) : Bool :=
  cmd = text "LOGIN" || cmd = text "BUY" || cmd = text "SELL" || cmd = text "CANCEL"

/-- The commands of market-data clients. -/
def mdCmd (cmd : Bytes) : Bool := cmd = text "SUBSCRIBE" || cmd = text "UNSUBSCRIBE"

/-- The first command of a kind fixes the role of the connection. -/
def inferRole (cmd : Bytes) (c : ClientSession) : ClientSession :=
  if c.role = .unknown then
    if traderCmd cmd then { c with role := .trader }
    else if mdCmd cmd then { c with role := .marketData }
    else c
  else c

section Handlers

variable (s : Server) (fd : Int) (c : ClientSession)

/-- Take the username, unless the client has one or another session has it. -/
def handleLogin : List Bytes → Server
  | [name] =>
    if c.loggedIn then s.enqueue fd (msgError (text "already logged in"))
    else if s.sessions.entries.any fun kv => kv.1 ≠ c.fd && kv.2.username = name then
      s.enqueue fd (msgError (text "username already in use"))
    else (s.update fd (setUsername name)).enqueue fd msgOk
  | _ => s.enqueue fd (msgError (text "usage: LOGIN <username>"))

/-- Check the arguments, acknowledge the order, submit it and report its fills in turn. -/
def handleOrder (cmd : Bytes) : List Bytes → Server
  | [instrument, quantity, limit] =>
    if !isValidInstrument instrument then
      s.enqueue fd (msgError (text "unknown instrument " ++ instrument))
    else
      match parsePositiveInt quantity with
      | none => s.enqueue fd (msgError (text "quantity must be an integer in 1..2147483647"))
      | some qty =>
        match parsePositiveInt limit with
        | none => s.enqueue fd (msgError (text "price must be an integer in 1..2147483647"))
        | some price =>
          let (id, book) := s.book.nextId
          let s := s.withBook book
          let o : Order :=
            { id := id, side := if cmd = text "BUY" then .buy else .sell
              instrument := instrument, qty := qty, price := price
              ownerFd := c.fd, ownerSeq := c.sessionSeq }
          let s := s.log [.placed c.conn o]
          let s := s.enqueue fd (msgOrderAccepted o.id)
          let (fills, book) := s.book.submit o
          fills.foldl reportFill (s.withBook book)
  | _ => s.enqueue fd (msgError (text "usage: " ++ cmd ++ text " <instrument> <quantity> <price>"))

/-- Take the order out of the book if it rests there and is the session's own. -/
def handleCancel : List Bytes → Server
  | [orderId] =>
    match parseNonnegativeInt orderId with
    | none => s.enqueue fd (msgError (text "order id must be an integer in 0..2147483647"))
    | some oid =>
      let (ok, book) := s.book.cancel oid c.fd c.sessionSeq
      let s := s.withBook book
      if ok then s.enqueue fd (msgOrderCancelled oid)
      else s.enqueue fd (msgError (text "cannot cancel order " ++ orderId))
  | _ => s.enqueue fd (msgError (text "usage: CANCEL <order_id>"))

/-- Add an instrument to the session's subscriptions. -/
def handleSubscribe : List Bytes → Server
  | [instrument] =>
    if !isValidInstrument instrument then
      s.enqueue fd (msgError (text "unknown instrument " ++ instrument))
    else
      let s := s.update fd (subscribe instrument)
      (s.log [.subscribed c.conn instrument]).enqueue fd msgOk
  | _ => s.enqueue fd (msgError (text "usage: SUBSCRIBE <instrument>"))

/-- Drop an instrument from the session's subscriptions. -/
def handleUnsubscribe : List Bytes → Server
  | [instrument] =>
    if !isValidInstrument instrument then
      s.enqueue fd (msgError (text "unknown instrument " ++ instrument))
    else
      let s := s.update fd (unsubscribe instrument)
      (s.log [.unsubscribed c.conn instrument]).enqueue fd msgOk
  | _ => s.enqueue fd (msgError (text "usage: UNSUBSCRIBE <instrument>"))

end Handlers

/-- The part of `handle_line` that follows the choice of the role. -/
def handleCommand (s : Server) (fd : Int) (c : ClientSession) (cmd : Bytes) (args : List Bytes) :
    Server × Bool :=
  if traderCmd cmd && c.role ≠ .trader then
    (s.enqueue fd (msgError (text "market-data clients cannot send " ++ cmd)), true)
  else if mdCmd cmd && c.role ≠ .marketData then
    (s.enqueue fd (msgError (text "traders cannot send " ++ cmd)), true)
  else if cmd = text "LOGIN" then (s.handleLogin fd c args, true)
  else if cmd = text "BUY" || cmd = text "SELL" then (s.handleOrder fd c cmd args, true)
  else if cmd = text "CANCEL" then (s.handleCancel fd c args, true)
  else if cmd = text "SUBSCRIBE" then (s.handleSubscribe fd c args, true)
  else if cmd = text "UNSUBSCRIBE" then (s.handleUnsubscribe fd c args, true)
  else if cmd = text "QUIT" then (s.closeSession c.fd, false)
  else (s.enqueue fd (msgError (text "unknown command")), true)

/-- Act on one line; false when the session is gone. -/
def handleLine (s : Server) (fd : Int) (line : Bytes) : Server × Bool :=
  match s.sessions.lookup fd with
  | none => (s, true)
  | some c =>
    let s := s.log [.received c.conn line]
    match tokenize line with
    | [] => (s.enqueue fd (msgError (text "empty")), true)
    | cmd :: args => (s.update fd (inferRole cmd)).handleCommand fd (inferRole cmd c) cmd args

/-! ## Accepting -/

/-- No open descriptor has this number. -/
def Free (s : Server) (cfd : Int) : Prop :=
  cfd ≠ s.kq ∧ cfd ≠ s.listenFd ∧ s.sessions.lookup cfd = none

instance (s : Server) (cfd : Int) : Decidable (s.Free cfd) :=
  inferInstanceAs (Decidable (_ ∧ _ ∧ _))

/-- A session for an accepted connection. -/
def openSession (s : Server) (cfd : Int) : Server :=
  let c := (s.sessions.lookup cfd).getD {}
  let s := { s with
    sessions := s.sessions.insert cfd
      { c with fd := cfd, sessionSeq := s.nextSessionSeq, conn := s.accepted }
    nextSessionSeq := s.nextSessionSeq + 1
    accepted := s.accepted + 1
    history := s.history ++ [Obs.accepted s.accepted cfd] }
  s.kqAdd cfd .read

/-- Accept all pending connections. The kernel hands out no number that is open. -/
def acceptNew (s : Server) : List AcceptResult → Server
  | [] => s
  | .accepted cfd :: rest =>
    if s.Free cfd then (s.openSession cfd).acceptNew rest else s.acceptNew rest
  | .again :: _ => s
  | .eintr :: rest => s.acceptNew rest
  | .aborted :: rest => s.acceptNew rest
  | .failed :: _ => s

/-! ## Reading and writing -/

/-- Add received bytes to the session's input. -/
def feed (s : Server) (fd : Int) (chunk : Chunk) : Server :=
  s.update fd (feedInbuf chunk.bytes)

/-- Take the next complete line off the session's input and act on it. -/
def takeLine (s : Server) (fd : Int) : Option (Server × Bool) :=
  match s.sessions.lookup fd with
  | none => none
  | some c =>
    match c.inbuf.nextLine with
    | none => none
    | some (line, inbuf) =>
      some ((s.update fd (setInbuf inbuf)).handleLine fd line)

/-- The loop over the complete lines buffered, at most `fuel` of them; false when the
session is gone. -/
def handleLines : Nat → Server → Int → Server × Bool
  | 0, s, _ => (s, true)
  | fuel + 1, s, fd =>
    match s.takeLine fd with
    | none => (s, true)
    | some (s, true) => handleLines fuel s fd
    | some (s, false) => (s, false)

/-- No line is shorter than its terminator, so this many rounds take every line. -/
def buffered (s : Server) (fd : Int) : Nat :=
  ((s.sessions.lookup fd).map fun c => c.inbuf.buf_.length).getD 0

/-- The session's `recv` returned 0 or failed. -/
def hangup (s : Server) (fd : Int) : Server :=
  match s.sessions.lookup fd with
  | none => s
  | some c => (s.log [.ended c.conn]).closeSession fd

/-- The loop over `recv`, which drains the socket. -/
def recvLoop (s : Server) (fd : Int) : List RecvResult → Server
  | [] => s
  | .data chunk :: rest =>
    let s := s.feed fd chunk
    match handleLines (s.buffered fd) s fd with
    | (s, true) => s.recvLoop fd rest
    | (s, false) => s
  | .fin :: _ => s.hangup fd
  | .eintr :: rest => s.recvLoop fd rest
  | .again :: _ => s
  | .reset :: _ => s.hangup fd
  | .failed :: _ => s.hangup fd

/-- Read a session until its socket is empty or its end has come. -/
def onReadable (s : Server) (fd : Int) (recvs : List RecvResult) : Server :=
  match s.sessions.lookup fd with
  | none => s
  | some _ => s.recvLoop fd recvs

/-- Send what waits for a session. A hard error closes it, and with nothing left to send the
descriptor is no longer watched for writing. -/
def onWritable (s : Server) (fd : Int) : Server :=
  match s.sessions.lookup fd with
  | none => s
  | some c =>
    let r := drainLoop s.kernel.sends c.outbuf
    let s := s.transmit c.conn r.accepted r.sends
    let s := s.update fd (setOutbuf r.left)
    match r.stop with
    | .blocked => s
    | .failed => (s.log [.sendFailed c.conn]).closeSession fd
    | .done =>
      if c.wantWrite then
        (s.kqDel fd .write).update fd (setWantWrite false)
      else s

/-! ## The event loop -/

/-- How the tables are arranged in memory. -/
def rehash (s : Server) (sessionOrder : List Int) (bookOrder : List Bytes) : Server :=
  { s with
    sessions := UnorderedMap.reorder sessionOrder s.sessions
    book := { s.book with books_ := UnorderedMap.reorder bookOrder s.book.books_ } }

/-- An event with what the system calls made for it return, and the arrangement of the
hash tables at its time. -/
structure Event where
  event : Kevent
  accepts : List AcceptResult := []
  recvs : List RecvResult := []
  sessionOrder : List Int := []
  bookOrder : List Bytes := []

/-- The event loop's body. -/
def dispatch (s : Server) (e : Event) : Server :=
  let s := s.rehash e.sessionOrder e.bookOrder
  let fd := e.event.ident
  if e.event.error then
    if fd ≠ s.listenFd then s.closeSession fd else s
  else if fd = s.listenFd then s.acceptNew e.accepts
  else
    match e.event.filter with
    | .read =>
      let s := s.onReadable fd e.recvs
      if (s.sessions.lookup fd).isSome && e.event.eof then s.closeSession fd else s
    | .write => s.onWritable fd

/-- The server as `main` starts it, with any outcomes of its sends. -/
def start (kq listenFd : Int) (sends : List SendResult) : Server :=
  let s : Server := { kq := kq, listenFd := listenFd, kernel := { sends := sends } }
  s.kqAdd listenFd .read

end Server

end SocketExchange
