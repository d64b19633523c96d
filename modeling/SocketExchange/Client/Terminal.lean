import SocketExchange.Common.Framing
import SocketExchange.Library.Runs
import SocketExchange.Server.ClientSession

/-!
# The two clients

Each client sends its start-up lines and then waits on standard input and on the
socket. What is typed is sent line by line; a QUIT or the end of input is the last
thing sent, after which the sending side is shut down and only replies are read.
-/

namespace SocketExchange

/-- The outcome of one `read` of standard input that is not at its end. -/
inductive ReadResult where
  | data (chunk : Chunk)
  | eintr
  | again
  /-- Any other error. -/
  | failed

/-- One client process and what its system calls answer. -/
structure Client where
  /-- Frames the stream from the server. -/
  serverLines : LineBuffer := {}
  /-- Frames the keyboard or pipe stream. -/
  stdinLines : LineBuffer := {}
  sentQuit : Bool := false
  /-- Whether standard input is still polled. -/
  stdinOpen : Bool := true
  /-- Whether the sending side of the socket has been shut down. -/
  shut : Bool := false
  /-- Whether `main` is still in its loop. -/
  running : Bool := true
  /-- The lines printed. -/
  printed : List Bytes := []
  /-- What the next reads of standard input return; after the last one it is at its end. -/
  stdin : List ReadResult := []
  /-- What the next sends return; after the last one a send takes all it is given. -/
  sends : List SendResult := []
  /-- The bytes the kernel has accepted on the socket. -/
  wire : Bytes := []

/-! ## Sending -/

/-- How a call of `send_all` went. -/
structure SentAll where
  /-- The bytes the kernel has accepted. -/
  accepted : Bytes
  /-- The count returned; none where the source returns -1. -/
  returned : Option Nat
  /-- The results left for later sends. -/
  sends : List SendResult

/-- The loop of `send_all`, from the first byte not yet sent. The socket blocks, so that any
error but an interruption is returned. -/
def sendAll : List SendResult → Bytes → SentAll
  | sends, [] => ⟨[], some 0, sends⟩
  | [], data => ⟨data, some data.length, []⟩
  | .sent n :: sends, data =>
    let r := sendAll sends (data.drop (n + 1))
    let taken := data.take (n + 1)
    { r with accepted := taken ++ r.accepted, returned := r.returned.map (taken.length + ·) }
  | .eintr :: sends, data => sendAll sends data
  -- The peer has closed.
  | .zero :: sends, _ => ⟨[], some 0, sends⟩
  | .again :: sends, _ => ⟨[], none, sends⟩
  | .failed :: sends, _ => ⟨[], none, sends⟩

namespace Client

/-- `send_line`; false when it returns a negative number. -/
def sendLine (c : Client) (lineWithNewline : Bytes) : Client × Bool :=
  let r := sendAll c.sends lineWithNewline
  ({ c with wire := c.wire ++ r.accepted, sends := r.sends }, r.returned.isSome)

/-! ## Standard input -/

/-- The loop over the complete lines typed, at most `fuel` of them. -/
def sendTyped : Nat → Client → Client
  | 0, c => c
  | fuel + 1, c =>
    match c.stdinLines.nextLine with
    | none => c
    | some (line, rest) =>
      match { c with stdinLines := rest }.sendLine (line ++ [10]) with
      | (c, false) => { c with sentQuit := true }
      | (c, true) =>
        if (tokenize line).head? = some (text "QUIT") then { c with sentQuit := true }
        else sendTyped fuel c

/-- Once the client has sent its last line: shut down the sending side, poll the input no more. -/
def endInput (c : Client) : Client :=
  if c.sentQuit then { c with shut := true, stdinOpen := false } else c

/-- Standard input is ready. -/
def onStdin (c : Client) : Client :=
  match c.stdin with
  -- The end of input: leave politely.
  | [] => { (c.sendLine (text "QUIT" ++ [10])).1 with sentQuit := true }.endInput
  | .data chunk :: stdin =>
    let c := { c with stdin := stdin, stdinLines := c.stdinLines.feed chunk.bytes }
    (sendTyped c.stdinLines.buf_.length c).endInput
  | .eintr :: stdin => { c with stdin := stdin }.endInput
  | .again :: stdin => { c with stdin := stdin }.endInput
  | .failed :: stdin => { c with stdin := stdin, running := false }

/-! ## The server -/

/-- The socket is ready: print every complete line; leave the loop when the server is gone. -/
def onServer (c : Client) : RecvResult → Client
  | .data chunk =>
    let r := (c.serverLines.feed chunk.bytes).lines
    { c with serverLines := r.2, printed := c.printed ++ r.1 }
  | .fin => { c with running := false }
  | .eintr => c
  | .again => c
  | .reset => { c with running := false }
  | .failed => { c with running := false }

/-! ## The loop -/

/-- The outcome of one `poll`. -/
inductive Poll where
  /-- Which of the two descriptors are ready, and what `recv` then returns. -/
  | ready (stdin : Bool) (server : Option RecvResult)
  | eintr
  | failed

/-- Standard input's part of the loop body. -/
def stdinPart (c : Client) (ready : Bool) : Client :=
  if c.stdinOpen && ready then c.onStdin else c

/-- The socket's part of the loop body, unless the loop has been left. -/
def serverPart (c : Client) (server : Option RecvResult) : Client :=
  match server with
  | none => c
  | some r => if c.running then c.onServer r else c

/-- One turn of `main`'s loop. -/
def turn (c : Client) (p : Poll) : Client :=
  if c.running then
    match p with
    | .ready stdin server => (c.stdinPart stdin).serverPart server
    | .eintr => c
    | .failed => { c with running := false }
  else c

/-- Send the start-up lines; the client exits when one cannot be sent. -/
def greet (c : Client) : List Bytes → Client
  | [] => c
  | line :: lines =>
    match c.sendLine (line ++ [10]) with
    | (c, true) => c.greet lines
    | (c, false) => { c with running := false }

end Client

/-- The two programs. -/
inductive Program where
  | traderClient
  | marketDataClient
  deriving DecidableEq, Repr

/-- The start-up lines for the arguments after host and port: a trader logs in under the first
of them, a market-data client subscribes to each. -/
def Program.greeting : Program → List Bytes → List Bytes
  | .traderClient, [] => []
  | .traderClient, username :: _ => [text "LOGIN " ++ username]
  | .marketDataClient, args => args.map fun instrument => text "SUBSCRIBE " ++ instrument

/-- A client that has connected and sent its start-up lines. -/
def Client.start (p : Program) (args : List Bytes) (stdin : List ReadResult)
    (sends : List SendResult) : Client :=
  greet { stdin := stdin, sends := sends } (p.greeting args)

end SocketExchange
