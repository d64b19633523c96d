import SocketExchange.Book.Reference
import SocketExchange.Service.Connections

/-!
# The exchange as its clients see it

An exchange without descriptors, buffers and tables: members are known by the number of
their connection, the resting orders are a flat list, and what each member has been
sent is a list of lines. It is told who joins, what line a member sends, and who leaves.
The decision on a line is the server's own.
-/

namespace SocketExchange

/-- What the exchange knows about a client. -/
structure Member where
  role : Role := .unknown
  username : Bytes := []
  subscriptions : Finset Bytes := ∅

/-- The client is sent the trades of an instrument. -/
def Member.Follows (m : Member) (instrument : Bytes) : Prop :=
  m.role = .marketData ∧ instrument ∈ m.subscriptions

instance (m : Member) (instrument : Bytes) : Decidable (m.Follows instrument) :=
  inferInstanceAs (Decidable (_ ∧ _))

/-- The first command of a kind fixes the role. -/
def Member.inferRole (cmd : Bytes) (m : Member) : Member :=
  if m.role = .unknown then
    if Server.traderCmd cmd then { m with role := .trader }
    else if Server.mdCmd cmd then { m with role := .marketData }
    else m
  else m

/-- What a client does, under the number of its connection. -/
inductive Deed where
  | joins (k : Nat)
  | sends (k : Nat) (line : Bytes)
  | leaves (k : Nat)
  deriving DecidableEq

/-- Whose deed it is. -/
def Deed.conn : Deed → Nat
  | .joins k => k
  | .sends k _ => k
  | .leaves k => k

/-- The exchange as its clients see it: the book, the members by the number of their connection, and
the lines each has been sent. -/
@[ext] structure Exchange where
  /-- Orders carry the sequence number of their owner, and 0 as a descriptor. -/
  book : Reference := {}
  /-- How many clients have joined. -/
  accepted : Nat := 0
  member : Nat → Option Member := fun _ => none
  sent : Nat → List Bytes := fun _ => []

namespace Exchange

/-- The client is this member from now on. -/
def enroll (e : Exchange) (k : Nat) (m : Member) : Exchange :=
  { e with member := Function.update e.member k (some m) }

/-- Send a line to a client. -/
def say (e : Exchange) (k : Nat) (line : Bytes) : Exchange :=
  { e with sent := Function.update e.sent k (e.sent k ++ [line]) }

@[simp] theorem member_enroll (e : Exchange) (k : Nat) (m : Member) :
    (e.enroll k m).member k = some m := Function.update_self ..

/-- Enrolling a client leaves the other members alone. -/
theorem member_enroll_ne (e : Exchange) {k k' : Nat} (hne : k' ≠ k) (m : Member) :
    (e.enroll k m).member k' = e.member k' := Function.update_of_ne hne ..

@[simp] theorem sent_say (e : Exchange) (k : Nat) (line : Bytes) :
    (e.say k line).sent k = e.sent k ++ [line] := Function.update_self ..

/-- A line to one client adds nothing to what another has been sent. -/
theorem sent_say_ne (e : Exchange) {k k' : Nat} (hne : k' ≠ k) (line : Bytes) :
    (e.say k line).sent k' = e.sent k' := Function.update_of_ne hne ..

/-- The lines a fill makes for a client: its own sides of it, and the public trade. -/
def reports (e : Exchange) (k : Nat) (f : Fill) : List Bytes :=
  match e.member k with
  | none => []
  | some m =>
    (if f.buyerSeq = seqOf k then [Server.reportLine f .buy] else []) ++
      (if f.sellSeq = seqOf k then [Server.reportLine f .sell] else []) ++
      (if m.Follows f.instrument then [msgTrade f.instrument f.qty f.price] else [])

/-- Accept an order under the next id and trade it. -/
def place (e : Exchange) (k : Nat) (o : Order) : Exchange :=
  let r := ({ e.book with nextId_ := e.book.nextId_ + 1 } : Reference).submit o
  let e' := e.say k (msgOrderAccepted o.id)
  { e' with book := r.2, sent := fun k' => e'.sent k' ++ r.1.flatMap (e.reports k') }

/-- What a decision may depend on. -/
def standing (e : Exchange) (k : Nat) (m : Member) : Standing where
  role := m.role
  loggedIn := m.username ≠ []
  taken name := (List.range e.accepted).any fun k' =>
    k' ≠ k && (e.member k').any fun m' => m'.username = name
  owns oid := (e.book.cancel oid 0 (seqOf k)).1

/-- The order that a client asks for, under the next id. -/
def ordered (e : Exchange) (k : Nat) (side : Side) (instrument : Bytes) (qty price : Int) :
    Order where
  id := e.book.nextId_
  side := side
  instrument := instrument
  qty := qty
  price := price
  ownerFd := 0
  ownerSeq := seqOf k

/-- Carry a decision out. -/
def carryOut (e : Exchange) (k : Nat) (m : Member) : Decision → Exchange
  | .rejected reason => e.say k (msgError reason)
  | .loggedIn name => (e.enroll k { m with username := name }).say k msgOk
  | .placed side instrument qty price => e.place k (e.ordered k side instrument qty price)
  | .cancelled oid =>
    ({ e with book := (e.book.cancel oid 0 (seqOf k)).2 } : Exchange).say k (msgOrderCancelled oid)
  | .subscribed instrument =>
    (e.enroll k { m with subscriptions := insert instrument m.subscriptions }).say k msgOk
  | .unsubscribed instrument =>
    (e.enroll k { m with subscriptions := m.subscriptions.erase instrument }).say k msgOk
  | .quit => e

/-- Act on a line of a member. -/
def act (e : Exchange) (k : Nat) (m : Member) (line : Bytes) : Exchange :=
  let m := m.inferRole (commandWord line)
  let e := e.enroll k m
  e.carryOut k m ((e.standing k m).decision line)

/-- A line of a member gives it its role, and is then decided on and carried out. -/
theorem act_eq (e : Exchange) (k : Nat) (m : Member) (line : Bytes) :
    e.act k m line = (e.enroll k (m.inferRole (commandWord line))).carryOut k
      (m.inferRole (commandWord line)) (((e.enroll k (m.inferRole (commandWord line))).standing k
        (m.inferRole (commandWord line))).decision line) := rfl

/-- A line of somebody who is no member is ignored. -/
def step (e : Exchange) : Deed → Exchange
  | .joins k =>
    { e with accepted := e.accepted + 1, member := Function.update e.member k (some {}) }
  | .sends k line =>
    match e.member k with
    | none => e
    | some m => e.act k m line
  | .leaves k => { e with member := Function.update e.member k none }

end Exchange

end SocketExchange
