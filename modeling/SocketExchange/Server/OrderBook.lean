import SocketExchange.Common.Protocol
import SocketExchange.Library.Containers

/-!
# The order book

The book keeps, for each instrument, two maps from a price to the queue of the
orders resting there, oldest first. An incoming order trades with the front of
the opposite queue at exactly its own price until it is filled or the queue is
empty, and its remainder joins the back of its own queue. Ids and quantities are
integers: the id counter's overflow is undefined behaviour in the source and lies
beyond any number of orders a server can accept.
-/

namespace SocketExchange

open Containers

/-- The side of an order. -/
inductive Side where
  | buy
  | sell
  deriving DecidableEq, Repr

/-- The side that an order trades with. -/
def Side.opposite : Side → Side
  | .buy => .sell
  | .sell => .buy

/-- A resting or incoming order. -/
structure Order where
  /-- Assigned by the server. -/
  id : Int
  side : Side
  instrument : Bytes
  /-- The remaining quantity. -/
  qty : Int
  price : Int
  /-- Which connection submitted it. -/
  ownerFd : Int
  ownerSeq : UInt64 := 0
  deriving DecidableEq, Repr

/-- A trade between two orders, as it is reported. -/
structure Fill where
  instrument : Bytes
  qty : Int
  price : Int
  buyerFd : Int
  sellFd : Int
  buyerSeq : UInt64 := 0
  sellSeq : UInt64 := 0
  deriving DecidableEq, Repr

/-- A price level: the resting orders, front first. -/
abbrev Queue := List Order

/-- The queues of one instrument, by price on each side. -/
structure InstrumentBook where
  buys : OrderedMap Int Queue := OrderedMap.empty
  sells : OrderedMap Int Queue := OrderedMap.empty
  deriving DecidableEq

/-- The map of one side. -/
def InstrumentBook.levels (ib : InstrumentBook) : Side → OrderedMap Int Queue
  | .buy => ib.buys
  | .sell => ib.sells

/-- The book with the map of one side replaced. -/
def InstrumentBook.withLevels (ib : InstrumentBook) : Side → OrderedMap Int Queue → InstrumentBook
  | .buy, m => { ib with buys := m }
  | .sell, m => { ib with sells := m }

/-- The books of all instruments, and the counter of ids. -/
structure OrderBook where
  nextId_ : Int := 0
  books_ : UnorderedMap Bytes InstrumentBook := ∅
  deriving DecidableEq

namespace OrderBook

/-- Assign the next order id. -/
def nextId (b : OrderBook) : Int × OrderBook := (b.nextId_, { b with nextId_ := b.nextId_ + 1 })

/-! ## Submitting -/

/-- The fill of one trade: the order on the BUY side supplies the buyer. -/
def fillOf (o resting : Order) (traded : Int) : Fill :=
  match o.side with
  | .buy =>
    { instrument := o.instrument, qty := traded, price := o.price
      buyerFd := o.ownerFd, buyerSeq := o.ownerSeq
      sellFd := resting.ownerFd, sellSeq := resting.ownerSeq }
  | .sell =>
    { instrument := o.instrument, qty := traded, price := o.price
      buyerFd := resting.ownerFd, buyerSeq := resting.ownerSeq
      sellFd := o.ownerFd, sellSeq := o.ownerSeq }

/-- The matching loop: the fills, the incoming order and the queue as it leaves them. -/
def matchLoop (o : Order) : Queue → List Fill × Order × Queue
  | [] => ([], o, [])
  | resting :: queue =>
    if o.qty > 0 then
      let traded := min o.qty resting.qty
      let f := fillOf o resting traded
      let o' : Order := { o with qty := o.qty - traded }
      let resting' : Order := { resting with qty := resting.qty - traded }
      if resting'.qty = 0 then
        let (fills, o'', queue') := matchLoop o' queue
        (f :: fills, o'', queue')
      else
        -- The trade took the whole incoming quantity, so the loop ends here.
        ([f], o', resting' :: queue)
    else ([], o, resting :: queue)

/-- The map with the queue left at a price: an empty level is erased. -/
def putLevel (side : OrderedMap Int Queue) (price : Int) (queue : Queue) :
    OrderedMap Int Queue :=
  if queue = [] then side.erase price else side.insert price queue

/-- `same[o.price].push_back(o)` -/
def rest (same : OrderedMap Int Queue) (o : Order) : OrderedMap Int Queue :=
  same.insert o.price ((same.lookup o.price).getD [] ++ [o])

/-- The first half of `submit`: the loop on the opposite level, if there is one. -/
def matchOpposite (ib : InstrumentBook) (o : Order) : List Fill × Order × InstrumentBook :=
  match (ib.levels o.side.opposite).lookup o.price with
  | none => ([], o, ib)
  | some queue =>
    let (fills, o', queue') := matchLoop o queue
    (fills, o', ib.withLevels o.side.opposite
      (putLevel (ib.levels o.side.opposite) o.price queue'))

/-- The second half of `submit`: whatever is left rests and may match a future order. -/
def restRemainder (ib : InstrumentBook) (o : Order) : InstrumentBook :=
  if o.qty > 0 then ib.withLevels o.side (rest (ib.levels o.side) o) else ib

/-- Match an order against the queue at its price on the other side, and let what is left rest. -/
def submit (b : OrderBook) (o : Order) : List Fill × OrderBook :=
  if o.qty ≤ 0 then ([], b)
  else
    let ib := (b.books_.lookup o.instrument).getD {}
    let (fills, o', ib') := matchOpposite ib o
    (fills, { b with books_ := b.books_.insert o.instrument (restRemainder ib' o') })

/-! ## Cancelling -/

/-- How the search for an order id ends when it meets the id: the order belongs to
someone else, or it has been taken out and this is what is left. -/
inductive Hit (α : Type) where
  | refused
  | erased (rest : α)

/-- Change what a search has found. -/
def Hit.map {α β : Type} (f : α → β) : Hit α → Hit β
  | .refused => .refused
  | .erased a => .erased (f a)

section Cancel

variable (orderId requesterFd : Int) (requesterSeq : UInt64)

/-- The search of one queue; `none` when the id is not in it. -/
def cancelQueue : Queue → Option (Hit Queue)
  | [] => none
  | it :: queue =>
    if it.id ≠ orderId then (cancelQueue queue).map (Hit.map (it :: ·))
    else if it.ownerFd ≠ requesterFd then some .refused
    else if it.ownerSeq ≠ requesterSeq then some .refused
    else some (.erased queue)

/-- The search of one side's levels, in price order, and the erasure of a level left empty. -/
def cancelLevels (side : OrderedMap Int Queue) : Option (Hit (OrderedMap Int Queue)) :=
  side.entries.findSome? fun lvl =>
    (cancelQueue orderId requesterFd requesterSeq lvl.2).map
      (Hit.map fun queue => putLevel side lvl.1 queue)

/-- The search of one instrument: its BUYs, then its SELLs. -/
def cancelBook (ib : InstrumentBook) : Option (Hit InstrumentBook) :=
  [Side.buy, Side.sell].findSome? fun side =>
    (cancelLevels orderId requesterFd requesterSeq (ib.levels side)).map
      (Hit.map fun m => ib.withLevels side m)

/-- Take out the order with an id if both owner fields match, wherever it rests. -/
def cancel (b : OrderBook) : Bool × OrderBook :=
  let hit := b.books_.entries.findSome? fun kv =>
    (cancelBook orderId requesterFd requesterSeq kv.2).map
      (Hit.map fun ib => { b with books_ := b.books_.insert kv.1 ib })
  match hit with
  | some (.erased b') => (true, b')
  | some .refused => (false, b)
  | none => (false, b)

end Cancel

/-! ## Removing a connection's orders -/

section Remove

variable (ownerFd : Int)

/-- The walk over one queue: the ids removed and the queue kept. -/
def removeQueue : Queue → List Int × Queue
  | [] => ([], [])
  | it :: queue =>
    let (removed, kept) := removeQueue queue
    if it.ownerFd = ownerFd then (it.id :: removed, kept) else (removed, it :: kept)

/-- The walk over one side: the ids removed, level by level. -/
def removedLevels (side : OrderedMap Int Queue) : List Int :=
  side.entries.flatMap fun lvl => (removeQueue ownerFd lvl.2).1

/-- The levels kept; a level left empty is erased. -/
def keptLevels (side : OrderedMap Int Queue) : OrderedMap Int Queue :=
  side.filterMap fun queue =>
    let kept := (removeQueue ownerFd queue).2
    if kept = [] then none else some kept

/-- The orders of an instrument that are not the owner's. -/
def keptBook (ib : InstrumentBook) : InstrumentBook where
  buys := keptLevels ownerFd ib.buys
  sells := keptLevels ownerFd ib.sells

/-- Take out all orders of an owner, and list their ids. -/
def removeOrdersOf (b : OrderBook) : List Int × OrderBook :=
  let removed := b.books_.entries.flatMap fun kv =>
    removedLevels ownerFd kv.2.buys ++ removedLevels ownerFd kv.2.sells
  (removed, { b with books_ := UnorderedMap.mapValues (keptBook ownerFd) b.books_ })

end Remove

end OrderBook

end SocketExchange
