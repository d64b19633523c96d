import SocketExchange.Library.Containers
import SocketExchange.Library.Runs
import SocketExchange.Common.NetUtils
import SocketExchange.Common.Interleaving
import SocketExchange.Book.Reference
import SocketExchange.Book.Conservation
import SocketExchange.Book.Priority
import SocketExchange.Book.Resting
import SocketExchange.Book.Removal
import SocketExchange.Service.Reports
import SocketExchange.Service.MarketData
import SocketExchange.Service.OrderLife
import SocketExchange.Service.Streams
import SocketExchange.Service.Batches
import SocketExchange.Service.Outcomes
import SocketExchange.Service.Roles
import SocketExchange.Service.Withdrawals
import SocketExchange.Service.Calls
import SocketExchange.Service.Rejections
import SocketExchange.Service.Replies
import SocketExchange.Service.Wakeups
import SocketExchange.Book.Representation
import SocketExchange.Service.Representation
import SocketExchange.Service.Channels
import SocketExchange.Service.Delivery
import SocketExchange.Common.Framing
import SocketExchange.Service.Transmission
import SocketExchange.Service.Goodbye
import SocketExchange.Service.Decisions
import SocketExchange.Service.Obedience
import SocketExchange.Service.Reassembly
import SocketExchange.Service.Hearing
import SocketExchange.Service.Decoding
import SocketExchange.Book.Renaming
import SocketExchange.Exchange.Machine
import SocketExchange.Exchange.Leaving
import SocketExchange.Exchange.Refinement
import SocketExchange.Exchange.Departure
import SocketExchange.Book.Sweep
import SocketExchange.Book.Locality
import SocketExchange.Book.Cancellation
import SocketExchange.Book.Shards
import SocketExchange.Book.Splitting
import SocketExchange.Book.Mirror
import SocketExchange.Book.Anonymity
import SocketExchange.Service.Usernames
import SocketExchange.Service.Lifetimes
import SocketExchange.Exchange.Tape
import SocketExchange.Exchange.Descriptors
import SocketExchange.Exchange.Isolation
import SocketExchange.Client.Agreement
import SocketExchange.Exchange.Observers
import SocketExchange.Exchange.Ledger
import SocketExchange.System.Blotter
import SocketExchange.System.Linearization
import SocketExchange.System.Quiescence
import SocketExchange.Bonus.Capacity
import SocketExchange.Bonus.IdleConnections
