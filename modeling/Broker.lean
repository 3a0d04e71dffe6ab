import Broker.Base.Bytes
import Broker.Base.Lines
import Broker.Base.UnorderedMap
import Broker.Base.Run
import Broker.Base.Wildcard
import Broker.Base.Stream
import Broker.Base.Blocks
import Broker.Base.Tokens
import Broker.Base.Decimal
import Broker.Base.Stdio
import Broker.Base.Alternates
import Broker.Base.Projection
import Broker.Base.Selection
import Broker.Base.Abstraction
import Broker.Base.Service
import Broker.Base.Readable
import Broker.Base.Progress
import Broker.Base.Resources
import Broker.Base.Heap
import Broker.Base.OwnedTree
import Broker.Base.Backtracking
import Broker.Topic.Split
import Broker.Topic.Trie
import Broker.Topic.Subscriptions
import Broker.Topic.Levels
import Broker.Topic.Canonical
import Broker.Topic.Pointers
import Broker.Topic.Ownership
import Broker.Topic.Cost
import Broker.Net.Packet
import Broker.Net.Address
import Broker.Net.Transfer
import Broker.Net.Socket
import Broker.Net.Output
import Broker.Subscriber.Dispatch
import Broker.Subscriber.Framing
import Broker.Subscriber.Display
import Broker.Subscriber.Texts
import Broker.Subscriber.Lines
import Broker.Subscriber.Commands
import Broker.Subscriber.Loop
import Broker.Subscriber.Input
import Broker.Subscriber.Session
import Broker.Subscriber.Delivery
import Broker.Server.Kernel
import Broker.Server.State
import Broker.Server.Handlers
import Broker.Server.Loop
import Broker.Server.Moves
import Broker.Server.Sessions
import Broker.Server.Routing
import Broker.Server.Agreement
import Broker.Server.Requests
import Broker.Server.Shutdown
import Broker.Server.Output
import Broker.Server.Reconnect
import Broker.Server.Stale
import Broker.Server.Names
import Broker.Server.View
import Broker.Server.Refinement
import Broker.Server.Bounds
import Broker.Server.Acknowledgements
import Broker.Server.Turns
import Broker.Server.Entries
import Broker.Server.Alone
import Broker.Server.Erase
import Broker.Server.Isolation
import Broker.Server.Service
import Broker.Server.History
import Broker.Server.Log
import Broker.Server.Replay
import Broker.Server.Traversal
import Broker.Server.Stalls
import Broker.Server.Order
import Broker.Server.Descriptors
import Broker.Server.Memory
import Broker.Server.Cost
import Broker.System.Delivery
import Broker.System.Commands
import Broker.System.Screen
