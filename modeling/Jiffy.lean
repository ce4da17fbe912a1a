import Jiffy.Lib.JavaScript
import Jiffy.Lib.DateText
import Jiffy.Lib.Json
import Jiffy.Lib.OrderedMap
import Jiffy.Lib.Proc
import Jiffy.Lib.Interleaving
import Jiffy.Lib.RelyGuarantee
import Jiffy.Lib.Turns
import Jiffy.Lib.Register
import Jiffy.Lib.Journal
import Jiffy.Core.MessagingService
import Jiffy.Adapters.InMemory
import Jiffy.InMemory.Stores
import Jiffy.InMemory.Calls
import Jiffy.Lib.Machine
import Jiffy.Lib.Paging
import Jiffy.InMemory.Authorization
import Jiffy.InMemory.ReadState
import Jiffy.InMemory.Lifecycle
import Jiffy.InMemory.History
import Jiffy.InMemory.ListThread
import Jiffy.Lib.Changelog
import Jiffy.InMemory.BusLog
import Jiffy.InMemory.Isolation
import Jiffy.Lib.Relational
import Jiffy.Http.ConversationsRouter
import Jiffy.Http.Privacy
import Jiffy.Http.App
import Jiffy.WebSocket.ConnectionRegistry
import Jiffy.WebSocket.Server
import Jiffy.WebSocket.Registry
import Jiffy.WebSocket.Delivery
import Jiffy.Lib.FixedWindow
import Jiffy.WebSocket.ConnectionRateLimiter
import Jiffy.WebSocket.RateLimiting
import Jiffy.WebSocket.Upgrade
import Jiffy.WebSocket.Connection
import Jiffy.WebSocket.Registrations
import Jiffy.Adapters.InProcess
import Jiffy.Adapters.Instance
import Jiffy.Adapters.Redis
import Jiffy.Adapters.Cluster
import Jiffy.Redis.LiveFailures
import Jiffy.Redis.Payload
import Jiffy.Lib.Double
import Jiffy.Adapters.TokenVerifier
import Jiffy.WebSocket.Expiry
import Jiffy.Adapters.ConversationGate
import Jiffy.Adapters.Postgres
import Jiffy.Postgres.Statements
import Jiffy.Postgres.Reads
import Jiffy.Postgres.RowGrouping
import Jiffy.Core.PortCalls
import Jiffy.Core.BestEffort
import Jiffy.Postgres.Calls
import Jiffy.Postgres.SafeCalls
import Jiffy.Postgres.Transactions
import Jiffy.Postgres.Integrity
import Jiffy.Postgres.ClearedHistory
import Jiffy.Postgres.HistoryPage
import Jiffy.Postgres.Statuses
import Jiffy.Postgres.ConversationRows
import Jiffy.Postgres.ConversationStores
import Jiffy.Postgres.AllOrNothing
import Jiffy.InMemory.Interference
import Jiffy.InMemory.ClearedHistory
import Jiffy.InMemory.Gate
import Jiffy.Postgres.Requests
import Jiffy.Postgres.Tombstones
import Jiffy.Postgres.Ledger
import Jiffy.Postgres.Gate
import Jiffy.InMemory.LaterMessages
import Jiffy.InProcess.Connections
import Jiffy.InProcess.Delivery
import Jiffy.InProcess.PushPull
import Jiffy.InProcess.SharedStore
import Jiffy.Redis.ManyInstances
import Jiffy.Postgres.Interference
import Jiffy.Postgres.ClearOrder
import Jiffy.Postgres.ReadState
import Jiffy.Postgres.Pushing
import Jiffy.Postgres.LiveDeletion
import Jiffy.Lib.EventEmitter
import Jiffy.Adapters.MessageBus
import Jiffy.Adapters.Subscriptions
import Jiffy.Lib.Rules
import Jiffy.Lib.Middleware
import Jiffy.Http.Middlewares
import Jiffy.Http.Dispatch
import Jiffy.Http.Admission
import Jiffy.Http.Serving
import Jiffy.Http.LetThrough
import Jiffy.Core.Effects
import Jiffy.Adapters.MessageNotifier
import Jiffy.Lib.Simulation
import Jiffy.Postgres.Refinement
import Jiffy.Server.Environment
import Jiffy.Lib.Migration
import Jiffy.Postgres.Schema
import Jiffy.Postgres.Deploys
import Jiffy.WebSocket.Attempts
import Jiffy.Lib.RuleChronicle
import Jiffy.Postgres.Connections
import Jiffy.Postgres.ReadBack
