import OwliesServer.Core.BinarySearch
import OwliesServer.Core.CChar
import OwliesServer.Core.Machine
import OwliesServer.Core.SqlLexer
import OwliesServer.Core.Prepared
import OwliesServer.Core.Proc
import OwliesServer.Core.Framing
import OwliesServer.Core.Separated
import OwliesServer.Core.CString
import OwliesServer.Core.Labelled
import OwliesServer.Core.Significant
import OwliesServer.Wire.ClientFrame
import OwliesServer.Wire.FrameBounds
import OwliesServer.Wire.ServerPackage
import OwliesServer.Wire.ResponseStream
import OwliesServer.DBObject.AccountValue
import OwliesServer.DBObject.AccountKey
import OwliesServer.DBObject.GameInfo
import OwliesServer.Data.LuaNumber
import OwliesServer.Data.LuaTable
import OwliesServer.Data.ObjectBase
import OwliesServer.Data.SqlStructure
import OwliesServer.Data.StatementText
import OwliesServer.Data.KeyLookup
import OwliesServer.Data.LoginObjects
import OwliesServer.Data.OptionalFields
import OwliesServer.Data.RedisKey
import OwliesServer.Data.LoadOutcomes
import OwliesServer.Data.FieldNames
import OwliesServer.Data.CacheRoundTrip
import OwliesServer.Redis.Hiredis
import OwliesServer.Redis.SprotoStore
import OwliesServer.Api.Sessions
import OwliesServer.Api.WellBehavedClient
import OwliesServer.Api.Handlers
import OwliesServer.Api.FailureReports
import OwliesServer.System.Watchdog
import OwliesServer.System.Server
import OwliesServer.System.Dispatch
import OwliesServer.System.CacheCoherence
import OwliesServer.System.Routing
import OwliesServer.System.Replies
import OwliesServer.System.ResponseOrder
import OwliesServer.System.SessionLifetime
import OwliesServer.Core.Ring
import OwliesServer.Core.Reassembly
import OwliesServer.Net.Netpack
import OwliesServer.Net.Gate
import OwliesServer.Core.Threads
import OwliesServer.Skynet.Scheduler
import OwliesServer.Skynet.MessageOrder
import OwliesServer.Core.LittleEndian
import OwliesServer.Core.Parser
import OwliesServer.Core.LuaValue
import OwliesServer.Skynet.Seri
import OwliesServer.Skynet.SeriRoundTrip
import OwliesServer.Wire.Sproto
import OwliesServer.Wire.SprotoRoundTrip
import OwliesServer.Core.Room
import OwliesServer.Wire.SprotoBuffer
import OwliesServer.Wire.SprotoBounds
import OwliesServer.Wire.Schemes
import OwliesServer.Wire.LoginExchange
import OwliesServer.Wire.LoginMessages
import OwliesServer.Core.Wheel
import OwliesServer.Skynet.Timer
import OwliesServer.Skynet.Handle
import OwliesServer.Skynet.Coroutines
import OwliesServer.Skynet.Responses
