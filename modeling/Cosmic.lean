import Cosmic.Lang.FlowRun
import Cosmic.Lang.LexerLoss
import Cosmic.Lang.TypesRead
import Cosmic.Relay.Permitted
import Cosmic.Relay.Authority
import Cosmic.Relay.HelloClosed
import Cosmic.Core.ConnectorPublic
import Cosmic.Core.ConnectorPolicy
import Cosmic.Base.Memory
import Cosmic.Core.ConnectorLoop
import Cosmic.Core.ConnectorAuthority
import Cosmic.Core.ConnectorServe
import Cosmic.Core.ConnectorRun
import Cosmic.Http.Input
import Cosmic.Http.Url
import Cosmic.Http.BodyRead
import Cosmic.Http.Head
import Cosmic.Http.HeadRead
import Cosmic.Http.BodyPiece
import Cosmic.Http.BodyFramed
import Cosmic.Http.Session
import Cosmic.Http.ReplyHead
import Cosmic.Http.ReplySend
import Cosmic.Base.Utf8
import Cosmic.Json.Utf
import Cosmic.Json.Value
import Cosmic.Base.Probe
import Cosmic.Json.Text
import Cosmic.Json.Walk
import Cosmic.Json.Format
import Cosmic.Json.Rfc
import Cosmic.Json.StringRead
import Cosmic.Json.FormatRead
import Cosmic.Json.Accord
import Cosmic.Csv.RoundTrip
import Cosmic.Base.Trie
import Cosmic.Web.Router
import Cosmic.Web.RouterAnswer
import Cosmic.Web.RouterOrder
import Cosmic.Web.HubRun
import Cosmic.Web.SessionSaved
import Cosmic.Base.Backlog
import Cosmic.Task.ChannelRun
import Cosmic.Web.Hub
import Cosmic.Web.HubReplay
import Cosmic.Lang.TypesForget
import Cosmic.Lang.TypesLoad
import Cosmic.Lang.TypesCanonical
import Cosmic.Lang.TypesUnionLaws
import Cosmic.Relay.ServerKept
import Cosmic.Relay.ServerCarried
import Cosmic.Relay.ConnectGrammar
import Cosmic.Lang.FlowMeets
import Cosmic.Lang.LexerPositions
import Cosmic.Lang.Generics
import Cosmic.Lang.ScopesVisible
import Cosmic.Tar.Pax
import Cosmic.Time.DurationRead
import Cosmic.Time.TzifRead
import Cosmic.Time.DateRead
import Cosmic.Web.Escape
import Cosmic.Web.Query
import Cosmic.Http.DotSegments
import Cosmic.Http.Resolve
import Cosmic.Web.EventText
import Cosmic.Core.Codec
import Cosmic.Core.SandboxUser
import Cosmic.Lang.TypesRuns
import Cosmic.Rand.Uniform
import Cosmic.Rand.Source
import Cosmic.Time.Civil
import Cosmic.Csv.Table
import Cosmic.Stream.Lines
