import Resolvd.Lib.Ascii
import Resolvd.Lib.Bytes
import Resolvd.Lib.Fallible
import Resolvd.Lib.Net
import Resolvd.Lib.Table
import Resolvd.Lib.Run
import Resolvd.Dns.Name
import Resolvd.Dns.Wire
import Resolvd.Dns.Compressed
import Resolvd.Dns.Record
import Resolvd.Dns.Message
import Resolvd.Dns.Text
import Resolvd.Dns.Presentation
import Resolvd.Dns.Hops
import Resolvd.Dns.Reply
import Resolvd.Engine.Types
import Resolvd.Engine.Cache
import Resolvd.Engine.Eviction
import Resolvd.Engine.Records
import Resolvd.Engine.Routing
import Resolvd.Engine.Rules
import Resolvd.Engine.Core
import Resolvd.Engine.Aliases
import Resolvd.Engine.Run
import Resolvd.Engine.Hosts
import Resolvd.Engine.Effects
import Resolvd.Engine.Moves
import Resolvd.Engine.Paths
import Resolvd.Engine.Links
import Resolvd.Engine.Traffic
import Resolvd.Engine.Invariants
import Resolvd.Engine.Once
import Resolvd.Engine.Drain
import Resolvd.Engine.Queries
import Resolvd.Engine.Outcomes
import Resolvd.Engine.Scopes
import Resolvd.Engine.Confined
import Resolvd.Engine.Attempts
import Resolvd.Engine.Candidates
import Resolvd.Engine.Generation
import Resolvd.Engine.Verdicts
import Resolvd.Engine.Provenance
import Resolvd.Engine.Absence
import Resolvd.Engine.Lifetimes
import Resolvd.Engine.Search
import Resolvd.Engine.Apart
import Resolvd.Engine.Counters
import Resolvd.Engine.Budget
import Resolvd.Engine.Chains
import Resolvd.Engine.Spelling
import Resolvd.Engine.Subnet
import Resolvd.Engine.Sending
import Resolvd.Engine.Reverse
import Resolvd.Engine.Keys
import Resolvd.Daemon.Upstream
import Resolvd.Daemon.Model
import Resolvd.Daemon.Sockets
import Resolvd.Daemon.Perform
import Resolvd.Daemon.Tables
import Resolvd.Daemon.Framing
import Resolvd.Daemon.Replies
import Resolvd.Daemon.Netd
import Resolvd.Stub.Receive
import Resolvd.Stub.Render
import Resolvd.Stub.Quiet
import Resolvd.Stub.Chains
import Resolvd.Stub.Tcp
import Resolvd.Daemon.Loop
import Resolvd.Daemon.Admission
import Resolvd.Core.Rearrange
import Resolvd.Core.Framing
import Resolvd.Core.Skip
import Resolvd.Nss.Alignment
import Resolvd.Dns.Mnemonics
import Resolvd.Daemon.Answers
import Resolvd.Daemon.Drain
import Resolvd.Daemon.Connections
import Resolvd.Service.Registry
import Resolvd.Service.Snapshot
import Resolvd.Service.Reports
import Resolvd.Service.Model
import Resolvd.Service.Projection
import Resolvd.Service.Delivery
import Resolvd.Service.Access
import Resolvd.Lib.Arena
import Resolvd.Api.Views
import Resolvd.Api.Library
import Resolvd.Api.Exchange
