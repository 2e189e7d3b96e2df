import Relayfs.Lib.Run
import Relayfs.Lib.Ranges
import Relayfs.Lib.Table
import Relayfs.Lib.Ledger
import Relayfs.Lib.Prog
import Relayfs.Lib.Base64
import Relayfs.Lib.Bytes
import Relayfs.Lib.PrefixCache
import Relayfs.Lib.Chunks
import Relayfs.Lib.Fair
import Relayfs.Lib.Utf8
import Relayfs.Lib.FormUrl
import Relayfs.Lib.Lines
import Relayfs.Lib.Paging
import Relayfs.Lib.Walk
import Relayfs.Queue.MergeRange
import Relayfs.Queue.UploadQueue
import Relayfs.Queue.Invariant
import Relayfs.Queue.Run
import Relayfs.Queue.Drain
import Relayfs.Queue.TakeBatch
import Relayfs.Queue.Backlog
import Relayfs.Queue.Progress
import Relayfs.Wire.Json
import Relayfs.Wire.Requests
import Relayfs.Wire.Results
import Relayfs.Relay.Relay
import Relayfs.Relay.Routing
import Relayfs.Relay.Run
import Relayfs.Relay.Delivery
import Relayfs.Relay.Session
import Relayfs.Relay.Addresses
import Relayfs.Relay.Tenants
import Relayfs.Bridge.Client
import Relayfs.Bridge.Calls
import Relayfs.Bridge.LostCalls
import Relayfs.Bridge.Outcomes
import Relayfs.Agent.Dispatch
import Relayfs.Agent.Responses
import Relayfs.Agent.Commands
import Relayfs.Agent.CommandResults
import Relayfs.Agent.CommandProgress
import Relayfs.Agent.CommandLock
import Relayfs.Agent.CommandPipes
import Relayfs.Agent.StreamOutput
import Relayfs.Agent.Disconnect
import Relayfs.Agent.Files
import Relayfs.Agent.FileTree
import Relayfs.Agent.CopyTree
import Relayfs.Agent.CopyEnds
import Relayfs.Agent.CopyResult
import Relayfs.Agent.ReadFile
import Relayfs.Bridge.Upload
import Relayfs.Bridge.Download
import Relayfs.System.System
import Relayfs.System.Frames
import Relayfs.System.Answers
import Relayfs.System.LostAgent
import Relayfs.System.WriteOrder
import Relayfs.Fuse.Path
import Relayfs.Fuse.Effects
import Relayfs.Fuse.RemoteFs
import Relayfs.Fuse.Background
import Relayfs.Fuse.Reading
import Relayfs.Fuse.Mount
import Relayfs.Fuse.ReadOnly
import Relayfs.Fuse.CachePrefix
import Relayfs.Fuse.Inodes
import Relayfs.Fuse.CacheTree
import Relayfs.Fuse.SizeTold
import Relayfs.Fuse.Refused
import Relayfs.Fuse.CacheRace
import Relayfs.Fuse.CachePaths
import Relayfs.Fuse.Sessions
import Relayfs.Fuse.ReadExact
import Relayfs.Fuse.StaleReads
import Relayfs.Fuse.Fillers
import Relayfs.Fuse.Classify
import Relayfs.Fuse.Fallback
import Relayfs.Fuse.Scan
import Relayfs.Http.Message
import Relayfs.Http.Codes
import Relayfs.Http.Tokens
import Relayfs.Http.Redirect
import Relayfs.Lib.WriteBack
import Relayfs.Fuse.Durable
import Relayfs.Fuse.PlainFile
import Relayfs.Agent.Params
import Relayfs.Agent.Serve
import Relayfs.Fuse.Served
import Relayfs.Fuse.Confinement
import Relayfs.Fuse.Mirror
import Relayfs.Wire.Reconnect
import Relayfs.Bridge.Supervisor
import Relayfs.Http.Login
import Relayfs.Bridge.Transfer
