import Dcfs.Cache.Eviction
import Dcfs.Cache.Extents
import Dcfs.Cache.Manager
import Dcfs.Crypto.Authentic
import Dcfs.Crypto.Chunk
import Dcfs.Crypto.Legacy
import Dcfs.Crypto.RoundTrip
import Dcfs.Crypto.Spans
import Dcfs.Crypto.Vault
import Dcfs.Discord.Deletion
import Dcfs.Discord.Depot
import Dcfs.Discord.Download
import Dcfs.Discord.Ranges
import Dcfs.Discord.RateLimit
import Dcfs.Discord.RetryAfter
import Dcfs.Discord.Store
import Dcfs.Discord.Sweeps
import Dcfs.File.Abandoned
import Dcfs.File.Aged
import Dcfs.File.ByteCalls
import Dcfs.File.ChunkPlan
import Dcfs.File.Collected
import Dcfs.File.Commit
import Dcfs.File.Content
import Dcfs.File.Cursors
import Dcfs.File.Doors
import Dcfs.File.Edits
import Dcfs.File.Exact
import Dcfs.File.Isolation
import Dcfs.File.Legacy
import Dcfs.File.Numbers
import Dcfs.File.Open
import Dcfs.File.Pieces
import Dcfs.File.Read
import Dcfs.File.ReadBack
import Dcfs.File.Recorded
import Dcfs.File.Refinement
import Dcfs.File.Requests
import Dcfs.File.Resized
import Dcfs.File.Reuploads
import Dcfs.File.Revert
import Dcfs.File.Spared
import Dcfs.File.Staged
import Dcfs.File.Strays
import Dcfs.File.Touched
import Dcfs.File.Truncated
import Dcfs.File.Untouched
import Dcfs.File.Untrusted
import Dcfs.File.Upload
import Dcfs.File.Write
import Dcfs.File.WriteChunk
import Dcfs.Fuse.Accounts
import Dcfs.Fuse.Assembly
import Dcfs.Fuse.BlockCache
import Dcfs.Fuse.Blocks
import Dcfs.Fuse.Budget
import Dcfs.Fuse.Buffered
import Dcfs.Fuse.CachedReads
import Dcfs.Fuse.CatchUp
import Dcfs.Fuse.Client
import Dcfs.Fuse.Coherence
import Dcfs.Fuse.Cookies
import Dcfs.Fuse.Crash
import Dcfs.Fuse.Creates
import Dcfs.Fuse.Deletes
import Dcfs.Fuse.Delivery
import Dcfs.Fuse.Directory
import Dcfs.Fuse.Files
import Dcfs.Fuse.Fs
import Dcfs.Fuse.Fsync
import Dcfs.Fuse.Gaps
import Dcfs.Fuse.Http
import Dcfs.Fuse.Ideal
import Dcfs.Fuse.Interleaved
import Dcfs.Fuse.LeastRecent
import Dcfs.Fuse.Logged
import Dcfs.Fuse.Looks
import Dcfs.Fuse.Mirror
import Dcfs.Fuse.NamesThrough
import Dcfs.Fuse.Numbering
import Dcfs.Fuse.Numbers
import Dcfs.Fuse.PatchThrough
import Dcfs.Fuse.ReadThrough
import Dcfs.Fuse.Readdir
import Dcfs.Fuse.Recency
import Dcfs.Fuse.Recorded
import Dcfs.Fuse.Recording
import Dcfs.Fuse.Renames
import Dcfs.Fuse.Replays
import Dcfs.Fuse.Rollback
import Dcfs.Fuse.Session
import Dcfs.Fuse.Shared
import Dcfs.Fuse.Sizes
import Dcfs.Fuse.Stable
import Dcfs.Fuse.Survival
import Dcfs.Fuse.Transparent
import Dcfs.Fuse.Twins
import Dcfs.Fuse.Undelivered
import Dcfs.Fuse.Upheld
import Dcfs.Fuse.Upkeep
import Dcfs.Fuse.VersionKeys
import Dcfs.Fuse.WriteLog
import Dcfs.Fuse.WriteThrough
import Dcfs.Library.Calc
import Dcfs.Library.Cursor
import Dcfs.Library.Fallible
import Dcfs.Library.Files
import Dcfs.Library.Forest
import Dcfs.Library.Intervals
import Dcfs.Library.Keyed
import Dcfs.Library.LockMap
import Dcfs.Library.Lru
import Dcfs.Library.Machine
import Dcfs.Library.Optimistic
import Dcfs.Library.Outcome
import Dcfs.Library.Pool
import Dcfs.Library.Program
import Dcfs.Library.Ranking
import Dcfs.Library.Routine
import Dcfs.Library.RwLocks
import Dcfs.Library.Search
import Dcfs.Library.Sparse
import Dcfs.Library.Steps
import Dcfs.Library.Table
import Dcfs.Library.Text
import Dcfs.Library.Totals
import Dcfs.Library.Triple
import Dcfs.Library.Twin
import Dcfs.Metadata.LockOrder
import Dcfs.Metadata.Nodes
import Dcfs.Metadata.Records
import Dcfs.Metadata.Versions
import Dcfs.Names.Asked
import Dcfs.Names.Calls
import Dcfs.Names.HttpTree
import Dcfs.Names.Orphans
import Dcfs.Names.Paths
import Dcfs.Names.Replaced
import Dcfs.Names.Requests
import Dcfs.Names.Rooted
import Dcfs.Names.Tree
import Dcfs.Names.Unique
import Dcfs.Objects.Advances
import Dcfs.Objects.Atomic
import Dcfs.Objects.Disk
import Dcfs.Objects.Frames
import Dcfs.Objects.Linear
import Dcfs.Objects.Ranges
import Dcfs.Pool.Collector
import Dcfs.Pool.Effect
import Dcfs.Pool.Immutable
import Dcfs.Pool.LostCommit
import Dcfs.Pool.Promise
import Dcfs.Pool.Run
import Dcfs.Pool.Starters
import Dcfs.Pool.Traffic
import Dcfs.Server.Api
import Dcfs.Server.Attachments
import Dcfs.Server.Data
import Dcfs.Server.Dav
import Dcfs.Server.DavFile
import Dcfs.Server.Environment
import Dcfs.Server.Exec
import Dcfs.Server.Gc
import Dcfs.Server.KeyText
import Dcfs.Server.Locks
import Dcfs.Server.MasterKey
import Dcfs.Server.Nodes
import Dcfs.Server.Request
import Dcfs.Server.Sample
import Dcfs.Server.Versions
import Dcfs.Sessions.Comparison
import Dcfs.Sessions.Credentials
import Dcfs.Sessions.Ended
import Dcfs.Sessions.Lifetimes
import Dcfs.Sessions.Records
import Dcfs.Sessions.Router
import Dcfs.Sessions.Service
import Dcfs.Sessions.Token
import Dcfs.State.Consistent
import Dcfs.State.Forget
import Dcfs.State.Namespace
import Dcfs.State.Reachable
import Dcfs.State.Removal
import Dcfs.State.Steps
import Dcfs.State.Sweep
import Dcfs.State.Switch
import Dcfs.Versions.Agreement
import Dcfs.Versions.Backends
import Dcfs.Versions.Book
import Dcfs.Versions.Chain
import Dcfs.Versions.Current
import Dcfs.Versions.InStep
import Dcfs.Versions.Manifests
import Dcfs.Versions.Nodes
import Dcfs.Versions.Overwrites
import Dcfs.Versions.Refines
import Dcfs.Versions.Writers
