import Wenchang.Interaction.Prog
import Wenchang.Interaction.Pool
import Wenchang.Interaction.Alone
import Wenchang.Interaction.Sequential
import Wenchang.Interaction.Wrapped
import Wenchang.Interaction.Locked
import Wenchang.Ordered.FinMap
import Wenchang.Py.Repr
import Wenchang.Py.Str
import Wenchang.Py.Occurrences
import Wenchang.Py.Json
import Wenchang.Py.Joined
import Wenchang.Py.Utf8
import Wenchang.Py.Base64
import Wenchang.Py.DateTime
import Wenchang.Py.JsonSchema
import Wenchang.Paths
import Wenchang.Storage
import Wenchang.Objects
import Wenchang.FileFormat
import Wenchang.Core.Listing
import Wenchang.Core.MemoryStore
import Wenchang.Core.MemoryIndex
import Wenchang.Core.Worlds
import Wenchang.Core.Export
import Wenchang.Core.SharedCache
import Wenchang.Laws.Metadata
import Wenchang.Laws.Body
import Wenchang.Laws.Rules
import Wenchang.Laws.Blocks
import Wenchang.Laws.Reach
import Wenchang.Laws.Mutators
import Wenchang.Laws.NoLostUpdate
import Wenchang.Laws.Appends
import Wenchang.Laws.Calls
import Wenchang.Laws.LostResponse
import Wenchang.Ordered.Scan
import Wenchang.Laws.Paging
import Wenchang.Laws.Cursors
import Wenchang.Laws.FileCap
import Wenchang.Ordered.Cut
import Wenchang.Laws.Merge
import Wenchang.Laws.Index
import Wenchang.Laws.Cacheless
import Wenchang.Laws.Replace
import Wenchang.Laws.Edits
import Wenchang.Laws.Atomic
import Wenchang.Laws.Stored
import Wenchang.Laws.Purge
import Wenchang.Laws.Export
import Wenchang.Laws.CachedListing
import Wenchang.Laws.CacheSteps
import Wenchang.Laws.CacheTraces
import Wenchang.Laws.FreshIndex
import Wenchang.Laws.AnyPath
import Wenchang.Laws.Conflicts
import Wenchang.Laws.GcsReads
import Wenchang.Laws.GcsRefinement
import Wenchang.Laws.Sidecars
import Wenchang.Laws.FileStore
import Wenchang.Laws.FilePages
import Wenchang.Laws.FileLocks
import Wenchang.Laws.FileRefinement
import Wenchang.Laws.FileSerial
import Wenchang.Laws.Renaming
import Wenchang.Laws.BackendsAgree
import Wenchang.Laws.FailedWrites
import Wenchang.Laws.FileDeletes
import Wenchang.Laws.FileListings
import Wenchang.Laws.SafeNames
import Wenchang.Laws.Prefixes
import Wenchang.Laws.SeedLines
import Wenchang.Laws.CapCount
import Wenchang.Laws.Creates
import Wenchang.Laws.ListingCodec
import Wenchang.Tools.Scope
import Wenchang.Tools.Errors
import Wenchang.Tools.MemoryTools
import Wenchang.Tools.Rendering
import Wenchang.Tools.Schemas
import Wenchang.Laws.Confinement
import Wenchang.Tools.Session
import Wenchang.Tools.Mcp
import Wenchang.Laws.Rendered
import Wenchang.Laws.StoreRenders
import Wenchang.Laws.ToolStore
import Wenchang.Laws.Served
import Wenchang.Laws.Isolation
import Wenchang.Interaction.Register
import Wenchang.Laws.CacheGuarantees
import Wenchang.Laws.NeverStale
import Wenchang.Interaction.Simulation
import Wenchang.Py.TimeDelta
import Wenchang.Core.InMemoryIndexCache
import Wenchang.Laws.TimedCache
import Wenchang.Laws.Expiry
