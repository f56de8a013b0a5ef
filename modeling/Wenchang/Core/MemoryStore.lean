import Wenchang.Core.Listing
import Wenchang.Interaction.Prog

/-!
# `MemoryStore`

The methods of `MemoryStore` as programs over `StoreSig`: the storage operations, the clock,
`uuid4().hex`, and `get` and `set` of the index cache. Everything else a method does is a pure step
between two of these, so a method's text is its source's, statement by statement.

A loop whose length the outside world decides takes `fuel` and hangs when it is used up; a hang is a
call that is still running. The three attempts of `replaceFact` and the passes of `purge` are counted
by the source and need none.
-/

namespace Wenchang

open Py Ordered Interaction

/-! ## The interface -/

/-- What a cache's `get` returned. -/
inductive CacheValue where
  | absent
  | text (s : Str)
  /-- A value whose type is not exactly `str`. -/
  | other
  deriving DecidableEq

/-- One interaction of a `MemoryStore` with the world. -/
inductive StoreOp where
  | storage (op : StorageOp)
  | clock
  | uuid4
  | cacheGet (key : Str)
  | cacheSet (key value : Str)
  deriving DecidableEq

/-- What an interaction would write to storage. -/
def StoreOp.write? : StoreOp → Option (Str × Bytes × Metadata)
  | .storage op => op.write?
  | _ => none

/-- An operation that can change what is at a key. -/
def StoreOp.Writes (key : Str) : StoreOp → Prop
  | .storage (.put k _ _) => k = key
  | .storage (.putIfVersion k _ _ _) => k = key
  | .storage (.deleteIfVersion k _) => k = key
  | _ => False

/-- What an interaction answers. -/
abbrev StoreOp.Ans : StoreOp → Type
  | .storage op => op.Ans
  | .clock => DateTime
  | .uuid4 => Str
  | .cacheGet _ => Except Exc CacheValue
  | .cacheSet _ _ => Except Exc Unit

/-- The interface of a `MemoryStore` to the world. -/
abbrev StoreSig : Sig := ⟨StoreOp, StoreOp.Ans⟩

/-- A program of the core. -/
abbrev Store (α : Type) := Prog StoreSig Exc α

/-- One interaction, returning its answer. -/
def ask (op : StoreOp) : Store op.Ans := .vis op .ret

/-- `storage.get(key)`. -/
def storageGet (key : Str) : Store (Option StoredObject) := do
  Prog.ofExcept (← ask (.storage (.get key)))

/-- `storage.list_page(prefix, start_after, limit)`. -/
def storageListPage (pre : Str) (startAfter : Option Str) (limit : Nat) :
    Store (List ListedObject) := do
  Prog.ofExcept (← ask (.storage (.listPage pre startAfter limit)))

/-! ## The configuration -/

/-- What a store uses of its `IndexCache`. -/
structure IndexCache where
  keyPrefix : Str
  deriving DecidableEq

/-- A `MemoryStore`'s configuration, with the checks of its constructor. -/
structure MemoryStore where
  maxFileBytes : Nat
  listPageSize : Nat
  indexMaxBytes : Nat
  scopePriority : List Str
  maxFilesPerEntity : Option Nat
  indexCache : Option IndexCache
  maxFileBytes_pos : 0 < maxFileBytes
  listPageSize_pos : 0 < listPageSize
  indexMaxBytes_pos : 0 < indexMaxBytes
  maxFilesPerEntity_pos : ∀ n ∈ maxFilesPerEntity, 0 < n
  priority_valid : ∀ s ∈ scopePriority, isValidSegment s = true
  priority_nodup : scopePriority.Nodup

/-- `MemoryStore(storage)`: the configuration of a store by default. -/
def MemoryStore.default : MemoryStore where
  maxFileBytes := 16384
  listPageSize := 100
  indexMaxBytes := 65536
  scopePriority := []
  maxFilesPerEntity := some 500
  indexCache := none
  maxFileBytes_pos := by decide
  listPageSize_pos := by decide
  indexMaxBytes_pos := by decide
  maxFilesPerEntity_pos := by decide
  priority_valid := nofun
  priority_nodup := .nil

/-- `INDEX_SYSTEM_AREA`. -/
def indexSystemArea : Str := str "system"

/-- `_MAX_REPLACE_ATTEMPTS`. -/
def maxReplaceAttempts : Nat := 3

/-- `_token_key`. -/
def tokenKey (cache : IndexCache) (scope entityId : Str) : Str :=
  cache.keyPrefix ++ str "v1:token:" ++ scope ++ str "/" ++ entityId

/-- `_listing_key`. -/
def listingKey (cache : IndexCache) (scope entityId : Str) : Str :=
  cache.keyPrefix ++ str "v1:listing:" ++ scope ++ str "/" ++ entityId

/-- `_cache_get`: a raised exception and a value that is not a str are misses. -/
def cacheGet (key : Str) : Store (Option Str) := do
  match ← ask (.cacheGet key) with
  | .ok (.text value) => return some value
  | _ => return none

/-- `_cache_set`: a raised exception is swallowed. -/
def cacheSet (key value : Str) : Store Unit := do
  let _ ← ask (.cacheSet key value)

/-- A pure step of the path layer, whose errors are `ValueError`s. -/
def orValueError {α : Type} (r : Except Str α) : Store α := .ofExcept (r.mapError .valueError)

namespace MemoryStore

variable [Interpreter] (s : MemoryStore)

/-! ## Invalidation -/

/-- `_check_entity_segments`. -/
def checkEntitySegments (scope entityId : Str) : Except Exc Unit :=
  if isValidSegment scope = false then
    .error (.valueError (str "invalid scope: " ++ Py.repr scope))
  else if isValidSegment entityId = false then
    .error (.valueError (str "invalid entity_id: " ++ Py.repr entityId))
  else .ok ()

/-- `invalidate_index`: here a cache's exception propagates. -/
def invalidateIndex (scope entityId : Str) : Store Unit := do
  Prog.ofExcept (checkEntitySegments scope entityId)
  match s.indexCache with
  | none => return ()
  | some cache =>
    let token ← ask .uuid4
    Prog.ofExcept (← ask (.cacheSet (tokenKey cache scope entityId) token))
    Prog.ofExcept (← ask (.cacheSet (listingKey cache scope entityId) Wenchang.tombstone))

/-- `_invalidate_path`. -/
def invalidatePath (path : Str) (tombstone : Bool) : Store Unit := do
  match s.indexCache with
  | none => return ()
  | some cache =>
    let parts ← orValueError (parsePath path)
    let token ← ask .uuid4
    cacheSet (tokenKey cache parts.scope parts.entityId) token
    if tombstone then cacheSet (listingKey cache parts.scope parts.entityId) Wenchang.tombstone

/-- `_put_if_version`: the invalidation follows the put, whether it returned or raised. -/
def putIfVersion (path : Str) (data : Bytes) (metadata : Metadata) (expected : Option Str) :
    Store Str := do
  let result ← ask (.storage (.putIfVersion path data metadata expected))
  s.invalidatePath path false
  Prog.ofExcept result

/-- `_delete_if_version`. -/
def deleteIfVersion (path expected : Str) : Store Unit := do
  let result ← ask (.storage (.deleteIfVersion path expected))
  s.invalidatePath path true
  Prog.ofExcept result

/-! ## Listings -/

/-- The entries of a page: malformed keys are left out. -/
def pageEntries : List ListedObject → Except Exc (List FileEntry)
  | [] => .ok []
  | obj :: rest =>
    if isValidPath obj.key then do
      let metadata ← metadataFromMap obj.metadata
      let entries ← pageEntries rest
      .ok (⟨obj.key, metadata, obj.version⟩ :: entries)
    else pageEntries rest

/-- `None if cursor is None else _decode_cursor(cursor, prefix)`. -/
def decodeStart (cursor : Option Str) (pre : Str) : Except Exc (Option Str) :=
  match cursor with
  | none => .ok none
  | some cursor => (decodeCursor cursor pre).map some

/-- What `list_prefix` makes of the objects it read: one more than the page tells that there are
more. -/
def pageOf (size : Nat) (objs : List ListedObject) : Except Exc ListPage := do
  let page := objs.take size
  let entries ← pageEntries page
  match page.getLast?, decide (size < objs.length) with
  | some last, true =>
    let cursor ← encodeCursor last.key
    .ok ⟨entries, some cursor⟩
  | _, _ => .ok ⟨entries, none⟩

/-- `list_prefix`. -/
def listPrefix (pre : Str) (cursor : Option Str) : Store ListPage := do
  Prog.raiseIf (isValidPrefix pre = false) (.notFoundError pre .invalidPath)
  let startAfter ← Prog.ofExcept (decodeStart cursor pre)
  let objs ← storageListPage pre startAfter (s.listPageSize + 1)
  Prog.ofExcept (pageOf s.listPageSize objs)

/-- `_drain`, from a cursor on. -/
def drain (pre : Str) : Nat → Option Str → Store (List FileEntry)
  | 0, _ => .hang
  | fuel + 1, cursor => do
    let page ← s.listPrefix pre cursor
    match page.nextCursor with
    | none => return page.entries
    | some next =>
      let rest ← drain pre fuel (some next)
      return page.entries ++ rest

/-- The miss branch of `_cached_entity_entries`: list, and store the listing under the token that was
observed before. -/
def refill (fuel : Nat) (cache : IndexCache) (scope entityId pre token : Str) :
    Store (List FileEntry) := do
  let entries ← s.drain pre fuel none
  cacheSet (listingKey cache scope entityId) (encodeListing token entries)
  return entries

/-- `_cached_entity_entries`. -/
def cachedEntityEntries (fuel : Nat) (cache : IndexCache) (scope entityId : Str) :
    Store (List FileEntry) := do
  let pre ← orValueError (buildPrefix scope (some entityId) none)
  match ← cacheGet (tokenKey cache scope entityId) with
  | some token =>
    match (← cacheGet (listingKey cache scope entityId)).bind (decodeListing · token pre) with
    | some hit => return hit
    | none => s.refill fuel cache scope entityId pre token
  | none =>
    let token ← ask .uuid4
    cacheSet (tokenKey cache scope entityId) token
    s.refill fuel cache scope entityId pre token

/-! ## Reading and writing files -/

/-- `read_file`. -/
def readFile (path : Str) : Store MemoryFile := do
  Prog.raiseIf (isValidPath path = false) (.notFoundError path .invalidPath)
  match ← storageGet path with
  | none => .raise (.notFoundError path .fileAbsent)
  | some obj =>
    let content ← Prog.ofExcept (decodeUtf8 obj.data)
    let metadata ← Prog.ofExcept (metadataFromMap obj.metadata)
    return ⟨path, content, metadata, obj.version⟩

/-- A key that `_at_file_cap` counts. -/
def countsTowardCap (key : Str) : Bool :=
  match parsePath key with
  | .ok parts => parts.area ≠ indexSystemArea
  | .error _ => false

/-- The loop of `_at_file_cap`. -/
def capLoop (pre : Str) (limit : Nat) : Nat → Nat → Option Str → Store Bool
  | 0, _, _ => .hang
  | fuel + 1, count, startAfter =>
    if limit ≤ count then return true
    else do
      let pageSize := max (limit - count) s.listPageSize
      let objs ← storageListPage pre startAfter pageSize
      let count := count + objs.countP (countsTowardCap ·.key)
      if objs.length < pageSize then return decide (limit ≤ count)
      else capLoop pre limit fuel count (objs.getLast?.map (·.key))

/-- `_at_file_cap`. -/
def atFileCap (fuel : Nat) (pre : Str) (limit : Nat) : Store Bool :=
  s.capLoop pre limit fuel 0 none

/-- The cap check of a create: the limit that is reached, if one is. -/
def createCap (fuel : Nat) (path : Str) : Store (Option Nat) := do
  let parts ← orValueError (parsePath path)
  match s.maxFilesPerEntity with
  | none => return none
  | some limit =>
    if parts.area = indexSystemArea then return none
    else
      let pre ← orValueError (buildPrefix parts.scope (some parts.entityId) none)
      let full ← s.atFileCap fuel pre limit
      return if full then some limit else none

/-- The conflict a write reports once it has read the current object: body first. -/
def conflictAfterRead (path : Str) (obj : StoredObject) : Except Exc Exc := do
  let content ← decodeUtf8 obj.data
  let _ ← metadataFromMap obj.metadata
  .ok (.versionConflictError path content obj.version)

/-- Raise what a pure step computed, or what it raised itself. -/
def raiseResult {α : Type} : Except Exc Exc → Store α
  | .ok e => .raise e
  | .error e => .raise e

/-- The sources a write stores: for a create those it is given, for a replace also those recorded. -/
def writeSources (fuel : Nat) (path : Str) (metadata : FileMetadata) (expectedVersion : Option Str)
    (source : Str) : Store (FinSet Str) := do
  match expectedVersion with
  | none =>
    match ← s.createCap fuel path with
    | some limit =>
      match ← storageGet path with
      | none => .raise (.fileQuotaExceededError path limit)
      | some obj => raiseResult (conflictAfterRead path obj)
    | none => return metadata.sources.insert source
  | some expected =>
    match ← storageGet path with
    | none => .raise (.notFoundError path .fileAbsent)
    | some obj =>
      if obj.version ≠ expected then
        let _ ← Prog.ofExcept (metadataFromMap obj.metadata)
        let content ← Prog.ofExcept (decodeUtf8 obj.data)
        .raise (.versionConflictError path content obj.version)
      else
        let stored ← Prog.ofExcept (metadataFromMap obj.metadata)
        return (stored.sources.union metadata.sources).insert source

/-- The end of `write_file`: stamp, put, and report a conflict from a re-read. -/
def commitWrite (path content : Str) (data : Bytes) (metadata : FileMetadata)
    (expectedVersion : Option Str) (sources : FinSet Str) : Store MemoryFile := do
  let now ← ask .clock
  let stamped ← Prog.ofExcept
    (replaceMetadata metadata.description metadata.aliases sources now)
  let metaMap ← Prog.ofExcept (metadataToMap stamped)
  match ← Prog.attempt (s.putIfVersion path data metaMap expectedVersion) with
  | .ok version => return ⟨path, content, stamped, version⟩
  | .error (.preconditionFailedError _) =>
    match ← storageGet path with
    | none => .raise (.notFoundError path .fileAbsent)
    | some obj => raiseResult (conflictAfterRead path obj)
  | .error e => .raise e

/-- `write_file`. -/
def writeFile (fuel : Nat) (path content : Str) (metadata : FileMetadata)
    (expectedVersion : Option Str) (source : Str) : Store MemoryFile := do
  Prog.raiseIf (isValidPath path = false) (.notFoundError path .invalidPath)
  Prog.raiseIf (source = []) (.valueError (str "source must be non-empty"))
  let data ← Prog.ofExcept (encodeUtf8 content)
  Prog.raiseIf (s.maxFileBytes < data.length)
    (.oversizeWriteError path data.length s.maxFileBytes)
  let sources ← s.writeSources fuel path metadata expectedVersion source
  s.commitWrite path content data metadata expectedVersion sources

/-- The attempts of `replace_fact`: `attempts` are left, `content` and `version` were read last. -/
def replaceAttempts (path oldString newString expectedVersion source : Str)
    (aliases : Option (List Str)) (description : Option Str) : Nat → Str → Str → Store MemoryFile
  | 0, content, version => .raise (.versionConflictError path content version)
  | attempts + 1, _, _ => do
    match ← storageGet path with
    | none => .raise (.notFoundError path .fileAbsent)
    | some obj =>
      let content ← Prog.ofExcept (decodeUtf8 obj.data)
      let metadata ← Prog.ofExcept (metadataFromMap obj.metadata)
      let count := countOccurrences content oldString
      if count ≠ 1 then
        if obj.version = expectedVersion then
          .raise (.replaceFactMatchError path content obj.version count)
        else .raise (.versionConflictError path content obj.version)
      else
        let newContent := replaceFirst content oldString newString
        let data ← Prog.ofExcept (encodeUtf8 newContent)
        Prog.raiseIf (s.maxFileBytes < data.length)
          (.oversizeWriteError path data.length s.maxFileBytes)
        let now ← ask .clock
        let stamped ← Prog.ofExcept (mergeMetadata metadata source aliases description now)
        let metaMap ← Prog.ofExcept (metadataToMap stamped)
        match ← Prog.attempt (s.putIfVersion path data metaMap (some obj.version)) with
        | .ok version => return ⟨path, newContent, stamped, version⟩
        | .error (.preconditionFailedError _) =>
          replaceAttempts path oldString newString expectedVersion source aliases description
            attempts content obj.version
        | .error e => .raise e

/-- `replace_fact`. -/
def replaceFact (path oldString newString expectedVersion source : Str)
    (aliases : Option (List Str)) (description : Option Str) : Store MemoryFile := do
  Prog.raiseIf (isValidPath path = false) (.notFoundError path .invalidPath)
  Prog.raiseIf (oldString = [] ∨ source = [])
    (.valueError (str "old_string and source must be non-empty"))
  let newDescription ← Prog.ofExcept (normalizeOptional description)
  s.replaceAttempts path oldString newString expectedVersion source aliases newDescription
    maxReplaceAttempts [] expectedVersion

/-- The content `append_line` writes. -/
def appendContent (content line : Str) : Str :=
  content ++ (if content ≠ [] ∧ ¬ [10].isSuffixOf content then [10] else []) ++ line ++ [10]

/-- `append_line`. -/
def appendLine (path line expectedVersion source : Str) (aliases : Option (List Str))
    (description : Option Str) : Store MemoryFile := do
  Prog.raiseIf (isValidPath path = false) (.notFoundError path .invalidPath)
  Prog.raiseIf (parseFact line = none ∨ source = [])
    (.valueError (str "line must be a single fact line and source must be non-empty"))
  let newDescription ← Prog.ofExcept (normalizeOptional description)
  match ← storageGet path with
  | none => .raise (.notFoundError path .fileAbsent)
  | some obj =>
    let content ← Prog.ofExcept (decodeUtf8 obj.data)
    Prog.raiseIf (obj.version ≠ expectedVersion) (.versionConflictError path content obj.version)
    let metadata ← Prog.ofExcept (metadataFromMap obj.metadata)
    let newContent := appendContent content line
    let data ← Prog.ofExcept (encodeUtf8 newContent)
    Prog.raiseIf (s.maxFileBytes < data.length)
      (.oversizeWriteError path data.length s.maxFileBytes)
    let now ← ask .clock
    let stamped ← Prog.ofExcept (mergeMetadata metadata source aliases newDescription now)
    let metaMap ← Prog.ofExcept (metadataToMap stamped)
    match ← Prog.attempt (s.putIfVersion path data metaMap (some expectedVersion)) with
    | .ok version => return ⟨path, newContent, stamped, version⟩
    | .error (.preconditionFailedError _) =>
      match ← storageGet path with
      | none => .raise (.notFoundError path .fileAbsent)
      | some cur =>
        if cur.data = data ∧ cur.metadata = metaMap then
          return ⟨path, newContent, stamped, cur.version⟩
        else
          let content ← Prog.ofExcept (decodeUtf8 cur.data)
          .raise (.versionConflictError path content cur.version)
    | .error e => .raise e

/-- `delete_file`. -/
def deleteFile (path expectedVersion : Str) : Store Unit := do
  Prog.raiseIf (isValidPath path = false) (.notFoundError path .invalidPath)
  match ← storageGet path with
  | none => .raise (.notFoundError path .fileAbsent)
  | some obj =>
    if obj.version ≠ expectedVersion then
      let content ← Prog.ofExcept (decodeUtf8 obj.data)
      .raise (.versionConflictError path content obj.version)
    else
      match ← Prog.attempt (s.deleteIfVersion path expectedVersion) with
      | .ok () => return ()
      | .error (.preconditionFailedError _) =>
        match ← storageGet path with
        | none => .raise (.notFoundError path .fileAbsent)
        | some cur =>
          let content ← Prog.ofExcept (decodeUtf8 cur.data)
          .raise (.versionConflictError path content cur.version)
      | .error e => .raise e

end MemoryStore

end Wenchang
