import Wenchang.Core.MemoryStore

/-!
# `get_memory_index`

The index collects each mapped entity's entries, from a drain or from the cache, and merges them:
`mergeIndex` is the pure part, everything after the last interaction. It orders the entries by
`IndexKey`, cuts them at the byte budget, and counts what is left out by area.
-/

namespace Wenchang

open Py Ordered Interaction

/-- A list comprehension whose body may raise: the first exception wins. -/
def forEach {ε α β : Type} (f : α → Except ε β) : List α → Except ε (List β)
  | [] => .ok []
  | a :: rest => do
    let b ← f a
    let bs ← forEach f rest
    .ok (b :: bs)

/-- What the index sorts by: the system area first, then the scope's rank, then the negated
microseconds of last-updated, then the path. -/
abbrev IndexKey := Nat ×ₗ Nat ×ₗ Int ×ₗ Str

/-- `parse_path` of a collected entry. -/
def partsOf [Interpreter] (entry : FileEntry) : Except Exc PathParts :=
  (parsePath entry.path).mapError .valueError

/-- `build_prefix(parts.scope, parts.entity_id, parts.area)`. -/
def areaPrefix [Interpreter] (parts : PathParts) : Except Exc Str :=
  (buildPrefix parts.scope (some parts.entityId) (some parts.area)).mapError .valueError

/-- The byte budget: entries are taken in order until the next one would exceed it. -/
def takeBudget (budget : Nat) : Nat → List (FileEntry × Nat) → List FileEntry
  | _, [] => []
  | total, (entry, size) :: rest =>
    if budget < total + size then [] else entry :: takeBudget budget (total + size) rest

/-- `counts[area_prefix] = counts.get(area_prefix, 0) + 1`, over the entries left out. -/
def countAreas [Interpreter] : List FileEntry → FinMap Str Nat → Except Exc (FinMap Str Nat)
  | [], counts => .ok counts
  | entry :: rest, counts => do
    let parts ← partsOf entry
    let area ← areaPrefix parts
    countAreas rest (counts.insert area ((counts.get? area).getD 0 + 1))

/-- The checks of a scope map's pairs, in sorted order. -/
def checkPairs [Interpreter] : List Str → List (Str × Str) → Except Exc Unit
  | _, [] => .ok ()
  | seen, (scope, entityId) :: rest =>
    if isValidSegment scope = false then
      .error (.valueError (str "invalid scope: " ++ Py.repr scope))
    else if isValidSegment entityId = false then
      .error (.valueError (str "invalid entity_id: " ++ Py.repr entityId))
    else if scope ∈ seen then
      .error (.valueError (str "duplicate scope: " ++ Py.repr scope))
    else checkPairs (scope :: seen) rest

/-- `sorted(normalized)`: the pairs of a scope map, by scope and then by entity. -/
def sortedPairs (scopeMap : List (Str × Str)) : List (Str × Str) :=
  scopeMap.insertionSort fun a b => a.1 < b.1 ∨ (a.1 = b.1 ∧ a.2 ≤ b.2)

namespace MemoryStore

variable [Interpreter] (s : MemoryStore)

/-- A scope's place in the configured priority; unlisted scopes rank last, as one tier. -/
def scopeRank (scope : Str) : Nat := s.scopePriority.idxOf scope

/-- The key of an entry, once its path is parsed. -/
def keyOf (parts : PathParts) (entry : FileEntry) : IndexKey :=
  let micros := entry.metadata.lastUpdated.epochMicros
  if parts.area = indexSystemArea then toLex (0, toLex (0, toLex (-micros, entry.path)))
  else toLex (1, toLex (s.scopeRank parts.scope, toLex (-micros, entry.path)))

/-- `sort_key`. -/
def sortKey (entry : FileEntry) : Except Exc IndexKey := do
  let parts ← partsOf entry
  .ok (s.keyOf parts entry)

/-- Everything `get_memory_index` does after it has collected the entries. -/
def mergeIndex (collected : List FileEntry) : Except Exc MemoryIndex := do
  let keyed ← forEach (fun entry => (s.sortKey entry).map (·, entry)) collected
  let ordered := (keyed.insertionSort fun a b => a.1 ≤ b.1).map (·.2)
  let sized ← forEach (fun entry => (indexEntryBytes entry).map (entry, ·)) ordered
  let included := takeBudget s.indexMaxBytes 0 sized
  let counts ← countAreas (ordered.drop included.length) .empty
  let capped ← forEach (fun pn => CappedPrefix.make pn.1 pn.2) counts.entries
  MemoryIndex.make included capped

/-- The collection loop of `get_memory_index`. -/
def collect (fuel : Nat) : List (Str × Str) → Store (List FileEntry)
  | [] => return []
  | (scope, entityId) :: rest => do
    let entries ← match s.indexCache with
      | none => do
        let pre ← orValueError (buildPrefix scope (some entityId) none)
        s.drain pre fuel none
      | some cache => s.cachedEntityEntries fuel cache scope entityId
    let collected ← collect fuel rest
    return entries ++ collected

/-- `get_memory_index`. An empty scope map gives the empty index, which is what merging nothing
gives. -/
def getMemoryIndex (fuel : Nat) (scopeMap : List (Str × Str)) : Store MemoryIndex := do
  let pairs := sortedPairs scopeMap
  Prog.ofExcept (checkPairs [] pairs)
  let collected ← s.collect fuel pairs
  Prog.ofExcept (s.mergeIndex collected)

/-! ## Purge -/

/-- The inner loop of a pass: the number of deletes that storage confirmed. -/
def purgePage : List ListedObject → Nat → Store Nat
  | [], deleted => return deleted
  | obj :: rest, deleted => do
    match ← ask (.storage (.deleteIfVersion obj.key obj.version)) with
    | .ok () => purgePage rest (deleted + 1)
    | .error (.preconditionFailedError _) => purgePage rest deleted
    | .error e => .raise e

/-- One pass over the prefix: whether it found an object, and the deletes so far. -/
def purgePass (pre : Str) : Nat → Option Str → Bool → Nat → Store (Bool × Nat)
  | 0, _, _, _ => .hang
  | fuel + 1, startAfter, found, deleted => do
    let page ← storageListPage pre startAfter s.listPageSize
    let deleted ← purgePage page deleted
    let found := found || !page.isEmpty
    if page.length < s.listPageSize then return (found, deleted)
    else purgePass pre fuel (page.getLast?.map (·.key)) found deleted

/-- `_purge_passes`, with `passes` left. -/
def purgePasses (fuel : Nat) (pre scope entityId : Str) (maxPasses : Nat) : Nat → Nat → Store Nat
  | 0, deleted => do
    let left ← storageListPage pre none 1
    if left.isEmpty then return deleted
    else .raise (.purgeIncompleteError scope entityId maxPasses)
  | passes + 1, deleted => do
    let pass ← s.purgePass pre fuel none false deleted
    if pass.1 = false then return pass.2
    else purgePasses fuel pre scope entityId maxPasses passes pass.2

/-- `purge`. -/
def purge (fuel : Nat) (scope entityId : Str) (maxPasses : Int) : Store Nat := do
  Prog.ofExcept (checkEntitySegments scope entityId)
  Prog.raiseIf (maxPasses < 1) (.valueError (str "max_passes must be positive"))
  let pre ← orValueError (buildPrefix scope (some entityId) none)
  match ← Prog.attempt
      (s.purgePasses fuel pre scope entityId maxPasses.toNat maxPasses.toNat 0) with
  | .error e =>
    -- A cache error is logged; the purge's exception is raised.
    let _ ← (Prog.attempt (s.invalidateIndex scope entityId) : Store (Except Exc Unit))
    .raise e
  | .ok deleted =>
    s.invalidateIndex scope entityId
    return deleted

end MemoryStore

/-! ## Calls -/

/-- A call of one of the four methods that change files. -/
inductive Mutator where
  | writeFile (path content : Str) (metadata : FileMetadata) (expectedVersion : Option Str)
      (source : Str)
  | replaceFact (path oldString newString expectedVersion source : Str)
      (aliases : Option (List Str)) (description : Option Str)
  | appendLine (path line expectedVersion source : Str) (aliases : Option (List Str))
      (description : Option Str)
  | deleteFile (path expectedVersion : Str)
  deriving DecidableEq

/-- The path a mutator is called with. -/
def Mutator.path : Mutator → Str
  | .writeFile path _ _ _ _ => path
  | .replaceFact path _ _ _ _ _ _ => path
  | .appendLine path _ _ _ _ _ => path
  | .deleteFile path _ => path

/-- The program of a mutator: it returns the file it wrote, `none` for a delete. -/
def Mutator.body [Interpreter] (s : MemoryStore) (fuel : Nat) : Mutator → Store (Option MemoryFile)
  | .writeFile path content metadata expectedVersion source =>
    return some (← s.writeFile fuel path content metadata expectedVersion source)
  | .replaceFact path oldString newString expectedVersion source aliases description =>
    return some (← s.replaceFact path oldString newString expectedVersion source aliases description)
  | .appendLine path line expectedVersion source aliases description =>
    return some (← s.appendLine path line expectedVersion source aliases description)
  | .deleteFile path expectedVersion => do
    s.deleteFile path expectedVersion
    return none

/-- A call of any method. -/
inductive StoreCall where
  | mutate (m : Mutator)
  | readFile (path : Str)
  | listPrefix (pre : Str) (cursor : Option Str)
  | getMemoryIndex (scopeMap : List (Str × Str))
  | purge (scope entityId : Str) (maxPasses : Int)
  | invalidateIndex (scope entityId : Str)
  deriving DecidableEq

/-- What a call returns. -/
inductive StoreResult where
  | file (file : Option MemoryFile)
  | page (page : ListPage)
  | index (index : MemoryIndex)
  | count (deleted : Nat)
  | none
  deriving DecidableEq

/-- The program of a call. -/
def StoreCall.body [Interpreter] (s : MemoryStore) (fuel : Nat) : StoreCall → Store StoreResult
  | .mutate m => return .file (← m.body s fuel)
  | .readFile path => return .file (some (← MemoryStore.readFile path))
  | .listPrefix pre cursor => return .page (← s.listPrefix pre cursor)
  | .getMemoryIndex scopeMap => return .index (← s.getMemoryIndex fuel scopeMap)
  | .purge scope entityId maxPasses => return .count (← s.purge fuel scope entityId maxPasses)
  | .invalidateIndex scope entityId => do
    s.invalidateIndex scope entityId
    return .none

/-- A call as it is made: on which store, with how much fuel for its loops. -/
structure Invocation (κ : Type) where
  store : MemoryStore
  fuel : Nat
  call : κ

/-- The program of an invoked mutator. -/
def Invocation.mutate [Interpreter] (i : Invocation Mutator) : Store (Option MemoryFile) :=
  i.call.body i.store i.fuel

/-- The program of an invoked call. -/
def Invocation.body [Interpreter] (i : Invocation StoreCall) : Store StoreResult :=
  i.call.body i.store i.fuel

end Wenchang
