import Wenchang.FileFormat
import Wenchang.Paths
import Wenchang.Py.Base64

/-!
# The pure parts of the core

What `core.py` computes without touching storage: list cursors, the occurrence count and the merge of
metadata that the mutators use, the size of an index entry, and the codec of cached listings. Each
function raises where the source does; a failing decode of a cached listing is a miss, never an
error.
-/

namespace Wenchang

open Py Ordered

/-- A memory file's content, metadata, path, and version, as read from storage. -/
structure MemoryFile where
  path : Str
  content : Str
  metadata : FileMetadata
  version : Str
  deriving DecidableEq

/-- One file's path, metadata, and version, as returned by `list_prefix`. -/
structure FileEntry where
  path : Str
  metadata : FileMetadata
  version : Str
  deriving DecidableEq

/-- One page of `list_prefix` results, with a cursor for the next page. -/
structure ListPage where
  entries : List FileEntry
  nextCursor : Option Str
  deriving DecidableEq

/-! ## Occurrences -/

/-- The loop of `_count_occurrences`. Every match moves `index` on, so `fuel` past the length of the
content is never used up. -/
def countLoop (content oldString : Str) : Nat → Nat → Nat → Nat
  | 0, count, _ => count
  | fuel + 1, count, index =>
    match findFrom content oldString index with
    | none => count
    | some found => countLoop content oldString fuel (count + 1) (found + 1)

/-- `_count_occurrences`. -/
def countOccurrences (content oldString : Str) : Nat :=
  countLoop content oldString (content.length + 2) 0 0

/-! ## Metadata -/

/-- `_normalize_description` of a str. -/
def normalizeDescription (description : Str) : Except Exc Str :=
  if (10 : CodePoint) ∈ description ∨ (13 : CodePoint) ∈ description then
    .error (.valueError (str "description must not contain a newline or carriage return"))
  else .ok description

/-- `None if description is None else _normalize_description(description)`. -/
def normalizeOptional : Option Str → Except Exc (Option Str)
  | none => .ok none
  | some description => (normalizeDescription description).map some

/-- Aliases appended in order, each unless already present. -/
def mergeAliases (stored aliases : List Str) : List Str :=
  aliases.foldl (fun merged a => if a ∈ merged then merged else merged ++ [a]) stored

/-- `dataclasses.replace(metadata, ...)` and its `ValueError`. -/
def replaceMetadata (description : Str) (aliases : List Str) (sources : FinSet Str)
    (lastUpdated : DateTime) : Except Exc FileMetadata :=
  (FileMetadata.make description aliases sources lastUpdated).mapError .valueError

/-- `_merge_metadata`. -/
def mergeMetadata (stored : FileMetadata) (source : Str) (aliases : Option (List Str))
    (description : Option Str) (now : DateTime) : Except Exc FileMetadata :=
  replaceMetadata (description.getD stored.description)
    (mergeAliases stored.aliases (aliases.getD [])) (stored.sources.insert source) now

/-- `index_entry_bytes`. -/
def indexEntryBytes (entry : FileEntry) : Except Exc Nat :=
  match metadataToMap entry.metadata with
  | .error .overflowError =>
    .error (.metadataFormatError lastUpdatedKey (str "last-updated cannot be rendered in UTC"))
  | .error e => .error e
  | .ok rendered =>
    .ok ((utf8EncodePass entry.path).length +
      (rendered.entries.map fun kv =>
        (utf8EncodePass kv.1).length + (utf8EncodePass kv.2).length).sum +
      (utf8EncodePass entry.version).length)

/-! ## Cursors -/

/-- `_encode_cursor`. -/
def encodeCursor (key : Str) : Except Exc Str := (encodeUtf8 key).map urlsafeB64encode

section

variable [Interpreter]

/-- `_decode_cursor`. -/
def decodeCursor (cursor pre : Str) : Except Exc Str :=
  let malformed := Exc.valueError (str "Malformed list cursor: " ++ Py.repr cursor)
  match b64decode cursor with
  | none => .error malformed
  | some raw =>
    match utf8Decode raw with
    | .error _ => .error malformed
    | .ok key =>
      if pre.isPrefixOf key then .ok key
      else .error (.valueError (str "Cursor " ++ Py.repr cursor ++
        str " was not issued for prefix " ++ Py.repr pre))

end

/-! ## Cached listings -/

/-- `_TOMBSTONE`. -/
def tombstone : Str := str "\x7b\"tombstone\":true\x7d"

/-- The separators of a cached listing. -/
def comma : Str := str ","
/-- The separators of a cached listing. -/
def colon : Str := str ":"

/-- One entry as `_encode_listing` writes it. -/
def encodeEntry (e : FileEntry) : Str :=
  dumpsObject comma colon
    [(str "path", dumpsStr e.path), (str "version", dumpsStr e.version),
      (str "description", dumpsStr e.metadata.description),
      (str "aliases", dumpsArray comma (e.metadata.aliases.map dumpsStr)),
      (str "sources", dumpsArray comma (e.metadata.sources.toList.map dumpsStr)),
      (str "last_updated", dumpsStr e.metadata.lastUpdated.isoformat)]

/-- `_encode_listing`. -/
def encodeListing (token : Str) (entries : List FileEntry) : Str :=
  dumpsObject comma colon
    [(str "token", dumpsStr token), (str "entries", dumpsArray comma (entries.map encodeEntry))]

/-- `_ENTRY_FIELDS`. -/
def entryFields : List Str :=
  [str "path", str "version", str "description", str "aliases", str "sources", str "last_updated"]

/-- The value of a field that must be a str. -/
def strField (members : List (Str × Json)) (field : Str) : Option Str :=
  match jsonGet members field with
  | some (.str s) => some s
  | _ => none

/-- `_str_list` of a field. -/
def listField (members : List (Str × Json)) (field : Str) : Option (List Str) :=
  match jsonGet members field with
  | some (.arr items) => strItems items
  | _ => none

/-- `_decode_entry`. -/
def decodeEntry (raw : Json) (pre : Str) : Option FileEntry := do
  match raw with
  | .obj members =>
    let keys := members.map (·.1)
    if ¬ ((∀ key ∈ keys, key ∈ entryFields) ∧ ∀ field ∈ entryFields, field ∈ keys) then none
    else
      let path ← strField members (str "path")
      let version ← strField members (str "version")
      let description ← strField members (str "description")
      let lastUpdated ← strField members (str "last_updated")
      let aliases ← listField members (str "aliases")
      let sources ← listField members (str "sources")
      if ¬ (isValidPath path ∧ pre.isPrefixOf path) then none
      else
        let moment ← fromisoformat lastUpdated
        match FileMetadata.make description aliases (FinSet.ofList sources) moment with
        | .ok metadata => some ⟨path, metadata, version⟩
        | .error _ => none
  | _ => none

/-- The entry loop of `_decode_listing`; `paths` are the paths seen so far. -/
def decodeEntries (pre : Str) : List Str → List Json → Option (List FileEntry)
  | _, [] => some []
  | paths, raw :: rest => do
    let entry ← decodeEntry raw pre
    if entry.path ∈ paths then none
    else
      let entries ← decodeEntries pre (entry.path :: paths) rest
      some (entry :: entries)

/-- `_decode_listing`. -/
def decodeListing [Interpreter] (raw token pre : Str) : Option (List FileEntry) :=
  match jsonLoads raw with
  | .ok (.obj top) =>
    if strField top (str "token") ≠ some token then none
    else
      match jsonGet top (str "entries") with
      | some (.arr rawEntries) => decodeEntries pre [] rawEntries
      | _ => none
  | _ => none

/-! ## Cached listings, with their exceptions

The same functions with what the calls in them raise, and with the two `except` clauses that catch it.
-/

namespace Raising

/-- `fields[name]`. -/
def subscript (fields : List (Str × Json)) (name : Str) : Except Exc Json :=
  match jsonGet fields name with
  | some value => .ok value
  | none => .error (.foreign (str "KeyError"))

/-- `_str_list`. -/
def strList : Json → Option (List Str)
  | .arr items => strItems items
  | _ => none

/-- `try: ... except ...: return None`, for the exceptions that are caught. -/
def orNone {α : Type} (caught : Exc → Bool) : Except Exc α → Except Exc (Option α)
  | .ok a => .ok (some a)
  | .error e => if caught e then .ok none else .error e

variable [Interpreter]

/-- `json.loads(raw)`. -/
def loads (raw : Str) : Except Exc Json :=
  match jsonLoads raw with
  | .ok value => .ok value
  | .error .tooDeep => .error .recursionError
  | .error _ => .error (.valueError (Interpreter.jsonErrorText raw))

/-- `datetime.fromisoformat(text)`. -/
def fromisoformat (text : Str) : Except Exc DateTime :=
  match Py.fromisoformat text with
  | some moment => .ok moment
  | none => .error (.valueError (Interpreter.isoformatErrorText text))

/-- `FileMetadata(...)` as `_decode_entry` calls it. -/
def metadata (description lastUpdated : Str) (aliases sources : List Str) : Except Exc FileMetadata := do
  let moment ← fromisoformat lastUpdated
  (FileMetadata.make description aliases (FinSet.ofList sources) moment).mapError .valueError

/-- `_decode_entry`. -/
def decodeEntry (raw : Json) (pre : Str) : Except Exc (Option FileEntry) := do
  match raw with
  | .obj fields =>
    let keys := fields.map (·.1)
    if ¬ ((∀ key ∈ keys, key ∈ entryFields) ∧ ∀ field ∈ entryFields, field ∈ keys) then .ok none
    else
      let path ← subscript fields (str "path")
      let version ← subscript fields (str "version")
      let description ← subscript fields (str "description")
      let lastUpdated ← subscript fields (str "last_updated")
      let aliases ← subscript fields (str "aliases")
      let sources ← subscript fields (str "sources")
      match path, version, description, lastUpdated, strList aliases, strList sources with
      | .str path, .str version, .str description, .str lastUpdated, some aliases, some sources =>
        if ¬ (isValidPath path ∧ pre.isPrefixOf path) then .ok none
        else
          let built ← orNone Exc.isValueError (metadata description lastUpdated aliases sources)
          .ok (built.map fun metadata => ⟨path, metadata, version⟩)
      | _, _, _, _, _, _ => .ok none
  | _ => .ok none

/-- The entry loop of `_decode_listing`. -/
def decodeEntries (pre : Str) : List Str → List Json → Except Exc (Option (List FileEntry))
  | _, [] => .ok (some [])
  | paths, raw :: rest => do
    match ← decodeEntry raw pre with
    | none => .ok none
    | some entry =>
      if entry.path ∈ paths then .ok none
      else
        let entries ← decodeEntries pre (entry.path :: paths) rest
        .ok (entries.map (entry :: ·))

/-- `_decode_listing`. -/
def decodeListing (raw token pre : Str) : Except Exc (Option (List FileEntry)) := do
  match ← orNone (fun e => e.isValueError || e = .recursionError) (loads raw) with
  | some (.obj top) =>
    if strField top (str "token") ≠ some token then .ok none
    else
      match jsonGet top (str "entries") with
      | some (.arr rawEntries) => decodeEntries pre [] rawEntries
      | _ => .ok none
  | _ => .ok none

end Raising

/-! ## The memory index -/

/-- A prefix the memory index could not return in full. -/
structure CappedPrefix where
  pre : Str
  omitted : Nat
  valid : isValidPrefix pre = true
  positive : 0 < omitted
  deriving DecidableEq

/-- `CappedPrefix(prefix, omitted)`. -/
def CappedPrefix.make [Interpreter] (pre : Str) (omitted : Nat) : Except Exc CappedPrefix :=
  if h : isValidPrefix pre = true then
    if h' : 0 < omitted then .ok ⟨pre, omitted, h, h'⟩
    else .error (.valueError (str "omitted must be positive, got " ++ Py.ofNat omitted))
  else .error (.valueError (str "invalid prefix: " ++ Py.repr pre))

/-- Merged metadata across every scope in a scope map, in load order. -/
structure MemoryIndex where
  entries : List FileEntry
  capped : List CappedPrefix
  distinct_paths : (entries.map (·.path)).Nodup
  distinct_prefixes : (capped.map (·.pre)).Nodup
  deriving DecidableEq

/-- The first member of a list that repeats an earlier one. -/
def firstRepeat : List Str → List Str → Option Str
  | _, [] => none
  | seen, a :: rest => if a ∈ seen then some a else firstRepeat (a :: seen) rest

/-- `MemoryIndex(entries, capped)`. -/
def MemoryIndex.make [Interpreter] (entries : List FileEntry) (capped : List CappedPrefix) :
    Except Exc MemoryIndex :=
  if h : (entries.map (·.path)).Nodup then
    if h' : (capped.map (·.pre)).Nodup then .ok ⟨entries, capped, h, h'⟩
    else
      .error (.valueError (str "duplicate capped prefix: " ++
        Py.repr ((firstRepeat [] (capped.map (·.pre))).getD [])))
  else
    .error (.valueError (str "duplicate entry path: " ++
      Py.repr ((firstRepeat [] (entries.map (·.path))).getD [])))

end Wenchang
