import Wenchang.Py.JsonSchema
import Wenchang.Tools.MemoryTools

/-!
# Rendering

What a host shows the agent: `renderResult` of what a tool returned, `renderError` of what it raised. A
field that has no JSON form is left out, which a value of a declared type never has, but for a timestamp
whose moment in UTC lies outside the years of `datetime`.

A call may also fail before there are tools, when no identity can be resolved: a `Failure` is an exception
of the library or that one.
-/

namespace Wenchang

open Py Ordered

/-- What a call fails with. -/
inductive Failure where
  | exc (e : Exc)
  | resolverFailureError (detail : Str)
  deriving DecidableEq

/-- The detail of a `ResolverFailureError`. -/
def resolverFailureDetail (detail : Str) : Str :=
  (if sentence detail = [] then [] else sentence detail ++ str " ") ++
    str ("Identity could not be resolved; memory is unavailable for " ++
      "this session; continue working without memory.")

/-- `type(exc).__name__`. -/
def Failure.typeName : Failure → Str
  | .resolverFailureError _ => str "ResolverFailureError"
  | .exc e =>
    match e with
    | .valueError _ => str "ValueError"
    | .typeError _ => str "TypeError"
    | .overflowError => str "OverflowError"
    | .recursionError => str "RecursionError"
    | .unicodeEncodeError _ => str "UnicodeEncodeError"
    | .unicodeDecodeError _ => str "UnicodeDecodeError"
    | .metadataFormatError _ _ => str "MetadataFormatError"
    | .preconditionFailedError _ => str "PreconditionFailedError"
    | .invalidStorageKeyError _ => str "InvalidStorageKeyError"
    | .versionConflictError _ _ _ => str "VersionConflictError"
    | .oversizeWriteError _ _ _ => str "OversizeWriteError"
    | .fileQuotaExceededError _ _ => str "FileQuotaExceededError"
    | .replaceFactMatchError _ _ _ _ => str "ReplaceFactMatchError"
    | .invalidArgumentError _ _ => str "InvalidArgumentError"
    | .notFoundError _ _ => str "NotFoundError"
    | .restrictedScopeError _ _ _ _ => str "RestrictedScopeError"
    | .backendUnavailableError _ _ => str "BackendUnavailableError"
    | .purgeIncompleteError _ _ _ => str "PurgeIncompleteError"
    | .foreign typeName => typeName

/-- `_ERROR_FIELDS`. -/
def errorFields : List Str :=
  [str "content", str "version", str "size", str "limit", str "match_count", str "reason", str "scope",
    str "required_roles", str "argument"]

/-- The attributes of an error of the taxonomy that are not None, each as `_json_value` renders it. -/
def Exc.attributes : Exc → List (Str × JsonValue)
  | .versionConflictError path content version =>
    [(str "path", .str path), (str "content", .str content), (str "version", .str version)]
  | .oversizeWriteError path size limit =>
    [(str "path", .str path), (str "size", .int size), (str "limit", .int limit)]
  | .fileQuotaExceededError path limit => [(str "path", .str path), (str "limit", .int limit)]
  | .replaceFactMatchError path content version matchCount =>
    [(str "path", .str path), (str "content", .str content), (str "version", .str version),
      (str "match_count", .int matchCount)]
  | .invalidArgumentError argument _ => [(str "argument", .str argument)]
  | .notFoundError path reason => [(str "path", .str path), (str "reason", .str reason.value)]
  | .restrictedScopeError path scope reason none =>
    [(str "path", .str path), (str "scope", .str scope), (str "reason", .str reason.value)]
  | .restrictedScopeError path scope reason (some roles) =>
    [(str "path", .str path), (str "scope", .str scope), (str "reason", .str reason.value),
      (str "required_roles", .strs roles.toList)]
  | .backendUnavailableError reason _ => [(str "reason", .str reason.value)]
  | _ => []

/-- The attributes of a failure. -/
def Failure.attributes : Failure → List (Str × JsonValue)
  | .exc e => e.attributes
  | .resolverFailureError _ => []

/-- `_timestamp_or_drop`. -/
def timestampOrDrop (moment : DateTime) : Option Str :=
  if moment.utcoffset.isNone then none
  else moment.astimezoneUTC.map fun utc => replaceAll utc.isoformat (str "+00:00") (str "Z")

/-- `_capped_fields`. -/
def cappedFields (cap : CappedPrefix) : List (Str × JsonValue) :=
  let segments := (cap.pre.rdropWhile (· == slash)).splitOn slash
  [(str "scope", .str (segments.headD [])), (str "area", .strOrNull segments[2]?),
    (str "omitted", .int cap.omitted)]

section

variable [Interpreter]

/-- The first three items of a file: where it is, or nulls for a key that is no path. -/
def locationFields (path : Str) : List (Str × JsonValue) :=
  match parsePath path with
  | .ok parts => [(str "scope", .str parts.scope), (str "area", .str parts.area), (str "name", .str parts.name)]
  | .error _ => [(str "scope", .null), (str "area", .null), (str "name", .null)]

/-- `_file_fields`. -/
def fileFields (path : Str) (content : Option Str) (version : Str) (metadata : FileMetadata) :
    List (Str × JsonValue) :=
  let fields := locationFields path
  let fields := match content with
    | some content => setItem fields (str "content") (.str content)
    | none => fields
  let fields := setItem fields (str "version") (.str version)
  let fields := setItem fields (str "description") (.str metadata.description)
  let fields := setItem fields (str "aliases") (.strs metadata.aliases)
  let fields := setItem fields (str "sources") (.strs metadata.sources.toList)
  match timestampOrDrop metadata.lastUpdated with
  | some timestamp => setItem fields (str "last_updated") (.str timestamp)
  | none => fields

/-- `_file_fields` of an entry. -/
def entryFieldsOf (entry : FileEntry) : JsonValue :=
  .obj (fileFields entry.path none entry.version entry.metadata)

/-- `render_result`. -/
def renderResult : ToolResult → List (Str × JsonValue)
  | .none => [(str "ok", .bool true)]
  | .file file => fileFields file.path (some file.content) file.version file.metadata
  | .page page =>
    [(str "entries", .arr (page.entries.map entryFieldsOf)), (str "next_cursor", .strOrNull page.nextCursor)]
  | .index index =>
    [(str "entries", .arr (index.entries.map entryFieldsOf)),
      (str "capped", .arr (index.capped.map fun cap => .obj (cappedFields cap)))]

/-- The category and the message of a failure that is a `WenchangError`. -/
def Failure.wenchang? : Failure → Option (ErrorCategory × Str)
  | .exc e => e.wenchang?
  | .resolverFailureError detail =>
    some (.permanent, wenchangMessage .permanent (resolverFailureDetail detail))

/-- `_add_location`. -/
def addLocation (f : Failure) (out : List (Str × JsonValue)) : List (Str × JsonValue) :=
  match f.attributes.lookup (str "path") with
  | some (.str path) =>
    match parsePath path with
    | .error _ => out
    | .ok parts =>
      setItem (setItem (setItem out (str "scope") (.str parts.scope)) (str "area") (.str parts.area))
        (str "name") (.str parts.name)
  | _ => out

/-- One round of the loop of `_wenchang_error_fields`. -/
def addField (f : Failure) (out : List (Str × JsonValue)) (key : Str) : List (Str × JsonValue) :=
  match f.attributes.lookup key with
  | none => out
  | some value => setItem out key value

/-- The first three items of an error. -/
def errorHead (name category message : Str) : List (Str × JsonValue) :=
  [(str "error", .str name), (str "category", .str category), (str "message", .str message)]

/-- `render_error`. -/
def renderError (f : Failure) : List (Str × JsonValue) :=
  match f with
  | .exc (.metadataFormatError key detail) =>
    errorHead f.typeName (str "internal") (Exc.metadataFormatError key detail).valueErrorText
  | .exc (.unicodeDecodeError error) =>
    errorHead f.typeName (str "internal") (Exc.unicodeDecodeError error).valueErrorText
  | _ =>
    match f.wenchang? with
    | none => errorHead f.typeName (str "internal") (str "internal error")
    | some (category, message) =>
      errorFields.foldl (addField f) (addLocation f (errorHead f.typeName category.value message))

end

end Wenchang
