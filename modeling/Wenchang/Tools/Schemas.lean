import Wenchang.Tools.Rendering

/-!
# The schemas of the tools

The shapes that `schemas.py` declares for what the tools show: an output schema for each tool, chosen by
what the tool returns, and one schema for errors.
-/

namespace Wenchang

open Py Ordered

/-- `_NULLABLE_STRING`. -/
def nullableString : Schema := .anyOf [.string, .null]

/-- `_STRING_ARRAY`. -/
def stringArray : Schema := .array .string

/-- `_COUNT`. -/
def countSchema : Schema := .integer 0

/-- A closed object of which every property is required. -/
def closedObject (properties : List (Str × Schema)) : Schema := .object properties (properties.map (·.1))

/-- `_ENTRY_FIELDS`. -/
def entryProperties : List (Str × Schema) :=
  [(str "scope", nullableString), (str "area", nullableString), (str "name", nullableString),
    (str "version", .string), (str "description", .string), (str "aliases", stringArray),
    (str "sources", stringArray), (str "last_updated", .dateTime)]

/-- `_ENTRY`. -/
def entrySchema : Schema := closedObject entryProperties

/-- `_FILE_FIELDS`. -/
def fileProperties : List (Str × Schema) :=
  [(str "scope", nullableString), (str "area", nullableString), (str "name", nullableString),
    (str "content", .string), (str "version", .string), (str "description", .string),
    (str "aliases", stringArray), (str "sources", stringArray), (str "last_updated", .dateTime)]

/-- `_FILE`. -/
def fileSchema : Schema := closedObject fileProperties

/-- `_PAGE`. -/
def pageSchema : Schema :=
  closedObject [(str "entries", .array entrySchema), (str "next_cursor", nullableString)]

/-- `_CAPPED_ROW`. -/
def cappedRow : Schema :=
  closedObject [(str "scope", .string), (str "area", nullableString), (str "omitted", .integer 1)]

/-- `_INDEX`. -/
def indexSchema : Schema :=
  closedObject [(str "entries", .array entrySchema), (str "capped", .array cappedRow)]

/-- `_OK`. -/
def okSchema : Schema := closedObject [(str "ok", .const true)]

/-- `[c.value for c in ErrorCategory] + ["internal"]`. -/
def categoryValues : List Str :=
  [ErrorCategory.recoverable.value, ErrorCategory.permanent.value, ErrorCategory.transient.value, str "internal"]

/-- The values of `NotFoundReason`, `RestrictionReason` and `TransientReason`. -/
def reasonValues : List Str :=
  [NotFoundReason.invalidPath.value, NotFoundReason.fileAbsent.value, RestrictionReason.systemReadOnly.value,
    RestrictionReason.roleRequired.value, RestrictionReason.notGranted.value, TransientReason.timeout.value,
    TransientReason.unavailable.value]

/-- The properties of `_ERROR`. -/
def errorProperties : List (Str × Schema) :=
  [(str "error", .string), (str "category", .enum categoryValues), (str "message", .string),
    (str "scope", .string), (str "area", .string), (str "name", .string), (str "content", .string),
    (str "version", .string), (str "size", countSchema), (str "limit", countSchema),
    (str "match_count", countSchema), (str "reason", .enum reasonValues), (str "required_roles", stringArray),
    (str "argument", .string)]

/-- `_ERROR`. -/
def errorSchema : Schema := .object errorProperties [str "error", str "category", str "message"]

/-- `_OUTPUTS`, by what a tool returned. -/
def ToolResult.schema : ToolResult → Schema
  | .file _ => fileSchema
  | .page _ => pageSchema
  | .index _ => indexSchema
  | .none => okSchema

/-- `_output_schema`, by what a tool's return annotation says. -/
def ToolCall.outputSchema : ToolCall → Schema
  | .getMemoryIndex => indexSchema
  | .readFile _ _ _ => fileSchema
  | .listPrefix _ _ _ => pageSchema
  | .mutate w =>
    match w with
    | .writeFile _ _ _ _ _ _ _ => fileSchema
    | .appendLine _ _ _ _ _ _ _ => fileSchema
    | .replaceFact _ _ _ _ _ _ _ _ => fileSchema
    | .deleteFile _ _ _ _ => okSchema

end Wenchang
