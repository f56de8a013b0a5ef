import Wenchang.Exc
import Wenchang.Paths

/-!
# Messages

`str(exc)` of the exceptions a tool shows: for the taxonomy of `errors.py` a detail, ended as a sentence,
and the fixed guidance of its category; for the `ValueError`s their own text.
-/

namespace Wenchang

open Py Ordered

/-- The three ways a wenchang operation can fail. -/
inductive ErrorCategory where
  | recoverable
  | permanent
  | transient
  deriving DecidableEq

/-- The category as written. -/
def ErrorCategory.value : ErrorCategory → Str
  | .recoverable => str "recoverable"
  | .permanent => str "permanent"
  | .transient => str "transient"

/-- The guidance of a category. -/
def ErrorCategory.guidance : ErrorCategory → Str
  | .recoverable => str ("This is normal coordination, not an error the user needs to know about. " ++
      "Use the details above to correct the call and retry in the same turn, " ++
      "without asking the user.")
  | .permanent => str "Do not retry: retrying will not succeed."
  | .transient => str ("Retrying is appropriate. Version-guarded calls are safe to retry because " ++
      "an attempt that already landed comes back as a version conflict on retry. " ++
      "A retried append_line may duplicate a line, which can be removed by " ++
      "ordinary editing.")

/-- The reason as written. -/
def NotFoundReason.value : NotFoundReason → Str
  | .invalidPath => str "invalid_path"
  | .fileAbsent => str "file_absent"

/-- The reason as written. -/
def RestrictionReason.value : RestrictionReason → Str
  | .systemReadOnly => str "system_read_only"
  | .roleRequired => str "role_required"
  | .notGranted => str "not_granted"

/-- The reason as written. -/
def TransientReason.value : TransientReason → Str
  | .timeout => str "timeout"
  | .unavailable => str "unavailable"

/-- `_sentence`. -/
def sentence (text : Str) : Str :=
  let text := rstrip text
  match text.getLast? with
  | none => []
  | some last => if last ∈ str ".!?" then text else text ++ str "."

/-- `WenchangError.message`. -/
def wenchangMessage (category : ErrorCategory) (detail : Str) : Str :=
  if sentence detail = [] then category.guidance
  else sentence detail ++ str " " ++ category.guidance

/-- The detail of an `InvalidArgumentError`. -/
def invalidArgumentDetail (argument detail : Str) : Str :=
  if sentence detail = [] then str "Argument " ++ argument ++ str " is invalid"
  else str "Argument " ++ argument ++ str " is invalid: " ++ detail

/-- The detail of a `BackendUnavailableError`. -/
def backendUnavailableDetail (reason : TransientReason) (detail : Str) : Str :=
  let lead := if sentence detail = [] then [] else sentence detail ++ str " "
  match reason with
  | .timeout => lead ++ str "The storage backend timed out."
  | .unavailable => lead ++ str "The storage backend is unavailable."

section

variable [Interpreter]

/-- `_location`. -/
def location (path : Str) : Option Str :=
  match parsePath path with
  | .error _ => none
  | .ok parts => some (str "scope " ++ parts.scope ++ str ", area " ++ parts.area ++ str ", name " ++ parts.name)

/-- `_location(path) or text`. -/
def locationOr (path text : Str) : Str := (location path).getD text

/-- The detail of a `VersionConflictError`. -/
def versionConflictDetail (path : Str) : Str :=
  (match location path with
    | some loc => str "The file at " ++ loc
    | none => str "The file") ++
  str (" changed since it was read; the current content " ++
    "and version are attached; merge your change into the current content " ++
    "and retry with the current version.")

/-- The detail of an `OversizeWriteError`. -/
def oversizeWriteDetail (path : Str) (size limit : Nat) : Str :=
  str "The write to " ++ locationOr path (str "the file") ++ str " is " ++ Py.ofNat size ++ str " bytes, " ++
    str "over the " ++ Py.ofNat limit ++ str "-byte limit; " ++ str "split the content across multiple files."

/-- The detail of a `FileQuotaExceededError`. -/
def fileQuotaDetail (path : Str) (limit : Nat) : Str :=
  let advice := str "is at its limit of " ++ Py.ofNat limit ++ str (" files (system/ files not counted). " ++
    "Add this content to an existing file instead (append_line, replace_fact, " ++
    "or write_file with that file's version), or merge related files into one " ++
    "and delete the merged ones with delete_file, then retry.")
  match parsePath path with
  | .error _ => str "Cannot create a new file: memory for this entity " ++ advice
  | .ok parts =>
    str "Cannot create a new file at " ++ locationOr path [] ++ str ": memory in scope " ++ parts.scope ++
      str " " ++ advice

/-- The detail of a `ReplaceFactMatchError`. -/
def replaceFactMatchDetail (path : Str) (matchCount : Nat) : Str :=
  let lead := str "old_string matched " ++ Py.ofNat matchCount ++ str " spans in " ++
    locationOr path (str "the file")
  if matchCount = 0 then
    lead ++ str ("; widen or correct " ++ "old_string using the attached current content so it matches.")
  else
    lead ++ str ("; narrow old_string " ++ "(include surrounding text) so it matches exactly one span.")

/-- The detail of a `NotFoundError`. -/
def notFoundDetail (path : Str) : NotFoundReason → Str
  | .invalidPath => str "That is not a valid memory location; correct the scope, area, and name."
  | .fileAbsent =>
    str "No file exists at " ++ locationOr path (str "the file") ++ str " yet; you may create it."

/-- The detail of a `RestrictedScopeError`. -/
def restrictedScopeDetail (path scope : Str) (reason : RestrictionReason)
    (requiredRoles : Option (FinSet Str)) : Str :=
  let lead := str "The file at " ++ locationOr path (str "scope " ++ scope) ++ str " cannot be written: "
  match reason with
  | .systemReadOnly =>
    lead ++ str "the system/ area of scope " ++ scope ++ str " is " ++ str "read-only (curated content)."
  | .notGranted =>
    lead ++ str "the caller's identity does not include " ++ str "this entity in scope " ++ scope ++ str "."
  | .roleRequired =>
    lead ++ str "scope " ++ scope ++ str " is role-gated and " ++ str "the caller lacks a permitted role (" ++
      join (str ", ") ((requiredRoles.getD .empty).toList) ++ str ")."

/-- The category and the message of an error of the taxonomy. -/
def Exc.wenchang? : Exc → Option (ErrorCategory × Str)
  | .versionConflictError path _ _ => recoverable (versionConflictDetail path)
  | .oversizeWriteError path size limit => recoverable (oversizeWriteDetail path size limit)
  | .fileQuotaExceededError path limit => recoverable (fileQuotaDetail path limit)
  | .replaceFactMatchError path _ _ matchCount => recoverable (replaceFactMatchDetail path matchCount)
  | .invalidArgumentError argument detail => recoverable (invalidArgumentDetail argument detail)
  | .notFoundError path reason => recoverable (notFoundDetail path reason)
  | .restrictedScopeError path scope reason requiredRoles =>
    some (.permanent, wenchangMessage .permanent (restrictedScopeDetail path scope reason requiredRoles))
  | .backendUnavailableError reason detail =>
    some (.transient, wenchangMessage .transient (backendUnavailableDetail reason detail))
  | _ => none
where
  recoverable (detail : Str) : Option (ErrorCategory × Str) :=
    some (.recoverable, wenchangMessage .recoverable detail)

/-- `str(exc)` of a `ValueError`; the other exceptions are not read. -/
def Exc.valueErrorText : Exc → Str
  | .valueError message => message
  | .unicodeEncodeError error => error.message
  | .unicodeDecodeError error => error.message
  | .metadataFormatError key detail => key ++ str ": " ++ detail
  | .invalidStorageKeyError message => message
  | _ => []

end

end Wenchang
