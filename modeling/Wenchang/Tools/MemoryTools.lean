import Wenchang.Core.MemoryIndex
import Wenchang.Tools.Errors
import Wenchang.Tools.Scope

/-!
# The memory tools

A `MemoryTools` is one session: an identity, a policy and the source stamped on writes. Its tools are
programs over the seven operations of a `TransportClient`.

An argument is what an agent passes for a parameter, of whatever type: `_exact` refuses what is not a
str, and the checks run in the source's order, so the first one that fails is the one that is raised.
-/

namespace Wenchang

open Py Ordered Interaction

/-! ## The client -/

/-- One operation of a `TransportClient`. -/
inductive ClientOp where
  | getMemoryIndex (scopeMap : List (Str × Str))
  | readFile (path : Str)
  | listPrefix (pre : Str) (cursor : Option Str)
  | writeFile (path content : Str) (metadata : FileMetadata) (expectedVersion : Option Str)
      (source : Str)
  | appendLine (path line expectedVersion source : Str) (aliases : Option (List Str))
      (description : Option Str)
  | replaceFact (path oldString newString expectedVersion source : Str) (aliases : Option (List Str))
      (description : Option Str)
  | deleteFile (path expectedVersion : Str)
  deriving DecidableEq

/-- What an operation returns. -/
abbrev ClientOp.Result : ClientOp → Type
  | .getMemoryIndex _ => MemoryIndex
  | .listPrefix _ _ => ListPage
  | .deleteFile _ _ => Unit
  | _ => MemoryFile

/-- What an operation answers. -/
abbrev ClientOp.Ans (o : ClientOp) : Type := Except Exc o.Result

/-- The interface of a session to its client. -/
abbrev ClientSig : Sig := ⟨ClientOp, ClientOp.Ans⟩

/-- A program of the tool layer. -/
abbrev Tool (α : Type) := Prog ClientSig Exc α

/-- One operation of the client, returning what it returns and raising what it raises. -/
def callClient (o : ClientOp) : Tool o.Result := .vis o .ofExcept

/-! ## Arguments -/

/-- What an agent passes where a str is expected. -/
inductive Arg where
  | text (value : Str)
  /-- A value that is not a str, by the name of its type. -/
  | other (typeName : Str)
  deriving DecidableEq

/-- What an agent passes where a list of str is expected. -/
inductive AliasesArg where
  | items (members : List Arg)
  /-- A value that is not a sequence, or is a str, by the name of its type. -/
  | other (typeName : Str)
  deriving DecidableEq

/-- `_exact`. -/
def exactArg (argument : Str) : Arg → Except Exc Str
  | .text value => .ok value
  | .other typeName =>
    .error (.invalidArgumentError argument (argument ++ str " must be a string, not " ++ typeName))

/-- `_exact`, of a value that may be `None`. -/
def exactOptional (argument : Str) : Option Arg → Except Exc (Option Str)
  | none => .ok none
  | some value => (exactArg argument value).map some

/-- `_encodable`. -/
def encodableArg (argument value : Str) : Except Exc Unit :=
  match utf8Encode value with
  | .ok _ => .ok ()
  | .error _ => .error (.invalidArgumentError argument (argument ++ str " is not valid UTF-8 text"))

/-- A character an area may begin with. -/
def isSlugHead (c : CodePoint) : Bool := (97 ≤ c.val && c.val ≤ 122) || (48 ≤ c.val && c.val ≤ 57)

/-- A character an area may hold. -/
def isSlugChar (c : CodePoint) : Bool := isSlugHead c || c == 95 || c == 45

/-- `_AREA_SLUG.fullmatch(area) is not None`. -/
def isAreaSlug : Str → Bool
  | [] => false
  | c :: rest => isSlugHead c && rest.all isSlugChar

/-- `f"{n:04X}"` of a code point. -/
def hexUpper (n : Nat) : Str :=
  ((hex (if n < 0x10000 then 4 else if n < 0x100000 then 5 else 6) n).map fun c =>
    if 97 ≤ c.val then Fin.ofNat _ (c.val - 32) else c)

/-- The members of `_aliases`. -/
def aliasMembers : List Arg → Except Exc (List Str)
  | [] => .ok []
  | member :: rest => do
    let value ← exactArg (str "aliases") member
    encodableArg (str "aliases") value
    let members ← aliasMembers rest
    .ok (value :: members)

/-- `_aliases`. -/
def aliasesArg : AliasesArg → Except Exc (List Str)
  | .other typeName =>
    .error (.invalidArgumentError (str "aliases") (str "aliases must be a list of strings, not " ++ typeName))
  | .items members => aliasMembers members

/-- `_aliases`, of a value that may be `None`. -/
def aliasesOptional : Option AliasesArg → Except Exc (Option (List Str))
  | none => .ok none
  | some aliases => (aliasesArg aliases).map some

/-- `_LINE_BOUNDARIES`. -/
def lineBoundaries : List CodePoint := [0x0B, 0x0C, 0x1C, 0x1D, 0x1E, 0x85, 0x2028, 0x2029]

/-- `_UNSET_TIMESTAMP`. -/
def unsetTimestamp : DateTime := ⟨1970, 1, 1, 0, 0, 0, 0, some 0, by decide⟩

/-- `_description`. -/
def descriptionArg (value : Arg) : Except Exc Str := do
  let description ← exactArg (str "description") value
  encodableArg (str "description") description
  if lineBoundaries.any (· ∈ description) then
    .error (.invalidArgumentError (str "description") (str "description must be a single line"))
  else
    match FileMetadata.make description [] .empty unsetTimestamp with
    | .error message => .error (.invalidArgumentError (str "description") message)
    | .ok _ => .ok description

/-- `_description`, of a value that may be `None`. -/
def descriptionOptional : Option Arg → Except Exc (Option Str)
  | none => .ok none
  | some value => (descriptionArg value).map some

/-- `_reraise_argument`, of the exception to raise. -/
def reraiseArgument (argument : Str) : Exc → Exc
  | .metadataFormatError key detail => .metadataFormatError key detail
  | .unicodeDecodeError error => .unicodeDecodeError error
  | e => .invalidArgumentError argument e.valueErrorText

/-- What a tool returns. -/
inductive ToolResult where
  | file (file : MemoryFile)
  | page (page : ListPage)
  | index (index : MemoryIndex)
  | none
  deriving DecidableEq

/-- What a client returned, as a tool's result. -/
def ClientOp.toResult : (o : ClientOp) → o.Result → ToolResult
  | .getMemoryIndex _, index => .index index
  | .readFile _, file => .file file
  | .listPrefix _ _, page => .page page
  | .writeFile _ _ _ _ _, file => .file file
  | .appendLine _ _ _ _ _ _, file => .file file
  | .replaceFact _ _ _ _ _ _ _, file => .file file
  | .deleteFile _ _, _ => .none

/-- One session. -/
structure MemoryTools where
  identity : Identity
  policy : ScopePolicy
  source : Str
  source_ne : source ≠ []

section

variable [Interpreter]

/-- `_check_area_slug`. -/
def checkAreaSlug (area : Str) : Except Exc Unit :=
  if isAreaSlug area then .ok ()
  else
    .error (.invalidArgumentError (str "area") (str "area " ++ Py.repr area ++
      str " must be a lowercase slug: a-z0-9 first, then a-z0-9, '-' or '_'"))

/-- `_is_forbidden_name_char`: U+2028 and U+2029 are the only characters of categories Zl and Zp. -/
def isForbiddenNameChar (c : CodePoint) : Bool :=
  (0xFDD0 ≤ c.val && c.val ≤ 0xFDEF) || c.val &&& 0xFFFE == 0xFFFE || Interpreter.isFormat c ||
    c == 0x2028 || c == 0x2029

/-- `_check_name_chars`. -/
def checkNameChars (name : Str) : Except Exc Unit :=
  match name.find? isForbiddenNameChar with
  | none => .ok ()
  | some c =>
    .error (.invalidArgumentError (str "name")
      (str "name must not contain invisible, separator, or noncharacter U+" ++ hexUpper c.val))

namespace MemoryTools

variable (t : MemoryTools)

/-- `_entity`. -/
def entity (scope : Str) : Except Exc Str :=
  match t.identity.grants.get? scope with
  | some grant => .ok grant.entityId
  | none =>
    .error (.invalidArgumentError (str "scope") (str "scope " ++ Py.repr scope ++
      str " is not available in this session; available scopes: " ++
      join (str ", ") t.identity.grants.keys ++ str "."))

/-- `_path`. -/
def path (scope area name : Arg) : Except Exc Str := do
  let scope ← exactArg (str "scope") scope
  let area ← exactArg (str "area") area
  let name ← exactArg (str "name") name
  encodableArg (str "scope") scope
  encodableArg (str "area") area
  encodableArg (str "name") name
  let entityId ← t.entity scope
  match buildPath scope entityId area name with
  | .error message =>
    let argument := if isValidSegment area = false then str "area" else str "name"
    .error (.invalidArgumentError argument message)
  | .ok path =>
    checkAreaSlug area
    checkNameChars name
    .ok path

/-- The checks of `_prefix` on an area. -/
def encodableOptional (area : Option Str) : Except Exc Unit :=
  match area with
  | none => .ok ()
  | some area => encodableArg (str "area") area

/-- The slug check of `_prefix`. -/
def slugOptional (area : Option Str) : Except Exc Unit :=
  match area with
  | none => .ok ()
  | some area => checkAreaSlug area

/-- `_prefix`. -/
def pre (scope : Arg) (area : Option Arg) : Except Exc Str := do
  let scope ← exactArg (str "scope") scope
  let area ← exactOptional (str "area") area
  encodableArg (str "scope") scope
  encodableOptional area
  let entityId ← t.entity scope
  match buildPrefix scope (some entityId) area with
  | .error message => .error (.invalidArgumentError (str "area") message)
  | .ok pre =>
    slugOptional area
    .ok pre

/-- `_path` and then `check_write`, as every mutating tool begins. -/
def writePath (scope area name : Arg) : Except Exc Str := do
  let path ← t.path scope area name
  checkWrite path t.identity t.policy
  .ok path

/-! ## The tools -/

/-- `get_memory_index`. -/
def getMemoryIndex : Tool MemoryIndex := callClient (.getMemoryIndex t.identity.scopeMap)

/-- `read_file`. -/
def readFile (scope area name : Arg) : Tool MemoryFile := do
  let path ← Prog.ofExcept (t.path scope area name)
  callClient (.readFile path)

/-- `list_prefix`. -/
def listPrefix (scope : Arg) (area cursor : Option Arg) : Tool ListPage := do
  let pre ← Prog.ofExcept (t.pre scope area)
  match cursor with
  | none => callClient (.listPrefix pre none)
  | some cursor =>
    let cursor ← Prog.ofExcept (exactArg (str "cursor") cursor)
    match ← Prog.attempt (callClient (.listPrefix pre (some cursor))) with
    | .ok page => return page
    | .error e => .raise (if e.isValueError then reraiseArgument (str "cursor") e else e)

/-- What `write_file` checks and passes on. -/
def writeFileArgs (scope area name content description : Arg) (aliases : AliasesArg)
    (expectedVersion : Option Arg) : Except Exc ClientOp := do
  let path ← t.writePath scope area name
  let content ← exactArg (str "content") content
  encodableArg (str "content") content
  let description ← descriptionArg description
  let aliases ← aliasesArg aliases
  let expectedVersion ← exactOptional (str "expected_version") expectedVersion
  let metadata ← (FileMetadata.make description aliases .empty unsetTimestamp).mapError .valueError
  .ok (.writeFile path content metadata expectedVersion t.source)

/-- What `append_line` checks and passes on. -/
def appendLineArgs (scope area name line expectedVersion : Arg) (aliases : Option AliasesArg)
    (description : Option Arg) : Except Exc ClientOp := do
  let path ← t.writePath scope area name
  let line ← exactArg (str "line") line
  encodableArg (str "line") line
  if parseFact line = none then
    .error (.invalidArgumentError (str "line") (str ("line must be a single fact line with a " ++
      "[stated], [observed], [inferred], " ++ "or [system] label and non-empty text")))
  else
    let expectedVersion ← exactArg (str "expected_version") expectedVersion
    let aliases ← aliasesOptional aliases
    let description ← descriptionOptional description
    .ok (.appendLine path line expectedVersion t.source aliases description)

/-- What `replace_fact` checks and passes on. -/
def replaceFactArgs (scope area name oldString newString expectedVersion : Arg)
    (aliases : Option AliasesArg) (description : Option Arg) : Except Exc ClientOp := do
  let path ← t.writePath scope area name
  let oldString ← exactArg (str "old_string") oldString
  let newString ← exactArg (str "new_string") newString
  if oldString = [] then
    .error (.invalidArgumentError (str "old_string") (str "old_string must not be empty"))
  else
    encodableArg (str "new_string") newString
    let expectedVersion ← exactArg (str "expected_version") expectedVersion
    let aliases ← aliasesOptional aliases
    let description ← descriptionOptional description
    .ok (.replaceFact path oldString newString expectedVersion t.source aliases description)

/-- What `delete_file` checks and passes on. -/
def deleteFileArgs (scope area name expectedVersion : Arg) : Except Exc ClientOp := do
  let path ← t.writePath scope area name
  let expectedVersion ← exactArg (str "expected_version") expectedVersion
  .ok (.deleteFile path expectedVersion)

end MemoryTools

end

/-! ## Calls -/

/-- A call of a mutating tool. -/
inductive ToolWrite where
  | writeFile (scope area name content description : Arg) (aliases : AliasesArg)
      (expectedVersion : Option Arg)
  | appendLine (scope area name line expectedVersion : Arg) (aliases : Option AliasesArg)
      (description : Option Arg)
  | replaceFact (scope area name oldString newString expectedVersion : Arg)
      (aliases : Option AliasesArg) (description : Option Arg)
  | deleteFile (scope area name expectedVersion : Arg)
  deriving DecidableEq

/-- A call of a tool. -/
inductive ToolCall where
  | getMemoryIndex
  | readFile (scope area name : Arg)
  | listPrefix (scope : Arg) (area cursor : Option Arg)
  | mutate (w : ToolWrite)
  deriving DecidableEq

namespace MemoryTools

variable [Interpreter] (t : MemoryTools)

/-- The checks of a mutating tool, and the operation it then calls. -/
def writeArgs : ToolWrite → Except Exc ClientOp
  | .writeFile scope area name content description aliases expectedVersion =>
    t.writeFileArgs scope area name content description aliases expectedVersion
  | .appendLine scope area name line expectedVersion aliases description =>
    t.appendLineArgs scope area name line expectedVersion aliases description
  | .replaceFact scope area name oldString newString expectedVersion aliases description =>
    t.replaceFactArgs scope area name oldString newString expectedVersion aliases description
  | .deleteFile scope area name expectedVersion => t.deleteFileArgs scope area name expectedVersion

/-- The program of a tool call. -/
def call : ToolCall → Tool ToolResult
  | .getMemoryIndex => return .index (← t.getMemoryIndex)
  | .readFile scope area name => return .file (← t.readFile scope area name)
  | .listPrefix scope area cursor => return .page (← t.listPrefix scope area cursor)
  | .mutate w => do
    let op ← Prog.ofExcept (t.writeArgs w)
    return op.toResult (← callClient op)

end MemoryTools

end Wenchang
