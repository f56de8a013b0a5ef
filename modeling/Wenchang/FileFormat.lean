import Wenchang.Storage
import Wenchang.Py.DateTime

/-!
# Fact lines and file metadata

A fact line is `- [<label>] <text>`. File metadata is kept beside the body as a flat string map:
`metadataToMap` writes it and `metadataFromMap` reads it back. `Fact` and `FileMetadata` carry the
checks of their constructors as fields, so a value that the source would refuse cannot be built.
-/

namespace Wenchang

open Py Ordered

/-! ## Fact lines -/

/-- How a fact was established. -/
inductive ConfidenceLabel where
  | stated
  | observed
  | inferred
  | system
  deriving DecidableEq

/-- The label as written. -/
def ConfidenceLabel.text : ConfidenceLabel → Str
  | .stated => str "stated"
  | .observed => str "observed"
  | .inferred => str "inferred"
  | .system => str "system"

/-- A single confidence-labeled fact line. -/
structure Fact where
  label : ConfidenceLabel
  text : Str
  one_line : (10 : CodePoint) ∉ text
  not_blank : strip text ≠ []
  deriving DecidableEq

/-- `format_fact`. -/
def formatFact (fact : Fact) : Str := str "- [" ++ fact.label.text ++ str "] " ++ fact.text

/-- `_FACT_LINE_PATTERN.fullmatch` for one label: the text behind it. `.` is not a newline. -/
def matchLabel (label : ConfidenceLabel) (line : Str) : Option Fact :=
  let head := str "- [" ++ label.text ++ str "] "
  let text := line.drop head.length
  if h : head.isPrefixOf line ∧ (10 : CodePoint) ∉ text ∧ strip text ≠ [] then
    some ⟨label, text, h.2.1, h.2.2⟩
  else none

/-- `parse_fact`. -/
def parseFact (line : Str) : Option Fact :=
  [.stated, .observed, .inferred, .system].findSome? (matchLabel · line)

/-! ## Bodies -/

/-- A body line: a fact, or a non-fact line kept verbatim. -/
inductive BodyLine where
  | fact (fact : Fact)
  | text (line : Str)
  deriving DecidableEq

/-- `parse_fact(piece) or piece`. -/
def parseLine (piece : Str) : BodyLine :=
  match parseFact piece with
  | some fact => .fact fact
  | none => .text piece

/-- `parse_body`. -/
def parseBody (body : Str) : List BodyLine := (body.splitOn 10).map parseLine

/-- What `serialize_body` renders one line as. -/
def renderLine : BodyLine → Except Exc Str
  | .fact fact => .ok (formatFact fact)
  | .text line =>
    if (10 : CodePoint) ∈ line then
      .error (.valueError (str "str element must not contain a newline"))
    else if (parseFact line).isSome then
      .error (.valueError (str "str element must not itself parse as a fact line"))
    else .ok line

/-- `serialize_body`. -/
def serializeBody (lines : List BodyLine) : Except Exc Str :=
  if lines = [] then .error (.valueError (str "lines must not be empty"))
  else do
    let rendered ← lines.mapM renderLine
    return join [10] rendered

/-! ## File metadata -/

/-- `DESCRIPTION_KEY`. -/
def descriptionKey : Str := str "description"
/-- `ALIASES_KEY`. -/
def aliasesKey : Str := str "aliases"
/-- `SOURCES_KEY`. -/
def sourcesKey : Str := str "sources"
/-- `LAST_UPDATED_KEY`. -/
def lastUpdatedKey : Str := str "last-updated"

/-- Metadata describing a memory file, stored beside its body. -/
structure FileMetadata where
  description : Str
  aliases : List Str
  sources : FinSet Str
  lastUpdated : DateTime
  one_line : (10 : CodePoint) ∉ description ∧ (13 : CodePoint) ∉ description
  aware : lastUpdated.utcoffset.isSome
  deriving DecidableEq

/-- `FileMetadata(...)`, with the text of the `ValueError` it raises. -/
def FileMetadata.make (description : Str) (aliases : List Str) (sources : FinSet Str)
    (lastUpdated : DateTime) : Except Str FileMetadata :=
  if h : (10 : CodePoint) ∉ description ∧ (13 : CodePoint) ∉ description then
    if h' : lastUpdated.utcoffset.isSome then
      .ok ⟨description, aliases, sources, lastUpdated, h, h'⟩
    else .error (str "last_updated must be timezone-aware")
  else .error (str "description must not contain a newline or carriage return")

/-- `metadata_to_map`. -/
def metadataToMap (metadata : FileMetadata) : Except Exc Metadata :=
  match metadata.lastUpdated.astimezoneUTC with
  | none => .error .overflowError
  | some utc =>
    let timestamp := replaceAll utc.isoformat (str "+00:00") (str "Z")
    .ok ((((FinMap.empty.insert descriptionKey metadata.description).insert
      aliasesKey (dumpsStrList metadata.aliases)).insert
      sourcesKey (dumpsStrList metadata.sources.toList)).insert lastUpdatedKey timestamp)

/-- The items of a decoded list that must all be strings. -/
def strItems : List Json → Option (List Str)
  | [] => some []
  | .str s :: items => (strItems items).map (s :: ·)
  | _ :: _ => none

section

variable [Interpreter]

/-- `_parse_string_list`. -/
def parseStringList (raw key : Str) : Except Exc (List Str) :=
  match jsonLoads raw with
  | .error .malformed =>
    .error (.metadataFormatError key (str "not valid JSON: " ++ Interpreter.jsonErrorText raw))
  | .error .intTooLong => .error (.valueError (Interpreter.jsonErrorText raw))
  | .error .tooDeep => .error .recursionError
  | .ok (.arr items) =>
    match strItems items with
    | some texts => .ok texts
    | none => .error (.metadataFormatError key (str "all array items must be strings"))
  | .ok _ => .error (.metadataFormatError key (str "must be a JSON array"))

/-- `values[key]`, with the check that every key is there. -/
def requireKey (values : Metadata) (key : Str) : Except Exc Str :=
  match values.get? key with
  | some value => .ok value
  | none => .error (.metadataFormatError key (str "missing required key"))

/-- `metadata_from_map`. -/
def metadataFromMap (values : Metadata) : Except Exc FileMetadata := do
  let description ← requireKey values descriptionKey
  let rawAliases ← requireKey values aliasesKey
  let rawSources ← requireKey values sourcesKey
  let lastUpdatedRaw ← requireKey values lastUpdatedKey
  let aliases ← parseStringList rawAliases aliasesKey
  let sources ← parseStringList rawSources sourcesKey
  match fromisoformat lastUpdatedRaw with
  | none =>
    .error (.metadataFormatError lastUpdatedKey
      (str "not a valid ISO 8601 timestamp: " ++ Interpreter.isoformatErrorText lastUpdatedRaw))
  | some lastUpdated =>
    if lastUpdated.utcoffset.isNone then
      .error (.metadataFormatError lastUpdatedKey (str "must include a UTC offset"))
    else
      (FileMetadata.make description aliases (FinSet.ofList sources) lastUpdated).mapError
        (.metadataFormatError descriptionKey)

end

end Wenchang
