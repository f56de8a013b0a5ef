import Wenchang.Core.Worlds
import Wenchang.Py.Joined

/-!
# Metadata as it is stored

`metadataFromMap` reads back what `metadataToMap` writes, at the same instant in UTC. The lists go
through JSON, so their members have to be `Joined`; members that were given without surrogates are, and
members that were read from a stored map are too.
-/

namespace Wenchang

open Py Ordered

/-- The same metadata, with the same instant of last-updated, perhaps at another UTC offset. -/
structure FileMetadata.Same (m m' : FileMetadata) : Prop where
  description : m'.description = m.description
  aliases : m'.aliases = m.aliases
  sources : m'.sources = m.sources
  instant : m'.lastUpdated.epochMicros = m.lastUpdated.epochMicros

/-- Metadata whose lists come back from JSON as they are. -/
structure FileMetadata.Storable (m : FileMetadata) : Prop where
  aliases : ∀ a ∈ m.aliases, Joined a
  sources : ∀ a ∈ m.sources, Joined a

/-- Metadata whose strings have no surrogate. -/
structure FileMetadata.Scalar (m : FileMetadata) : Prop where
  description : Py.Scalar m.description
  aliases : ∀ a ∈ m.aliases, Py.Scalar a
  sources : ∀ a ∈ m.sources, Py.Scalar a

/-- A map whose texts have no surrogate. -/
def Metadata.Scalar (map : Metadata) : Prop := ∀ k v, map.get? k = some v → Py.Scalar v

/-- Such a map, told by looking at each text. -/
theorem Metadata.scalar_of_all {map : Metadata} (h : map.entries.all (·.2.all (!isSurrogate ·)) = true) :
    map.Scalar := fun k v hv => Py.scalar_of_all (FinMap.all_entries.mp h k v hv)

/-! ## Lists -/

/-- Items are texts where each of them is a string. -/
theorem strItems_eq_some {items : List Json} {texts : List Str} :
    strItems items = some texts ↔ items = texts.map .str := by
  induction items generalizing texts with
  | nil =>
    cases texts with
    | nil => exact ⟨fun _ => rfl, fun _ => rfl⟩
    | cons t texts => exact ⟨fun h => (nomatch h), fun h => (nomatch h)⟩
  | cons v items ih =>
    cases v with
    | str s =>
      simp only [strItems, Option.map_eq_some_iff, ih]
      constructor
      · rintro ⟨rest, rfl, rfl⟩
        rfl
      · intro h
        cases texts with
        | nil => cases h
        | cons t texts =>
          obtain ⟨hs, hrest⟩ := List.cons.inj h
          exact ⟨texts, hrest, by rw [Json.str.inj hs]⟩
    | _ =>
      refine ⟨fun h => (nomatch h), fun h => ?_⟩
      cases texts with
      | nil => cases h
      | cons t texts => exact Json.noConfusion (List.cons.inj h).1

/-- Metadata whose moment can be converted is written. -/
theorem exists_metadataToMap {metadata : FileMetadata}
    (h : metadata.lastUpdated.astimezoneUTC.isSome = true) :
    ∃ map, metadataToMap metadata = .ok map := by
  obtain ⟨utc, hutc⟩ := Option.isSome_iff_exists.mp h
  unfold metadataToMap
  rw [hutc]
  exact ⟨_, rfl⟩

/-- What metadata is written as. -/
theorem metadataToMap_eq_ok {m : FileMetadata} {map : Metadata} (h : metadataToMap m = .ok map) :
    ∃ utc, m.lastUpdated.astimezoneUTC = some utc ∧
      map = (((FinMap.empty.insert descriptionKey m.description).insert
        aliasesKey (dumpsStrList m.aliases)).insert sourcesKey (dumpsStrList m.sources.toList)).insert
        lastUpdatedKey (replaceAll utc.isoformat (str "+00:00") (str "Z")) := by
  unfold metadataToMap at h
  split at h
  · cases h
  next utc hutc => exact ⟨utc, hutc, (Except.ok.inj h).symm⟩

/-- Metadata whose lists hold no surrogate can be stored. -/
theorem FileMetadata.Scalar.storable {m : FileMetadata} (h : m.Scalar) : m.Storable :=
  ⟨fun a ha => (h.aliases a ha).joined, fun a ha => (h.sources a ha).joined⟩

/-- Metadata that reads back at UTC is written the same way again. -/
theorem metadataToMap_congr {m m' : FileMetadata} {map : Metadata} (h : metadataToMap m = .ok map)
    (hsame : m.Same m') (hutc : m.lastUpdated.astimezoneUTC = some m'.lastUpdated) :
    metadataToMap m' = .ok map := by
  obtain ⟨utc, hutc', rfl⟩ := metadataToMap_eq_ok h
  obtain rfl : m'.lastUpdated = utc := Option.some.inj (hutc.symm.trans hutc')
  unfold metadataToMap
  rw [DateTime.astimezoneUTC_self hutc, hsame.description, hsame.aliases, hsame.sources]

section

variable (description aliases sources lastUpdated : Str)

/-- The description is found. -/
theorem requireKey_description :
    requireKey (metadataMap description aliases sources lastUpdated) descriptionKey = .ok description := by
  rw [requireKey, metadataMap, FinMap.get?_insert_of_ne _ _ (by decide),
    FinMap.get?_insert_of_ne _ _ (by decide), FinMap.get?_insert_of_ne _ _ (by decide),
    FinMap.get?_insert_self]

/-- The aliases are found. -/
theorem requireKey_aliases :
    requireKey (metadataMap description aliases sources lastUpdated) aliasesKey = .ok aliases := by
  rw [requireKey, metadataMap, FinMap.get?_insert_of_ne _ _ (by decide),
    FinMap.get?_insert_of_ne _ _ (by decide), FinMap.get?_insert_self]

/-- The sources are found. -/
theorem requireKey_sources :
    requireKey (metadataMap description aliases sources lastUpdated) sourcesKey = .ok sources := by
  rw [requireKey, metadataMap, FinMap.get?_insert_of_ne _ _ (by decide), FinMap.get?_insert_self]

/-- The moment is found. -/
theorem requireKey_lastUpdated :
    requireKey (metadataMap description aliases sources lastUpdated) lastUpdatedKey =
      .ok lastUpdated := by
  rw [requireKey, metadataMap, FinMap.get?_insert_self]

end

/-! ## Errors -/

/-- The four keys that are read. -/
def metadataKeys : List Str := [descriptionKey, aliasesKey, sourcesKey, lastUpdatedKey]

/-- The result is a value, or a `MetadataFormatError` that names one of the four keys. -/
def Declared {α : Type} (result : Except Exc α) : Prop :=
  ∀ e, result = .error e → ∃ key ∈ metadataKeys, ∃ detail, e = .metadataFormatError key detail

/-- A value raises nothing. -/
@[simp] theorem declared_ok {α : Type} (a : α) : Declared (.ok a) := fun _ h => nomatch h

/-- A format error that names a key of metadata is declared. -/
theorem declared_format {α : Type} {key : Str} (hkey : key ∈ metadataKeys) (detail : Str) :
    Declared (.error (.metadataFormatError key detail) : Except Exc α) := by
  intro e h
  exact ⟨key, hkey, detail, (Except.error.inj h).symm⟩

/-- A sequence raises only what is declared where its parts do. -/
theorem declared_bind {α β : Type} {x : Except Exc α} {f : α → Except Exc β} :
    Declared (x >>= f) ↔ Declared x ∧ ∀ a, x = .ok a → Declared (f a) := by
  cases x with
  | error e =>
    constructor
    · exact fun h => ⟨fun e' he' => h e' (by rw [← Except.error.inj he']; rfl), fun a ha => nomatch ha⟩
    · exact fun h e' he' => h.1 e' (by rw [← Except.error.inj he'])
  | ok a =>
    constructor
    · exact fun h => ⟨declared_ok a, fun b hb => by rw [← Except.ok.inj hb]; exact h⟩
    · exact fun h => h.2 a rfl

/-- A key is found as what the map holds. -/
theorem requireKey_eq_ok {values : Metadata} {key value : Str} :
    requireKey values key = .ok value ↔ values.get? key = some value := by
  unfold requireKey
  cases values.get? key with
  | some v => simp
  | none => simp

/-- A missing key is a declared error. -/
theorem declared_requireKey (values : Metadata) {key : Str} (hkey : key ∈ metadataKeys) :
    Declared (requireKey values key) := by
  unfold requireKey
  cases values.get? key with
  | some v => exact declared_ok v
  | none => exact declared_format hkey _

/-- What a file's metadata cannot be is a declared error. -/
theorem declared_make {description : Str} {aliases : List Str} {sources : FinSet Str} {moment : DateTime} :
    Declared ((FileMetadata.make description aliases sources moment).mapError
      (.metadataFormatError descriptionKey)) := by
  cases FileMetadata.make description aliases sources moment with
  | ok m => exact declared_ok m
  | error message => exact declared_format (by simp [metadataKeys]) message

section

variable [Interpreter]

/-- A list of texts is read back, their surrogate pairs joined. -/
theorem jsonLoads_dumpsStrList (items : List Str) :
    jsonLoads (dumpsStrList items) = .ok (.arr (items.map fun s => .str (joinPairs s))) := by
  have hitems : List.Forall₂ (Parses 0) (items.map dumpsStr)
      (items.map fun s => .str (joinPairs s)) := by
    rw [List.forall₂_map_left_iff, List.forall₂_map_right_iff]
    exact List.forall₂_same.mpr fun s _ => parses_dumpsStr s
  have hnesting : 0 + 1 ≤ Interpreter.jsonNesting :=
    Nat.le_trans (by decide) Interpreter.four_le_jsonNesting
  exact (parses_dumpsArray isSeparator_default hitems).jsonLoads hnesting

/-- A list of texts without split pairs is read back. -/
theorem parseStringList_dumps {items : List Str} (h : ∀ a ∈ items, Joined a) (key : Str) :
    parseStringList (dumpsStrList items) key = .ok items := by
  have hitems : items.map (fun s => Json.str (joinPairs s)) = items.map .str :=
    List.map_congr_left fun a ha => congrArg Json.str (h a ha)
  have hloads := jsonLoads_dumpsStrList items
  rw [hitems] at hloads
  unfold parseStringList
  simp only [hloads, strItems_eq_some.mpr rfl]

/-- A list read from scalar text holds no split pairs. -/
theorem joined_of_parseStringList {raw key : Str} {texts : List Str} (hraw : Py.Scalar raw)
    (h : parseStringList raw key = .ok texts) : ∀ t ∈ texts, Joined t := by
  intro t ht
  unfold parseStringList at h
  split at h
  · cases h
  · cases h
  · cases h
  next items hloads =>
    split at h
    next texts' hitems =>
      obtain rfl := Except.ok.inj h
      obtain rfl := strItems_eq_some.mp hitems
      refine joined_jsonLoads hraw hloads (fun v hv => ?_) (List.mem_map_of_mem ht)
      obtain ⟨s, -, rfl⟩ := List.mem_map.mp hv
      exact ⟨s, rfl⟩
    · cases h
  · cases h

/-! ## Maps -/

/-- Stored metadata reads back as the same metadata with last-updated moved to UTC. -/
theorem metadataFromMap_toMap_utc {m : FileMetadata} (hm : m.Storable) {map : Metadata}
    (h : metadataToMap m = .ok map) :
    ∃ m', metadataFromMap map = .ok m' ∧ m.Same m' ∧
      m.lastUpdated.astimezoneUTC = some m'.lastUpdated := by
  obtain ⟨utc, hutc, rfl⟩ := metadataToMap_eq_ok h
  obtain ⟨hinstant, hoffset⟩ := DateTime.epochMicros_astimezoneUTC hutc
  have haware : utc.utcoffset.isSome = true := by rw [hoffset]; rfl
  change ∃ m', metadataFromMap (metadataMap m.description (dumpsStrList m.aliases)
    (dumpsStrList m.sources.toList) (replaceAll utc.isoformat (str "+00:00") (str "Z"))) = .ok m' ∧
      m.Same m' ∧ m.lastUpdated.astimezoneUTC = some m'.lastUpdated
  have hmake : FileMetadata.make m.description m.aliases (FinSet.ofList m.sources.toList) utc =
      .ok ⟨m.description, m.aliases, m.sources, utc, m.one_line, haware⟩ := by
    rw [FinSet.ofList_toList]
    simp [FileMetadata.make, m.one_line, haware]
  refine ⟨⟨m.description, m.aliases, m.sources, utc, m.one_line, haware⟩, ?_,
    ⟨rfl, rfl, rfl, hinstant⟩, hutc⟩
  unfold metadataFromMap
  refine except_bind_eq_ok.mpr ⟨_, requireKey_description _ _ _ _,
    except_bind_eq_ok.mpr ⟨_, requireKey_aliases _ _ _ _,
    except_bind_eq_ok.mpr ⟨_, requireKey_sources _ _ _ _,
    except_bind_eq_ok.mpr ⟨_, requireKey_lastUpdated _ _ _ _,
    except_bind_eq_ok.mpr ⟨_, parseStringList_dumps hm.aliases _,
    except_bind_eq_ok.mpr ⟨_, parseStringList_dumps hm.sources _, ?_⟩⟩⟩⟩⟩⟩
  rw [fromisoformat_zulu hoffset]
  simp only [Option.isNone_eq_false_iff.mpr haware, Bool.false_eq_true, if_false, hmake, Except.mapError]

/-- **Stored metadata reads back**: the same description, aliases and sources, and the same instant. -/
theorem metadataFromMap_toMap {m : FileMetadata} (hm : m.Storable) {map : Metadata}
    (h : metadataToMap m = .ok map) :
    ∃ m', metadataFromMap map = .ok m' ∧ m.Same m' ∧ m'.lastUpdated.astimezoneUTC.isSome = true := by
  obtain ⟨m', hread, hsame, hutc⟩ := metadataFromMap_toMap_utc hm h
  refine ⟨m', hread, hsame, ?_⟩
  rw [DateTime.astimezoneUTC_self hutc]
  rfl

/-- What a successful read found in the map. -/
theorem metadataFromMap_eq_ok {map : Metadata} {m : FileMetadata} (h : metadataFromMap map = .ok m) :
    ∃ rawAliases rawSources sources, map.get? descriptionKey = some m.description ∧
      map.get? aliasesKey = some rawAliases ∧ map.get? sourcesKey = some rawSources ∧
      parseStringList rawAliases aliasesKey = .ok m.aliases ∧
      parseStringList rawSources sourcesKey = .ok sources ∧ m.sources = FinSet.ofList sources ∧
      m.lastUpdated.Readable := by
  have hread : ∀ {key value : Str}, requireKey map key = .ok value → map.get? key = some value :=
    fun {key value} hget => by
      unfold requireKey at hget
      split at hget
      next v hv => rw [hv, Except.ok.inj hget]
      · cases hget
  unfold metadataFromMap at h
  obtain ⟨description, hdescription, h⟩ := except_bind_eq_ok.mp h
  obtain ⟨rawAliases, hrawAliases, h⟩ := except_bind_eq_ok.mp h
  obtain ⟨rawSources, hrawSources, h⟩ := except_bind_eq_ok.mp h
  obtain ⟨raw, -, h⟩ := except_bind_eq_ok.mp h
  obtain ⟨aliases, haliases, h⟩ := except_bind_eq_ok.mp h
  obtain ⟨sources, hsources, h⟩ := except_bind_eq_ok.mp h
  split at h
  · cases h
  next moment hmoment =>
    split at h
    · cases h
    · unfold FileMetadata.make at h
      split at h
      · split at h
        · obtain rfl := Except.ok.inj h
          exact ⟨rawAliases, rawSources, sources, hread hdescription, hread hrawAliases,
            hread hrawSources, haliases, hsources, rfl, readable_of_fromisoformat hmoment⟩
        · cases h
      · cases h

/-- Metadata read from a map of scalar texts can be stored again. -/
theorem storable_of_metadataFromMap {map : Metadata} (hmap : map.Scalar) {m : FileMetadata}
    (h : metadataFromMap map = .ok m) : m.Storable := by
  obtain ⟨rawAliases, rawSources, sources, -, hrawAliases, hrawSources, haliases, hsources, hset, -⟩ :=
    metadataFromMap_eq_ok h
  refine ⟨joined_of_parseStringList (hmap _ _ hrawAliases) haliases, fun a ha => ?_⟩
  rw [hset] at ha
  exact joined_of_parseStringList (hmap _ _ hrawSources) hsources a (FinSet.mem_ofList.mp ha)

/-- A last-updated that was read from a map can be written and read again. -/
theorem readable_of_metadataFromMap {map : Metadata} {m : FileMetadata} (h : metadataFromMap map = .ok m) :
    m.lastUpdated.Readable := by
  obtain ⟨-, -, -, -, -, -, -, -, -, hreadable⟩ := metadataFromMap_eq_ok h
  exact hreadable

/-- **Metadata round trip.** Metadata of scalar strings at a moment that UTC has reads back from its
map as itself. What a map of scalar strings reads as is written to a map that reads as the same, and
that map is written again unchanged. -/
theorem metadata_round_trip :
    (∀ m : FileMetadata, m.Scalar → m.lastUpdated.astimezoneUTC.isSome →
      ∃ map m', metadataToMap m = .ok map ∧ metadataFromMap map = .ok m' ∧ m.Same m') ∧
    (∀ (values : Metadata) (m : FileMetadata), values.Scalar → metadataFromMap values = .ok m →
      m.lastUpdated.astimezoneUTC.isSome →
      ∃ map m', metadataToMap m = .ok map ∧ metadataFromMap map = .ok m' ∧ m.Same m' ∧
        metadataToMap m' = .ok map) := by
  constructor
  · intro m hm hutc
    obtain ⟨map, hmap⟩ := exists_metadataToMap hutc
    obtain ⟨m', hread, hsame, -⟩ := metadataFromMap_toMap hm.storable hmap
    exact ⟨map, m', hmap, hread, hsame⟩
  · intro values m hvalues hm hutc
    obtain ⟨map, hmap⟩ := exists_metadataToMap hutc
    have hstorable := storable_of_metadataFromMap hvalues hm
    obtain ⟨m', hread, hsame, hmoment⟩ := metadataFromMap_toMap_utc hstorable hmap
    exact ⟨map, m', hmap, hread, hsame, metadataToMap_congr hmap hsame hmoment⟩

/-! ## What is raised -/

/-- `json.loads` fails on the text with something other than `JSONDecodeError`. -/
def Overruns (raw : Str) : Prop := jsonLoads raw = .error .intTooLong ∨ jsonLoads raw = .error .tooDeep

/-- The text is a JSON array of strings. -/
def IsStringArray (raw : Str) : Prop := ∃ texts : List Str, jsonLoads raw = .ok (.arr (texts.map .str))

/-- Where all four keys are there, the first of the two lists that is not an array of strings does not
overrun the reader. -/
def ListsReadable (values : Metadata) : Prop :=
  (∀ key ∈ metadataKeys, (values.get? key).isSome) →
    ∀ rawAliases rawSources, values.get? aliasesKey = some rawAliases →
      values.get? sourcesKey = some rawSources →
      ¬ Overruns rawAliases ∧ (IsStringArray rawAliases → ¬ Overruns rawSources)

/-- A list of texts is what JSON reads as an array of strings. -/
theorem parseStringList_eq_ok {raw key : Str} {texts : List Str} :
    parseStringList raw key = .ok texts ↔ jsonLoads raw = .ok (.arr (texts.map .str)) := by
  unfold parseStringList
  split
  next h => simp [h]
  next h => simp [h]
  next h => simp [h]
  next items h =>
    rw [h]
    simp only [Except.ok.injEq, Json.arr.injEq]
    rw [← strItems_eq_some]
    cases strItems items with
    | some texts' => simp
    | none => simp
  next v hv h =>
    rw [h]
    simp only [reduceCtorEq, Except.ok.injEq, false_iff]
    exact hv _

/-- A list raises only what is declared unless its text overruns the reader. -/
theorem declared_parseStringList {raw key : Str} (hkey : key ∈ metadataKeys) :
    Declared (parseStringList raw key) ↔ ¬ Overruns raw := by
  have hundeclared : ∀ e : Exc, (∀ key detail, e ≠ .metadataFormatError key detail) →
      ¬ Declared (.error e : Except Exc (List Str)) := by
    intro e he h
    obtain ⟨key, -, detail, rfl⟩ := h e rfl
    exact he key detail rfl
  unfold parseStringList Overruns
  split
  next h => simp [h, declared_format hkey]
  next h => simp [h, hundeclared]
  next h => simp [h, hundeclared]
  next items h =>
    cases strItems items with
    | some texts => simp [h]
    | none => simp [h, declared_format hkey]
  next h => simp [h, declared_format hkey]

/-- Metadata whose lists can be read fails as declared. -/
theorem ListsReadable.declared {values : Metadata} (h : ListsReadable values) :
    Declared (metadataFromMap values) := by
  have hdescription : descriptionKey ∈ metadataKeys := by simp [metadataKeys]
  have haliases : aliasesKey ∈ metadataKeys := by simp [metadataKeys]
  have hsources : sourcesKey ∈ metadataKeys := by simp [metadataKeys]
  have hupdated : lastUpdatedKey ∈ metadataKeys := by simp [metadataKeys]
  unfold metadataFromMap
  simp only [declared_bind, declared_requireKey values, hdescription, haliases, hsources, hupdated,
    declared_parseStringList, requireKey_eq_ok, parseStringList_eq_ok, true_and]
  intro description hd rawAliases hrawAliases rawSources hrawSources raw hraw
  have hkeys : ∀ key ∈ metadataKeys, (values.get? key).isSome := by
    simp [metadataKeys, hd, hrawAliases, hrawSources, hraw]
  obtain ⟨hread, hrest⟩ := h hkeys rawAliases rawSources hrawAliases hrawSources
  refine ⟨hread, fun texts htexts => ⟨hrest ⟨texts, htexts⟩, fun sources _ => ?_⟩⟩
  -- The timestamp and the constructor fail with the declared error only.
  split
  · exact declared_format hupdated _
  · split
    · exact declared_format hupdated _
    · exact declared_make

/-- **The one error.** `metadata_from_map` returns or raises `MetadataFormatError` for one of its four
keys exactly when no list that it gets to read overruns the JSON reader. -/
theorem metadataFromMap_declared (values : Metadata) :
    Declared (metadataFromMap values) ↔ ListsReadable values := by
  have haliases : aliasesKey ∈ metadataKeys := by simp [metadataKeys]
  have hsources : sourcesKey ∈ metadataKeys := by simp [metadataKeys]
  refine ⟨fun h hkeys rawAliases rawSources hrawAliases hrawSources => ?_, ListsReadable.declared⟩
  obtain ⟨description, hd⟩ := Option.isSome_iff_exists.mp (hkeys descriptionKey (by simp [metadataKeys]))
  obtain ⟨raw, hraw⟩ := Option.isSome_iff_exists.mp (hkeys lastUpdatedKey (by simp [metadataKeys]))
  unfold metadataFromMap at h
  simp only [declared_bind, requireKey_eq_ok, parseStringList_eq_ok] at h
  have hlists := (((h.2 description hd).2 rawAliases hrawAliases).2 rawSources hrawSources).2 raw hraw
  refine ⟨(declared_parseStringList haliases).mp hlists.1, fun ⟨texts, htexts⟩ => ?_⟩
  exact (declared_parseStringList hsources).mp (hlists.2 texts htexts).1

/-- A run of ones over the conversion limit is an integer literal that `json.loads` does not convert. -/
theorem jsonLoads_ones {n : Nat} (h : intMaxStrDigits < n) :
    jsonLoads (List.replicate n 49) = .error .intTooLong := by
  obtain ⟨k, rfl⟩ : ∃ k, n = k + 1 := ⟨n - 1, by unfold intMaxStrDigits at h; omega⟩
  have hdigits : (List.replicate k (49 : CodePoint)).takeWhile isDigit = List.replicate k 49 :=
    List.takeWhile_replicate_eq_filter.trans (by simp [isDigit])
  have hrest : (List.replicate k (49 : CodePoint)).dropWhile isDigit = [] := by
    simp [List.dropWhile_replicate_eq_filter_not, isDigit]
  have hnumber : parseNumber (49 :: List.replicate k 49) = .error .intTooLong := by
    simp [parseNumber, hdigits, hrest, skipExponent, isDigit, h]
  have hwords : [str "null", str "true", str "false", str "NaN", str "Infinity", str "-Infinity"].find?
      (·.isPrefixOf (49 :: List.replicate k 49)) = none := rfl
  have hscalar : parseScalar (49 :: List.replicate k 49) = .error .intTooLong := by
    rw [parseScalar, hwords]
    exact hnumber
  simp [jsonLoads, List.replicate_succ, skipSpace, isJsonSpace, parseValue, hscalar]

end

/-- A map whose aliases are an integer literal of 4301 digits. -/
def longInteger : Metadata :=
  metadataMap [] (List.replicate 4301 49) (str "[]") (str "2026-01-02T12:00:00Z")

/-- The literal escapes as a plain `ValueError`. -/
theorem metadataFromMap_long_integer : let _ := Interpreter.ascii
    metadataFromMap longInteger = .error (.valueError []) ∧ ¬ Declared (metadataFromMap longInteger) := by
  intro _
  have hloads : jsonLoads (List.replicate 4301 49) = .error .intTooLong := jsonLoads_ones (by decide)
  have hlist : parseStringList (List.replicate 4301 49) aliasesKey = .error (.valueError []) := by
    unfold parseStringList
    rw [hloads]
    rfl
  have hresult : metadataFromMap longInteger = .error (.valueError []) := by
    unfold metadataFromMap longInteger
    rw [requireKey_description, requireKey_aliases, requireKey_sources, requireKey_lastUpdated]
    simp only [Except.bind, bind, hlist]
  refine ⟨hresult, fun h => ?_⟩
  obtain ⟨key, -, detail, he⟩ := h _ hresult
  cases he

/-- Metadata with one alias and one source, last updated at a noon. -/
def noonMetadata : FileMetadata :=
  ⟨[], [str "a"], FinSet.ofList [str "s"], noon, one_line_nil, noon_aware⟩

/-- Its texts are scalar. -/
theorem noonMetadata_scalar : noonMetadata.Scalar where
  description := scalar_nil
  aliases := by simp [noonMetadata, scalar_str]
  sources := by simp [noonMetadata, scalar_str]

/-- The noon is written as a map that reads back, and what it reads back as is written the same way. -/
theorem metadata_round_trip_noon : let _ := Interpreter.ascii
    (∃ map m', metadataToMap noonMetadata = .ok map ∧ metadataFromMap map = .ok m' ∧
      noonMetadata.Same m') ∧
    ∃ map m', metadataToMap noonMetadata = .ok map ∧ metadataFromMap map = .ok m' ∧
      noonMetadata.Same m' ∧ metadataToMap m' = .ok map := by
  intro _
  have hread : metadataFromMap (metadataMap [] (str "[\"a\"]") (str "[\"s\"]")
      (str "2026-01-02T12:00:00Z")) = .ok noonMetadata := by decide +kernel
  have hvalues : Metadata.Scalar (metadataMap [] (str "[\"a\"]") (str "[\"s\"]")
      (str "2026-01-02T12:00:00Z")) := by
    intro k v hv
    simp only [metadataMap, FinMap.get?_insert, FinMap.get?_empty] at hv
    split_ifs at hv
    · exact Option.some.inj hv ▸ scalar_str _
    · exact Option.some.inj hv ▸ scalar_str _
    · exact Option.some.inj hv ▸ scalar_str _
    · exact Option.some.inj hv ▸ scalar_nil
  exact ⟨metadata_round_trip.1 _ noonMetadata_scalar (by decide),
    metadata_round_trip.2 _ _ hvalues hread (by decide)⟩

end Wenchang
