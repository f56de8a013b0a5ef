import Wenchang.Tools.Schemas

/-!
# What is rendered is what is declared

Every failure renders to an error of the schema (`accepts_renderError`). A result renders to a value of its
schema exactly when each of its timestamps has a moment in UTC (`accepts_renderResult_iff`): nothing else can
drop a field that the schema requires.
-/

namespace Wenchang

open Py Ordered

/-! ## Errors -/

/-- What is looked up is there. -/
theorem mem_of_lookup {members : List (Str × JsonValue)} {key : Str} {value : JsonValue}
    (h : members.lookup key = some value) : (key, value) ∈ members := by
  induction members with
  | nil => cases h
  | cons m rest ih =>
    obtain ⟨k, v⟩ := m
    rw [List.lookup_cons] at h
    split at h
    next heq =>
      obtain rfl := beq_iff_eq.mp heq
      obtain rfl := Option.some.inj h
      exact List.mem_cons_self
    next => exact List.mem_cons_of_mem _ (ih h)

/-- A count is accepted as one. -/
theorem accepts_count (n : Nat) : countSchema.accepts (.int n) = true :=
  decide_eq_true (Int.natCast_nonneg n)

/-- Every attribute but the path is one that the schema describes. -/
theorem Exc.attributes_accepted (e : Exc) {m : Str × JsonValue} (h : m ∈ e.attributes) :
    m.1 = str "path" ∨ acceptsMember errorProperties m.1 m.2 = true := by
  have hreason : ∀ value ∈ reasonValues, acceptsMember errorProperties (str "reason") (.str value) = true := by
    decide
  cases e with
  | versionConflictError path content version =>
    simp only [Exc.attributes, List.mem_cons, List.not_mem_nil, or_false] at h
    rcases h with rfl | rfl | rfl
    · exact .inl rfl
    · exact .inr rfl
    · exact .inr rfl
  | oversizeWriteError path size limit =>
    simp only [Exc.attributes, List.mem_cons, List.not_mem_nil, or_false] at h
    rcases h with rfl | rfl | rfl
    · exact .inl rfl
    · exact .inr (accepts_count size)
    · exact .inr (accepts_count limit)
  | fileQuotaExceededError path limit =>
    simp only [Exc.attributes, List.mem_cons, List.not_mem_nil, or_false] at h
    rcases h with rfl | rfl
    · exact .inl rfl
    · exact .inr (accepts_count limit)
  | replaceFactMatchError path content version matchCount =>
    simp only [Exc.attributes, List.mem_cons, List.not_mem_nil, or_false] at h
    rcases h with rfl | rfl | rfl | rfl
    · exact .inl rfl
    · exact .inr rfl
    · exact .inr rfl
    · exact .inr (accepts_count matchCount)
  | invalidArgumentError argument detail =>
    obtain rfl := List.mem_singleton.mp h
    exact .inr rfl
  | notFoundError path reason =>
    simp only [Exc.attributes, List.mem_cons, List.not_mem_nil, or_false] at h
    rcases h with rfl | rfl
    · exact .inl rfl
    · exact .inr (hreason _ (by cases reason <;> decide))
  | restrictedScopeError path scope reason roles =>
    have hvalue := hreason reason.value (by cases reason <;> decide)
    cases roles with
    | none =>
      simp only [Exc.attributes, List.mem_cons, List.not_mem_nil, or_false] at h
      rcases h with rfl | rfl | rfl
      · exact .inl rfl
      · exact .inr rfl
      · exact .inr hvalue
    | some roles =>
      simp only [Exc.attributes, List.mem_cons, List.not_mem_nil, or_false] at h
      rcases h with rfl | rfl | rfl | rfl
      · exact .inl rfl
      · exact .inr rfl
      · exact .inr hvalue
      · exact .inr (accepts_strs _)
  | backendUnavailableError reason detail =>
    obtain rfl := List.mem_singleton.mp h
    exact .inr (hreason _ (by cases reason <;> decide))
  | _ => exact absurd h List.not_mem_nil

/-- The head of an error is accepted. -/
theorem accepts_errorHead (name message : Str) {category : Str} (h : category ∈ categoryValues) :
    errorSchema.accepts (.obj (errorHead name category message)) = true := by
  have hcategory : acceptsMember errorProperties (str "category") (.str category) = true :=
    List.contains_iff_mem.mpr h
  refine accepts_object.mpr ⟨fun key hkey => hkey, ?_⟩
  simp only [errorHead, List.forall_mem_cons]
  exact ⟨rfl, hcategory, rfl, nofun⟩

/-- One more field keeps an error accepted. -/
theorem accepts_addField {f : Failure} {out : List (Str × JsonValue)} {key : Str} (hkey : key ∈ errorFields)
    (h : errorSchema.accepts (.obj out) = true) : errorSchema.accepts (.obj (addField f out key)) = true := by
  unfold addField
  split
  · exact h
  next value hvalue =>
    cases f with
    | resolverFailureError detail => cases hvalue
    | exc e =>
      have hne : key ≠ str "path" := by
        rintro rfl
        exact absurd hkey (by decide)
      exact accepts_setItem h ((e.attributes_accepted (mem_of_lookup hvalue)).resolve_left hne)

section

variable [Interpreter]

/-- A location keeps an error accepted. -/
theorem accepts_addLocation {f : Failure} {out : List (Str × JsonValue)}
    (h : errorSchema.accepts (.obj out) = true) : errorSchema.accepts (.obj (addLocation f out)) = true := by
  unfold addLocation
  split
  · split
    · exact h
    · exact accepts_setItem (accepts_setItem (accepts_setItem h rfl) rfl) rfl
  · exact h

/-- **Every failure renders to an error of the schema**, whatever it carries. -/
theorem accepts_renderError (f : Failure) : errorSchema.accepts (.obj (renderError f)) = true := by
  have hfields : ∀ (keys : List Str) (out : List (Str × JsonValue)), (∀ key ∈ keys, key ∈ errorFields) →
      errorSchema.accepts (.obj out) = true → errorSchema.accepts (.obj (keys.foldl (addField f) out)) = true := by
    intro keys
    induction keys with
    | nil => exact fun out _ h => h
    | cons key keys ih =>
      intro out hkeys h
      exact ih _ (fun k hk => hkeys k (List.mem_cons_of_mem _ hk)) (accepts_addField (hkeys key List.mem_cons_self) h)
  have hinternal : str "internal" ∈ categoryValues := by decide
  unfold renderError
  split
  · exact accepts_errorHead _ _ hinternal
  · exact accepts_errorHead _ _ hinternal
  · split
    · exact accepts_errorHead _ _ hinternal
    next category message _ =>
      refine hfields errorFields _ (fun key hkey => hkey) (accepts_addLocation (accepts_errorHead _ _ ?_))
      cases category <;> decide

end

/-! ## Results -/

/-- The metadata that a result shows. -/
def ToolResult.metadata : ToolResult → List FileMetadata
  | .file f => [f.metadata]
  | .page p => p.entries.map (·.metadata)
  | .index i => i.entries.map (·.metadata)
  | .none => []

/-- A timestamp is rendered where it has a moment in UTC, and is one then. -/
theorem timestampOrDrop_cases (m : FileMetadata) :
    (m.lastUpdated.astimezoneUTC = none ∧ timestampOrDrop m.lastUpdated = none) ∨
      ∃ utc text, m.lastUpdated.astimezoneUTC = some utc ∧ timestampOrDrop m.lastUpdated = some text ∧
        isDateTime text = true := by
  have haware : ¬ m.lastUpdated.utcoffset.isNone = true := by
    have h := m.aware
    cases hoffset : m.lastUpdated.utcoffset with
    | none =>
      rw [hoffset] at h
      cases h
    | some offset => simp
  unfold timestampOrDrop
  rw [if_neg haware]
  cases hutc : m.lastUpdated.astimezoneUTC with
  | none => exact .inl ⟨rfl, rfl⟩
  | some utc => exact .inr ⟨utc, _, rfl, rfl, isDateTime_zulu (DateTime.epochMicros_astimezoneUTC hutc).2⟩

section

variable [Interpreter]

/-- A location has its three fields, each a text or null. -/
theorem locationFields_cases (path : Str) : ∃ scope area name, locationFields path =
    [(str "scope", .strOrNull scope), (str "area", .strOrNull area), (str "name", .strOrNull name)] := by
  unfold locationFields
  cases parsePath path with
  | ok parts => exact ⟨some parts.scope, some parts.area, some parts.name, rfl⟩
  | error e => exact ⟨none, none, none, rfl⟩

/-- The items of a file, in their order. -/
theorem fileFields_eq (path : Str) (content : Option Str) (version : Str) (m : FileMetadata) :
    fileFields path content version m = locationFields path ++
      ((content.map fun c => (str "content", JsonValue.str c)).toList ++
        ([(str "version", .str version), (str "description", .str m.description),
          (str "aliases", .strs m.aliases), (str "sources", .strs m.sources.toList)] ++
          ((timestampOrDrop m.lastUpdated).map fun t => (str "last_updated", JsonValue.str t)).toList)) := by
  obtain ⟨scope, area, name, hlocation⟩ := locationFields_cases path
  unfold fileFields
  rw [hlocation]
  cases content with
  | none => cases timestampOrDrop m.lastUpdated <;> rfl
  | some content => cases timestampOrDrop m.lastUpdated <;> rfl

/-- A file renders to one of the schema exactly when its timestamp has a moment in UTC. -/
theorem accepts_file_iff (f : MemoryFile) : fileSchema.accepts (.obj (renderResult (.file f))) = true ↔
    f.metadata.lastUpdated.astimezoneUTC.isSome = true := by
  obtain ⟨scope, area, name, hlocation⟩ := locationFields_cases f.path
  have hfields := fileFields_eq f.path (some f.content) f.version f.metadata
  rw [hlocation] at hfields
  rw [renderResult, hfields]
  rcases timestampOrDrop_cases f.metadata with ⟨hnone, hdrop⟩ | ⟨utc, text, hsome, htext, hdate⟩
  · rw [hnone, hdrop]
    have hlast : str "last_updated" ∉ fileProperties.dropLast.map (·.1) := by decide
    exact iff_of_false (Bool.eq_false_iff.mp (refuses_object (by decide) hlast)) Bool.false_ne_true
  · rw [hsome, htext]
    refine iff_of_true (accepts_object.mpr ⟨fun key hkey => hkey, ?_⟩) rfl
    simp only [Option.map_some, Option.toList_some, List.cons_append, List.nil_append, List.forall_mem_cons]
    exact ⟨accepts_strOrNull scope, accepts_strOrNull area, accepts_strOrNull name, rfl, rfl, rfl, accepts_strs _,
      accepts_strs _, hdate, nofun⟩

/-- An entry is accepted where its moment can be converted. -/
theorem accepts_entry_iff (entry : FileEntry) : entrySchema.accepts (entryFieldsOf entry) = true ↔
    entry.metadata.lastUpdated.astimezoneUTC.isSome = true := by
  obtain ⟨scope, area, name, hlocation⟩ := locationFields_cases entry.path
  have hfields := fileFields_eq entry.path none entry.version entry.metadata
  rw [hlocation] at hfields
  unfold entryFieldsOf
  rw [hfields]
  rcases timestampOrDrop_cases entry.metadata with ⟨hnone, hdrop⟩ | ⟨utc, text, hsome, htext, hdate⟩
  · rw [hnone, hdrop]
    have hlast : str "last_updated" ∉ entryProperties.dropLast.map (·.1) := by decide
    exact iff_of_false (Bool.eq_false_iff.mp (refuses_object (by decide) hlast)) Bool.false_ne_true
  · rw [hsome, htext]
    refine iff_of_true (accepts_object.mpr ⟨fun key hkey => hkey, ?_⟩) rfl
    simp only [Option.map_none, Option.toList_none, Option.map_some, Option.toList_some, List.cons_append,
      List.nil_append, List.forall_mem_cons]
    exact ⟨accepts_strOrNull scope, accepts_strOrNull area, accepts_strOrNull name, rfl, rfl, accepts_strs _,
      accepts_strs _, hdate, nofun⟩

/-- Entries are accepted where each moment can be converted. -/
theorem accepts_entries_iff (entries : List FileEntry) :
    (Schema.array entrySchema).accepts (.arr (entries.map entryFieldsOf)) = true ↔
      ∀ m ∈ entries.map (·.metadata), m.lastUpdated.astimezoneUTC.isSome = true := by
  rw [accepts_array, List.forall_mem_map, List.forall_mem_map]
  exact forall₂_congr fun entry _ => accepts_entry_iff entry

omit [Interpreter] in

/-- A capped prefix is accepted. -/
theorem accepts_capped (cap : CappedPrefix) : cappedRow.accepts (.obj (cappedFields cap)) = true := by
  refine accepts_object.mpr ⟨fun key hkey => hkey, ?_⟩
  simp only [cappedFields, List.forall_mem_cons]
  have hpositive := cap.positive
  exact ⟨rfl, accepts_strOrNull _, decide_eq_true (by omega), nofun⟩

/-- **A result renders to a value of its schema** exactly when each of its timestamps has a moment in UTC. -/
theorem accepts_renderResult_iff (r : ToolResult) : r.schema.accepts (.obj (renderResult r)) = true ↔
    ∀ m ∈ r.metadata, m.lastUpdated.astimezoneUTC.isSome = true := by
  cases r with
  | none => exact iff_of_true rfl nofun
  | file f =>
    rw [ToolResult.metadata, List.forall_mem_singleton]
    exact accepts_file_iff f
  | page p =>
    rw [ToolResult.metadata, ← accepts_entries_iff]
    refine accepts_object.trans ⟨fun h => h.2 _ List.mem_cons_self, fun h => ⟨fun key hkey => hkey, ?_⟩⟩
    simp only [renderResult, List.forall_mem_cons]
    exact ⟨h, accepts_strOrNull _, nofun⟩
  | index i =>
    rw [ToolResult.metadata, ← accepts_entries_iff]
    refine accepts_object.trans ⟨fun h => h.2 _ List.mem_cons_self, fun h => ⟨fun key hkey => hkey, ?_⟩⟩
    have hcapped : (Schema.array cappedRow).accepts (.arr (i.capped.map fun cap => .obj (cappedFields cap))) =
        true := by
      rw [accepts_array, List.forall_mem_map]
      exact fun cap _ => accepts_capped cap
    simp only [renderResult, List.forall_mem_cons]
    exact ⟨h, hcapped, nofun⟩

end

end Wenchang
