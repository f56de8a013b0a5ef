import Wenchang.Laws.Metadata
import Wenchang.Laws.Mutators

/-!
# What an edit writes

`Mutator.Edits` says what a put writes in terms of the object that was read. Here is what follows for
the written metadata: it can be stored, and it keeps the sources and, for `append_line` and
`replace_fact`, the aliases that were stored.
-/

namespace Wenchang

open Py Ordered

/-- Replaced metadata has its fields. -/
theorem replaceMetadata_eq_ok {description : Str} {aliases : List Str} {sources : FinSet Str}
    {now : DateTime} {m : FileMetadata}
    (h : replaceMetadata description aliases sources now = .ok m) :
    m.description = description ∧ m.aliases = aliases ∧ m.sources = sources ∧ m.lastUpdated = now := by
  unfold replaceMetadata FileMetadata.make at h
  split at h
  · split at h
    · obtain rfl := Except.ok.inj h
      exact ⟨rfl, rfl, rfl, rfl⟩
    · cases h
  · cases h

/-! ## Aliases -/

/-- Merging keeps the stored aliases and adds the new ones, each at its first occurrence. -/
theorem mergeAliases_eq (stored aliases : List Str) :
    mergeAliases stored aliases = stored ++ (aliases.filter (· ∉ stored)).eraseDups := by
  unfold mergeAliases
  induction aliases generalizing stored with
  | nil => simp
  | cons a aliases ih =>
    rw [List.foldl_cons]
    by_cases ha : a ∈ stored
    · rw [if_pos ha, ih, List.filter_cons_of_neg (by simpa using ha)]
    · have hrest : (aliases.filter (· ∉ stored ++ [a])) =
          (aliases.filter (· ∉ stored)).filter fun b => !b == a := by
        rw [List.filter_filter]
        exact List.filter_congr fun b _ => by simp [beq_eq_decide, and_comm]
      rw [if_neg ha, ih, hrest, List.filter_cons_of_pos (by simpa using ha), List.eraseDups_cons,
        List.append_assoc]
      rfl

/-- Merged aliases are the stored ones and the new ones. -/
theorem mem_mergeAliases {stored aliases : List Str} {a : Str} :
    a ∈ mergeAliases stored aliases ↔ a ∈ stored ∨ a ∈ aliases := by
  rw [mergeAliases_eq, List.mem_append, List.mem_eraseDups, List.mem_filter]
  by_cases ha : a ∈ stored <;> simp [ha]

/-! ## Metadata -/

/-- The aliases and sources a mutator is called with. -/
def Mutator.names : Mutator → List Str
  | .writeFile _ _ metadata _ source => source :: metadata.aliases ++ metadata.sources.toList
  | .replaceFact _ _ _ _ source aliases _ => source :: aliases.getD []
  | .appendLine _ _ _ source aliases _ => source :: aliases.getD []
  | .deleteFile _ _ => []

variable {s : MemoryStore} {m : Mutator} {now : DateTime} {w : Written}

/-- An edit of a stored file by the aliases and the source it is given. -/
theorem Written.Merged.storable {stored : FileMetadata} {source : Str} {aliases : Option (List Str)}
    {description : Option Str} (h : w.Merged s stored source aliases description now)
    (hstored : stored.Storable) (hnames : ∀ a ∈ source :: aliases.getD [], Py.Scalar a) :
    w.metadata.Storable := by
  obtain ⟨-, haliases, hsources, -⟩ := replaceMetadata_eq_ok h.metadata
  refine ⟨fun a ha => ?_, fun a ha => ?_⟩
  · rw [haliases] at ha
    rcases mem_mergeAliases.mp ha with ha | ha
    · exact hstored.aliases a ha
    · exact (hnames a (List.mem_cons_of_mem _ ha)).joined
  · rw [hsources] at ha
    rcases FinSet.mem_insert.mp ha with rfl | ha
    · exact (hnames a List.mem_cons_self).joined
    · exact hstored.sources a ha

variable [Interpreter]

/-- An edit of a stored file keeps its sources and adds one. -/
theorem Written.Merged.keeps_sources {obj : StoredObject} {stored : FileMetadata} {source : Str}
    {aliases : Option (List Str)} {description : Option Str}
    (h : w.Merged s stored source aliases description now)
    (hstored : metadataFromMap obj.metadata = .ok stored) :
    (∀ a ∈ some source, a ∈ w.metadata.sources) ∧
      ∀ obj' ∈ some obj, ∀ stored', metadataFromMap obj'.metadata = .ok stored' →
        ∀ a ∈ stored'.sources, a ∈ w.metadata.sources := by
  obtain ⟨-, -, hall, -⟩ := replaceMetadata_eq_ok h.metadata
  refine ⟨fun a ha => ?_, fun obj' hobj stored' hstored' a ha => ?_⟩
  · rw [hall, FinSet.mem_insert]
    exact .inl (Option.some.inj ha).symm
  · cases hobj
    cases hstored.symm.trans hstored'
    rw [hall, FinSet.mem_insert]
    exact .inr ha

/-- **What a mutator writes can be stored**, if what it is given and what it read can. -/
theorem Mutator.Edits.storable {read : Option StoredObject} (h : m.Edits s now w read)
    (hread : ∀ obj ∈ read, ∀ stored, metadataFromMap obj.metadata = .ok stored → stored.Storable)
    (hnames : ∀ a ∈ m.names, Py.Scalar a) : w.metadata.Storable := by
  cases m with
  | writeFile path content metadata expected source =>
    have hgiven : ∀ a ∈ metadata.aliases, Joined a := fun a ha =>
      (hnames a (List.mem_append_left _ (List.mem_cons_of_mem _ ha))).joined
    have hsource : Joined source := (hnames source (List.mem_append_left _ List.mem_cons_self)).joined
    have hsources : ∀ a ∈ metadata.sources, Joined a := fun a ha =>
      (hnames a (List.mem_append_right _ ha)).joined
    cases expected with
    | none =>
      cases read with
      | none =>
        obtain ⟨-, haliases, hall, -⟩ := replaceMetadata_eq_ok h.2.metadata
        refine ⟨haliases ▸ hgiven, fun a ha => ?_⟩
        rw [hall] at ha
        rcases FinSet.mem_insert.mp ha with rfl | ha
        · exact hsource
        · exact hsources a ha
      | some obj => exact h.elim
    | some expected =>
      cases read with
      | none => exact h.elim
      | some obj =>
        obtain ⟨-, -, stored, hstored, hw⟩ := h
        have hold := hread obj rfl stored hstored
        obtain ⟨-, haliases, hall, -⟩ := replaceMetadata_eq_ok hw.metadata
        refine ⟨haliases ▸ hgiven, fun a ha => ?_⟩
        rw [hall] at ha
        rcases FinSet.mem_insert.mp ha with rfl | ha
        · exact hsource
        · exact (FinSet.mem_union.mp ha).elim (hold.sources a) (hsources a)
  | replaceFact path oldString newString expected source aliases description =>
    cases read with
    | none => exact h.elim
    | some obj =>
      obtain ⟨content, stored, -, hstored, -, -, hw⟩ := h
      exact hw.storable (hread obj rfl stored hstored) hnames
  | appendLine path line expected source aliases description =>
    cases read with
    | none => exact h.elim
    | some obj =>
      obtain ⟨-, content, stored, -, hstored, -, hw⟩ := h
      exact hw.storable (hread obj rfl stored hstored) hnames
  | deleteFile path expected => exact h.elim

/-- What a mutator writes fits. -/
theorem Mutator.Edits.size {read : Option StoredObject} (h : m.Edits s now w read) :
    w.data.length ≤ s.maxFileBytes := by
  cases m with
  | writeFile path content metadata expected source =>
    cases expected <;> cases read
    · exact h.2.size
    · exact h.elim
    · exact h.elim
    · obtain ⟨-, -, stored, -, hw⟩ := h
      exact hw.size
  | replaceFact path oldString newString expected source aliases description =>
    cases read with
    | none => exact h.elim
    | some obj =>
      obtain ⟨content, stored, -, -, -, -, hw⟩ := h
      exact hw.size
  | appendLine path line expected source aliases description =>
    cases read with
    | none => exact h.elim
    | some obj =>
      obtain ⟨-, content, stored, -, -, -, hw⟩ := h
      exact hw.size
  | deleteFile path expected => exact h.elim

/-- The source a mutator records. -/
def Mutator.source : Mutator → Option Str
  | .writeFile _ _ _ _ source => some source
  | .replaceFact _ _ _ _ source _ _ => some source
  | .appendLine _ _ _ source _ _ => some source
  | .deleteFile _ _ => none

/-- **A write records its source and keeps those that are stored**, whatever it replaces. -/
theorem Mutator.Edits.sources {read : Option StoredObject} (h : m.Edits s now w read) :
    (∀ source ∈ m.source, source ∈ w.metadata.sources) ∧
      ∀ obj ∈ read, ∀ stored, metadataFromMap obj.metadata = .ok stored →
        ∀ a ∈ stored.sources, a ∈ w.metadata.sources := by
  cases m with
  | writeFile path content metadata expected source =>
    cases expected <;> cases read
    · obtain ⟨-, -, hall, -⟩ := replaceMetadata_eq_ok h.2.metadata
      refine ⟨fun a ha => ?_, fun obj hobj => nomatch hobj⟩
      rw [hall, FinSet.mem_insert]
      exact .inl (Option.some.inj ha).symm
    · exact h.elim
    · exact h.elim
    · obtain ⟨-, -, stored, hstored, hw⟩ := h
      obtain ⟨-, -, hall, -⟩ := replaceMetadata_eq_ok hw.metadata
      refine ⟨fun a ha => ?_, fun obj hobj stored' hstored' a ha => ?_⟩
      · rw [hall, FinSet.mem_insert]
        exact .inl (Option.some.inj ha).symm
      · cases hobj
        cases hstored.symm.trans hstored'
        rw [hall, FinSet.mem_insert, FinSet.mem_union]
        exact .inr (.inl ha)
  | replaceFact path oldString newString expected source aliases description =>
    cases read with
    | none => exact h.elim
    | some obj =>
      obtain ⟨content, stored, -, hstored, -, -, hw⟩ := h
      exact hw.keeps_sources hstored
  | appendLine path line expected source aliases description =>
    cases read with
    | none => exact h.elim
    | some obj =>
      obtain ⟨-, content, stored, -, hstored, -, hw⟩ := h
      exact hw.keeps_sources hstored
  | deleteFile path expected => exact h.elim

/-- The aliases that an `append_line` or a `replace_fact` is called with. -/
def Mutator.addedAliases : Mutator → Option (List Str)
  | .replaceFact _ _ _ _ _ aliases _ => some (aliases.getD [])
  | .appendLine _ _ _ _ aliases _ => some (aliases.getD [])
  | _ => none

/-- **`append_line` and `replace_fact` keep the stored aliases** and add those that are new. -/
theorem Mutator.Edits.aliases {read : Option StoredObject} (h : m.Edits s now w read)
    {added : List Str} (hadded : m.addedAliases = some added) :
    ∃ obj stored, read = some obj ∧ metadataFromMap obj.metadata = .ok stored ∧
      w.metadata.aliases = stored.aliases ++ (added.filter (· ∉ stored.aliases)).eraseDups := by
  cases m with
  | writeFile path content metadata expected source => cases hadded
  | replaceFact path oldString newString expected source aliases description =>
    cases hadded
    cases read with
    | none => exact h.elim
    | some obj =>
      obtain ⟨content, stored, -, hstored, -, -, hw⟩ := h
      obtain ⟨-, haliases, -⟩ := replaceMetadata_eq_ok hw.metadata
      exact ⟨obj, stored, rfl, hstored, haliases.trans (mergeAliases_eq _ _)⟩
  | appendLine path line expected source aliases description =>
    cases hadded
    cases read with
    | none => exact h.elim
    | some obj =>
      obtain ⟨-, content, stored, -, hstored, -, hw⟩ := h
      obtain ⟨-, haliases, -⟩ := replaceMetadata_eq_ok hw.metadata
      exact ⟨obj, stored, rfl, hstored, haliases.trans (mergeAliases_eq _ _)⟩
  | deleteFile path expected => cases hadded

end Wenchang
