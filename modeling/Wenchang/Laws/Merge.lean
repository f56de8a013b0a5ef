import Wenchang.Core.MemoryIndex
import Wenchang.Ordered.Cut
import Wenchang.Laws.Metadata

/-!
# Merging entries into an index

`mergeIndex` sorts, cuts and counts. What it makes of entries with distinct well-formed paths is
stated without its code: the entries in load order (`LoadsBefore`), cut at the budget and counted by
area (`IndexOf`). Both are determined by the entries alone, so the order in which entries were
collected does not matter. The only exception it can raise is that of an entry which cannot be sized
(`mergeIndex_error`): the checks of `CappedPrefix` and `MemoryIndex` always pass.
-/

namespace Wenchang

open Py Ordered

section ForEach

variable {ε α β : Type} {f : α → Except ε β} {l : List α}

/-- A loop that raises nowhere returns what each step returns. -/
theorem forEach_eq {g : α → β} (h : ∀ a ∈ l, f a = .ok (g a)) : forEach f l = .ok (l.map g) := by
  induction l with
  | nil => rfl
  | cons a l ih =>
    unfold forEach
    rw [h a List.mem_cons_self, ih fun b hb => h b (List.mem_cons_of_mem _ hb)]
    rfl

/-- A loop whose steps return returns their values in order. -/
theorem forEach_exists (h : ∀ a ∈ l, ∃ b, f a = .ok b) :
    ∃ bs, forEach f l = .ok bs ∧ List.Forall₂ (fun a b => f a = .ok b) l bs := by
  induction l with
  | nil => exact ⟨[], rfl, .nil⟩
  | cons a l ih =>
    obtain ⟨b, hb⟩ := h a List.mem_cons_self
    obtain ⟨bs, hbs, hall⟩ := ih fun c hc => h c (List.mem_cons_of_mem _ hc)
    refine ⟨b :: bs, ?_, .cons hb hall⟩
    unfold forEach
    rw [hb, hbs]
    rfl

/-- What a loop raises one of its steps raises. -/
theorem forEach_error {e : ε} (h : forEach f l = .error e) : ∃ a ∈ l, f a = .error e := by
  induction l with
  | nil => cases h
  | cons a l ih =>
    unfold forEach at h
    cases ha : f a with
    | error e' =>
      rw [ha] at h
      cases h
      exact ⟨a, List.mem_cons_self, ha⟩
    | ok b =>
      cases hrest : forEach f l with
      | error e' =>
        rw [ha, hrest] at h
        cases h
        obtain ⟨c, hc, hce⟩ := ih hrest
        exact ⟨c, List.mem_cons_of_mem _ hc, hce⟩
      | ok bs =>
        rw [ha, hrest] at h
        cases h

/-- A loop does not return where one of its steps raises. -/
theorem forEach_ne_ok {a : α} {e : ε} {bs : List β} (ha : a ∈ l) (he : f a = .error e) :
    forEach f l ≠ .ok bs := by
  intro h
  have hall : ∀ {l : List α} {bs : List β}, forEach f l = .ok bs → ∀ a ∈ l, ∃ b, f a = .ok b := by
    intro l
    induction l with
    | nil => exact fun _ a ha => absurd ha List.not_mem_nil
    | cons c l ih =>
      intro bs h
      unfold forEach at h
      obtain ⟨b, hb, h⟩ := except_bind_eq_ok.mp h
      obtain ⟨bs', hbs', -⟩ := except_bind_eq_ok.mp h
      exact List.forall_mem_cons.mpr ⟨⟨b, hb⟩, ih hbs'⟩
  obtain ⟨b, hb⟩ := hall h a ha
  rw [he] at hb
  cases hb

end ForEach

/-! ## Sizes -/

/-- The size of an entry that can be sized. -/
def entrySize (entry : FileEntry) : Nat :=
  match indexEntryBytes entry with
  | .ok size => size
  | .error _ => 0

/-- The exception of an entry whose last-updated cannot be rendered in UTC. -/
def unrenderable : Exc :=
  .metadataFormatError lastUpdatedKey (str "last-updated cannot be rendered in UTC")

/-- An entry is sized, or cannot be rendered. -/
theorem indexEntryBytes_cases (entry : FileEntry) :
    indexEntryBytes entry = .ok (entrySize entry) ∨
      indexEntryBytes entry = .error unrenderable ∧
        entry.metadata.lastUpdated.astimezoneUTC.isSome = false := by
  unfold entrySize
  cases hutc : entry.metadata.lastUpdated.astimezoneUTC with
  | none =>
    right
    have hmap : metadataToMap entry.metadata = .error .overflowError := by
      unfold metadataToMap
      rw [hutc]
    unfold indexEntryBytes
    rw [hmap]
    exact ⟨rfl, rfl⟩
  | some utc =>
    left
    obtain ⟨map, hmap⟩ := exists_metadataToMap (Option.isSome_iff_exists.mpr ⟨utc, hutc⟩)
    unfold indexEntryBytes
    rw [hmap]

/-- The entries of a budget are the cut of their sizes. -/
theorem takeBudget_cut {budget total : Nat} (htotal : total ≤ budget) (files : List FileEntry) :
    Cut entrySize (budget - total) files
      (takeBudget budget total (files.map fun entry => (entry, entrySize entry))) := by
  induction files generalizing total with
  | nil => exact .nil
  | cons entry files ih =>
    rw [List.map_cons, takeBudget]
    split
    next hover => exact .stop (by omega)
    next hfits =>
      have hrest := ih (Nat.le_of_not_lt hfits)
      rw [Nat.sub_add_eq] at hrest
      exact .cons (by omega) hrest

section

variable [Interpreter]

/-! ## The order -/

/-- The parts of an entry's path. -/
def FileEntry.parts (entry : FileEntry) : PathParts :=
  match parsePath entry.path with
  | .ok parts => parts
  | .error _ => ⟨[], [], [], []⟩

/-- The area an entry is in, as a prefix. -/
def FileEntry.area (entry : FileEntry) : Str :=
  joinSegments [entry.parts.scope, entry.parts.entityId, entry.parts.area]

/-- When an entry was last updated, in microseconds. -/
def FileEntry.micros (entry : FileEntry) : Int := entry.metadata.lastUpdated.epochMicros

/-- System areas come first, then the scopes in the order of priority, then all others. -/
def tier (priority : List Str) (parts : PathParts) : Nat :=
  if parts.area = indexSystemArea then 0 else priority.idxOf parts.scope + 1

/-- The load order: by tier, then the most recent first, then by path. -/
def LoadsBefore (priority : List Str) (a b : FileEntry) : Prop :=
  tier priority a.parts < tier priority b.parts ∨
    tier priority a.parts = tier priority b.parts ∧
      (b.micros < a.micros ∨ a.micros = b.micros ∧ a.path < b.path)

/-- An index of files that are given in load order. -/
structure IndexOf (budget : Nat) (files : List FileEntry) (index : MemoryIndex) : Prop where
  cut : Cut entrySize budget files index.entries
  ascending : (index.capped.map (·.pre)).Pairwise (· < ·)
  omitted : ∀ area n, (∃ c ∈ index.capped, c.pre = area ∧ c.omitted = n) ↔
    0 < n ∧ n = (files.drop index.entries.length).countP (·.area = area)
  total : index.entries.length + (index.capped.map (·.omitted)).sum = files.length

/-- The parts of an entry are what its path parses as. -/
theorem FileEntry.parsePath_path {entry : FileEntry} (h : isValidPath entry.path = true) :
    parsePath entry.path = .ok entry.parts ∧ entry.parts.Valid ∧ entry.path = entry.parts.path := by
  obtain ⟨parts, hvalid, hpath⟩ := exists_parts h
  have hparse : parsePath entry.path = .ok parts := parsePath_eq_ok.mpr ⟨hvalid, hpath⟩
  have hparts : entry.parts = parts := by
    unfold FileEntry.parts
    rw [hparse]
  rw [hparts]
  exact ⟨hparse, hvalid, hpath⟩

/-- The area of an entry is a valid prefix. -/
theorem FileEntry.area_valid {entry : FileEntry} (h : isValidPath entry.path = true) :
    isValidPrefix entry.area = true ∧ areaPrefix entry.parts = .ok entry.area := by
  obtain ⟨-, hvalid, -⟩ := entry.parsePath_path h
  have hsegments : ∀ s ∈ [entry.parts.scope, entry.parts.entityId, entry.parts.area],
      isValidSegment s = true := by
    simp only [List.forall_mem_cons, hvalid.scope, hvalid.entityId, hvalid.area, List.not_mem_nil,
      false_implies, implies_true, and_self]
  constructor
  · exact isValidPrefix_joinSegments (List.cons_ne_nil _ _) (by simp) hsegments
  · have hbuild : buildPrefix entry.parts.scope (some entry.parts.entityId) (some entry.parts.area) =
        .ok entry.area := buildPrefix_eq_ok.mpr ⟨nofun, hsegments, rfl⟩
    rw [areaPrefix, hbuild]
    rfl

/-- No entry loads before itself. -/
theorem LoadsBefore.irrefl (priority : List Str) (a : FileEntry) : ¬ LoadsBefore priority a a := by
  rintro (h | ⟨-, h | ⟨-, h⟩⟩)
  · exact lt_irrefl _ h
  · exact lt_irrefl _ h
  · exact lt_irrefl _ h

/-- No two entries load before each other. -/
theorem LoadsBefore.asymm {priority : List Str} {a b : FileEntry} (h : LoadsBefore priority a b) :
    ¬ LoadsBefore priority b a := by
  rintro (h' | ⟨htier, h'⟩)
  · rcases h with h | ⟨htier, -⟩
    · exact lt_asymm h h'
    · exact absurd htier (ne_of_gt h')
  · rcases h with h | ⟨-, h⟩
    · exact absurd htier (ne_of_gt h)
    · rcases h with h | ⟨hmicros, h⟩
      · rcases h' with h' | ⟨hmicros, -⟩
        · exact lt_asymm h h'
        · exact absurd hmicros (ne_of_lt h)
      · rcases h' with h' | ⟨-, h'⟩
        · exact absurd hmicros (ne_of_lt h')
        · exact lt_asymm h h'

/-- **The load order determines the list.** -/
theorem LoadsBefore.list_unique {priority : List Str} {l l' : List FileEntry}
    (h : l.Pairwise (LoadsBefore priority)) (h' : l'.Pairwise (LoadsBefore priority))
    (hmem : ∀ e, e ∈ l ↔ e ∈ l') : l = l' := by
  have hirrefl : Std.Irrefl (LoadsBefore priority) := ⟨LoadsBefore.irrefl priority⟩
  have hantisymm : Std.Antisymm (LoadsBefore priority) := ⟨fun _ _ hab hba => absurd hba hab.asymm⟩
  exact h.eq_of_mem_iff h' hmem

/-- **The files determine the index.** -/
theorem IndexOf.unique {budget : Nat} {files : List FileEntry} {index index' : MemoryIndex}
    (h : IndexOf budget files index) (h' : IndexOf budget files index') : index = index' := by
  obtain ⟨entries, capped, hpaths, hprefixes⟩ := index
  obtain ⟨entries', capped', hpaths', hprefixes'⟩ := index'
  have hentries : entries = entries' := h.cut.unique h'.cut
  subst hentries
  have hsub : ∀ {c c' : CappedPrefix}, c.pre = c'.pre → c.omitted = c'.omitted → c = c' := by
    intro c c' hpre homitted
    cases c
    cases c'
    cases hpre
    cases homitted
    rfl
  have hmem : ∀ c, c ∈ capped ↔ c ∈ capped' := by
    intro c
    constructor
    · intro hc
      have hcount := (h.omitted c.pre c.omitted).mp ⟨c, hc, rfl, rfl⟩
      obtain ⟨c', hc', hpre, homitted⟩ := (h'.omitted c.pre c.omitted).mpr hcount
      exact hsub hpre homitted ▸ hc'
    · intro hc
      have hcount := (h'.omitted c.pre c.omitted).mp ⟨c, hc, rfl, rfl⟩
      obtain ⟨c', hc', hpre, homitted⟩ := (h.omitted c.pre c.omitted).mpr hcount
      exact hsub hpre homitted ▸ hc'
  have hsorted : capped.Pairwise (fun c c' => c.pre < c'.pre) := List.pairwise_map.mp h.ascending
  have hsorted' : capped'.Pairwise (fun c c' => c.pre < c'.pre) := List.pairwise_map.mp h'.ascending
  have hirrefl : Std.Irrefl fun c c' : CappedPrefix => c.pre < c'.pre := ⟨fun _ => lt_irrefl _⟩
  have hantisymm : Std.Antisymm fun c c' : CappedPrefix => c.pre < c'.pre :=
    ⟨fun _ _ hab hba => absurd hba (lt_asymm hab)⟩
  have hcapped : capped = capped' := hsorted.eq_of_mem_iff hsorted' hmem
  subst hcapped
  rfl

/-! ## Sorting -/

variable (s : MemoryStore)

/-- The key of an entry. -/
def loadKey (entry : FileEntry) : IndexKey := s.keyOf entry.parts entry

/-- The source's sort key orders as the load order does. -/
theorem loadsBefore_iff {a b : FileEntry} :
    LoadsBefore s.scopePriority a b ↔ loadKey s a < loadKey s b := by
  have hlex : ∀ {x x' y y' : Nat} {m m' : Int} {p p' : Str},
      (toLex (x, toLex (y, toLex (m, p))) : IndexKey) < toLex (x', toLex (y', toLex (m', p'))) ↔
        x < x' ∨ x = x' ∧ (y < y' ∨ y = y' ∧ (m < m' ∨ m = m' ∧ p < p')) := by
    intros
    simp only [Prod.Lex.toLex_lt_toLex]
  unfold LoadsBefore loadKey MemoryStore.keyOf tier MemoryStore.scopeRank FileEntry.micros
  split <;> split <;> simp [hlex]

/-- The order of loading tells paths apart. -/
theorem path_eq_of_loadKey_eq {a b : FileEntry} (h : loadKey s a = loadKey s b) : a.path = b.path := by
  have hpath : ∀ e : FileEntry, (ofLex (ofLex (ofLex (loadKey s e)).2).2).2 = e.path := by
    intro e
    unfold loadKey MemoryStore.keyOf
    split
    · rfl
    · rfl
  rw [← hpath a, h, hpath b]

/-- What `get_memory_index` does once the entries are in order. -/
def cutIndex (ordered : List FileEntry) : Except Exc MemoryIndex := do
  let sized ← forEach (fun entry => (indexEntryBytes entry).map (entry, ·)) ordered
  let included := takeBudget s.indexMaxBytes 0 sized
  let counts ← countAreas (ordered.drop included.length) .empty
  let capped ← forEach (fun pn => CappedPrefix.make pn.1 pn.2) counts.entries
  MemoryIndex.make included capped

/-- Merging sorts the entries in load order, and goes on with the list. -/
theorem mergeIndex_eq {collected : List FileEntry}
    (hpaths : ∀ e ∈ collected, isValidPath e.path = true)
    (hnodup : (collected.map (·.path)).Nodup) :
    ∃ files, files.Perm collected ∧ files.Pairwise (LoadsBefore s.scopePriority) ∧
      s.mergeIndex collected = cutIndex s files := by
  have hkeyed : forEach (fun entry => (s.sortKey entry).map (·, entry)) collected =
      .ok (collected.map fun entry => (loadKey s entry, entry)) := by
    apply forEach_eq
    intro e he
    obtain ⟨hparse, -⟩ := e.parsePath_path (hpaths e he)
    simp only [MemoryStore.sortKey, partsOf, hparse]
    rfl
  let order : IndexKey × FileEntry → IndexKey × FileEntry → Prop := fun a b => a.1 ≤ b.1
  have htotal : Std.Total order := ⟨fun a b => le_total a.1 b.1⟩
  have htrans : IsTrans _ order := ⟨fun _ _ _ => le_trans⟩
  generalize hk : (collected.map fun entry => (loadKey s entry, entry)) = keyed at hkeyed
  have hperm : (keyed.insertionSort order).Perm keyed := List.perm_insertionSort _ _
  have hkey : ∀ ke ∈ keyed.insertionSort order, ke.1 = loadKey s ke.2 := by
    intro ke hke
    rw [hperm.mem_iff, ← hk] at hke
    obtain ⟨e, -, rfl⟩ := List.mem_map.mp hke
    rfl
  have hfiles : ((keyed.insertionSort order).map (·.2)).Perm collected := by
    have hmap := hperm.map (·.2)
    rw [← hk, List.map_map] at hmap
    rw [← hk]
    exact hmap.trans (List.Perm.of_eq (List.map_id collected))
  refine ⟨(keyed.insertionSort order).map (·.2), hfiles, ?_, ?_⟩
  · -- Keys are distinct, since paths are.
    have hdistinct : (keyed.insertionSort order).Pairwise fun a b => a.2.path ≠ b.2.path := by
      have hpathsNodup := (hfiles.map (·.path)).nodup_iff.mpr hnodup
      rw [List.map_map] at hpathsNodup
      exact List.pairwise_map.mp hpathsNodup
    rw [List.pairwise_map]
    have hsorted := List.pairwise_insertionSort order keyed
    refine (hsorted.and hdistinct).imp_of_mem fun {a b} ha hb hab => ?_
    obtain ⟨hle, hne⟩ := hab
    rw [loadsBefore_iff, ← hkey a ha, ← hkey b hb]
    refine lt_of_le_of_ne hle fun heq => hne ?_
    rw [hkey a ha, hkey b hb] at heq
    exact path_eq_of_loadKey_eq s heq
  · unfold MemoryStore.mergeIndex
    rw [hkeyed]
    rfl

/-! ## Cutting and counting -/

/-- Counting on counts the areas of the files. -/
theorem countAreas_counts {files : List FileEntry} (hpaths : ∀ e ∈ files, isValidPath e.path = true)
    {counts : FinMap Str Nat} {seen : List Str} (h : Counts counts seen) :
    ∃ counts', countAreas files counts = .ok counts' ∧ Counts counts' (seen ++ files.map (·.area)) := by
  induction files generalizing counts seen with
  | nil => exact ⟨counts, rfl, by rwa [List.map_nil, List.append_nil]⟩
  | cons entry files ih =>
    have hpath := hpaths entry List.mem_cons_self
    have hparts : partsOf entry = .ok entry.parts := by
      rw [partsOf, (entry.parsePath_path hpath).1]
      rfl
    obtain ⟨counts', hcounts', hall⟩ :=
      ih (fun e he => hpaths e (List.mem_cons_of_mem _ he)) (h.concat entry.area)
    refine ⟨counts', ?_, ?_⟩
    · unfold countAreas
      rw [hparts]
      show (areaPrefix entry.parts >>= _) = _
      rw [(entry.area_valid hpath).2]
      exact hcounts'
    · rw [List.append_assoc] at hall
      exact hall

/-- A capped prefix is made of its fields. -/
theorem CappedPrefix.make_eq_ok {pre : Str} {omitted : Nat} {c : CappedPrefix}
    (h : CappedPrefix.make pre omitted = .ok c) : c.pre = pre ∧ c.omitted = omitted := by
  unfold CappedPrefix.make at h
  split at h
  next hvalid =>
    split at h
    next hpos =>
      cases h
      exact ⟨rfl, rfl⟩
    next => cases h
  next => cases h

/-- A valid prefix with files left out is capped. -/
theorem CappedPrefix.exists_make {pre : Str} {omitted : Nat} (hvalid : isValidPrefix pre = true)
    (hpos : 0 < omitted) : ∃ c, CappedPrefix.make pre omitted = .ok c := by
  unfold CappedPrefix.make
  rw [dif_pos hvalid, dif_pos hpos]
  exact ⟨_, rfl⟩

/-- Distinct paths and prefixes make an index. -/
theorem MemoryIndex.exists_make {entries : List FileEntry} {capped : List CappedPrefix}
    (hentries : (entries.map (·.path)).Nodup) (hcapped : (capped.map (·.pre)).Nodup) :
    ∃ index, MemoryIndex.make entries capped = .ok index ∧ index.entries = entries ∧
      index.capped = capped := by
  unfold MemoryIndex.make
  rw [dif_pos hentries, dif_pos hcapped]
  exact ⟨_, rfl, rfl, rfl⟩

/-- **The index of files in load order.** -/
theorem cutIndex_eq_ok {files : List FileEntry} (hpaths : ∀ e ∈ files, isValidPath e.path = true)
    (hnodup : (files.map (·.path)).Nodup)
    (hsize : ∀ e ∈ files, indexEntryBytes e = .ok (entrySize e)) :
    ∃ index, cutIndex s files = .ok index ∧ IndexOf s.indexMaxBytes files index := by
  have hsized : forEach (fun entry => (indexEntryBytes entry).map (entry, ·)) files =
      .ok (files.map fun entry => (entry, entrySize entry)) := by
    apply forEach_eq
    intro e he
    rw [hsize e he]
    rfl
  have hcut : Cut entrySize s.indexMaxBytes files
      (takeBudget s.indexMaxBytes 0 (files.map fun entry => (entry, entrySize entry))) :=
    takeBudget_cut (Nat.zero_le _) files
  generalize hincluded : takeBudget s.indexMaxBytes 0
    (files.map fun entry => (entry, entrySize entry)) = included at hcut
  have hrest : ∀ e ∈ files.drop included.length, isValidPath e.path = true :=
    fun e he => hpaths e (List.mem_of_mem_drop he)
  obtain ⟨counts, hcounts, hall⟩ := countAreas_counts hrest counts_empty
  rw [List.nil_append] at hall
  have hmake : ∀ pn ∈ counts.entries, ∃ c, CappedPrefix.make pn.1 pn.2 = .ok c := by
    rintro ⟨pre, n⟩ hpn
    obtain ⟨hpos, hmem⟩ := hall.of_mem_entries hpn
    obtain ⟨e, he, rfl⟩ := List.mem_map.mp hmem
    exact CappedPrefix.exists_make (e.area_valid (hrest e he)).1 hpos
  obtain ⟨capped, hcapped, hforall⟩ := forEach_exists hmake
  have hpairs : capped.map (fun c => (c.pre, c.omitted)) = counts.entries := by
    clear hcapped hmake hcounts hall
    generalize counts.entries = pairs at hforall
    induction hforall with
    | nil => rfl
    | cons h _ ih =>
      obtain ⟨hpre, homitted⟩ := CappedPrefix.make_eq_ok h
      rw [List.map_cons, ih, hpre, homitted]
  have hascending : (capped.map (·.pre)).Pairwise (· < ·) := by
    have hpre : capped.map (·.pre) = counts.entries.map (·.1) := by
      rw [← hpairs, List.map_map]
      rfl
    rw [hpre, List.pairwise_map]
    exact counts.sorted
  have hincludedNodup : (included.map (·.path)).Nodup :=
    hnodup.sublist (hcut.isPrefix.sublist.map _)
  obtain ⟨index, hindex, rfl, rfl⟩ := MemoryIndex.exists_make hincludedNodup (hascending.imp ne_of_lt)
  refine ⟨index, ?_, hcut, hascending, ?_, ?_⟩
  · unfold cutIndex
    rw [hsized]
    show (countAreas (files.drop (takeBudget _ _ _).length) .empty >>= _) = _
    rw [hincluded, hcounts]
    show (forEach _ counts.entries >>= _) = _
    rw [hcapped]
    exact hindex
  · intro area n
    have hmem : (∃ c ∈ index.capped, c.pre = area ∧ c.omitted = n) ↔ (area, n) ∈ counts.entries := by
      rw [← hpairs, List.mem_map]
      simp only [Prod.mk.injEq]
    rw [hmem, hall.mem_entries, List.countP_map]
    rfl
  · have hsum : index.capped.map (·.omitted) = counts.entries.map (·.2) := by
      rw [← hpairs, List.map_map]
      rfl
    have hlen := hcut.isPrefix.length_le
    rw [hsum, hall.sum_eq, List.length_map, List.length_drop]
    omega

/-- An index raises only for a moment that cannot be rendered. -/
theorem cutIndex_error {files : List FileEntry} (hpaths : ∀ e ∈ files, isValidPath e.path = true)
    (hnodup : (files.map (·.path)).Nodup) {e : Exc} (h : cutIndex s files = .error e) :
    e = unrenderable := by
  by_cases hsize : ∀ f ∈ files, indexEntryBytes f = .ok (entrySize f)
  · obtain ⟨index, hindex, -⟩ := cutIndex_eq_ok s hpaths hnodup hsize
    rw [hindex] at h
    cases h
  · cases hsized : forEach (fun entry => (indexEntryBytes entry).map (entry, ·)) files with
    | error e' =>
      have he : e' = e := by
        unfold cutIndex at h
        rw [hsized] at h
        cases h
        rfl
      obtain ⟨f, -, hf⟩ := forEach_error hsized
      rcases indexEntryBytes_cases f with hok | ⟨herr, -⟩
      · rw [hok] at hf
        cases hf
      · rw [herr] at hf
        cases hf
        exact he.symm
    | ok sized =>
      exfalso
      apply hsize
      intro f hf
      rcases indexEntryBytes_cases f with hok | ⟨herr, -⟩
      · exact hok
      · exact absurd hsized (forEach_ne_ok hf (by rw [herr]; rfl))

/-- **The index of entries**, in whatever order they were collected. -/
theorem mergeIndex_eq_ok {collected : List FileEntry}
    (hpaths : ∀ e ∈ collected, isValidPath e.path = true)
    (hnodup : (collected.map (·.path)).Nodup)
    (hrender : ∀ e ∈ collected, e.metadata.lastUpdated.astimezoneUTC.isSome = true) :
    ∃ files index, s.mergeIndex collected = .ok index ∧ files.Perm collected ∧
      files.Pairwise (LoadsBefore s.scopePriority) ∧ IndexOf s.indexMaxBytes files index := by
  obtain ⟨files, hperm, hsorted, hmerge⟩ := mergeIndex_eq s hpaths hnodup
  have hsize : ∀ e ∈ files, indexEntryBytes e = .ok (entrySize e) := by
    intro e he
    rcases indexEntryBytes_cases e with hok | ⟨-, hnone⟩
    · exact hok
    · rw [hrender e (hperm.mem_iff.mp he)] at hnone
      cases hnone
  obtain ⟨index, hindex, hspec⟩ := cutIndex_eq_ok s (fun e he => hpaths e (hperm.mem_iff.mp he))
    ((hperm.map _).nodup_iff.mpr hnodup) hsize
  exact ⟨files, index, hmerge.trans hindex, hperm, hsorted, hspec⟩

/-- **Merging checks nothing that can fail** but the size of an entry. -/
theorem mergeIndex_error {collected : List FileEntry}
    (hpaths : ∀ e ∈ collected, isValidPath e.path = true)
    (hnodup : (collected.map (·.path)).Nodup) {e : Exc} (h : s.mergeIndex collected = .error e) :
    e = unrenderable := by
  obtain ⟨files, hperm, -, hmerge⟩ := mergeIndex_eq s hpaths hnodup
  rw [hmerge] at h
  exact cutIndex_error s (fun e he => hpaths e (hperm.mem_iff.mp he))
    ((hperm.map _).nodup_iff.mpr hnodup) h

end

end Wenchang
