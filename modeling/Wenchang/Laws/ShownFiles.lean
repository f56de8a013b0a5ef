import Wenchang.Laws.FreshIndex

/-!
# What listings show

In a storage of files a listing shows every key under its prefix, and an index every file that was merged:
as an entry, or among the files counted for its area. Paging to the end and the index without a cache
come to this exactly where the listings can be paged.
-/

namespace Wenchang

open Py Ordered Interaction

/-! ## Files -/

section

variable [Interpreter]

/-- A storage of files: every key is a path, and every file's metadata can be read and rendered. -/
structure FilesOnly (st : InMemoryStorage) : Prop where
  path : ∀ k obj, st.get k = some obj → isValidPath k = true
  metadata : ∀ k obj, st.get k = some obj →
    ∃ m, metadataFromMap obj.metadata = .ok m ∧ m.lastUpdated.astimezoneUTC.isSome = true

variable {st : InMemoryStorage}

/-- Valid files are readable. -/
theorem FilesOnly.readable (h : FilesOnly st) (pre : Str) (after : Option Str) :
    Readable (st.listing pre after) := by
  intro o ho _
  obtain ⟨-, -, obj, hobj, hlisted⟩ := mem_listing.mp ho
  obtain ⟨m, hm, -⟩ := h.metadata _ _ hobj
  exact ⟨m, by rw [hlisted]; exact hm⟩

/-- A listing of valid files is pageable where its pages' last keys are encoded. -/
theorem FilesOnly.pageable_iff (h : FilesOnly st) {size : Nat} {pre : Str} {after : Option Str} :
    Pageable size (st.listing pre after) ↔ PagesEncode size (st.listing pre after) :=
  ⟨Pageable.encode, fun hencode => ⟨h.readable pre after, hencode⟩⟩

/-- A listing shows every key under its prefix. -/
theorem FilesOnly.paths (h : FilesOnly st) (pre : Str) :
    (st.listEntries pre).map (·.path) = (st.listing pre none).map (·.key) := by
  rw [InMemoryStorage.listEntries, paths_filterMap (h.readable pre none), List.filter_eq_self]
  intro k hk
  obtain ⟨o, ho, rfl⟩ := List.mem_map.mp hk
  obtain ⟨-, -, obj, hobj, -⟩ := mem_listing.mp ho
  exact h.path _ _ hobj

/-- The entries of valid files are those below the prefix. -/
theorem FilesOnly.mem_paths (h : FilesOnly st) {pre k : Str} :
    k ∈ (st.listEntries pre).map (·.path) ↔ k ∈ st.under pre := by
  rw [h.paths]
  constructor
  · intro hk
    obtain ⟨o, ho, rfl⟩ := List.mem_map.mp hk
    obtain ⟨hunder, -, obj, hobj, -⟩ := mem_listing.mp ho
    exact ⟨by rw [hobj]; rfl, hunder⟩
  · rintro ⟨hthere, hunder⟩
    obtain ⟨obj, hobj⟩ := Option.isSome_iff_exists.mp hthere
    have hmem : listed k obj ∈ st.listing pre none :=
      mem_listing.mpr ⟨hunder, fun b hb => (nomatch hb), obj, hobj, rfl⟩
    exact List.mem_map_of_mem hmem

/-- A listing shows each path once, all under its prefix. -/
theorem FilesOnly.oneEntity (h : FilesOnly st) (pre : Str) : OneEntity pre (st.listEntries pre) where
  nodup := by
    rw [h.paths]
    exact (read_listing st pre none).sorted.imp ne_of_lt
  path e he := by
    obtain ⟨hthere, -⟩ := h.mem_paths.mp (List.mem_map_of_mem he)
    obtain ⟨obj, hobj⟩ := Option.isSome_iff_exists.mp hthere
    exact h.path _ obj hobj
  under e he := (h.mem_paths.mp (List.mem_map_of_mem he)).2

/-- A path appears in an index: as an entry, or among the files counted for its area. -/
def Appears (index : MemoryIndex) (k : Str) : Prop :=
  k ∈ index.entries.map (·.path) ∨ ∃ c ∈ index.capped, c.pre.isPrefixOf k = true

/-- Every path that is stored for the mapped entities appears. -/
def ShowsAll (st : InMemoryStorage) (scopeMap : List (Str × Str)) (index : MemoryIndex) : Prop :=
  ∀ pair ∈ scopeMap, ∀ k ∈ st.under (entityPrefix pair.1 pair.2), Appears index k

/-- A file is below its area. -/
theorem area_isPrefixOf {e : FileEntry} (h : isValidPath e.path = true) :
    e.area.isPrefixOf e.path = true := by
  obtain ⟨-, hvalid, hpath⟩ := e.parsePath_path h
  have hsegments : ∀ segment ∈ [e.parts.scope, e.parts.entityId, e.parts.area],
      isValidSegment segment = true := by
    simp [hvalid.scope, hvalid.entityId, hvalid.area]
  rw [hpath]
  exact List.isPrefixOf_iff_prefix.mpr ((hvalid.prefix_iff hsegments).mpr ⟨[], rfl⟩)

/-- **A file that is indexed appears**, as an entry or in its area's count. -/
theorem IndexOf.appears {budget : Nat} {files : List FileEntry} {index : MemoryIndex}
    (h : IndexOf budget files index) (hpaths : ∀ e ∈ files, isValidPath e.path = true) {e : FileEntry}
    (he : e ∈ files) : Appears index e.path := by
  obtain ⟨rest, rfl⟩ := h.cut.isPrefix
  rcases List.mem_append.mp he with he | he
  · exact .inl (List.mem_map_of_mem he)
  · have hcount : 0 < ((index.entries ++ rest).drop index.entries.length).countP (·.area = e.area) := by
      rw [List.drop_left, List.countP_pos_iff]
      exact ⟨e, he, by simp⟩
    obtain ⟨c, hc, hpre, -⟩ := (h.omitted e.area _).mpr ⟨hcount, rfl⟩
    exact .inr ⟨c, hc, hpre ▸ area_isPrefixOf (hpaths e (List.mem_append_right _ he))⟩

/-- A budget that all files fit in cuts nothing. -/
theorem IndexOf.whole {budget : Nat} {files : List FileEntry} {index : MemoryIndex}
    (h : IndexOf budget files index) (hfit : (files.map entrySize).sum ≤ budget) :
    index.entries = files ∧ index.capped = [] := by
  have hentries : index.entries = files := by
    have hlongest := h.cut.longest files List.prefix_rfl hfit
    exact h.cut.isPrefix.eq_of_length (le_antisymm h.cut.isPrefix.length_le hlongest.length_le)
  refine ⟨hentries, List.eq_nil_iff_forall_not_mem.mpr fun c hc => ?_⟩
  obtain ⟨hpos, hcount⟩ := (h.omitted c.pre c.omitted).mp ⟨c, hc, rfl, rfl⟩
  rw [hentries, List.drop_length, List.countP_nil] at hcount
  omega

/-- The files of some entities, as a reader may have got them. -/
structure ShowsFiles (st : InMemoryStorage) (pairs : List (Str × Str)) (entries : List FileEntry) :
    Prop where
  paths : entries.map (·.path) =
    pairs.flatMap fun pair => (st.listEntries (entityPrefix pair.1 pair.2)).map (·.path)
  renderable : ∀ e ∈ entries, e.metadata.lastUpdated.astimezoneUTC.isSome = true

/-- No entity has no files to show. -/
theorem showsFiles_nil : ShowsFiles st [] [] := ⟨rfl, by simp⟩

/-- The files of one more entity are shown. -/
theorem ShowsFiles.cons {pair : Str × Str} {pairs : List (Str × Str)} {entries collected : List FileEntry}
    (h : ShowsFiles st [pair] entries) (hrest : ShowsFiles st pairs collected) :
    ShowsFiles st (pair :: pairs) (entries ++ collected) where
  paths := by
    rw [List.map_append, h.paths, hrest.paths]
    simp
  renderable e he := (List.mem_append.mp he).elim (h.renderable e) (hrest.renderable e)

/-- Whatever a listing shows was last updated at a time that can be rendered. -/
theorem FilesOnly.renderable (h : FilesOnly st) {pre : Str} {e : FileEntry} (he : e ∈ st.listEntries pre) :
    e.metadata.lastUpdated.astimezoneUTC.isSome = true := by
  obtain ⟨o, ho, hentry⟩ := List.mem_filterMap.mp he
  obtain ⟨-, -, -, hmetadata⟩ := entryOf_eq_some hentry
  obtain ⟨-, -, obj, hobj, hlisted⟩ := mem_listing.mp ho
  obtain ⟨m, hm, hutc⟩ := h.metadata _ _ hobj
  rw [hlisted] at hmetadata
  obtain rfl := Except.ok.inj (hmetadata.symm.trans hm)
  exact hutc

/-- A whole listing shows the files of its entity. -/
theorem FilesOnly.shows (h : FilesOnly st) (scope entityId : Str) :
    ShowsFiles st [(scope, entityId)] (st.listEntries (entityPrefix scope entityId)) where
  paths := by simp
  renderable _ he := h.renderable he

/-- Entities share no path. -/
theorem FilesOnly.nodup (h : FilesOnly st) {pairs : List (Str × Str)} (hpairs : ValidScopeMap pairs) :
    (pairs.flatMap fun pair => (st.listEntries (entityPrefix pair.1 pair.2)).map (·.path)).Nodup := by
  rw [List.nodup_flatMap]
  constructor
  · intro pair _
    exact (h.oneEntity _).nodup
  · refine (List.pairwise_map.mp hpairs.scopes).imp_of_mem fun {a b} ha hb hne k hka hkb => hne ?_
    obtain ⟨hthere, hunder⟩ := h.mem_paths.mp hka
    obtain ⟨-, hunder'⟩ := h.mem_paths.mp hkb
    obtain ⟨obj, hobj⟩ := Option.isSome_iff_exists.mp hthere
    obtain ⟨hs, he⟩ := hpairs.segments a ha
    obtain ⟨hs', he'⟩ := hpairs.segments b hb
    exact (entityPrefix_inj (h.path k obj hobj) hs he hs' he' hunder hunder').1

/-- **Every stored path appears** in the index that is merged of the entities' files. -/
theorem ShowsFiles.merge (s : MemoryStore) (h : FilesOnly st) {pairs : List (Str × Str)}
    (hpairs : ValidScopeMap pairs) {collected : List FileEntry} (hcollected : ShowsFiles st pairs collected) :
    ∃ index, s.mergeIndex collected = .ok index ∧ ShowsAll st pairs index := by
  have hmem : ∀ k, k ∈ collected.map (·.path) ↔
      ∃ pair ∈ pairs, k ∈ st.under (entityPrefix pair.1 pair.2) := by
    intro k
    rw [hcollected.paths, List.mem_flatMap]
    simp only [h.mem_paths]
  have hvalid : ∀ e ∈ collected, isValidPath e.path = true := by
    intro e he
    obtain ⟨pair, -, hthere, -⟩ := (hmem e.path).mp (List.mem_map_of_mem he)
    obtain ⟨obj, hobj⟩ := Option.isSome_iff_exists.mp hthere
    exact h.path _ obj hobj
  have hnodup : (collected.map (·.path)).Nodup := by
    rw [hcollected.paths]
    exact h.nodup hpairs
  obtain ⟨files, index, hmerge, hperm, -, hindex⟩ :=
    mergeIndex_eq_ok s hvalid hnodup hcollected.renderable
  refine ⟨index, hmerge, fun pair hpair k hk => ?_⟩
  obtain ⟨e, he, rfl⟩ := List.mem_map.mp ((hmem k).mpr ⟨pair, hpair, hk⟩)
  exact hindex.appears (fun e' he' => hvalid e' (hperm.mem_iff.mp he')) (hperm.mem_iff.mpr he)

/-! ## Without a cache -/

variable (s : MemoryStore) (now : DateTime)

/-- **Paging to the end** shows what is there, or raises where that is not pageable. -/
theorem run_drain_pageable {pre : Str} (hpre : isValidPrefix pre = true) {fuel : Nat}
    {cursor after : Option Str} (hcursor : MemoryStore.decodeStart cursor pre = .ok after)
    (hfuel : (st.listing pre after).length < fuel) :
    (Pageable s.listPageSize (st.listing pre after) ∧ (s.drain pre fuel cursor).run (answerAt now) st =
        (some (.ok ((st.listing pre after).filterMap entryOf)), st)) ∨
      (¬ Pageable s.listPageSize (st.listing pre after) ∧
        ∃ e, (s.drain pre fuel cursor).run (answerAt now) st = (some (.error e), st)) := by
  induction fuel generalizing cursor after with
  | zero => omega
  | succ fuel ih =>
    unfold MemoryStore.drain
    rw [Prog.run_bind, run_listPrefix, listAt_eq s hpre hcursor]
    cases hpage : MemoryStore.pageOf s.listPageSize (st.listPage pre after (s.listPageSize + 1)) with
    | error e =>
      refine .inr ⟨fun h => ?_, e, rfl⟩
      obtain ⟨page, hok⟩ := pageOf_pageable s.listPageSize_pos h
      rw [InMemoryStorage.listPage, hok] at hpage
      cases hpage
    | ok page =>
      cases hnext : page.nextCursor with
      | none =>
        obtain ⟨hentries, hpageable⟩ := page_last s.listPageSize_pos hpage hnext
        simp only [hnext, ← hentries]
        exact .inl ⟨hpageable, rfl⟩
      | some next =>
        obtain ⟨last, hstart, hshorter, hentries, hpageable⟩ := page_next s.listPageSize_pos hpage hnext
        simp only [hnext, Prog.run_bind, ← hpageable, hentries]
        rcases ih hstart (by omega) with ⟨hrest, hrun⟩ | ⟨hrest, e, hrun⟩
        · exact .inl ⟨hrest, by rw [hrun]; rfl⟩
        · exact .inr ⟨hrest, e, by rw [hrun]⟩

variable (st) in
/-- An entity whose listing can be paged, so that every reader can list it. -/
def MemoryStore.Lists (pair : Str × Str) : Prop :=
  PagesEncode s.listPageSize (st.listing (entityPrefix pair.1 pair.2) none)

/-- One entity, without a cache. -/
theorem run_entityEntries_lists (hnone : s.indexCache = none) (h : FilesOnly st) {scope entityId : Str}
    (hs : isValidSegment scope = true) (he : isValidSegment entityId = true) {fuel : Nat}
    (hfuel : st.objects.keys.length < fuel) :
    (s.Lists st (scope, entityId) ∧ ∃ entries, ShowsFiles st [(scope, entityId)] entries ∧
        (s.entityEntries fuel scope entityId).run (answerAt now) st = (some (.ok entries), st)) ∨
      (¬ s.Lists st (scope, entityId) ∧ ∃ e,
        (s.entityEntries fuel scope entityId).run (answerAt now) st = (some (.error e), st)) := by
  have hprefix : joinSegments [scope, entityId] = entityPrefix scope entityId := rfl
  have hlength : (st.listing (entityPrefix scope entityId) none).length < fuel :=
    Nat.lt_of_le_of_lt (length_listing_le st _ _) hfuel
  unfold MemoryStore.entityEntries MemoryStore.Lists
  simp only [hnone, orValueError, buildPrefix_entity hs he, Except.mapError, Prog.ofExcept_ok,
    Prog.ret_bind, hprefix]
  rw [← h.pageable_iff]
  have hstart : MemoryStore.decodeStart none (entityPrefix scope entityId) = .ok none := rfl
  rcases run_drain_pageable s now (entityPrefix_valid hs he) hstart hlength with
    ⟨hall, hrun⟩ | ⟨hnot, e, hrun⟩
  · exact .inl ⟨hall, _, h.shows scope entityId, hrun⟩
  · exact .inr ⟨hnot, e, hrun⟩

/-- The entities of a scope map, without a cache. -/
theorem run_collect_lists (hnone : s.indexCache = none) (h : FilesOnly st) {fuel : Nat}
    (hfuel : st.objects.keys.length < fuel) {pairs : List (Str × Str)}
    (hpairs : ∀ pair ∈ pairs, isValidSegment pair.1 = true ∧ isValidSegment pair.2 = true) :
    ((∀ pair ∈ pairs, s.Lists st pair) ∧ ∃ collected, ShowsFiles st pairs collected ∧
        (s.collect fuel pairs).run (answerAt now) st = (some (.ok collected), st)) ∨
      ((¬ ∀ pair ∈ pairs, s.Lists st pair) ∧ ∃ e,
        (s.collect fuel pairs).run (answerAt now) st = (some (.error e), st)) := by
  induction pairs with
  | nil => exact .inl ⟨by simp, [], showsFiles_nil, rfl⟩
  | cons pair rest ih =>
    obtain ⟨scope, entityId⟩ := pair
    obtain ⟨hs, he⟩ := hpairs _ List.mem_cons_self
    simp only [collect_cons, Prog.run_bind, List.forall_mem_cons]
    rcases run_entityEntries_lists s now hnone h hs he hfuel with
      ⟨hlists, entries, hentries, hrun⟩ | ⟨hnot, e, hrun⟩
    · rw [hrun]
      rcases ih fun pair hpair => hpairs pair (List.mem_cons_of_mem _ hpair) with
        ⟨hall, collected, hcollected, htail⟩ | ⟨hnot, e, htail⟩
      · refine .inl ⟨⟨hlists, hall⟩, entries ++ collected, hentries.cons hcollected, ?_⟩
        simp only [htail]
        rfl
      · exact .inr ⟨fun hall => hnot hall.2, e, by simp only [htail]⟩
    · exact .inr ⟨fun hall => hnot hall.1, e, by rw [hrun]⟩

/-- **The index without a cache** shows every path of the mapped entities exactly when each of these
can be listed. -/
theorem run_getMemoryIndex_lists (hnone : s.indexCache = none) (h : FilesOnly st) {fuel : Nat}
    (hfuel : st.objects.keys.length < fuel) {scopeMap : List (Str × Str)}
    (hmap : ValidScopeMap scopeMap) :
    (∃ index, (s.getMemoryIndex fuel scopeMap).run (answerAt now) st = (some (.ok index), st) ∧
        ShowsAll st scopeMap index) ↔
      ∀ pair ∈ scopeMap, s.Lists st pair := by
  have hsorted := hmap.sortedPairs
  unfold MemoryStore.getMemoryIndex ShowsAll
  simp only [hsorted.checkPairs, Prog.ofExcept_ok, Prog.ret_bind, Prog.run_bind,
    ← @mem_sortedPairs scopeMap]
  rcases run_collect_lists s now hnone h hfuel hsorted.segments with
    ⟨hall, collected, hcollected, hrun⟩ | ⟨hnot, e, hrun⟩
  · refine iff_of_true ?_ hall
    obtain ⟨index, hmerge, happears⟩ := hcollected.merge s h hsorted
    exact ⟨index, by rw [hrun]; simp only [hmerge]; rfl, happears⟩
  · refine iff_of_false ?_ hnot
    rintro ⟨index, hindex, -⟩
    rw [hrun] at hindex
    cases hindex

end

end Wenchang
