import Wenchang.Laws.Calls
import Wenchang.Laws.Merge
import Wenchang.Laws.Paging

/-!
# The memory index

What `get_memory_index` returns is determined by the files alone (`IndexedFiles`, `IndexOf`): in an
unchanged storage a drain collects every file of an entity once (`run_drain_sound`), and merging does
not look at the order in which they were collected. Where others write between the pages, less is
true of a drain (`sat_drain`), but enough for the checks of the merge.
-/

namespace Wenchang

open Py Ordered Interaction

/-- A scope map that is accepted: valid segments, and no scope twice. -/
structure ValidScopeMap (scopeMap : List (Str × Str)) : Prop where
  segments : ∀ pair ∈ scopeMap, isValidSegment pair.1 = true ∧ isValidSegment pair.2 = true
  scopes : (scopeMap.map (·.1)).Nodup

/-- A sorted scope map is as valid as it was. -/
theorem ValidScopeMap.sortedPairs {scopeMap : List (Str × Str)} (h : ValidScopeMap scopeMap) :
    ValidScopeMap (sortedPairs scopeMap) := by
  have hperm : (Wenchang.sortedPairs scopeMap).Perm scopeMap := List.perm_insertionSort _ _
  refine ⟨fun pair hpair => h.segments pair (hperm.mem_iff.mp hpair), ?_⟩
  exact (hperm.map _).nodup_iff.mpr h.scopes

/-- The order of a scope map does not matter to whether it is accepted. -/
theorem ValidScopeMap.of_sortedPairs {scopeMap : List (Str × Str)}
    (h : ValidScopeMap (Wenchang.sortedPairs scopeMap)) : ValidScopeMap scopeMap := by
  have hperm : (Wenchang.sortedPairs scopeMap).Perm scopeMap := List.perm_insertionSort _ _
  exact ⟨fun pair hpair => h.segments pair (hperm.mem_iff.mpr hpair), (hperm.map _).nodup_iff.mp h.scopes⟩

/-- The prefix of an entity is valid. -/
theorem entityPrefix_valid {scope entityId : Str} (hs : isValidSegment scope = true)
    (he : isValidSegment entityId = true) : isValidPrefix (entityPrefix scope entityId) = true := by
  apply isValidPrefix_joinSegments (List.cons_ne_nil _ _) (by simp)
  simp only [List.forall_mem_cons, hs, he, List.not_mem_nil, false_implies, implies_true, and_self]

/-- A path is under one entity. -/
theorem entityPrefix_inj {path scope entityId scope' entityId' : Str} (hpath : isValidPath path = true)
    (hs : isValidSegment scope = true) (he : isValidSegment entityId = true)
    (hs' : isValidSegment scope' = true) (he' : isValidSegment entityId' = true)
    (h : (entityPrefix scope entityId).isPrefixOf path = true)
    (h' : (entityPrefix scope' entityId').isPrefixOf path = true) :
    scope = scope' ∧ entityId = entityId' := by
  obtain ⟨parts, hvalid, rfl⟩ := exists_parts hpath
  have hparts : ∀ {a b : Str}, isValidSegment a = true → isValidSegment b = true →
      (entityPrefix a b).isPrefixOf parts.path = true → a = parts.scope ∧ b = parts.entityId := by
    intro a b ha hb hunder
    have hsegments : ∀ s ∈ [a, b], isValidSegment s = true := by
      simp only [List.forall_mem_cons, ha, hb, List.not_mem_nil, false_implies, implies_true,
        and_self]
    rw [List.isPrefixOf_iff_prefix, entityPrefix, hvalid.prefix_iff hsegments,
      List.cons_prefix_cons, List.cons_prefix_cons] at hunder
    exact ⟨hunder.1, hunder.2.1⟩
  obtain ⟨rfl, rfl⟩ := hparts hs he h
  obtain ⟨rfl, rfl⟩ := hparts hs' he' h'
  exact ⟨rfl, rfl⟩

section

variable [Interpreter]

/-- A storage of which an index can be made: every file's last-updated can be rendered in UTC. -/
structure Indexable (st : InMemoryStorage) : Prop extends Sound st where
  renderable : ∀ k obj metadata, st.get k = some obj → isValidPath k = true →
    metadataFromMap obj.metadata = .ok metadata → metadata.lastUpdated.astimezoneUTC.isSome = true

/-- Such a storage, told by looking at each key. -/
theorem Indexable.of_all {st : InMemoryStorage} (h : st.objects.entries.all (fun kv =>
    kv.1.all (!isSurrogate ·) && (!isValidPath kv.1 ||
      (metadataFromMap kv.2.metadata).toOption.any (·.lastUpdated.astimezoneUTC.isSome))) = true) :
    Indexable st := by
  have hfile : ∀ k obj, st.get k = some obj → k.all (!isSurrogate ·) = true ∧ (isValidPath k = true →
      (metadataFromMap obj.metadata).toOption.any (·.lastUpdated.astimezoneUTC.isSome) = true) := by
    intro k obj hobj
    obtain ⟨hkey, hor⟩ := Bool.and_eq_true_iff.mp (FinMap.all_entries.mp h k obj hobj)
    refine ⟨hkey, fun hpath => ?_⟩
    rwa [hpath, Bool.not_true, Bool.false_or] at hor
  constructor
  · refine .of_all (FinMap.all_entries.mpr fun k obj hobj => ?_)
    obtain ⟨hkey, hread⟩ := hfile k obj hobj
    simp only [hkey, Bool.true_and]
    cases hpath : isValidPath k with
    | false => rfl
    | true =>
      obtain ⟨m, hm, -⟩ := (Option.any_eq_true _ _).mp (hread hpath)
      rw [hm]
      rfl
  · intro k obj metadata hobj hpath hmetadata
    have hany := (hfile k obj hobj).2 hpath
    rw [hmetadata] at hany
    exact hany

/-- The files of the mapped entities, in load order. -/
structure IndexedFiles (priority : List Str) (st : InMemoryStorage) (scopeMap : List (Str × Str))
    (files : List FileEntry) : Prop where
  sorted : files.Pairwise (LoadsBefore priority)
  mem : ∀ entry, entry ∈ files ↔ ∃ pair ∈ scopeMap, IsFile st (entityPrefix pair.1 pair.2) entry

/-- **The files of an index are determined**, in whatever order the scope map is. -/
theorem IndexedFiles.unique {priority : List Str} {st : InMemoryStorage}
    {scopeMap scopeMap' : List (Str × Str)} {files files' : List FileEntry}
    (hperm : scopeMap'.Perm scopeMap) (h : IndexedFiles priority st scopeMap files)
    (h' : IndexedFiles priority st scopeMap' files') : files' = files := by
  apply LoadsBefore.list_unique h'.sorted h.sorted
  intro entry
  rw [h.mem, h'.mem]
  constructor
  · rintro ⟨pair, hpair, hfile⟩
    exact ⟨pair, hperm.mem_iff.mp hpair, hfile⟩
  · rintro ⟨pair, hpair, hfile⟩
    exact ⟨pair, hperm.mem_iff.mpr hpair, hfile⟩

/-- A pair is checked for its scope, its entity and a repeat, and then the others. -/
theorem checkPairs_cons (seen : List Str) (scope entityId : Str) (pairs : List (Str × Str)) :
    checkPairs seen ((scope, entityId) :: pairs) =
      if isValidSegment scope = false then
        .error (.valueError (str "invalid scope: " ++ Py.repr scope))
      else if isValidSegment entityId = false then
        .error (.valueError (str "invalid entity_id: " ++ Py.repr entityId))
      else if scope ∈ seen then
        .error (.valueError (str "duplicate scope: " ++ Py.repr scope))
      else checkPairs (scope :: seen) pairs := rfl

/-- Valid pairs of distinct scopes are accepted. -/
theorem checkPairs_eq_ok {seen : List Str} {pairs : List (Str × Str)}
    (hpairs : ∀ pair ∈ pairs, isValidSegment pair.1 = true ∧ isValidSegment pair.2 = true)
    (hseen : (pairs.map (·.1)).Nodup ∧ ∀ scope ∈ pairs.map (·.1), scope ∉ seen) :
    checkPairs seen pairs = .ok () := by
  induction pairs generalizing seen with
  | nil => rfl
  | cons pair pairs ih =>
    obtain ⟨scope, entityId⟩ := pair
    obtain ⟨hs, he⟩ := hpairs _ List.mem_cons_self
    obtain ⟨hnodup, hnot⟩ := hseen
    rw [List.map_cons, List.nodup_cons] at hnodup
    rw [checkPairs_cons, if_neg (by rw [hs]; exact nofun), if_neg (by rw [he]; exact nofun),
      if_neg (hnot scope List.mem_cons_self)]
    apply ih fun pair hpair => hpairs pair (List.mem_cons_of_mem _ hpair)
    refine ⟨hnodup.2, fun scope' hscope' hmem => ?_⟩
    rcases List.mem_cons.mp hmem with rfl | hmem
    · exact hnodup.1 hscope'
    · exact hnot scope' (List.mem_cons_of_mem _ hscope') hmem

/-- A valid scope map is accepted. -/
theorem ValidScopeMap.checkPairs {scopeMap : List (Str × Str)} (h : ValidScopeMap scopeMap) :
    checkPairs [] scopeMap = .ok () :=
  checkPairs_eq_ok h.segments ⟨h.scopes, fun _ _ => List.not_mem_nil⟩

/-- The checks accept valid scope maps only. -/
theorem of_checkPairs {seen : List Str} {pairs : List (Str × Str)} {u : Unit}
    (h : checkPairs seen pairs = .ok u) :
    ValidScopeMap pairs ∧ ∀ scope ∈ pairs.map (·.1), scope ∉ seen := by
  induction pairs generalizing seen with
  | nil => exact ⟨⟨nofun, .nil⟩, nofun⟩
  | cons pair pairs ih =>
    obtain ⟨scope, entityId⟩ := pair
    rw [checkPairs_cons] at h
    split at h
    · cases h
    next hs =>
      split at h
      · cases h
      next he =>
        split at h
        · cases h
        next hnew =>
          obtain ⟨hvalid, hnot⟩ := ih h
          refine ⟨⟨fun pair hpair => ?_, ?_⟩, fun scope' hscope' hmem => ?_⟩
          · rcases List.mem_cons.mp hpair with rfl | hpair
            · exact ⟨Bool.eq_true_of_not_eq_false hs, Bool.eq_true_of_not_eq_false he⟩
            · exact hvalid.segments pair hpair
          · rw [List.map_cons, List.nodup_cons]
            exact ⟨fun hmem => hnot scope hmem List.mem_cons_self, hvalid.scopes⟩
          · rcases List.mem_cons.mp hscope' with rfl | hscope'
            · exact hnew hmem
            · exact hnot scope' hscope' (List.mem_cons_of_mem _ hmem)

/-! ## In an unchanged storage -/

section Run

variable (s : MemoryStore) (now : DateTime) {st : InMemoryStorage}

/-- A page of storage as it stands. -/
theorem run_listPrefix (pre : Str) (cursor : Option Str) (st : InMemoryStorage) :
    (s.listPrefix pre cursor).run (answerAt now) st = (listAt s pre cursor st, st) := by
  have hofExcept : ∀ r : Except Exc ListPage, ∀ now,
      (Prog.ofExcept r : Store ListPage).run (answerAt now) st = (some r, st) := by
    intro r now
    cases r
    · rfl
    · rfl
  unfold listAt MemoryStore.listPrefix
  by_cases hvalid : isValidPrefix pre = false
  · rw [Prog.raiseIf_pos hvalid]
    rfl
  · rw [Prog.raiseIf_neg hvalid]
    cases MemoryStore.decodeStart cursor pre with
    | error e => rfl
    | ok after =>
      exact (hofExcept _ now).trans (congrArg (·, st) (congrArg Prod.fst (hofExcept _ noon)).symm)

/-- Draining is following `next_cursor`. -/
theorem run_drain {pre : Str} (fuel i : Nat) {cursor : Option Str} {pages : List ListPage}
    (hfollow : follow s pre (fun _ => st) fuel i cursor = pages.map fun page => some (.ok page))
    (hend : ∃ page ∈ pages, page.nextCursor = none) :
    (s.drain pre fuel cursor).run (answerAt now) st = (some (.ok (pages.flatMap (·.entries))), st) := by
  induction fuel generalizing i cursor pages with
  | zero =>
    have hnil : pages = [] := List.map_eq_nil_iff.mp hfollow.symm
    obtain ⟨page, hpage, -⟩ := hend
    rw [hnil] at hpage
    cases hpage
  | succ fuel ih =>
    unfold follow at hfollow
    obtain ⟨page, rest, rfl, hpage, hrest⟩ := List.map_eq_cons_iff.mp hfollow.symm
    unfold MemoryStore.drain
    rw [Prog.run_bind, run_listPrefix, ← hpage]
    rw [← hpage] at hrest
    obtain ⟨entries, nextCursor⟩ := page
    cases nextCursor with
    | none =>
      have hnil : rest = [] := List.map_eq_nil_iff.mp hrest
      rw [hnil, List.flatMap_cons, List.flatMap_nil, List.append_nil]
      rfl
    | some next =>
      have hend' : ∃ page ∈ rest, page.nextCursor = none := by
        obtain ⟨page, hmem, hnone⟩ := hend
        rcases List.mem_cons.mp hmem with rfl | hmem
        · cases hnone
        · exact ⟨page, hmem, hnone⟩
      show ((s.drain pre fuel (some next) >>= _).run _ _) = _
      rw [Prog.run_bind, ih (i + 1) hrest.symm hend', List.flatMap_cons]
      rfl

/-- **A drain of an unchanged storage** collects every file under the prefix once. -/
theorem run_drain_sound {pre : Str} (hst : Sound st) (hpre : isValidPrefix pre = true) {fuel : Nat}
    (hfuel : st.objects.keys.length + 1 < fuel) :
    ∃ entries, (s.drain pre fuel none).run (answerAt now) st = (some (.ok entries), st) ∧
      (entries.map (·.path)).Nodup ∧ ∀ entry, entry ∈ entries ↔ IsFile st pre entry := by
  obtain ⟨pages, reads, done, hfollow, hscan, hpages, hfinished, hcalls⟩ :=
    follow_scan s (S := fun _ => st) hpre (fun _ => hst) fuel 0
      (show MemoryStore.decodeStart none pre = .ok none from rfl)
  have hdone : done = true := by
    by_contra hdone
    have hlen := hscan.length_le st.objects.keys.toFinset fun _ k hk => by
      obtain ⟨obj, hobj⟩ := Option.isSome_iff_exists.mp hk.1
      exact List.mem_toFinset.mpr (FinMap.mem_keys.mpr ⟨obj, hobj⟩)
    have hcard := st.objects.keys.toFinset_card_le
    have hcount := hcalls (Bool.eq_false_iff.mpr hdone)
    rw [← hpages.length_eq] at hlen
    omega
  subst hdone
  have hnodup : ((pages.flatMap (·.entries)).map (·.path)).Nodup :=
    (hpages.ascending hscan).imp ne_of_lt
  refine ⟨pages.flatMap (·.entries), run_drain s now fuel 0 hfollow (hfinished.mpr rfl), hnodup,
    fun entry => ?_⟩
  have hshown : ∀ e ∈ pages.flatMap (·.entries), IsFile st pre e := by
    intro e he
    obtain ⟨page, hpage, he⟩ := List.mem_flatMap.mp he
    obtain ⟨j, hj⟩ := List.mem_iff_getElem?.mp hpage
    exact hpages.isFile hscan hj he
  constructor
  · exact hshown entry
  · intro hfile
    obtain ⟨obj, hobj, -⟩ := hfile.stored
    have hpath := hpages.complete hscan hfile.path hfile.under fun _ _ =>
      Option.isSome_iff_exists.mpr ⟨obj, hobj⟩
    obtain ⟨entry', hentry', heq⟩ := List.mem_map.mp hpath
    exact (hshown entry' hentry').unique hfile heq ▸ hentry'

/-- One entity is collected by a drain, whatever the store has for a cache: this world's cache holds
nothing. -/
theorem run_collect {pairs : List (Str × Str)} (hst : Sound st) (hpairs : ValidScopeMap pairs)
    {fuel : Nat} (hfuel : st.objects.keys.length + 1 < fuel) :
    ∃ collected, (s.collect fuel pairs).run (answerAt now) st = (some (.ok collected), st) ∧
      (collected.map (·.path)).Nodup ∧
      ∀ entry, entry ∈ collected ↔ ∃ pair ∈ pairs, IsFile st (entityPrefix pair.1 pair.2) entry := by
  induction pairs with
  | nil =>
    refine ⟨[], rfl, .nil, fun entry => ?_⟩
    simp only [List.not_mem_nil, false_and, exists_false]
  | cons pair rest ih =>
    obtain ⟨scope, entityId⟩ := pair
    obtain ⟨hs, he⟩ := hpairs.segments _ List.mem_cons_self
    have hscopes := hpairs.scopes
    rw [List.map_cons, List.nodup_cons] at hscopes
    obtain ⟨collected, hcollect, hnodup, hmem⟩ :=
      ih ⟨fun pair hpair => hpairs.segments pair (List.mem_cons_of_mem _ hpair), hscopes.2⟩
    obtain ⟨entries, hdrain, hentries, hfiles⟩ :=
      run_drain_sound s now hst (entityPrefix_valid hs he) hfuel
    refine ⟨entries ++ collected, ?_, ?_, fun entry => ?_⟩
    · have hthen : ((do
          let collected ← s.collect fuel rest
          return entries ++ collected : Store (List FileEntry)).run (answerAt now) st) =
          (some (.ok (entries ++ collected)), st) := by
        rw [Prog.run_bind, hcollect]
        rfl
      have hbuild : (orValueError (buildPrefix scope (some entityId) none) : Store Str) =
          .ret (entityPrefix scope entityId) := by
        rw [buildPrefix_entity hs he]
        rfl
      unfold MemoryStore.collect
      cases s.indexCache with
      | none =>
        dsimp only
        rw [hbuild, Prog.ret_bind, Prog.run_bind, hdrain]
        exact hthen
      | some cache =>
        have hrefill : ∀ token, (s.refill fuel cache scope entityId (entityPrefix scope entityId)
            token).run (answerAt now) st = (some (.ok entries), st) := by
          intro token
          unfold MemoryStore.refill
          rw [Prog.run_bind, hdrain]
          rfl
        have hcached : (s.cachedEntityEntries fuel cache scope entityId).run (answerAt now) st =
            (some (.ok entries), st) := by
          unfold MemoryStore.cachedEntityEntries
          rw [hbuild, Prog.ret_bind]
          exact hrefill _
        dsimp only
        rw [Prog.run_bind, hcached]
        exact hthen
    · rw [List.map_append, List.nodup_append]
      refine ⟨hentries, hnodup, ?_⟩
      rintro path hpath path' hpath' rfl
      obtain ⟨e, he₁, rfl⟩ := List.mem_map.mp hpath
      obtain ⟨e', he₂, heq⟩ := List.mem_map.mp hpath'
      have hfile := (hfiles e).mp he₁
      obtain ⟨pair, hpair, hfile'⟩ := (hmem e').mp he₂
      obtain ⟨hs', he'⟩ := hpairs.segments pair (List.mem_cons_of_mem _ hpair)
      have hunder := hfile'.under
      rw [heq] at hunder
      obtain ⟨hscope, -⟩ := entityPrefix_inj hfile.path hs he hs' he' hfile.under hunder
      exact hscopes.1 (hscope ▸ List.mem_map_of_mem hpair)
    · rw [List.mem_append, hfiles, hmem]
      simp only [List.mem_cons, exists_eq_or_imp]

/-- **The index of an unchanged storage.** -/
theorem run_getMemoryIndex {scopeMap : List (Str × Str)} (hst : Indexable st)
    (hmap : ValidScopeMap scopeMap) {fuel : Nat} (hfuel : st.objects.keys.length + 1 < fuel) :
    ∃ files index, IndexedFiles s.scopePriority st scopeMap files ∧
      IndexOf s.indexMaxBytes files index ∧
      (s.getMemoryIndex fuel scopeMap).run (answerAt now) st = (some (.ok index), st) := by
  obtain ⟨collected, hcollect, hnodup, hmem⟩ :=
    run_collect s now hst.toSound hmap.sortedPairs hfuel
  have hfile : ∀ e ∈ collected, ∃ pre, IsFile st pre e := by
    intro e he
    obtain ⟨pair, -, h⟩ := (hmem e).mp he
    exact ⟨_, h⟩
  have hpaths : ∀ e ∈ collected, isValidPath e.path = true := by
    intro e he
    obtain ⟨pre, h⟩ := hfile e he
    exact h.path
  have hrender : ∀ e ∈ collected, e.metadata.lastUpdated.astimezoneUTC.isSome = true := by
    intro e he
    obtain ⟨pre, h⟩ := hfile e he
    obtain ⟨obj, hobj, -, hmetadata⟩ := h.stored
    exact hst.renderable e.path obj e.metadata hobj h.path hmetadata
  obtain ⟨files, index, hmerge, hperm, hsorted, hindex⟩ :=
    mergeIndex_eq_ok s hpaths hnodup hrender
  refine ⟨files, index, ⟨hsorted, fun entry => ?_⟩, hindex, ?_⟩
  · rw [hperm.mem_iff, hmem]
    simp only [mem_sortedPairs]
  · unfold MemoryStore.getMemoryIndex
    simp only
    rw [hmap.sortedPairs.checkPairs, Prog.ofExcept_ok, Prog.ret_bind, Prog.run_bind, hcollect]
    simp only [hmerge]
    rfl

end Run

end

/-! ## Between the writes of others -/

/-- Every storage a trace met has a property. -/
def Meets (P : InMemoryStorage → Prop) (tr : StoreTrace) : Prop := ∀ e ∈ tr, P e.pre

/-- What is known of a listing that was read while others wrote. -/
structure Listed (pre : Str) (after : Option Str) (entries : List FileEntry) : Prop where
  ascending : (entries.map (·.path)).Pairwise (· < ·)
  path : ∀ e ∈ entries, isValidPath e.path = true
  under : ∀ e ∈ entries, pre.isPrefixOf e.path = true
  behind : ∀ e ∈ entries, Behind after e.path
  renderable : ∀ e ∈ entries, e.metadata.lastUpdated.astimezoneUTC.isSome = true

/-- What is known of an entity's entries, also of those a cache returned. -/
structure OneEntity (pre : Str) (entries : List FileEntry) : Prop where
  nodup : (entries.map (·.path)).Nodup
  path : ∀ e ∈ entries, isValidPath e.path = true
  under : ∀ e ∈ entries, pre.isPrefixOf e.path = true

/-- Listed entries are those of one entity. -/
theorem Listed.oneEntity {pre : Str} {after : Option Str} {entries : List FileEntry}
    (h : Listed pre after entries) : OneEntity pre entries :=
  ⟨h.ascending.imp ne_of_lt, h.path, h.under⟩

/-- A listing goes on behind the last key of a page. -/
theorem Listed.append {pre : Str} {after : Option Str} {b : Str} {entries rest : List FileEntry}
    (h : Listed pre after entries) (hle : ∀ e ∈ entries, e.path ≤ b) (hb : Behind after b)
    (hrest : Listed pre (some b) rest) : Listed pre after (entries ++ rest) where
  ascending := by
    rw [List.map_append]
    refine List.pairwise_append.mpr ⟨h.ascending, hrest.ascending, ?_⟩
    intro x hx y hy
    obtain ⟨e, he, rfl⟩ := List.mem_map.mp hx
    obtain ⟨e', he', rfl⟩ := List.mem_map.mp hy
    exact lt_of_le_of_lt (hle e he) (hrest.behind e' he' b rfl)
  path e he := (List.mem_append.mp he).elim (h.path e) (hrest.path e)
  under e he := (List.mem_append.mp he).elim (h.under e) (hrest.under e)
  behind e he := (List.mem_append.mp he).elim (h.behind e) fun he =>
    hb.trans (hrest.behind e he b rfl)
  renderable e he := (List.mem_append.mp he).elim (h.renderable e) (hrest.renderable e)

/-- A decoded entry has a valid path below the prefix. -/
theorem decodeEntry_eq_some {raw : Json} {pre : Str} {entry : FileEntry}
    (h : decodeEntry raw pre = some entry) :
    isValidPath entry.path = true ∧ pre.isPrefixOf entry.path = true := by
  unfold decodeEntry at h
  cases raw with
  | obj members =>
    simp only [Option.bind_eq_bind] at h
    split at h
    · cases h
    · obtain ⟨path, -, h⟩ := Option.bind_eq_some_iff.mp h
      obtain ⟨version, -, h⟩ := Option.bind_eq_some_iff.mp h
      obtain ⟨description, -, h⟩ := Option.bind_eq_some_iff.mp h
      obtain ⟨lastUpdated, -, h⟩ := Option.bind_eq_some_iff.mp h
      obtain ⟨aliases, -, h⟩ := Option.bind_eq_some_iff.mp h
      obtain ⟨sources, -, h⟩ := Option.bind_eq_some_iff.mp h
      split at h
      · cases h
      next hpath =>
        obtain ⟨moment, -, h⟩ := Option.bind_eq_some_iff.mp h
        rw [not_not] at hpath
        split at h
        · cases h
          exact hpath
        · cases h
  | _ => cases h

/-- Entries that a cached listing decodes to passed its checks. -/
theorem decodeEntries_oneEntity {pre : Str} {seen : List Str} {raws : List Json}
    {entries : List FileEntry} (h : decodeEntries pre seen raws = some entries) :
    OneEntity pre entries ∧ ∀ e ∈ entries, e.path ∉ seen := by
  induction raws generalizing seen entries with
  | nil =>
    cases h
    exact ⟨⟨.nil, fun _ he => absurd he List.not_mem_nil, fun _ he => absurd he List.not_mem_nil⟩,
      fun _ he => absurd he List.not_mem_nil⟩
  | cons raw raws ih =>
    unfold decodeEntries at h
    obtain ⟨entry, hentry, h⟩ := Option.bind_eq_some_iff.mp h
    split at h
    · cases h
    next hnew =>
      obtain ⟨rest, hrest, h⟩ := Option.bind_eq_some_iff.mp h
      cases h
      obtain ⟨hpath, hunder⟩ := decodeEntry_eq_some hentry
      obtain ⟨hone, hseen⟩ := ih hrest
      refine ⟨⟨?_, List.forall_mem_cons.mpr ⟨hpath, hone.path⟩,
        List.forall_mem_cons.mpr ⟨hunder, hone.under⟩⟩, List.forall_mem_cons.mpr ⟨hnew, ?_⟩⟩
      · rw [List.map_cons, List.nodup_cons]
        refine ⟨fun hmem => ?_, hone.nodup⟩
        obtain ⟨e, he, heq⟩ := List.mem_map.mp hmem
        exact hseen e he (heq ▸ List.mem_cons_self)
      · exact fun e he hmem => hseen e he (List.mem_cons_of_mem _ hmem)

/-- What is only promised where a trace met good storages is promised of no trace that met another. -/
theorem sat_of_not_meets {lossy : Prop} {α : Type} {tr : StoreTrace} {P : InMemoryStorage → Prop} {p : Store α}
    {Q : StoreTrace → Except Exc α → Prop} (h : ¬ Meets P tr) :
    p.Sat (inMemory lossy) (fun _ _ => True) (fun tr r => Meets P tr → Q tr r) tr := by
  apply (Prog.issues_true p).sat
  · exact fun _ _ _ => trivial
  · intro q r _ hmeets
    exact absurd (fun e he => hmeets e (List.mem_append_left _ he)) h

/-- What is known of everything `get_memory_index` collects. -/
structure Collected (s : MemoryStore) (pairs : List (Str × Str)) (entries : List FileEntry) : Prop where
  nodup : (entries.map (·.path)).Nodup
  path : ∀ e ∈ entries, isValidPath e.path = true
  under : ∀ e ∈ entries, ∃ pair ∈ pairs, (entityPrefix pair.1 pair.2).isPrefixOf e.path = true
  renderable : s.indexCache = none →
    ∀ e ∈ entries, e.metadata.lastUpdated.astimezoneUTC.isSome = true

/-- Entities share no path. -/
theorem OneEntity.nodup_append {scope entityId : Str} {pairs : List (Str × Str)}
    {entries collected : List FileEntry} (hpairs : ValidScopeMap ((scope, entityId) :: pairs))
    (h : OneEntity (entityPrefix scope entityId) entries)
    (hunder : ∀ e ∈ collected, ∃ pair ∈ pairs, (entityPrefix pair.1 pair.2).isPrefixOf e.path = true)
    (hnodup : (collected.map (·.path)).Nodup) : ((entries ++ collected).map (·.path)).Nodup := by
  rw [List.map_append, List.nodup_append]
  refine ⟨h.nodup, hnodup, ?_⟩
  rintro path hpath path' hpath' rfl
  obtain ⟨e, he, rfl⟩ := List.mem_map.mp hpath
  obtain ⟨e', he', heq⟩ := List.mem_map.mp hpath'
  obtain ⟨pair, hpair, hunder⟩ := hunder e' he'
  obtain ⟨hs, hid⟩ := hpairs.segments _ List.mem_cons_self
  obtain ⟨hs', hid'⟩ := hpairs.segments pair (List.mem_cons_of_mem _ hpair)
  rw [heq] at hunder
  obtain ⟨hscope, -⟩ := entityPrefix_inj (h.path e he) hs hid hs' hid' (h.under e he) hunder
  have hscopes := hpairs.scopes
  rw [List.map_cons, List.nodup_cons] at hscopes
  exact hscopes.1 (hscope ▸ List.mem_map_of_mem hpair)

/-- The entries of one more entity are collected. -/
theorem Collected.cons {s : MemoryStore} {scope entityId : Str} {pairs : List (Str × Str)}
    {entries collected : List FileEntry} (hpairs : ValidScopeMap ((scope, entityId) :: pairs))
    (h : OneEntity (entityPrefix scope entityId) entries)
    (hrender : s.indexCache = none →
      ∀ e ∈ entries, e.metadata.lastUpdated.astimezoneUTC.isSome = true)
    (hcollected : Collected s pairs collected) :
    Collected s ((scope, entityId) :: pairs) (entries ++ collected) where
  nodup := h.nodup_append hpairs hcollected.under hcollected.nodup
  path e he := (List.mem_append.mp he).elim (h.path e) (hcollected.path e)
  under e he := by
    rcases List.mem_append.mp he with he | he
    · exact ⟨_, List.mem_cons_self, h.under e he⟩
    · obtain ⟨pair, hpair, hunder⟩ := hcollected.under e he
      exact ⟨pair, List.mem_cons_of_mem _ hpair, hunder⟩
  renderable hcache e he :=
    (List.mem_append.mp he).elim (hrender hcache e) (hcollected.renderable hcache e)

/-- How `get_memory_index` can fail on a scope map that is accepted. -/
def IndexFails (s : MemoryStore) (e : Exc) : Prop := e = unrenderable ∧ s.indexCache.isSome = true

section

variable [Interpreter]

/-- A decoded listing has the entries of one entity. -/
theorem decodeListing_oneEntity {raw token pre : Str} {entries : List FileEntry}
    (h : decodeListing raw token pre = some entries) : OneEntity pre entries := by
  unfold decodeListing at h
  split at h
  · split at h
    · cases h
    · split at h
      · exact (decodeEntries_oneEntity h).1
      · cases h
  · cases h

section Sat

variable {lossy : Prop} (s : MemoryStore) {G : StoreTrace → StoreOp → Prop} {tr : StoreTrace}

/-- **The rule of a page**: it shows what is stored then. -/
theorem sat_listPrefix {pre : Str} {cursor after : Option Str} (hpre : isValidPrefix pre = true)
    (hcursor : MemoryStore.decodeStart cursor pre = .ok after)
    {Q : StoreTrace → Except Exc ListPage → Prop} (hG : ∀ tr o, ¬ StoreOp.Mutates o → G tr o)
    (hQ : ∀ st, Q (tr ++ [listEvent pre after (s.listPageSize + 1) st])
      (MemoryStore.pageOf s.listPageSize (st.listPage pre after (s.listPageSize + 1)))) :
    (s.listPrefix pre cursor).Sat (inMemory lossy) G Q tr := by
  have hvalid : ¬ isValidPrefix pre = false := by
    rw [hpre]
    exact nofun
  unfold MemoryStore.listPrefix
  rw [Prog.raiseIf_neg hvalid, Prog.ret_bind, hcursor, Prog.ofExcept_ok, Prog.ret_bind]
  refine (Prog.sat_bind _ _ _ _).mpr (sat_storageListPage (hG _ _ not_false) fun st _ => ?_)
  rw [Prog.andThen_ok, Prog.sat_ofExcept]
  exact hQ st

/-- A page of an indexable storage. -/
theorem pageOf_indexable {pre : Str} {cursor after : Option Str} {st : InMemoryStorage}
    (hpre : isValidPrefix pre = true) (hcursor : MemoryStore.decodeStart cursor pre = .ok after)
    (hst : Indexable st) :
    ∃ page upTo, MemoryStore.pageOf s.listPageSize (st.listPage pre after (s.listPageSize + 1)) =
        .ok page ∧ Listed pre after page.entries ∧
      MemoryStore.decodeStart page.nextCursor pre = .ok upTo ∧
      ∀ b ∈ upTo, Behind after b ∧ ∀ e ∈ page.entries, e.path ≤ b := by
  obtain ⟨page, upTo, seen, hpage, hread, hpaths, hstored, hnext, -, -⟩ :=
    listAt_sound s hpre hcursor hst.toSound
  rw [listAt_eq s hpre hcursor, Option.some.injEq] at hpage
  have hseen : ∀ e ∈ page.entries, e.path ∈ seen ∧ isValidPath e.path = true := by
    intro e he
    have hmem : e.path ∈ page.entries.map (·.path) := List.mem_map_of_mem he
    rw [hpaths] at hmem
    exact List.mem_filter.mp hmem
  refine ⟨page, upTo, hpage, ?_, hnext, fun b hb => ?_⟩
  · constructor
    · rw [hpaths]
      exact hread.sorted.filter _
    · exact fun e he => (hseen e he).2
    · exact fun e he => (hread.mem _ (hseen e he).1).1.2
    · exact fun e he => (hread.mem _ (hseen e he).1).2.1
    · intro e he
      obtain ⟨obj, hobj, -, hmetadata⟩ := hstored e he
      exact hst.renderable e.path obj e.metadata hobj (hseen e he).2 hmetadata
  · exact ⟨(hread.mem b (hread.last b hb)).2.1, fun e he => (hread.mem _ (hseen e he).1).2.2 b hb⟩

/-- **A drain while others write.** -/
theorem sat_drain {pre : Str} (hpre : isValidPrefix pre = true) (fuel : Nat)
    {cursor after : Option Str} (hcursor : MemoryStore.decodeStart cursor pre = .ok after) :
    (s.drain pre fuel cursor).Sat (inMemory lossy) (fun _ _ => True)
      (fun tr r => Meets Indexable tr → ∃ entries, r = .ok entries ∧ Listed pre after entries) tr := by
  induction fuel generalizing cursor after tr with
  | zero => exact trivial
  | succ fuel ih =>
    unfold MemoryStore.drain
    refine (Prog.sat_bind _ _ _ _).mpr
      (sat_listPrefix s hpre hcursor (fun _ _ _ => trivial) fun st => ?_)
    by_cases hst : Indexable st
    · obtain ⟨page, upTo, hpage, hlisted, hnext, hupTo⟩ := pageOf_indexable s hpre hcursor hst
      rw [hpage, Prog.andThen_ok]
      obtain ⟨entries, nextCursor⟩ := page
      cases nextCursor with
      | none => exact fun _ => ⟨entries, rfl, hlisted⟩
      | some next =>
        cases upTo with
        | none =>
          cases hdecode : decodeCursor next pre <;>
            simp only [MemoryStore.decodeStart, hdecode] at hnext <;> cases hnext
        | some b =>
          obtain ⟨hb, hle⟩ := hupTo b rfl
          apply (ih hnext).andThen
          · intro tr rest h hmeets
            obtain ⟨_, hrest, hlistedRest⟩ := h hmeets
            cases hrest
            exact ⟨_, rfl, hlisted.append hle hb hlistedRest⟩
          · intro tr e h hmeets
            obtain ⟨_, herr, -⟩ := h hmeets
            cases herr
    · have hnot : ¬ Meets Indexable (tr ++ [listEvent pre after (s.listPageSize + 1) st]) := by
        intro hmeets
        exact hst (hmeets _ (List.mem_append_right _ (List.mem_singleton_self _)))
      cases MemoryStore.pageOf s.listPageSize (st.listPage pre after (s.listPageSize + 1)) with
      | error e => exact fun hmeets => absurd hmeets hnot
      | ok page => exact sat_of_not_meets hnot

/-- An entity's entries, drained or from a cache that answers what it likes. -/
theorem sat_cachedEntityEntries {scope entityId : Str} (hs : isValidSegment scope = true)
    (he : isValidSegment entityId = true) (fuel : Nat) (cache : IndexCache) :
    (s.cachedEntityEntries fuel cache scope entityId).Sat (inMemory lossy) (fun _ _ => True)
      (fun tr r => Meets Indexable tr →
        ∃ entries, r = .ok entries ∧ OneEntity (entityPrefix scope entityId) entries) tr := by
  have hrefill : ∀ token tr, (s.refill fuel cache scope entityId (entityPrefix scope entityId)
      token).Sat (inMemory lossy) (fun _ _ => True) (fun tr r => Meets Indexable tr →
        ∃ entries, r = .ok entries ∧ OneEntity (entityPrefix scope entityId) entries) tr := by
    intro token tr
    apply (sat_drain s (entityPrefix_valid hs he) fuel
      (show MemoryStore.decodeStart none _ = .ok none from rfl)).andThen
    · intro tr entries h
      refine (Prog.sat_bind _ _ _ _).mpr (sat_cacheSet (fun _ _ _ => trivial) fun q _ hmeets => ?_)
      obtain ⟨_, hentries, hlisted⟩ := h fun e he => hmeets e (List.mem_append_left _ he)
      cases hentries
      exact ⟨_, rfl, hlisted.oneEntity⟩
    · intro tr e h hmeets
      obtain ⟨_, herr, -⟩ := h hmeets
      cases herr
  have hget : ∀ key {Q : StoreTrace → Except Exc (Option Str) → Prop} tr,
      (∀ q value, Q (tr ++ q) (.ok value)) →
      (cacheGet key).Sat (inMemory lossy) (fun _ _ => True) Q tr := by
    intro key Q tr hQ
    refine (Prog.sat_bind _ _ _ _).mpr
      (sat_ask_quiet (.cacheGet key) trivial trivial fun q a _ => ?_)
    rw [Prog.andThen_ok]
    split
    · exact hQ q _
    · exact hQ q _
  unfold MemoryStore.cachedEntityEntries
  rw [show (orValueError (buildPrefix scope (some entityId) none) : Store Str) =
    .ret (entityPrefix scope entityId) from by rw [buildPrefix_entity hs he]; rfl, Prog.ret_bind]
  refine (Prog.sat_bind _ _ _ _).mpr (hget _ _ fun q token => ?_)
  rw [Prog.andThen_ok]
  cases token with
  | some token =>
    refine (Prog.sat_bind _ _ _ _).mpr (hget _ _ fun q' raw => ?_)
    rw [Prog.andThen_ok]
    cases hhit : raw.bind (decodeListing · token (entityPrefix scope entityId)) with
    | some hit =>
      obtain ⟨text, -, hdecode⟩ := Option.bind_eq_some_iff.mp hhit
      exact fun _ => ⟨hit, rfl, decodeListing_oneEntity hdecode⟩
    | none => exact hrefill _ _
  | none =>
    refine (Prog.sat_bind _ _ _ _).mpr (sat_ask_quiet .uuid4 trivial trivial fun q' token _ => ?_)
    refine (Prog.sat_bind _ _ _ _).mpr (sat_cacheSet (fun _ _ _ => trivial) fun q'' _ => ?_)
    exact hrefill _ _

/-- Collecting reads the mapped entities, each at its moments. -/
theorem sat_collect {pairs : List (Str × Str)} (hpairs : ValidScopeMap pairs) (fuel : Nat) :
    (s.collect fuel pairs).Sat (inMemory lossy) (fun _ _ => True)
      (fun tr r => Meets Indexable tr → ∃ entries, r = .ok entries ∧ Collected s pairs entries)
      tr := by
  induction pairs generalizing tr with
  | nil =>
    have hnone : ∀ e : FileEntry, e ∉ ([] : List FileEntry) := fun _ => List.not_mem_nil
    exact fun _ => ⟨[], rfl, .nil, fun e he => absurd he (hnone e), fun e he => absurd he (hnone e),
      fun _ e he => absurd he (hnone e)⟩
  | cons pair rest ih =>
    obtain ⟨scope, entityId⟩ := pair
    obtain ⟨hs, he⟩ := hpairs.segments _ List.mem_cons_self
    have hscopes := hpairs.scopes
    rw [List.map_cons, List.nodup_cons] at hscopes
    have hrest : ∀ tr, (s.collect fuel rest).Sat (inMemory lossy) (fun _ _ => True)
        (fun tr r => Meets Indexable tr → ∃ entries, r = .ok entries ∧ Collected s rest entries) tr :=
      fun tr => ih ⟨fun pair hpair => hpairs.segments pair (List.mem_cons_of_mem _ hpair), hscopes.2⟩
    -- The rest is collected behind the entity's entries, whose trace met good storages if the whole did.
    have hthen : ∀ (entries : List FileEntry) (tr : StoreTrace),
        (Meets Indexable tr → OneEntity (entityPrefix scope entityId) entries ∧
          (s.indexCache = none →
            ∀ e ∈ entries, e.metadata.lastUpdated.astimezoneUTC.isSome = true)) →
        (do
          let collected ← s.collect fuel rest
          return entries ++ collected : Store (List FileEntry)).Sat (inMemory lossy)
          (fun _ _ => True) (fun tr r => Meets Indexable tr →
            ∃ entries, r = .ok entries ∧ Collected s ((scope, entityId) :: rest) entries) tr := by
      intro entries tr h
      have hgrows := Prog.Sat.and_prefix List.prefix_rfl (hrest tr)
      apply hgrows.andThen
      · rintro tr' collected ⟨hcollected, hpre⟩ hmeets
        obtain ⟨_, hok, hcollected⟩ := hcollected hmeets
        cases hok
        obtain ⟨hone, hrender⟩ := h fun e he => hmeets e (hpre.subset he)
        exact ⟨_, rfl, hcollected.cons hpairs hone hrender⟩
      · rintro tr' e ⟨herr, -⟩ hmeets
        obtain ⟨_, herr, -⟩ := herr hmeets
        cases herr
    unfold MemoryStore.collect
    cases hcache : s.indexCache with
    | none =>
      dsimp only
      rw [show (orValueError (buildPrefix scope (some entityId) none) : Store Str) =
        .ret (entityPrefix scope entityId) from by rw [buildPrefix_entity hs he]; rfl, Prog.ret_bind]
      apply (sat_drain s (entityPrefix_valid hs he) fuel
        (show MemoryStore.decodeStart none _ = .ok none from rfl)).andThen
      · intro tr entries h
        apply hthen entries tr
        intro hmeets
        obtain ⟨_, hok, hlisted⟩ := h hmeets
        cases hok
        exact ⟨hlisted.oneEntity, fun _ => hlisted.renderable⟩
      · intro tr e h hmeets
        obtain ⟨_, herr, -⟩ := h hmeets
        cases herr
    | some cache =>
      apply (sat_cachedEntityEntries s hs he fuel cache).andThen
      · intro tr entries h
        apply hthen entries tr
        intro hmeets
        obtain ⟨_, hok, hone⟩ := h hmeets
        cases hok
        refine ⟨hone, fun hnone => ?_⟩
        rw [hcache] at hnone
        cases hnone
      · intro tr e h hmeets
        obtain ⟨_, herr, -⟩ := h hmeets
        cases herr

/-- **The index while others write**: its checks pass. -/
theorem sat_getMemoryIndex {scopeMap : List (Str × Str)} (hmap : ValidScopeMap scopeMap)
    (fuel : Nat) :
    (s.getMemoryIndex fuel scopeMap).Sat (inMemory lossy) (fun _ _ => True)
      (fun tr r => Meets Indexable tr → ∀ e, r = .error e → IndexFails s e) tr := by
  unfold MemoryStore.getMemoryIndex
  simp only
  rw [hmap.sortedPairs.checkPairs, Prog.ofExcept_ok, Prog.ret_bind]
  apply (sat_collect s hmap.sortedPairs fuel).andThen
  · intro tr collected h
    rw [Prog.sat_ofExcept]
    intro hmeets e he
    obtain ⟨_, hok, hcollected⟩ := h hmeets
    cases hok
    refine ⟨mergeIndex_error s hcollected.path hcollected.nodup he, ?_⟩
    by_contra hnone
    rw [Option.not_isSome_iff_eq_none] at hnone
    obtain ⟨_, index, hmerge, -⟩ :=
      mergeIndex_eq_ok s hcollected.path hcollected.nodup (hcollected.renderable hnone)
    rw [hmerge] at he
    cases he
  · intro tr e h hmeets
    obtain ⟨_, herr, -⟩ := h hmeets
    cases herr

end Sat

/-! ## The specification -/

/-- In an unchanged storage every store with this priority and this budget returns the index, for the
scope map in any order and with any page size. -/
def ReturnsIndex (s : MemoryStore) (st : InMemoryStorage) (scopeMap : List (Str × Str))
    (index : MemoryIndex) : Prop :=
  ∀ (s' : MemoryStore) (scopeMap' : List (Str × Str)) (now : DateTime) (fuel : Nat),
    s'.scopePriority = s.scopePriority → s'.indexMaxBytes = s.indexMaxBytes →
    scopeMap'.Perm scopeMap → st.objects.keys.length + 1 < fuel →
    (s'.getMemoryIndex fuel scopeMap').run (answerAt now) st = (some (.ok index), st)

/-- What a call that is not `get_memory_index` may do here: anything. -/
def StoreCall.IndexOutcome (i : Invocation StoreCall) (tr : StoreTrace)
    (r : Except Exc StoreResult) : Prop :=
  ∀ scopeMap, i.call = .getMemoryIndex scopeMap → ValidScopeMap scopeMap → Meets Indexable tr →
    ∀ e, r = .error e → IndexFails i.store e

/-- Every call for an index ends in one. -/
theorem sat_indexOutcome {lossy : Prop} (i : Invocation StoreCall) :
    i.body.Sat (inMemory lossy) (fun _ _ => True) (StoreCall.IndexOutcome i) [] := by
  obtain ⟨s, fuel, call⟩ := i
  have hany : (∀ scopeMap, call = .getMemoryIndex scopeMap → ¬ ValidScopeMap scopeMap) →
      (Invocation.body ⟨s, fuel, call⟩).Sat (inMemory lossy) (fun _ _ => True)
        (StoreCall.IndexOutcome ⟨s, fuel, call⟩) [] := by
    intro hnot
    apply (Prog.issues_true _).sat
    · exact fun _ _ _ => trivial
    · exact fun _ _ _ scopeMap hcall hmap => absurd hmap (hnot scopeMap hcall)
  cases call with
  | getMemoryIndex scopeMap =>
    by_cases hmap : ValidScopeMap scopeMap
    · apply (sat_getMemoryIndex s hmap fuel).andThen
      · intro tr index _ scopeMap' _ _ _ e he
        cases he
      · intro tr e h scopeMap' _ _ hmeets e' he
        cases he
        exact h hmeets e rfl
    · apply hany
      intro scopeMap' hcall
      cases hcall
      exact hmap
  | _ => exact hany fun _ hcall => by cases hcall

/-- **`get_memory_index` meets its specification**: it returns the index of the files, and, while
others write between its pages, no check of `CappedPrefix` or `MemoryIndex` fails. -/
theorem getMemoryIndex_spec (s : MemoryStore) {st : InMemoryStorage} {scopeMap : List (Str × Str)}
    (hst : Indexable st) (hmap : ValidScopeMap scopeMap) :
    (∃ files index, IndexedFiles s.scopePriority st scopeMap files ∧
      IndexOf s.indexMaxBytes files index ∧ ReturnsIndex s st scopeMap index) ∧
    ∀ (lossy : Prop) (w : InMemoryStorage) (p : StorePool) (t : Nat) (th : StoreThread) (e : Exc),
      Pool.Run (inMemory lossy) Invocation.body (fun p => Indexable p.world) w p →
      p.threads[t]? = some th → th.call.call = .getMemoryIndex scopeMap →
      p.returned t = some (.error e) → IndexFails th.call.store e := by
  constructor
  · obtain ⟨files, index, hfiles, hindex, -⟩ :=
      run_getMemoryIndex s noon hst hmap (Nat.lt_succ_self _)
    refine ⟨files, index, hfiles, hindex, ?_⟩
    intro s' scopeMap' now fuel hpriority hbudget hperm hfuel
    have hmap' : ValidScopeMap scopeMap' := by
      refine ⟨fun pair hpair => hmap.segments pair (hperm.mem_iff.mp hpair), ?_⟩
      exact (hperm.map _).nodup_iff.mpr hmap.scopes
    obtain ⟨files', index', hfiles', hindex', hrun⟩ := run_getMemoryIndex s' now hst hmap' hfuel
    rw [hpriority] at hfiles'
    rw [hbudget, IndexedFiles.unique hperm hfiles hfiles'] at hindex'
    rw [hrun, hindex'.unique hindex]
  · intro lossy w p t th e hrun ht hcall hreturned
    obtain ⟨th', ht', hend⟩ := Pool.returned_eq_some.mp hreturned
    rw [ht] at ht'
    cases ht'
    have hmeets : Meets Indexable (ownTrace t p.log) := fun ev hev => hrun.pre (mem_ownTrace.mp hev)
    exact hrun.post (fun i : Invocation StoreCall => sat_indexOutcome i) ht hend scopeMap hcall hmap
      hmeets e rfl

end

/-- Files of three entities and of one whose id extends another's, two written at the same instant, and a key
that is no path. -/
def teamFiles : InMemoryStorage :=
  let dated := fun text : String => metadataMap [] (str "[]") (str "[]") (str text)
  ((((((((InMemoryStorage.empty.putLocked (str "user/u1/notes/m.md") [] (dated "2026-01-01T00:00:00Z")).putLocked
    (str "user/u1/notes/n.md") [] (dated "2026-01-03T00:00:00Z")).putLocked
    (str "team/t1/notes/b.md") [] (dated "2026-01-02T01:00:00+01:00")).putLocked
    (str "team/t1/notes/a.md") [] (dated "2026-01-02T00:00:00Z")).putLocked
    (str "org/o1/notes/o.md") [] (dated "2026-01-04T00:00:00Z")).putLocked
    (str "user/u1/system/s.md") [] (dated "2025-01-01T00:00:00Z")).putLocked
    (str "user/u10/notes/k.md") [] (dated "2026-01-05T00:00:00Z")).putLocked
    (str "user/u1/junk") [0xFF] .empty)

/-- The scopes of three entities. -/
def teamMap : List (Str × Str) := [(str "user", str "u1"), (str "team", str "t1"), (str "org", str "o1")]

/-- A store of one key a page that ranks the team first, with room for three files. -/
def teamFirst : MemoryStore :=
  { onePerPage with
    scopePriority := [str "team"]
    priority_valid := by simp; decide +kernel
    priority_nodup := List.nodup_singleton _
    indexMaxBytes := 300
    indexMaxBytes_pos := by decide }

/-- The system file comes first, then the team's by path, for they are of one instant; the budget leaves out
the rest, which is counted by area. -/
theorem getMemoryIndex_team : let _ := Interpreter.ascii
    ∃ files index, IndexedFiles [str "team"] teamFiles teamMap files ∧ IndexOf 300 files index ∧
      ReturnsIndex teamFirst teamFiles teamMap index ∧
      index.entries.map (·.path) =
        [str "user/u1/system/s.md", str "team/t1/notes/a.md", str "team/t1/notes/b.md"] ∧
      index.capped.map (fun c => (c.pre, c.omitted)) =
        [(str "org/o1/notes/", 1), (str "user/u1/notes/", 2)] := by
  intro _
  have hst : Indexable teamFiles := .of_all (by decide +kernel)
  have hmap : ValidScopeMap teamMap := ⟨by decide +kernel, by decide +kernel⟩
  obtain ⟨files, index, hfiles, hindex, hreturns⟩ := (getMemoryIndex_spec teamFirst hst hmap).1
  have hrun := hreturns teamFirst teamMap noon 20 rfl rfl (.refl _) (by decide +kernel)
  have hshown : (((teamFirst.getMemoryIndex 20 teamMap).run (answerAt noon) teamFiles).1.bind
      (·.toOption)).map (fun index => (index.entries.map (·.path),
        index.capped.map fun c => (c.pre, c.omitted))) =
      some ([str "user/u1/system/s.md", str "team/t1/notes/a.md", str "team/t1/notes/b.md"],
        [(str "org/o1/notes/", 1), (str "user/u1/notes/", 2)]) := by
    decide +kernel
  rw [hrun] at hshown
  obtain ⟨hentries, hcapped⟩ := Prod.mk.inj (Option.some.inj hshown)
  exact ⟨files, index, hfiles, hindex, hreturns, hentries, hcapped⟩

end Wenchang
