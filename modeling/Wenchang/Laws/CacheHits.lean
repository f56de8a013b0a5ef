import Wenchang.Laws.ShownFiles

/-!
# What a cache still holds

A reader that finds an entity's listing under the token that stands serves it, with the paths as JSON joined
them, and otherwise drains. So an index through a cache that still holds some of what was set shows every
path exactly when each mapped entity is a hit whose text gives the paths back, or a miss whose listing can
be paged.
-/

namespace Wenchang

open Py Ordered Interaction

section

variable [Interpreter] {st : InMemoryStorage} (s : MemoryStore) (now : DateTime) (mint : SharedWorld → Str)
  {cache : IndexCache} {base : InMemoryStorage} {w v : SharedWorld}

/-! ## Hits and misses -/

/-- A world whose cache may have dropped some of what it held. -/
structure SharedWorld.Drops (w v : SharedWorld) : Prop where
  storage : v.storage = w.storage
  minted : v.minted = w.minted
  cache : ∀ key value, v.cache.get? key = some value → w.cache.get? key = some value

/-- A cache that has dropped something is one that was filled so. -/
theorem Cached.drops (h : Cached cache base freshLaw w) (hv : w.Drops v) : Cached cache base freshLaw v where
  later := hv.storage ▸ h.later
  holds key value hget := by
    refine (h.holds key value (hv.cache key value hget)).later (hv.minted ▸ fun _ ht => ht) ?_
    intro scope entityId token entries _ _ _ _ hlaw hcurrent
    rw [hv.storage]
    exact hlaw (hv.cache _ _ hcurrent)

/-- The listing that a reader of an entity finds in the cache, under the token that stands: a hit. -/
def SharedWorld.hit (w : SharedWorld) (cache : IndexCache) (scope entityId : Str) :
    Option (List FileEntry) :=
  (w.cache.get? (tokenKey cache scope entityId)).bind fun token =>
    (w.cache.get? (listingKey cache scope entityId)).bind
      (decodeListing · token (entityPrefix scope entityId))

/-- A world in which at most the keys of one scope were set. -/
structure SharedWorld.SetFor (cache : IndexCache) (scope : Str) (w v : SharedWorld) : Prop where
  storage : v.storage = w.storage
  hit : ∀ scope' entityId', isValidSegment scope' = true → scope' ≠ scope →
    v.hit cache scope' entityId' = w.hit cache scope' entityId'

/-- What is set in two steps for a scope is set for it. -/
theorem SharedWorld.SetFor.trans {scope : Str} {w₁ w₂ w₃ : SharedWorld} (h : w₁.SetFor cache scope w₂)
    (h' : w₂.SetFor cache scope w₃) : w₁.SetFor cache scope w₃ where
  storage := h'.storage.trans h.storage
  hit scope' entityId' hs hne := (h'.hit scope' entityId' hs hne).trans (h.hit scope' entityId' hs hne)

/-- A token of a scope is set for it. -/
theorem SharedWorld.setFor_token {scope : Str} (hs : isValidSegment scope = true) (w : SharedWorld)
    (entityId token : Str) : w.SetFor cache scope (w.set (tokenKey cache scope entityId) token) where
  storage := rfl
  hit scope' entityId' hs' hne := by
    have htoken : tokenKey cache scope' entityId' ≠ tokenKey cache scope entityId :=
      fun h => hne (tokenKey_inj hs' hs h).1
    unfold SharedWorld.hit
    rw [set_cache, FinMap.get?_insert_of_ne _ _ htoken, FinMap.get?_insert_of_ne _ _ tokenKey_ne_listingKey.symm]

/-- A listing of a scope is set for it. -/
theorem SharedWorld.setFor_listing {scope : Str} (hs : isValidSegment scope = true) (w : SharedWorld)
    (entityId raw : Str) : w.SetFor cache scope (w.set (listingKey cache scope entityId) raw) where
  storage := rfl
  hit scope' entityId' hs' hne := by
    have hlisting : listingKey cache scope' entityId' ≠ listingKey cache scope entityId :=
      fun h => hne (listingKey_inj hs' hs h).1
    unfold SharedWorld.hit
    rw [set_cache, FinMap.get?_insert_of_ne _ _ tokenKey_ne_listingKey, FinMap.get?_insert_of_ne _ _ hlisting]

/-- A drain does not look at the cache. -/
theorem run_drain_held (pre : Str) (fuel : Nat) (v : SharedWorld) :
    (s.drain pre fuel none).run (answerHeld now mint) v =
      (((s.drain pre fuel none).run (answerAt now) v.storage).1, v) := by
  have hissues : (s.drain pre fuel none).Issues fun o : StoreOp =>
      ∃ pre after limit, o = .storage (.listPage pre after limit) :=
    issues_drain s (fun after limit => ⟨pre, after, limit, rfl⟩) fuel none
  refine hissues.run_alike ?_ ?_
  · rintro _ ⟨pre, after, limit, rfl⟩
    rfl
  · rintro _ ⟨pre, after, limit, rfl⟩
    rfl

omit [Interpreter] in

/-- A get finds what the cache holds. -/
theorem run_cacheGet_held (key : Str) (v : SharedWorld) :
    (cacheGet key).run (answerHeld now mint) v = (some (.ok (v.cache.get? key)), v) := by
  have hask : (ask (.cacheGet key) : Store _).run (answerHeld now mint) v =
      (some (.ok (answerHeld now mint (.cacheGet key) v).1), v) := rfl
  unfold cacheGet
  rw [Prog.run_bind, hask]
  cases hget : v.cache.get? key with
  | none => simp only [answerHeld, hget]; rfl
  | some value => simp only [answerHeld, hget]; rfl

variable {scope entityId : Str} {v : SharedWorld}

/-- A reader that finds a listing serves it. -/
theorem run_cachedEntityEntries_hit (fuel : Nat) (hs : isValidSegment scope = true)
    (he : isValidSegment entityId = true) {hit : List FileEntry} (h : v.hit cache scope entityId = some hit) :
    (s.cachedEntityEntries fuel cache scope entityId).run (answerHeld now mint) v = (some (.ok hit), v) := by
  obtain ⟨token, hcurrent, hlisting⟩ := Option.bind_eq_some_iff.mp h
  have hprefix : joinSegments [scope, entityId] = entityPrefix scope entityId := rfl
  unfold MemoryStore.cachedEntityEntries orValueError
  simp only [buildPrefix_entity hs he, Except.mapError, Prog.ofExcept_ok, Prog.ret_bind, hprefix,
    Prog.run_bind, run_cacheGet_held, hcurrent, hlisting]
  rfl

/-- A reader that finds none drains, and sets keys of its entity. -/
theorem run_cachedEntityEntries_miss (fuel : Nat) (hs : isValidSegment scope = true)
    (he : isValidSegment entityId = true) (h : v.hit cache scope entityId = none) :
    ∃ v', v.SetFor cache scope v' ∧
      (s.cachedEntityEntries fuel cache scope entityId).run (answerHeld now mint) v =
        (((s.drain (entityPrefix scope entityId) fuel none).run (answerAt now) v.storage).1, v') := by
  have hprefix : joinSegments [scope, entityId] = entityPrefix scope entityId := rfl
  have hrefill : ∀ (token : Str) (v₁ : SharedWorld), v.SetFor cache scope v₁ → ∃ v', v.SetFor cache scope v' ∧
      (s.refill fuel cache scope entityId (entityPrefix scope entityId) token).run (answerHeld now mint) v₁ =
        (((s.drain (entityPrefix scope entityId) fuel none).run (answerAt now) v.storage).1, v') := by
    intro token v₁ hset
    unfold MemoryStore.refill
    simp only [Prog.run_bind, run_drain_held, hset.storage]
    generalize ((s.drain (entityPrefix scope entityId) fuel none).run (answerAt now) v.storage).1 = drained
    match drained with
    | none => exact ⟨v₁, hset, rfl⟩
    | some (.error e) => exact ⟨v₁, hset, rfl⟩
    | some (.ok entries) => exact ⟨_, hset.trans (SharedWorld.setFor_listing hs v₁ entityId _), rfl⟩
  unfold MemoryStore.cachedEntityEntries orValueError
  simp only [buildPrefix_entity hs he, Except.mapError, Prog.ofExcept_ok, Prog.ret_bind, hprefix,
    Prog.run_bind, run_cacheGet_held]
  cases hcurrent : v.cache.get? (tokenKey cache scope entityId) with
  | none =>
    have hmint : v.SetFor cache scope (v.mint (mint v)) := ⟨rfl, fun _ _ _ _ => rfl⟩
    exact hrefill (mint v) _ (hmint.trans (SharedWorld.setFor_token hs _ entityId _))
  | some token =>
    have hnone : ((v.cache.get? (listingKey cache scope entityId)).bind
        (decodeListing · token (entityPrefix scope entityId))) = none := by
      rw [SharedWorld.hit, hcurrent] at h
      exact h
    simp only [Prog.run_bind, run_cacheGet_held, hnone]
    exact hrefill token v ⟨rfl, fun _ _ _ _ => rfl⟩

/-- What an index through the cache merges for an entity: the listing that is a hit, or else what is there. -/
def SharedWorld.entries (v : SharedWorld) (cache : IndexCache) (pair : Str × Str) : List FileEntry :=
  (v.hit cache pair.1 pair.2).getD (v.storage.listEntries (entityPrefix pair.1 pair.2))

/-- An entity whose files an index through the cache shows: on a hit the text of the listing gives the paths
back, and on a miss the listing can be paged. -/
structure MemoryStore.ListsThrough (s : MemoryStore) (cache : IndexCache) (v : SharedWorld)
    (pair : Str × Str) : Prop where
  hit : (v.hit cache pair.1 pair.2).isSome = true →
    ∀ k ∈ v.storage.under (entityPrefix pair.1 pair.2), Joined k
  miss : v.hit cache pair.1 pair.2 = none → s.Lists v.storage pair

/-- One entity, through what the cache holds. -/
theorem run_cachedEntityEntries_held {fuel : Nat} (h : FilesOnly v.storage) (hs : isValidSegment scope = true)
    (he : isValidSegment entityId = true) (hfuel : v.storage.objects.keys.length < fuel) :
    ((v.hit cache scope entityId = none → s.Lists v.storage (scope, entityId)) ∧ ∃ v',
        v.SetFor cache scope v' ∧ (s.cachedEntityEntries fuel cache scope entityId).run
          (answerHeld now mint) v = (some (.ok (v.entries cache (scope, entityId))), v')) ∨
      (¬ (v.hit cache scope entityId = none → s.Lists v.storage (scope, entityId)) ∧ ∃ e v',
        (s.cachedEntityEntries fuel cache scope entityId).run (answerHeld now mint) v =
          (some (.error e), v')) := by
  cases hhit : v.hit cache scope entityId with
  | some hit =>
    have hentries : v.entries cache (scope, entityId) = hit := by rw [SharedWorld.entries, hhit, Option.getD_some]
    refine .inl ⟨nofun, v, ⟨rfl, fun _ _ _ _ => rfl⟩, ?_⟩
    rw [run_cachedEntityEntries_hit s now mint fuel hs he hhit, hentries]
  | none =>
    have hentries : v.entries cache (scope, entityId) = v.storage.listEntries (entityPrefix scope entityId) := by
      rw [SharedWorld.entries, hhit, Option.getD_none]
    have hlength : (v.storage.listing (entityPrefix scope entityId) none).length < fuel :=
      Nat.lt_of_le_of_lt (length_listing_le v.storage _ _) hfuel
    obtain ⟨v', hset, hrun⟩ := run_cachedEntityEntries_miss s now mint fuel hs he hhit
    have hstart : MemoryStore.decodeStart none (entityPrefix scope entityId) = .ok none := rfl
    rcases run_drain_pageable s now (entityPrefix_valid hs he) hstart hlength with
      ⟨hall, hdrain⟩ | ⟨hnot, e, hdrain⟩
    · refine .inl ⟨fun _ => h.pageable_iff.mp hall, v', hset, ?_⟩
      rw [hrun, hdrain, hentries]
      rfl
    · refine .inr ⟨fun hlists => hnot (h.pageable_iff.mpr (hlists rfl)), e, v', ?_⟩
      rw [hrun, hdrain]

/-- The entities of a scope map, through what the cache holds. -/
theorem run_collect_held {fuel : Nat} (hcache : s.indexCache = some cache) {st : InMemoryStorage}
    (hst : v.storage = st) (h : FilesOnly st) (hfuel : st.objects.keys.length < fuel) {pairs : List (Str × Str)}
    (hpairs : ValidScopeMap pairs) :
    ((∀ pair ∈ pairs, v.hit cache pair.1 pair.2 = none → s.Lists st pair) ∧ ∃ v',
        (s.collect fuel pairs).run (answerHeld now mint) v = (some (.ok (pairs.flatMap (v.entries cache))), v')) ∨
      ((¬ ∀ pair ∈ pairs, v.hit cache pair.1 pair.2 = none → s.Lists st pair) ∧ ∃ e v',
        (s.collect fuel pairs).run (answerHeld now mint) v = (some (.error e), v')) := by
  induction pairs generalizing v with
  | nil => exact .inl ⟨by simp, v, rfl⟩
  | cons pair rest ih =>
    obtain ⟨scope, entityId⟩ := pair
    obtain ⟨hs, he⟩ := hpairs.segments _ List.mem_cons_self
    have hscopes := hpairs.scopes
    rw [List.map_cons, List.nodup_cons] at hscopes
    have hrest : ValidScopeMap rest :=
      ⟨fun pair hpair => hpairs.segments pair (List.mem_cons_of_mem _ hpair), hscopes.2⟩
    subst hst
    simp only [collect_cons, MemoryStore.entityEntries, hcache, Prog.run_bind, List.forall_mem_cons]
    rcases run_cachedEntityEntries_held s now mint h hs he hfuel with ⟨hfirst, v₁, hset, hrun⟩ | ⟨hnot, e, v₁, hrun⟩
    · -- What was set for this entity is no hit of the others.
      have hsame : ∀ pair ∈ rest, v₁.hit cache pair.1 pair.2 = v.hit cache pair.1 pair.2 := by
        intro pair hpair
        refine hset.hit pair.1 pair.2 (hrest.segments pair hpair).1 fun heq => hscopes.1 ?_
        exact heq ▸ List.mem_map_of_mem hpair
      have hentries : rest.flatMap (v₁.entries cache) = rest.flatMap (v.entries cache) := by
        refine List.flatMap_congr fun pair hpair => ?_
        rw [SharedWorld.entries, SharedWorld.entries, hsame pair hpair, hset.storage]
      have hlists : (∀ pair ∈ rest, v₁.hit cache pair.1 pair.2 = none → s.Lists v.storage pair) ↔
          ∀ pair ∈ rest, v.hit cache pair.1 pair.2 = none → s.Lists v.storage pair :=
        forall₂_congr fun pair hpair => by rw [hsame pair hpair]
      simp only [hrun]
      rcases ih hset.storage hrest with ⟨hall, v', htail⟩ | ⟨hnot, e, v', htail⟩
      · refine .inl ⟨⟨hfirst, hlists.mp hall⟩, v', ?_⟩
        simp only [htail, hentries, List.flatMap_cons]
        rfl
      · exact .inr ⟨fun hall => hnot (hlists.mpr hall.2), e, v', by simp only [htail]⟩
    · exact .inr ⟨fun hall => hnot hall.1, e, v₁, by simp only [hrun]⟩

/-! ## What is merged -/

variable {scope entityId : Str} {v : SharedWorld}

/-- What the text of a listing reads back as has the paths as JSON joined them, and every time can still be
rendered. -/
theorem FilesOnly.shown_hit (h : FilesOnly st) {pre token tag : Str} {hit : List FileEntry}
    (hdecode : decodeListing (encodeListing tag (st.listEntries pre)) token pre = some hit) :
    hit.map (·.path) = (st.listEntries pre).map (fun e => joinPairs e.path) ∧
      ∀ e ∈ hit, e.metadata.lastUpdated.astimezoneUTC.isSome = true := by
  obtain ⟨-, hpaths, hupdated⟩ := tag_of_decodeListing hdecode
  refine ⟨hpaths, fun e he => ?_⟩
  have hmem : some e.metadata.lastUpdated ∈ hit.map (some ·.metadata.lastUpdated) := List.mem_map_of_mem he
  rw [hupdated] at hmem
  obtain ⟨e', he', heq⟩ := List.mem_map.mp hmem
  rw [fromisoformat_isoformat (readable_of_listEntries he')] at heq
  exact Option.some.inj heq ▸ h.renderable he'

/-- Whatever is merged for an entity is of this entity, and can be rendered. -/
theorem Cached.entries (hcached : Cached cache base freshLaw v) (h : FilesOnly v.storage)
    (hs : isValidSegment scope = true) (entityId : Str) :
    OneEntity (entityPrefix scope entityId) (v.entries cache (scope, entityId)) ∧
      ∀ e ∈ v.entries cache (scope, entityId), e.metadata.lastUpdated.astimezoneUTC.isSome = true := by
  unfold SharedWorld.entries
  cases hhit : v.hit cache scope entityId with
  | none => exact ⟨h.oneEntity _, fun _ he => h.renderable he⟩
  | some hit =>
    obtain ⟨token, hcurrent, hlisting⟩ := Option.bind_eq_some_iff.mp hhit
    obtain ⟨raw, hraw, hdecode⟩ := Option.bind_eq_some_iff.mp hlisting
    obtain ⟨-, hshown⟩ := hcached.hit hs hcurrent hraw hdecode
    exact ⟨decodeListing_oneEntity hdecode, (h.shown_hit hshown).2⟩

/-- A stored path is among what is merged, unless a hit changes it. -/
theorem Cached.mem_paths_entries (hcached : Cached cache base freshLaw v) (h : FilesOnly v.storage)
    (hs : isValidSegment scope = true) {k : Str} (hk : k ∈ v.storage.under (entityPrefix scope entityId)) :
    k ∈ (v.entries cache (scope, entityId)).map (·.path) ↔
      ((v.hit cache scope entityId).isSome = true → Joined k) := by
  unfold SharedWorld.entries
  cases hhit : v.hit cache scope entityId with
  | none => exact iff_of_true (h.mem_paths.mpr hk) nofun
  | some hit =>
    obtain ⟨token, hcurrent, hlisting⟩ := Option.bind_eq_some_iff.mp hhit
    obtain ⟨raw, hraw, hdecode⟩ := Option.bind_eq_some_iff.mp hlisting
    obtain ⟨-, hshown⟩ := hcached.hit hs hcurrent hraw hdecode
    rw [Option.getD_some, (h.shown_hit hshown).1]
    constructor
    · rintro hmem -
      obtain ⟨e, -, rfl⟩ := List.mem_map.mp hmem
      exact joined_joinPairs e.path
    · intro hjoined
      obtain ⟨e, he, rfl⟩ := List.mem_map.mp (h.mem_paths.mpr hk)
      exact List.mem_map.mpr ⟨e, he, hjoined rfl⟩

/-- What is merged of a scope map is in order for the merge. -/
theorem Cached.collected (hcached : Cached cache base freshLaw v) (h : FilesOnly v.storage)
    {pairs : List (Str × Str)} (hpairs : ValidScopeMap pairs) :
    Collected s.cacheless pairs (pairs.flatMap (v.entries cache)) := by
  induction pairs with
  | nil => exact ⟨.nil, nofun, nofun, nofun⟩
  | cons pair rest ih =>
    obtain ⟨scope, entityId⟩ := pair
    have hscopes := hpairs.scopes
    rw [List.map_cons, List.nodup_cons] at hscopes
    have hrest : ValidScopeMap rest :=
      ⟨fun pair hpair => hpairs.segments pair (List.mem_cons_of_mem _ hpair), hscopes.2⟩
    obtain ⟨hone, hrender⟩ := hcached.entries h (hpairs.segments _ List.mem_cons_self).1 entityId
    rw [List.flatMap_cons]
    exact Collected.cons hpairs hone (fun _ => hrender) (ih hrest)

/-- What is merged, through what the cache holds: the entities' entries, or an error where a miss cannot be
paged. -/
theorem run_getMemoryIndex_merged (hcached : Cached cache base freshLaw v) (h : FilesOnly v.storage)
    (hcache : s.indexCache = some cache) {fuel : Nat} (hfuel : v.storage.objects.keys.length < fuel)
    {scopeMap : List (Str × Str)} (hmap : ValidScopeMap scopeMap) :
    ((∀ pair ∈ scopeMap, v.hit cache pair.1 pair.2 = none → s.Lists v.storage pair) ∧ ∃ files index v',
        (s.getMemoryIndex fuel scopeMap).run (answerHeld now mint) v = (some (.ok index), v') ∧
        files.Perm ((sortedPairs scopeMap).flatMap (v.entries cache)) ∧ IndexOf s.indexMaxBytes files index) ∨
      ((¬ ∀ pair ∈ scopeMap, v.hit cache pair.1 pair.2 = none → s.Lists v.storage pair) ∧ ∃ e v',
        (s.getMemoryIndex fuel scopeMap).run (answerHeld now mint) v = (some (.error e), v')) := by
  have hsorted := hmap.sortedPairs
  have hcollected := hcached.collected s h hsorted
  simp only [MemoryStore.getMemoryIndex, hsorted.checkPairs, Prog.ofExcept_ok, Prog.ret_bind, Prog.run_bind,
    ← @mem_sortedPairs scopeMap]
  rcases run_collect_held s now mint hcache rfl h hfuel hsorted with ⟨hall, v', hrun⟩ | ⟨hnot, e, v', hrun⟩
  · obtain ⟨files, index, hmerge, hperm, -, hindex⟩ :=
      mergeIndex_eq_ok s hcollected.path hcollected.nodup (hcollected.renderable rfl)
    refine .inl ⟨hall, files, index, v', ?_, hperm, hindex⟩
    simp only [hrun, hmerge, Prog.run_ofExcept]
  · exact .inr ⟨hnot, e, v', by simp only [hrun]⟩

/-- A path below an entity's prefix is among what is merged where it is among the entity's entries. -/
theorem Cached.mem_paths_merged (hcached : Cached cache base freshLaw v) (h : FilesOnly v.storage)
    {pairs : List (Str × Str)} (hpairs : ValidScopeMap pairs) {pair : Str × Str} (hpair : pair ∈ pairs) {k : Str}
    (hk : k ∈ v.storage.under (entityPrefix pair.1 pair.2)) :
    k ∈ (pairs.flatMap (v.entries cache)).map (·.path) ↔ k ∈ (v.entries cache pair).map (·.path) := by
  obtain ⟨hs, he⟩ := hpairs.segments pair hpair
  constructor
  · intro hmem
    obtain ⟨e, hin, rfl⟩ := List.mem_map.mp hmem
    obtain ⟨pair', hpair', hin⟩ := List.mem_flatMap.mp hin
    obtain ⟨hs', he'⟩ := hpairs.segments pair' hpair'
    have hone := (hcached.entries h hs' pair'.2).1
    obtain ⟨hscope, hentity⟩ := entityPrefix_inj (hone.path e hin) hs he hs' he' hk.2 (hone.under e hin)
    rw [Prod.ext hscope hentity]
    exact List.mem_map_of_mem hin
  · intro hmem
    obtain ⟨e, hin, rfl⟩ := List.mem_map.mp hmem
    exact List.mem_map_of_mem (List.mem_flatMap.mpr ⟨pair, hpair, hin⟩)

/-- **The index through what a cache holds**: every store of this page size shows every path exactly when
each mapped entity's listing is a hit whose text gives the paths back, or a miss that can be paged. -/
theorem run_getMemoryIndex_held (hcached : Cached cache base freshLaw v) (h : FilesOnly v.storage)
    {fuel : Nat} (hfuel : v.storage.objects.keys.length < fuel) {scopeMap : List (Str × Str)}
    (hmap : ValidScopeMap scopeMap) :
    (∀ s' : MemoryStore, s'.listPageSize = s.listPageSize → s'.indexCache = some cache →
      ∃ index v', (s'.getMemoryIndex fuel scopeMap).run (answerHeld now mint) v = (some (.ok index), v') ∧
        ShowsAll v.storage scopeMap index) ↔
      ∀ pair ∈ scopeMap, s.ListsThrough cache v pair := by
  have hsorted := hmap.sortedPairs
  have hpath := (hcached.collected s h hsorted).path
  constructor
  · intro hshown pair hpair
    -- A store whose budget cuts nothing shows what it merged.
    let whole : MemoryStore :=
      { s with
        indexMaxBytes := (((sortedPairs scopeMap).flatMap (v.entries cache)).map entrySize).sum + 1
        indexMaxBytes_pos := Nat.succ_pos _
        indexCache := some cache }
    obtain ⟨index, v', hindex, happears⟩ := hshown whole rfl rfl
    rcases run_getMemoryIndex_merged whole now mint hcached h rfl hfuel hmap with
      ⟨hall, files, index', v₁, hrun, hperm, hspec⟩ | ⟨-, e, v₁, hrun⟩
    · obtain rfl := Except.ok.inj (Option.some.inj (congrArg Prod.fst (hrun.symm.trans hindex)))
      have hfit : (files.map entrySize).sum ≤ whole.indexMaxBytes := by
        rw [(hperm.map entrySize).sum_eq]
        exact Nat.le_succ _
      obtain ⟨hentries, hcapped⟩ := hspec.whole hfit
      refine ⟨fun hhit k hk => ?_, hall pair hpair⟩
      have hsortedPair := mem_sortedPairs.mpr hpair
      refine (hcached.mem_paths_entries h (hsorted.segments pair hsortedPair).1 hk).mp ?_ hhit
      refine (hcached.mem_paths_merged h hsorted hsortedPair hk).mp ?_
      rcases happears pair hpair k hk with hmem | ⟨c, hc, -⟩
      · rw [hentries] at hmem
        exact (hperm.map _).mem_iff.mp hmem
      · rw [hcapped] at hc
        cases hc
    · rw [hrun] at hindex
      cases hindex
  · intro hlists s' hsize hcache
    rcases run_getMemoryIndex_merged s' now mint hcached h hcache hfuel hmap with
      ⟨-, files, index, v', hrun, hperm, hspec⟩ | ⟨hnot, -⟩
    · refine ⟨index, v', hrun, fun pair hpair k hk => ?_⟩
      have hsortedPair := mem_sortedPairs.mpr hpair
      have hmem := (hcached.mem_paths_entries h (hsorted.segments pair hsortedPair).1 hk).mpr
        fun hhit => (hlists pair hpair).hit hhit k hk
      have hmerged := (hcached.mem_paths_merged h hsorted hsortedPair hk).mpr hmem
      obtain ⟨e, he, rfl⟩ := List.mem_map.mp ((hperm.map _).mem_iff.mpr hmerged)
      exact hspec.appears (fun e' he' => hpath e' (hperm.mem_iff.mp he')) he
    · refine absurd (fun pair hpair hmiss => ?_) hnot
      rw [MemoryStore.Lists, hsize]
      exact (hlists pair hpair).miss hmiss

end

end Wenchang
