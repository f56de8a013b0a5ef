import Wenchang.Laws.CacheHits
import Wenchang.Laws.Cursors

/-!
# Paths of any characters

A path may hold any code points that a segment may, surrogates too. What breaks a listing is a page that
ends at a key with a surrogate: its cursor cannot be encoded (`PagesEncode`). Where no page does, paging
to the end and the index without a cache come to an end, and every stored path appears. Through a cache a
listing that is found there need not be paged, but its text must give the paths back.
-/

namespace Wenchang

open Py Ordered Interaction

section

variable [Interpreter] {st : InMemoryStorage} (s : MemoryStore) (now : DateTime)

/-! ## Through a cache -/

section Ends

variable {raises : Exc → Prop} {w : SharedWorld} {s}

/-- Where the text of a listing reads back at all, it gives the paths back. -/
def InMemoryStorage.ReadsBack (st : InMemoryStorage) (pre : Str) : Prop :=
  ∀ token hit, decodeListing (encodeListing token (st.listEntries pre)) token pre = some hit →
    ∀ k ∈ st.under pre, Joined k

variable {cache : IndexCache} {base : InMemoryStorage}

/-- A hit shows the files. -/
theorem FilesOnly.shows_hit (h : FilesOnly w.storage) (hcached : Cached cache base freshLaw w)
    {scope entityId token raw : Str} {hit : List FileEntry} (hs : isValidSegment scope = true)
    (hback : w.storage.ReadsBack (entityPrefix scope entityId))
    (hcurrent : w.cache.get? (tokenKey cache scope entityId) = some token)
    (hraw : w.cache.get? (listingKey cache scope entityId) = some raw)
    (hdecode : decodeListing raw token (entityPrefix scope entityId) = some hit) :
    ShowsFiles w.storage [(scope, entityId)] hit := by
  obtain ⟨-, hhit⟩ := hcached.hit hs hcurrent hraw hdecode
  obtain ⟨hpaths, hrender⟩ := h.shown_hit hhit
  refine ⟨?_, hrender⟩
  rw [hpaths, List.flatMap_singleton]
  refine List.map_congr_left fun e he => hback token hit hhit e.path ?_
  exact h.mem_paths.mp (List.mem_map_of_mem he)

/-- One entity, through a cache. -/
theorem ends_cachedEntityEntries_shows (h : FilesOnly w.storage) (hcached : Cached cache base freshLaw w)
    {scope entityId : Str} {fuel : Nat} (hs : isValidSegment scope = true)
    (he : isValidSegment entityId = true) (hfuel : w.storage.objects.keys.length < fuel)
    (hlists : s.Lists w.storage (scope, entityId))
    (hback : w.storage.ReadsBack (entityPrefix scope entityId)) :
    (s.cachedEntityEntries fuel cache scope entityId).Ends (handlesShared never)
      (fun r w' => (∃ entries, r = .ok entries ∧ ShowsFiles w.storage [(scope, entityId)] entries) ∧
        w'.storage = w.storage ∧ Cached cache base freshLaw w') w := by
  refine (ends_cachedEntityEntries hs he hfuel).runs.mono fun r w' hrun => ?_
  obtain ⟨hsteps, hstorage, hreads⟩ := runs_cachedEntityEntries s hs he hrun
  refine ⟨?_, hstorage, hsteps.keeps (fun _ _ _ _ hs he hstep =>
    Cached.step (kept_freshLaw base) hs he hstep) hcached⟩
  cases hreads with
  | listed => exact ⟨_, rfl, h.shows scope entityId⟩
  | served token raw hit hcurrent hraw hdecode =>
    exact ⟨hit, rfl, h.shows_hit hcached hs hback hcurrent hraw hdecode⟩
  | raised e hraised => exact absurd (hraised (h.pageable_iff.mpr hlists)) not_false

/-- The entities of a scope map, through a cache. -/
theorem ends_collect_shows (hcache : s.indexCache = some cache) {st : InMemoryStorage}
    (hst : w.storage = st) (h : FilesOnly st) (hcached : Cached cache base freshLaw w) {fuel : Nat}
    (hfuel : st.objects.keys.length < fuel) {pairs : List (Str × Str)}
    (hpairs : ∀ pair ∈ pairs, isValidSegment pair.1 = true ∧ isValidSegment pair.2 = true)
    (hlists : ∀ pair ∈ pairs, s.Lists st pair ∧ st.ReadsBack (entityPrefix pair.1 pair.2)) :
    (s.collect fuel pairs).Ends (handlesShared never)
      (fun r _ => ∃ collected, r = .ok collected ∧ ShowsFiles st pairs collected) w := by
  induction pairs generalizing w with
  | nil => exact ⟨[], rfl, showsFiles_nil⟩
  | cons pair rest ih =>
    obtain ⟨scope, entityId⟩ := pair
    obtain ⟨hs, he⟩ := hpairs _ List.mem_cons_self
    obtain ⟨hfirst, hback⟩ := hlists _ List.mem_cons_self
    subst hst
    rw [collect_cons, MemoryStore.entityEntries, hcache]
    refine (Prog.ends_bind _ _ _ _).mpr
      ((ends_cachedEntityEntries_shows h hcached hs he hfuel hfirst hback).mono ?_)
    rintro r w' ⟨⟨entries, rfl, hentries⟩, hstorage, hcached'⟩
    have htail := ih hstorage hcached' (fun pair hpair => hpairs pair (List.mem_cons_of_mem _ hpair))
      fun pair hpair => hlists pair (List.mem_cons_of_mem _ hpair)
    refine (Prog.ends_bind _ _ _ _).mpr (htail.mono ?_)
    rintro r w'' ⟨collected, rfl, hcollected⟩
    exact ⟨entries ++ collected, rfl, hentries.cons hcollected⟩

/-- The index through a cache shows every path of the mapped entities. -/
theorem ends_getMemoryIndex_shows (hcache : s.indexCache = some cache) (h : FilesOnly w.storage)
    (hcached : Cached cache base freshLaw w) {fuel : Nat} (hfuel : w.storage.objects.keys.length < fuel)
    {scopeMap : List (Str × Str)} (hmap : ValidScopeMap scopeMap)
    (hlists : ∀ pair ∈ scopeMap,
      s.Lists w.storage pair ∧ w.storage.ReadsBack (entityPrefix pair.1 pair.2)) :
    (s.getMemoryIndex fuel scopeMap).Ends (handlesShared never)
      (fun r _ => ∃ index, r = .ok index ∧ ShowsAll w.storage scopeMap index) w := by
  have hsorted := hmap.sortedPairs
  simp only [ShowsAll, ← @mem_sortedPairs scopeMap] at hlists ⊢
  unfold MemoryStore.getMemoryIndex
  simp only [hsorted.checkPairs, Prog.ofExcept_ok, Prog.ret_bind]
  refine (Prog.ends_bind _ _ _ _).mpr
    ((ends_collect_shows hcache rfl h hcached hfuel hsorted.segments hlists).mono ?_)
  rintro r w' ⟨collected, rfl, hcollected⟩
  obtain ⟨index, hmerge, happears⟩ := hcollected.merge s h hsorted
  exact (Prog.ends_ofExcept _ _).mpr ⟨index, hmerge, happears⟩

end Ends

/-- **Paths of any characters are listed** where no page ends at a surrogate: paging to the end and the
index without a cache show every stored path exactly then. After any sequential history the index through
what the cache still holds shows them exactly where each mapped entity is a hit that gives the paths back or
a miss that can be paged, and it does whatever the cache drops on the way where each is both. -/
theorem any_path_listed {raises : Exc → Prop} {cache : IndexCache} {w₀ w : SharedWorld}
    {calls : List (Invocation StoreCall × Except Exc StoreResult)}
    (hempty : ∀ key, w₀.cache.get? key = none)
    (hist : History (handlesShared raises) Invocation.body w₀ calls w)
    (huses : ∀ c ∈ calls, UsesCache cache c.1) (h : FilesOnly w.storage) {fuel : Nat}
    (hfuel : w.storage.objects.keys.length < fuel) (s : MemoryStore) (now : DateTime) :
    (∀ pre, isValidPrefix pre = true →
      ((∃ entries, (s.drain pre fuel none).run (answerAt now) w.storage =
          (some (.ok entries), w.storage) ∧ ∀ k ∈ w.storage.under pre, k ∈ entries.map (·.path)) ↔
        PagesEncode s.listPageSize (w.storage.listing pre none))) ∧
    ∀ scopeMap, ValidScopeMap scopeMap →
      ((∃ index, (s.cacheless.getMemoryIndex fuel scopeMap).run (answerAt now) w.storage =
          (some (.ok index), w.storage) ∧ ShowsAll w.storage scopeMap index) ↔
        ∀ pair ∈ scopeMap, s.Lists w.storage pair) ∧
      (∀ v, w.Drops v → ∀ mint : SharedWorld → Str,
        (∀ s' : MemoryStore, s'.listPageSize = s.listPageSize → s'.indexCache = some cache →
          ∃ index v', (s'.getMemoryIndex fuel scopeMap).run (answerHeld now mint) v =
            (some (.ok index), v') ∧ ShowsAll w.storage scopeMap index) ↔
          ∀ pair ∈ scopeMap, s.ListsThrough cache v pair) ∧
      (s.indexCache = some cache →
        (∀ pair ∈ scopeMap,
          s.Lists w.storage pair ∧ w.storage.ReadsBack (entityPrefix pair.1 pair.2)) →
        (s.getMemoryIndex fuel scopeMap).Ends (handlesShared never)
          (fun r _ => ∃ index, r = .ok index ∧ ShowsAll w.storage scopeMap index) w) := by
  have hcached := cached_history (kept_freshLaw _) hist huses (cached_empty hempty)
  refine ⟨fun pre hpre => ?_, fun scopeMap hmap => ⟨?_, fun v hv mint => ?_, fun hcache hlists => ?_⟩⟩
  · have hlength := Nat.lt_of_le_of_lt (length_listing_le w.storage pre none) hfuel
    have hstart : MemoryStore.decodeStart none pre = .ok none := rfl
    rw [← h.pageable_iff]
    rcases run_drain_pageable s now hpre hstart hlength with ⟨hall, hrun⟩ | ⟨hnot, e, hrun⟩
    · exact iff_of_true ⟨_, hrun, fun k hk => h.mem_paths.mpr hk⟩ hall
    · refine iff_of_false ?_ hnot
      rintro ⟨entries, hentries, -⟩
      rw [hrun] at hentries
      cases hentries
  · exact run_getMemoryIndex_lists s.cacheless now rfl h hfuel hmap
  · have hsame := hv.storage
    rw [← hsame] at h hfuel ⊢
    exact run_getMemoryIndex_held s now mint (hcached.drops hv) h hfuel hmap
  · exact ends_getMemoryIndex_shows hcache h hcached hfuel hmap hlists

/-- Files, told by looking at each. -/
theorem FilesOnly.of_all (h : st.objects.entries.all (fun kv => isValidPath kv.1 &&
    (metadataFromMap kv.2.metadata).toOption.any (·.lastUpdated.astimezoneUTC.isSome)) = true) :
    FilesOnly st := by
  have hfile := FinMap.all_entries.mp h
  constructor
  · intro k obj hobj
    obtain ⟨hpath, -⟩ := Bool.and_eq_true_iff.mp (hfile k obj hobj)
    exact hpath
  · intro k obj hobj
    obtain ⟨-, hmetadata⟩ := Bool.and_eq_true_iff.mp (hfile k obj hobj)
    obtain ⟨m, hm, hutc⟩ := (Option.any_eq_true _ _).mp hmetadata
    exact ⟨m, eq_ok_of_toOption hm, hutc⟩

end

/-- A file whose name is one surrogate. -/
def surrogatePath (c : CodePoint) : Str := str "user/u1/notes/" ++ [c] ++ mdSuffix

/-- Two such files. -/
def surrogateFiles : InMemoryStorage :=
  let metadata := metadataMap [] (str "[]") (str "[]") (str "2026-01-01T00:00:00Z")
  (InMemoryStorage.empty.putLocked (surrogatePath 0xD800) [] metadata).putLocked
    (surrogatePath 0xD801) [] metadata

/-- A store of one file a page, over the cache. -/
def onePerPageCached : MemoryStore := { onePerPage with indexCache := some ⟨[]⟩ }

/-- They hold valid files only. -/
theorem filesOnly_surrogateFiles : let _ := Interpreter.ascii
    FilesOnly surrogateFiles := by
  intro _
  exact .of_all (by decide +kernel)

/-- A page that ends at a surrogate breaks the listing and the index. -/
theorem surrogate_breaks_listing : let _ := Interpreter.ascii
    FilesOnly surrogateFiles ∧ isValidPrefix (str "user/u1/") = true ∧
      ValidScopeMap [(str "user", str "u1")] ∧
      (∃ e, listAt onePerPage (str "user/u1/") none surrogateFiles =
        some (.error (.unicodeEncodeError e))) ∧
      ∃ e, (onePerPage.getMemoryIndex 4 [(str "user", str "u1")]).run (answerAt noon) surrogateFiles =
        (some (.error (.unicodeEncodeError e)), surrogateFiles) := by
  intro _
  have hmap : ValidScopeMap [(str "user", str "u1")] := ⟨by decide +kernel, by simp⟩
  exact ⟨filesOnly_surrogateFiles, by decide +kernel, hmap, ⟨_, rfl⟩, ⟨_, rfl⟩⟩

/-- A store of larger pages has listed the files and left them in the cache, where a store of one file a page
cannot list them. -/
theorem exists_cached_surrogates : let _ := Interpreter.ascii
    ∃ (calls : List (Invocation StoreCall × Except Exc StoreResult)) (w : SharedWorld),
      History (handlesShared never) Invocation.body ⟨surrogateFiles, .empty, []⟩ calls w ∧
      (∀ c ∈ calls, UsesCache ⟨[]⟩ c.1) ∧ FilesOnly w.storage ∧ w.storage.objects.keys.length < 4 ∧
      (∀ k obj, w.storage.get k = some obj → Joined k) ∧
      (w.hit ⟨[]⟩ (str "user") (str "u1")).isSome = true ∧
      ¬ onePerPageCached.Lists w.storage (str "user", str "u1") := by
  intro _
  have hends : ((historyFrom [⟨cachedStore, 4, .getMemoryIndex [(str "user", str "u1")]⟩]
      ⟨surrogateFiles, .empty, []⟩).any fun out => out.2.2 ∧
        (out.2.1.storage.objects.entries.all fun kv => isValidPath kv.1 &&
          (metadataFromMap kv.2.metadata).toOption.any (·.lastUpdated.astimezoneUTC.isSome)) ∧
        (out.2.1.storage.objects.entries.all fun kv => decide (joinPairs kv.1 = kv.1)) ∧
        out.2.1.storage.objects.keys.length < 4 ∧
        (out.2.1.hit ⟨[]⟩ (str "user") (str "u1")).isSome ∧
        (out.2.1.storage.listing (entityPrefix (str "user") (str "u1")) none).length = 2 ∧
        ((out.2.1.storage.listing (entityPrefix (str "user") (str "u1")) none)[0]?.any
          (·.key.any isSurrogate))) = true := by
    decide +kernel
  obtain ⟨⟨calls, w, flag⟩, hout, h⟩ := (Option.any_eq_true _ _).mp hends
  rw [decide_eq_true_eq] at h
  obtain ⟨hflag, hfiles, hjoined, hfuel, hhit, hlength, hfirst⟩ := h
  obtain rfl : flag = true := hflag
  obtain ⟨hist, hcalls⟩ := history_of_historyFrom hout
  have huses : ∀ c ∈ calls, UsesCache ⟨[]⟩ c.1 := by
    intro c hc
    have hin : c.1 ∈ calls.map (·.1) := List.mem_map_of_mem hc
    rw [hcalls, List.mem_singleton] at hin
    rw [hin]
    rfl
  have hkeys : ∀ k obj, w.storage.get k = some obj → Joined k := by
    intro k obj hobj
    have hkey : joinPairs k = k := of_decide_eq_true (FinMap.all_entries.mp hjoined k obj hobj)
    exact hkey
  refine ⟨calls, w, hist, huses, .of_all hfiles, hfuel, hkeys, hhit, fun hencode => ?_⟩
  -- The first page ends at a surrogate.
  obtain ⟨o, ho, hsurrogate⟩ := (Option.any_eq_true _ _).mp hfirst
  have hscalar := hencode 0 o (by rw [hlength]; decide) ho
  obtain ⟨c, hc, hbad⟩ := List.any_eq_true.mp hsurrogate
  exact absurd hbad (by rw [hscalar c hc]; decide)

/-- A store of small pages lists both files where a store of larger pages has cached them, and raises where
the cache has dropped them. -/
theorem any_path_listed_surrogates : let _ := Interpreter.ascii
    ∃ (calls : List (Invocation StoreCall × Except Exc StoreResult)) (w : SharedWorld),
      History (handlesShared never) Invocation.body ⟨surrogateFiles, .empty, []⟩ calls w ∧
      (∃ index w', (onePerPageCached.getMemoryIndex 4 [(str "user", str "u1")]).run
          (answerHeld noon nextToken) w = (some (.ok index), w') ∧
        ShowsAll w.storage [(str "user", str "u1")] index) ∧
      ¬ ∀ s' : MemoryStore, s'.listPageSize = 1 → s'.indexCache = some ⟨[]⟩ →
        ∃ index v', (s'.getMemoryIndex 4 [(str "user", str "u1")]).run (answerHeld noon nextToken)
            { w with cache := .empty } = (some (.ok index), v') ∧
          ShowsAll w.storage [(str "user", str "u1")] index := by
  intro _
  obtain ⟨calls, w, hist, huses, hfiles, hfuel, hkeys, hhit, hnot⟩ := exists_cached_surrogates
  have hmap : ValidScopeMap [(str "user", str "u1")] := ⟨by decide +kernel, by simp⟩
  have hlaw := (any_path_listed (fun _ => rfl) hist huses hfiles hfuel onePerPageCached noon).2 _ hmap
  refine ⟨calls, w, hist, ?_, fun hall => ?_⟩
  · refine (hlaw.2.1 w ⟨rfl, rfl, fun _ _ h => h⟩ nextToken).mpr (fun pair hpair => ?_) onePerPageCached rfl rfl
    obtain rfl := List.mem_singleton.mp hpair
    refine ⟨fun _ k hk => ?_, fun hmiss => ?_⟩
    · obtain ⟨obj, hobj⟩ := Option.isSome_iff_exists.mp hk.1
      exact hkeys k obj hobj
    · rw [hmiss] at hhit
      cases hhit
  · have hthrough := (hlaw.2.1 { w with cache := .empty } ⟨rfl, rfl, nofun⟩ nextToken).mp hall
    exact hnot ((hthrough _ List.mem_cons_self).miss rfl)

end Wenchang
