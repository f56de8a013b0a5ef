import Wenchang.Laws.CacheTraces
import Wenchang.Laws.ReadersEnd

/-!
# The cached index, one call at a time

In a sequential history a listing is tagged with the token that stands only while it is what a drain
would find, so serving it is the same as listing. With that an index through the cache is the index a
store without a cache returns.
-/

namespace Wenchang

open Py Ordered Interaction

/-- A storage all of whose texts are scalar and whose files' metadata can be read. -/
structure ScalarStored [Interpreter] (st : InMemoryStorage) : Prop where
  keys : ∀ k obj, st.get k = some obj → Scalar k
  texts : ∀ k obj, st.get k = some obj → obj.metadata.Scalar
  readable : ∀ k obj, st.get k = some obj → isValidPath k = true →
    ∃ metadata, metadataFromMap obj.metadata = .ok metadata

/-- A written number is scalar. -/
theorem scalar_ofNat (n : Nat) : Scalar (Py.ofNat n) := by
  have hstr : Py.ofNat n = str (String.ofList (Nat.toDigits 10 n)) := by
    simp [Py.ofNat, str]
  rw [hstr]
  exact scalar_str _

/-- A token is scalar. -/
theorem IsHexToken.scalar {token : Str} (h : IsHexToken token) : Scalar token := fun c hc =>
  scalar_str _ c (h.2 c hc)

section

variable [Interpreter] {st : InMemoryStorage}

/-- Such a storage, told by looking at each key. -/
theorem ScalarStored.of_all (h : st.objects.entries.all (fun e => e.1.all (!isSurrogate ·) &&
    e.2.metadata.entries.all (·.2.all (!isSurrogate ·)) && (metadataFromMap e.2.metadata).toOption.isSome) =
      true) : ScalarStored st := by
  have hfile : ∀ k obj, st.get k = some obj → (k.all (!isSurrogate ·) = true ∧
      obj.metadata.entries.all (·.2.all (!isSurrogate ·)) = true) ∧
        (metadataFromMap obj.metadata).toOption.isSome = true := by
    intro k obj hobj
    obtain ⟨htexts, hread⟩ := Bool.and_eq_true_iff.mp (FinMap.all_entries.mp h k obj hobj)
    exact ⟨Bool.and_eq_true_iff.mp htexts, hread⟩
  refine ⟨fun k obj hobj => scalar_of_all (hfile k obj hobj).1.1,
    fun k obj hobj => Metadata.scalar_of_all (hfile k obj hobj).1.2, fun k obj hobj _ => ?_⟩
  obtain ⟨m, hm⟩ := Option.isSome_iff_exists.mp (hfile k obj hobj).2
  exact ⟨m, eq_ok_of_toOption hm⟩

/-- Scalar storage is sound. -/
theorem ScalarStored.sound (h : ScalarStored st) : Sound st where
  encodable k obj hobj := ⟨_, encodeUtf8_eq_ok.mpr (utf8Encode_of_scalar (h.keys k obj hobj))⟩
  readable := h.readable

/-- Whatever a listing shows has a last-updated that can be written and read again. -/
theorem readable_of_listEntries {pre : Str} {e : FileEntry} (he : e ∈ st.listEntries pre) :
    e.metadata.lastUpdated.Readable := by
  obtain ⟨o, -, hentry⟩ := List.mem_filterMap.mp he
  obtain ⟨-, -, -, hmetadata⟩ := entryOf_eq_some hentry
  exact readable_of_metadataFromMap hmetadata

/-- What a listing of scalar texts shows survives JSON. -/
theorem ScalarStored.joined (h : ScalarStored st) {pre : Str} {e : FileEntry}
    (he : e ∈ st.listEntries pre) :
    e.Survives ∧ isValidPath e.path = true ∧ pre.isPrefixOf e.path = true := by
  have hreadable := readable_of_listEntries he
  obtain ⟨o, ho, hentry⟩ := List.mem_filterMap.mp he
  obtain ⟨hvalid, hpath, hversion, hmetadata⟩ := entryOf_eq_some hentry
  obtain ⟨hunder, -, obj, hobj, hlisted⟩ := mem_listing.mp ho
  rw [hlisted] at hversion hmetadata
  have hmap : obj.metadata.Scalar := h.texts _ _ hobj
  obtain ⟨rawAliases, rawSources, sources, hdescription, -⟩ := metadataFromMap_eq_ok hmetadata
  have hstorable := storable_of_metadataFromMap hmap hmetadata
  obtain ⟨n, -, hn⟩ := InMemoryStorage.issued_of_get hobj
  refine ⟨⟨⟨?_, ?_, (hmap _ _ hdescription).joined, hstorable.aliases, hstorable.sources⟩, hreadable⟩,
    hpath ▸ hvalid, hpath ▸ hunder⟩
  · rw [hpath]
    exact (h.keys _ _ hobj).joined
  · rw [hversion, show (listed o.key obj).version = Py.ofNat n from hn]
    exact (scalar_ofNat n).joined

/-- No path is listed twice. -/
theorem ScalarStored.nodup (h : ScalarStored st) (pre : Str) :
    ((st.listEntries pre).map (·.path)).Nodup := by
  have hreadable : Readable (st.listing pre none) := by
    intro o ho hpath
    obtain ⟨-, -, obj, hobj, hlisted⟩ := mem_listing.mp ho
    obtain ⟨metadata, hmetadata⟩ := h.readable _ _ hobj hpath
    exact ⟨metadata, by rw [hlisted]; exact hmetadata⟩
  have hsorted := (read_listing st pre none).sorted
  rw [InMemoryStorage.listEntries, paths_filterMap hreadable]
  exact (hsorted.imp ne_of_lt).filter _

/-- A listing tagged with the token that stands is what is there. -/
def freshLaw : ListingLaw := fun st current scope entityId token entries =>
  current = some token → entries = st.listEntries (entityPrefix scope entityId)

/-- The law of freshness is kept. -/
theorem kept_freshLaw (base : InMemoryStorage) : freshLaw.Kept base where
  index _ _ _ _ _ _ := rfl
  frame st st' current scope entityId token entries _ hagree h hcurrent := by
    rw [h hcurrent, InMemoryStorage.listEntries, InMemoryStorage.listEntries,
      listing_congr fun k hk _ => hagree k hk]
  replace _ _ _ _ _ _ _ _ _ hne _ hcurrent := absurd hcurrent hne

/-- A hit is what the listing of what is there reads back as. -/
theorem Cached.hit {cache : IndexCache} {base : InMemoryStorage} {w : SharedWorld}
    (h : Cached cache base freshLaw w) {scope entityId token raw : Str} {hit : List FileEntry}
    (hs : isValidSegment scope = true)
    (hcurrent : w.cache.get? (tokenKey cache scope entityId) = some token)
    (hcached : w.cache.get? (listingKey cache scope entityId) = some raw)
    (hdecode : decodeListing raw token (entityPrefix scope entityId) = some hit) :
    IsHexToken token ∧ decodeListing (encodeListing token
      (w.storage.listEntries (entityPrefix scope entityId))) token (entityPrefix scope entityId) =
        some hit := by
  rcases h.listing hs hcached with rfl | ⟨tag, entries, rfl, hex, hfresh⟩
  · rw [decodeListing_tombstone] at hdecode
    cases hdecode
  · have htag : joinPairs tag = token := (tag_of_decodeListing hdecode).1
    rw [hex.scalar.joined] at htag
    subst htag
    have hentries := hfresh hcurrent
    subst hentries
    exact ⟨hex, hdecode⟩

/-- **A hit is what is there**, where all texts are scalar. -/
theorem Cached.served {cache : IndexCache} {base : InMemoryStorage} {w : SharedWorld}
    (h : Cached cache base freshLaw w) (hst : ScalarStored w.storage) {scope entityId token raw : Str}
    {hit : List FileEntry} (hs : isValidSegment scope = true)
    (hcurrent : w.cache.get? (tokenKey cache scope entityId) = some token)
    (hcached : w.cache.get? (listingKey cache scope entityId) = some raw)
    (hdecode : decodeListing raw token (entityPrefix scope entityId) = some hit) :
    hit = w.storage.listEntries (entityPrefix scope entityId) := by
  obtain ⟨hex, hhit⟩ := h.hit hs hcurrent hcached hdecode
  rw [decodeListing_self hex.scalar.joined (fun e he => hst.joined he) (hst.nodup _)] at hhit
  exact (Option.some.inj hhit).symm

/-! ## An index -/

variable {s : MemoryStore} {w w' : SharedWorld} {base : InMemoryStorage}

/-- The answers of a storage that raises nothing. -/
abbrev never : Exc → Prop := fun _ => False

/-- An entity as a reader without failures reads it. -/
theorem runs_entityEntries (hst : ScalarStored w.storage)
    (hcache : ∀ c ∈ s.indexCache, Cached c base freshLaw w) {scope entityId : Str} {fuel : Nat}
    (hs : isValidSegment scope = true) (he : isValidSegment entityId = true)
    {r : Except Exc (List FileEntry)}
    (h : (s.entityEntries fuel scope entityId).Runs (handlesShared never) w r w') :
    r = .ok (w.storage.listEntries (entityPrefix scope entityId)) ∧ w'.storage = w.storage ∧
      ∀ c ∈ s.indexCache, Cached c base freshLaw w' := by
  unfold MemoryStore.entityEntries at h
  cases hc : s.indexCache with
  | none =>
    have hprefix : joinSegments [scope, entityId] = entityPrefix scope entityId := rfl
    simp only [hc, orValueError, buildPrefix_entity hs he, Except.mapError, Prog.ofExcept_ok,
      Prog.ret_bind, hprefix] at h
    obtain ⟨rfl, ⟨hok, -⟩ | ⟨e, -, hraised⟩⟩ := runs_drain s (entityPrefix_valid hs he) rfl h
    · exact ⟨hok, rfl, by simp⟩
    · exact absurd (hraised (hst.sound.pageable _ _ _)) not_false
  | some c =>
    simp only [hc] at h
    obtain ⟨hsteps, hstorage, hreads⟩ := runs_cachedEntityEntries s hs he h
    have hinv : Cached c base freshLaw w := hcache c hc
    refine ⟨?_, hstorage, fun c' hc' => ?_⟩
    · cases hreads with
      | listed => rfl
      | served token raw hit hcurrent hcached hdecode =>
        rw [hinv.served hst hs hcurrent hcached hdecode]
      | raised e hraised => exact absurd (hraised (hst.sound.pageable _ _ _)) not_false
    · obtain rfl := Option.some.inj hc'
      exact hsteps.keeps (fun _ _ _ _ hs he hstep => Cached.step (kept_freshLaw base) hs he hstep) hinv

/-- What is collected through the cache is what storage holds. -/
theorem runs_collect (hcache : ∀ c ∈ s.indexCache, Cached c base freshLaw w)
    (hst : ScalarStored w.storage) {fuel : Nat} {pairs : List (Str × Str)}
    (hpairs : ∀ pair ∈ pairs, isValidSegment pair.1 = true ∧ isValidSegment pair.2 = true)
    {r : Except Exc (List FileEntry)}
    (h : (s.collect fuel pairs).Runs (handlesShared never) w r w') :
    r = .ok (pairs.flatMap fun pair => w.storage.listEntries (entityPrefix pair.1 pair.2)) := by
  induction pairs generalizing w r w' with
  | nil => exact (Prog.runs_ret.mp h).1
  | cons pair rest ih =>
    obtain ⟨scope, entityId⟩ := pair
    obtain ⟨hs, he⟩ := hpairs _ List.mem_cons_self
    have hrest := fun pair hpair => hpairs pair (List.mem_cons_of_mem _ hpair)
    rw [collect_cons] at h
    rcases Prog.runs_bind.mp h with ⟨entries, w₁, hentity, htail⟩ | ⟨e, rfl, hentity⟩
    · obtain ⟨hok, hstorage, hinv⟩ := runs_entityEntries hst hcache hs he hentity
      obtain rfl := Except.ok.inj hok
      rcases Prog.runs_bind.mp htail with ⟨collected, w₂, hcollect, hret⟩ | ⟨e, rfl, hcollect⟩
      · have hok := ih hinv (hstorage ▸ hst) hrest hcollect
        obtain rfl := Except.ok.inj hok
        rw [(Prog.runs_ret.mp hret).1, hstorage, List.flatMap_cons]
      · cases ih hinv (hstorage ▸ hst) hrest hcollect
    · cases (runs_entityEntries hst hcache hs he hentity).1

/-- The index that a reader without failures returns: it checks the scope map and merges what is there. -/
theorem runs_getMemoryIndex (hcache : ∀ c ∈ s.indexCache, Cached c base freshLaw w)
    (hst : ScalarStored w.storage) {fuel : Nat} {scopeMap : List (Str × Str)} {r : Except Exc MemoryIndex}
    (h : (s.getMemoryIndex fuel scopeMap).Runs (handlesShared never) w r w') :
    r = (checkPairs [] (sortedPairs scopeMap) >>= fun _ => s.mergeIndex
      ((sortedPairs scopeMap).flatMap fun pair => w.storage.listEntries (entityPrefix pair.1 pair.2))) := by
  unfold MemoryStore.getMemoryIndex at h
  cases hcheck : checkPairs [] (sortedPairs scopeMap) with
  | error e =>
    simp only [hcheck] at h
    exact (Prog.runs_raise.mp h).1
  | ok u =>
    simp only [hcheck, Prog.ofExcept_ok, Prog.ret_bind] at h
    have hpairs := (of_checkPairs hcheck).1.segments
    rcases Prog.runs_bind.mp h with ⟨collected, w₁, hcollect, hmerge⟩ | ⟨e, rfl, hcollect⟩
    · obtain rfl := Except.ok.inj (runs_collect hcache hst hpairs hcollect)
      exact (Prog.runs_ofExcept.mp hmerge).1
    · cases runs_collect hcache hst hpairs hcollect

/-- What a store without a cache asks for to collect entries. -/
theorem issues_collect_cacheless (hnone : s.indexCache = none) (fuel : Nat) (pairs : List (Str × Str)) :
    (s.collect fuel pairs).Issues fun o : StoreOp =>
      ∃ pre after limit, o = .storage (.listPage pre after limit) := by
  induction pairs with
  | nil => exact trivial
  | cons pair rest ih =>
    obtain ⟨scope, entityId⟩ := pair
    rw [collect_cons, MemoryStore.entityEntries, hnone]
    have hdrain : ∀ pre, (s.drain pre fuel none).Issues fun o : StoreOp =>
        ∃ pre after limit, o = .storage (.listPage pre after limit) := fun pre =>
      issues_drain s (fun after limit => ⟨pre, after, limit, rfl⟩) fuel none
    exact ((issues_orValueError _).bind hdrain).bind fun entries => ih.bind fun _ => trivial

/-- **The cached index is fresh** in a sequential history: whatever was cached, an index through the cache
is the index that a store without a cache returns, and with enough fuel it comes to an end. -/
theorem index_fresh {raises : Exc → Prop} {cache : IndexCache} {w₀ : SharedWorld}
    {calls : List (Invocation StoreCall × Except Exc StoreResult)}
    (hempty : ∀ key, w₀.cache.get? key = none)
    (hist : History (handlesShared raises) Invocation.body w₀ calls w)
    (huses : ∀ c ∈ calls, UsesCache cache c.1) (hs : s.indexCache = some cache)
    (hst : ScalarStored w.storage) (scopeMap : List (Str × Str)) (now : DateTime)
    {fuel : Nat} (hfuel : w.storage.objects.keys.length + 1 < fuel) :
    (s.getMemoryIndex fuel scopeMap).Ends (handlesShared never) (fun _ _ => True) w ∧
    ∀ fuel' r w', (s.getMemoryIndex fuel' scopeMap).Runs (handlesShared never) w r w' →
      (s.cacheless.getMemoryIndex fuel scopeMap).run (answerAt now) w.storage = (some r, w.storage) := by
  refine ⟨ends_getMemoryIndex scopeMap (Nat.lt_of_succ_lt hfuel), fun fuel' r w' h => ?_⟩
  have hcached : ∀ c ∈ s.indexCache, Cached c w₀.storage freshLaw w := by
    intro c hc
    obtain rfl := Option.some.inj (hs.symm.trans hc)
    exact cached_history (kept_freshLaw _) hist huses (cached_empty hempty)
  have hr := runs_getMemoryIndex hcached hst h
  unfold MemoryStore.getMemoryIndex
  cases hcheck : checkPairs [] (sortedPairs scopeMap) with
  | error e =>
    rw [hcheck] at hr
    simp only [hcheck, hr]
    rfl
  | ok u =>
    rw [hcheck] at hr
    simp only [hcheck, Prog.ofExcept_ok, Prog.ret_bind]
    have hvalid := (of_checkPairs hcheck).1
    obtain ⟨collected, hcollect, -⟩ := run_collect s.cacheless now hst.sound hvalid hfuel
    -- The same run over the shared world, which does not touch the cache.
    have hanswer : ∀ o : StoreOp, (∃ pre after limit, o = .storage (.listPage pre after limit)) →
        ∀ v : SharedWorld, ∃ v', handlesShared never v o (answerAt now o v.storage).1 v' ∧
          v'.storage = (answerAt now o v.storage).2 := by
      rintro o ⟨pre, after, limit, rfl⟩ v
      exact ⟨v, ⟨v.storage, .inl rfl, rfl⟩, rfl⟩
    obtain ⟨w₂, hrun, -⟩ :=
      (issues_collect_cacheless (s := s.cacheless) rfl fuel (sortedPairs scopeMap)).runs_of_run
        hanswer hcollect
    have hnone : ∀ c ∈ s.cacheless.indexCache, Cached c w₀.storage freshLaw w := nofun
    obtain rfl := Except.ok.inj (runs_collect hnone hst hvalid.segments hrun)
    rw [Prog.run_bind, hcollect, hr]
    exact Prog.run_ofExcept _ _ _

end

/-- A file is written and indexed, and then read again from the cache. -/
theorem index_fresh_written : let _ := Interpreter.ascii
    ∃ (calls : List (Invocation StoreCall × Except Exc StoreResult)) (w w' : SharedWorld)
      (r : Except Exc MemoryIndex),
      History (handlesShared fun _ => False) Invocation.body SharedWorld.start calls w ∧
      (cachedStore.getMemoryIndex 2 [(str "user", str "u1")]).Runs (handlesShared never) w r w' ∧
      (cachedStore.cacheless.getMemoryIndex 3 [(str "user", str "u1")]).run (answerAt noon) w.storage =
        (some r, w.storage) := by
  intro _
  have hends : ((historyFrom (writeAndIndex (str "user/u1/notes/n.md")) .start).any fun out => out.2.2 ∧
      (out.2.1.storage.objects.entries.all fun e => e.1.all (!isSurrogate ·) &&
        e.2.metadata.entries.all (·.2.all (!isSurrogate ·)) && (metadataFromMap e.2.metadata).toOption.isSome) ∧
      out.2.1.storage.objects.keys.length + 1 < 3 ∧
      ((cachedStore.getMemoryIndex 2 [(str "user", str "u1")]).run (guarded answerShared answersShared)
        (out.2.1, true)).1.isSome ∧
      ((cachedStore.getMemoryIndex 2 [(str "user", str "u1")]).run (guarded answerShared answersShared)
        (out.2.1, true)).2.2) = true := by
    decide +kernel
  obtain ⟨⟨calls, w, flag⟩, hout, h⟩ := (Option.any_eq_true _ _).mp hends
  rw [decide_eq_true_eq] at h
  obtain ⟨hflag, hstored, hfuel, hsome, hflag'⟩ := h
  obtain rfl : flag = true := hflag
  obtain ⟨hist, hcalls⟩ := history_of_historyFrom hout
  have huses : ∀ c ∈ calls, UsesCache ⟨[]⟩ c.1 := by
    intro c hc
    have hin : c.1 ∈ calls.map (·.1) := List.mem_map_of_mem hc
    rw [hcalls] at hin
    simp only [writeAndIndex, List.mem_cons, List.not_mem_nil, or_false] at hin
    rcases hin with h | h
    all_goals
      rw [h]
      rfl
  obtain ⟨r, hr⟩ := Option.isSome_iff_exists.mp hsome
  have hruns := (Prog.runs_of_guarded (answerShared_handles never) (Prod.ext hr (Prod.ext rfl hflag'))).2
  exact ⟨calls, w, _, r, hist, hruns,
    (index_fresh (fun _ => rfl) hist huses rfl (.of_all hstored) _ noon hfuel).2 2 r _ hruns⟩

end Wenchang
