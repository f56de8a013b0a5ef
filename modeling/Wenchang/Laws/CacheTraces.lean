import Wenchang.Laws.CacheSteps
import Wenchang.Laws.Stored

/-!
# What a cache holds

`Cached` is the invariant of a cache that only stores write: each value is a token or a tombstone or a
listing that was stored under a token, and a law `L` relates each listing to storage and to the token
that stands. A law that survives the four steps holds after any history (`cached_history`). The law of
this module is about traces: what a cached listing names is there, and was read while it was there.
-/

namespace Wenchang

open Py Ordered Interaction

/-! ## The invariant -/

/-- A relation between a cached listing and the world: storage, the token that stands, the entity, the
listing's token and its entries. -/
abbrev ListingLaw := InMemoryStorage → Option Str → Str → Str → Str → List FileEntry → Prop

/-- What a cache may hold at a key. -/
inductive CacheHolds (cache : IndexCache) (w : SharedWorld) (L : ListingLaw) : Str → Str → Prop
  | token (scope entityId token : Str) (hs : isValidSegment scope = true) (hex : IsHexToken token)
      (minted : token ∈ w.minted) : CacheHolds cache w L (tokenKey cache scope entityId) token
  | tombstone (scope entityId : Str) (hs : isValidSegment scope = true) :
    CacheHolds cache w L (listingKey cache scope entityId) tombstone
  | listing (scope entityId token : Str) (entries : List FileEntry) (hs : isValidSegment scope = true)
      (he : isValidSegment entityId = true) (hex : IsHexToken token) (minted : token ∈ w.minted)
      (law : L w.storage (w.cache.get? (tokenKey cache scope entityId)) scope entityId token entries) :
    CacheHolds cache w L (listingKey cache scope entityId) (encodeListing token entries)

/-- The invariant of a cache, in worlds later than some storage. -/
structure Cached (cache : IndexCache) (base : InMemoryStorage) (L : ListingLaw) (w : SharedWorld) :
    Prop where
  later : base.Later w.storage
  holds : ∀ key value, w.cache.get? key = some value → CacheHolds cache w L key value

/-- Two storages that agree under a prefix. -/
def InMemoryStorage.AgreeUnder (pre : Str) (st st' : InMemoryStorage) : Prop :=
  ∀ k, pre.isPrefixOf k = true → st'.get k = st.get k

/-- A put leads to a later storage. -/
theorem InMemoryStorage.Put.later {pre : Str} {st st' : InMemoryStorage} (h : st.Put pre st') :
    st.Later st' := by
  rcases h with rfl | ⟨key, data, metadata, -, rfl⟩
  · exact .refl _
  · exact st.later_putLocked key data metadata

/-- What changes under one entity's prefix is the same under another's. -/
theorem agreeUnder_put {scope entityId scope' entityId' : Str} {st st' : InMemoryStorage}
    (hs : isValidSegment scope = true) (he : isValidSegment entityId = true)
    (hs' : isValidSegment scope' = true) (he' : isValidSegment entityId' = true)
    (hne : ¬ (scope' = scope ∧ entityId' = entityId))
    (h : st.Put (entityPrefix scope entityId) st') :
    st.AgreeUnder (entityPrefix scope' entityId') st' := by
  intro k hk
  rcases h with rfl | ⟨key, data, metadata, hkey, rfl⟩
  · rfl
  · rw [InMemoryStorage.get_putLocked, if_neg]
    rintro rfl
    exact hne (entityPrefix_disjoint hs' he' hs he hk hkey)

/-- What was removed of one entity leaves the files of another. -/
theorem agreeUnder_removed {scope entityId scope' entityId' : Str} {st st' : InMemoryStorage}
    (hs : isValidSegment scope = true) (he : isValidSegment entityId = true)
    (hs' : isValidSegment scope' = true) (he' : isValidSegment entityId' = true)
    (hne : ¬ (scope' = scope ∧ entityId' = entityId))
    (h : st.Removed (entityPrefix scope entityId) st') :
    st.AgreeUnder (entityPrefix scope' entityId') st' := by
  intro k hk
  rcases h.get k with hsame | ⟨hkey, -⟩
  · exact hsame
  · exact absurd (entityPrefix_disjoint hs' he' hs he hk hkey) hne

/-- The token that stands is a token. -/
theorem Cached.token {cache : IndexCache} {base : InMemoryStorage} {L : ListingLaw} {w : SharedWorld}
    (h : Cached cache base L w) {scope entityId token : Str}
    (hget : w.cache.get? (tokenKey cache scope entityId) = some token) :
    IsHexToken token ∧ token ∈ w.minted := by
  have hholds := h.holds _ _ hget
  generalize hkey : tokenKey cache scope entityId = key at hholds
  cases hholds with
  | token scope' entityId' _ hs hex hminted => exact ⟨hex, hminted⟩
  | tombstone => exact absurd hkey tokenKey_ne_listingKey
  | listing => exact absurd hkey tokenKey_ne_listingKey

/-- What a listing key holds is a tombstone or a listing of its entity. -/
theorem Cached.listing {cache : IndexCache} {base : InMemoryStorage} {L : ListingLaw} {w : SharedWorld}
    (h : Cached cache base L w) {scope entityId value : Str} (hs : isValidSegment scope = true)
    (hget : w.cache.get? (listingKey cache scope entityId) = some value) :
    value = tombstone ∨ ∃ token entries, value = encodeListing token entries ∧ IsHexToken token ∧
      L w.storage (w.cache.get? (tokenKey cache scope entityId)) scope entityId token entries := by
  have hholds := h.holds _ _ hget
  generalize hkey : listingKey cache scope entityId = key at hholds
  cases hholds with
  | token => exact absurd hkey.symm tokenKey_ne_listingKey
  | tombstone => exact .inl rfl
  | listing scope' entityId' token entries hs' he' hex hminted hlaw =>
    obtain ⟨rfl, rfl⟩ := listingKey_inj hs hs' hkey
    exact .inr ⟨token, entries, rfl, hex, hlaw⟩

/-- What a cache held before a step that did not set this key. -/
theorem CacheHolds.later {cache : IndexCache} {L L' : ListingLaw} {w w' : SharedWorld}
    {key value : Str} (h : CacheHolds cache w L key value) (hminted : w.minted ⊆ w'.minted)
    (hlaw : ∀ scope entityId token entries, isValidSegment scope = true →
      isValidSegment entityId = true → key = listingKey cache scope entityId → token ∈ w.minted →
      L w.storage (w.cache.get? (tokenKey cache scope entityId)) scope entityId token entries →
      L' w'.storage (w'.cache.get? (tokenKey cache scope entityId)) scope entityId token entries) :
    CacheHolds cache w' L' key value := by
  cases h with
  | token scope entityId _ hs hex hm => exact .token scope entityId value hs hex (hminted hm)
  | tombstone scope entityId hs => exact .tombstone scope entityId hs
  | listing scope entityId token entries hs he hex hm h =>
    exact .listing scope entityId token entries hs he hex (hminted hm)
      (hlaw scope entityId token entries hs he rfl hm h)

/-- A law may be replaced by a weaker one, and the base by a later storage. -/
theorem Cached.mono {cache : IndexCache} {base base' : InMemoryStorage} {L L' : ListingLaw}
    {w : SharedWorld} (h : Cached cache base L w) (hlater : base'.Later w.storage)
    (hL : ∀ current scope entityId token entries, L w.storage current scope entityId token entries →
      L' w.storage current scope entityId token entries) : Cached cache base' L' w where
  later := hlater
  holds key value hget := (h.holds key value hget).later (fun _ hm => hm)
    fun _ _ _ _ _ _ _ _ hl => hL _ _ _ _ _ hl

/-- A cache that is empty. -/
theorem cached_empty {cache : IndexCache} {L : ListingLaw} {w : SharedWorld}
    (h : ∀ key, w.cache.get? key = none) : Cached cache w.storage L w where
  later := .refl w.storage
  holds key value hget := absurd hget (by simp [h])

/-! ## A token is no listing -/

/-- A hexadecimal digit starts no string, array or object and is no space. -/
theorem hexDigit_plain {c : CodePoint} (h : c ∈ str "0123456789abcdef") :
    c ≠ 34 ∧ c ≠ 91 ∧ c ≠ 123 ∧ isJsonSpace c = false := by
  have hall : (str "0123456789abcdef").all
      (fun c => c ≠ 34 && c ≠ 91 && c ≠ 123 && !isJsonSpace c) = true := by decide +kernel
  simpa [and_assoc] using List.all_eq_true.mp hall c h

/-- No object is read from a text that does not begin like one. -/
theorem parseValue_plain {c : CodePoint} {rest tail : Str} {v : Json} {fuel depth : Nat} (h₁ : c ≠ 34)
    (h₂ : c ≠ 91) (h₃ : c ≠ 123) (h : parseValue fuel depth (c :: rest) = .ok (v, tail)) :
    v = .other := by
  cases fuel with
  | zero => exact nomatch h
  | succ fuel =>
    rw [parseValue.eq_def] at h
    simp only [if_neg h₁, if_neg h₂, if_neg h₃] at h
    exact parseScalar_other h

section

variable [Interpreter]

/-- A token reads as no listing. -/
theorem decodeListing_hex {value token pre : Str} (h : IsHexToken value) :
    decodeListing value token pre = none := by
  obtain ⟨hlength, hhex⟩ := h
  cases value with
  | nil => cases hlength
  | cons c rest =>
    obtain ⟨h₁, h₂, h₃, hspace⟩ := hexDigit_plain (hhex c List.mem_cons_self)
    have hother : ∀ v, jsonLoads (c :: rest) = .ok v → v = .other := by
      intro v hv
      unfold jsonLoads at hv
      rw [skipSpace_cons hspace] at hv
      split at hv
      · cases hv
      · split at hv
        next => cases hv
        next v' tail hparse =>
          split at hv
          · exact Except.ok.inj hv ▸ parseValue_plain h₁ h₂ h₃ hparse
          · cases hv
    unfold decodeListing
    split
    next top htop => exact nomatch hother _ htop
    next => rfl

/-- A law that the steps keep. -/
structure ListingLaw.Kept (base : InMemoryStorage) (L : ListingLaw) : Prop where
  /-- What is stored is what is there. -/
  index : ∀ st scope entityId token, base.Later st →
    L st (some token) scope entityId token (st.listEntries (entityPrefix scope entityId))
  /-- Other entities do not matter. -/
  frame : ∀ st st' current scope entityId token entries, st.Later st' →
    st.AgreeUnder (entityPrefix scope entityId) st' →
    L st current scope entityId token entries → L st' current scope entityId token entries
  /-- A put, and another token. -/
  replace : ∀ st st' current current' scope entityId token entries,
    st.Put (entityPrefix scope entityId) st' → current' ≠ some token →
    L st current scope entityId token entries → L st' current' scope entityId token entries

/-- **The steps keep the invariant.** -/
theorem Cached.step {cache : IndexCache} {base : InMemoryStorage} {L : ListingLaw} (hL : L.Kept base)
    {scope entityId : Str} {w w' : SharedWorld} (hs : isValidSegment scope = true)
    (he : isValidSegment entityId = true) (h : CacheStep cache scope entityId w w')
    (hw : Cached cache base L w) : Cached cache base L w' := by
  -- The token of another entity stands as it did.
  have hother : ∀ {m : FinMap Str Str} {scope' entityId' token : Str}, isValidSegment scope' = true →
      ¬ (scope' = scope ∧ entityId' = entityId) →
      (m.insert (tokenKey cache scope entityId) token).get? (tokenKey cache scope' entityId') =
        m.get? (tokenKey cache scope' entityId') := fun hs' hne =>
    FinMap.get?_insert_of_ne _ _ fun hkey => hne (tokenKey_inj hs' hs hkey)
  cases h with
  | replace st token hstored hex hnew =>
    refine ⟨hw.later.trans hstored.later, fun key value hget => ?_⟩
    rw [SharedWorld.set_cache, FinMap.get?_insert] at hget
    split at hget
    next hkey =>
      obtain rfl := Option.some.inj hget
      subst hkey
      exact .token scope entityId token hs hex List.mem_cons_self
    next hkey =>
      refine (hw.holds key value hget).later (fun _ hm => List.mem_cons_of_mem _ hm) ?_
      intro scope' entityId' token' entries hs' he' _ hminted hlaw
      by_cases hsame : scope' = scope ∧ entityId' = entityId
      · obtain ⟨rfl, rfl⟩ := hsame
        refine hL.replace _ _ _ _ _ _ _ _ hstored ?_ hlaw
        rw [SharedWorld.set_cache, FinMap.get?_insert_self]
        exact fun htoken => hnew (Option.some.inj htoken ▸ hminted)
      · rw [SharedWorld.set_cache, hother hs' hsame]
        exact hL.frame _ _ _ _ _ _ _ hstored.later (agreeUnder_put hs he hs' he' hsame hstored) hlaw
  | bury st token hremoved hex hnew =>
    refine ⟨hw.later.trans hremoved.later, fun key value hget => ?_⟩
    rw [SharedWorld.set_cache, FinMap.get?_insert] at hget
    split at hget
    next hkey =>
      obtain rfl := Option.some.inj hget
      subst hkey
      exact .tombstone scope entityId hs
    next hkey =>
      rw [SharedWorld.set_cache, FinMap.get?_insert] at hget
      split at hget
      next hkey =>
        obtain rfl := Option.some.inj hget
        subst hkey
        exact .token scope entityId token hs hex List.mem_cons_self
      next =>
        refine (hw.holds key value hget).later (fun _ hm => List.mem_cons_of_mem _ hm) ?_
        intro scope' entityId' token' entries hs' he' hlisting hminted hlaw
        have hne : ¬ (scope' = scope ∧ entityId' = entityId) := by
          rintro ⟨rfl, rfl⟩
          exact hkey hlisting
        rw [SharedWorld.set_cache, FinMap.get?_insert_of_ne _ _ tokenKey_ne_listingKey,
          SharedWorld.set_cache, hother hs' hne]
        exact hL.frame _ _ _ _ _ _ _ hremoved.later (agreeUnder_removed hs he hs' he' hne hremoved) hlaw
  | index token hcurrent =>
    obtain ⟨hex, hminted⟩ := hw.token hcurrent
    have hstands : ∀ (scope' entityId' value : Str),
        (w.set (listingKey cache scope entityId) value).cache.get? (tokenKey cache scope' entityId') =
          w.cache.get? (tokenKey cache scope' entityId') := fun _ _ _ =>
      FinMap.get?_insert_of_ne _ _ tokenKey_ne_listingKey
    refine ⟨hw.later, fun key value hget => ?_⟩
    rw [SharedWorld.set_cache, FinMap.get?_insert] at hget
    split at hget
    next hkey =>
      obtain rfl := Option.some.inj hget
      subst hkey
      refine .listing scope entityId token _ hs he hex hminted ?_
      rw [hstands, hcurrent]
      exact hL.index w.storage scope entityId token hw.later
    next =>
      refine (hw.holds key value hget).later (fun _ hm => hm) ?_
      intro scope' entityId' token' entries _ _ _ _ hlaw
      rw [hstands]
      exact hlaw

/-- **A kept law holds after any history.** -/
theorem cached_history {raises : Exc → Prop} {cache : IndexCache} {base : InMemoryStorage}
    {L : ListingLaw} (hL : L.Kept base) {w w' : SharedWorld}
    {calls : List (Invocation StoreCall × Except Exc StoreResult)}
    (h : History (handlesShared raises) Invocation.body w calls w')
    (huses : ∀ c ∈ calls, UsesCache cache c.1) (hw : Cached cache base L w) : Cached cache base L w' := by
  refine h.keeps (fun i hi w r w' hinv hrun => ?_) hw
  obtain ⟨c, hc, rfl⟩ := List.mem_map.mp hi
  exact (Invocation.steps (huses c hc) hrun).keeps (fun _ _ _ _ hs he hstep => Cached.step hL hs he hstep)
    hinv

/-! ## Traces -/

/-- A file that a cached listing names: it is there, and the entry was read off it. If it was not there
at `base`, the entry was read later. -/
structure TraceOf (base st : InMemoryStorage) (pre : Str) (e : FileEntry) : Prop where
  under : pre.isPrefixOf e.path = true
  there : (st.get e.path).isSome = true
  read : ∃ seen obj, seen.get e.path = some obj ∧ obj.version = e.version ∧
    metadataFromMap obj.metadata = .ok e.metadata ∧ seen.Later st ∧
    (base.get e.path = none → base.Later seen)

/-- A listing names files that are there. -/
def traceLaw (base : InMemoryStorage) : ListingLaw := fun st _ scope entityId _ entries =>
  ∀ e ∈ entries, TraceOf base st (entityPrefix scope entityId) e

/-- A trace stays one while its file is there. -/
theorem TraceOf.later {base st st' : InMemoryStorage} {pre : Str} {e : FileEntry}
    (h : TraceOf base st pre e) (hlater : st.Later st') (hthere : (st'.get e.path).isSome = true) :
    TraceOf base st' pre e := by
  obtain ⟨seen, obj, hobj, hversion, hmetadata, hseen, hbase⟩ := h.read
  exact ⟨h.under, hthere, seen, obj, hobj, hversion, hmetadata, hseen.trans hlater, hbase⟩

/-- What a listing shows is read off what is there. -/
theorem traceOf_listEntries {base st : InMemoryStorage} {pre : Str} {e : FileEntry}
    (hlater : base.Later st) (he : e ∈ st.listEntries pre) : TraceOf base st pre e := by
  obtain ⟨o, ho, hentry⟩ := List.mem_filterMap.mp he
  obtain ⟨-, hpath, hversion, hmetadata⟩ := entryOf_eq_some hentry
  obtain ⟨hunder, -, obj, hobj, hlisted⟩ := mem_listing.mp ho
  rw [hlisted] at hversion hmetadata
  have hget : st.get e.path = some obj := hpath ▸ hobj
  exact ⟨hpath ▸ hunder, by rw [hget]; rfl, st, obj, hget, hversion.symm, hmetadata, .refl st,
    fun _ => hlater⟩

/-- The law of traces is kept. -/
theorem kept_traceLaw (base : InMemoryStorage) : (traceLaw base).Kept base where
  index _ _ _ _ hlater _ he := traceOf_listEntries hlater he
  frame st st' _ scope entityId _ entries hlater hagree h e he := by
    have hthere := (h e he).there
    rw [← hagree e.path (h e he).under] at hthere
    exact (h e he).later hlater hthere
  replace st st' _ _ scope entityId _ entries hput _ h e he := by
    refine (h e he).later hput.later ?_
    rcases hput with rfl | ⟨key, data, metadata, -, rfl⟩
    · exact (h e he).there
    · rw [InMemoryStorage.get_putLocked]
      split
      · rfl
      · exact (h e he).there

/-- What a value of the cache says of storage, and of storage at some earlier moment: it is a token, a
tombstone, or a listing whose files are all there. What it decodes to are the paths of such files, with
the halves of surrogate pairs joined. -/
structure Traced (base st : InMemoryStorage) (value : Str) : Prop where
  holds : IsHexToken value ∨ value = tombstone ∨ ∃ token pre entries,
    value = encodeListing token entries ∧ ∀ e ∈ entries, TraceOf base st pre e
  decoded : ∀ token pre hit, decodeListing value token pre = some hit → ∀ e ∈ hit,
    ∃ path, e.path = joinPairs path ∧ (st.get path).isSome = true
  scalar : (∀ path, (st.get path).isSome = true → Scalar path) → ∀ token pre hit,
    decodeListing value token pre = some hit → ∀ e ∈ hit, (st.get e.path).isSome = true

/-- **No trace of what was deleted**, after any history that began with an empty cache. A file that was
missing at some moment of it is listed only as it was read later. -/
theorem no_cached_trace {raises : Exc → Prop} {cache : IndexCache} {w₀ w₁ w₂ : SharedWorld}
    {before after : List (Invocation StoreCall × Except Exc StoreResult)}
    (hempty : ∀ key, w₀.cache.get? key = none)
    (hbefore : History (handlesShared raises) Invocation.body w₀ before w₁)
    (hafter : History (handlesShared raises) Invocation.body w₁ after w₂)
    (huses : ∀ c ∈ before ++ after, UsesCache cache c.1) {key value : Str}
    (hget : w₂.cache.get? key = some value) : Traced w₁.storage w₂.storage value := by
  have hfirst : Cached cache w₀.storage (traceLaw w₀.storage) w₁ :=
    cached_history (kept_traceLaw _) hbefore (fun c hc => huses c (List.mem_append_left _ hc))
      (cached_empty hempty)
  -- What is listed now is there, so none of it was missing.
  have hnow : Cached cache w₁.storage (traceLaw w₁.storage) w₁ := by
    refine hfirst.mono (.refl _) fun current scope entityId token entries h e he => ?_
    obtain ⟨seen, obj, hobj, hversion, hmetadata, hseen, -⟩ := (h e he).read
    refine ⟨(h e he).under, (h e he).there, seen, obj, hobj, hversion, hmetadata, hseen, fun hnone => ?_⟩
    have hthere := (h e he).there
    rw [hnone] at hthere
    cases hthere
  have hlast := cached_history (kept_traceLaw _) hafter
    (fun c hc => huses c (List.mem_append_right _ hc)) hnow
  -- A value that decodes to nothing.
  have hnothing : ∀ {v : Str}, (∀ token pre, decodeListing v token pre = none) →
      (IsHexToken v ∨ v = tombstone) → Traced w₁.storage w₂.storage v := by
    intro v hnone hkind
    refine ⟨hkind.imp_right .inl, fun token pre hit hdecode => ?_, fun _ token pre hit hdecode => ?_⟩
    · rw [hnone] at hdecode
      cases hdecode
    · rw [hnone] at hdecode
      cases hdecode
  cases hlast.holds key value hget with
  | token scope entityId _ hs hex hminted => exact hnothing (fun _ _ => decodeListing_hex hex) (.inl hex)
  | tombstone scope entityId hs => exact hnothing decodeListing_tombstone (.inr rfl)
  | listing scope entityId token entries hs he hex hminted hlaw =>
    have hjoined : ∀ token' pre hit, decodeListing (encodeListing token entries) token' pre = some hit →
        ∀ e ∈ hit, ∃ path, e.path = joinPairs path ∧ (w₂.storage.get path).isSome = true := by
      intro token' pre hit hdecode e hmem
      have hpath : e.path ∈ hit.map (·.path) := List.mem_map_of_mem hmem
      rw [(tag_of_decodeListing hdecode).2.1] at hpath
      obtain ⟨e', he', hjoin⟩ := List.mem_map.mp hpath
      exact ⟨e'.path, hjoin.symm, (hlaw e' he').there⟩
    refine ⟨.inr (.inr ⟨token, _, entries, rfl, hlaw⟩), hjoined, fun hscalar token' pre hit hdecode e he => ?_⟩
    obtain ⟨path, hpath, hthere⟩ := hjoined token' pre hit hdecode e he
    rw [hpath, (hscalar path hthere).joined]
    exact hthere

end

/-! ## A path that JSON does not keep -/

/-- A store with a cache. -/
def cachedStore : MemoryStore := { MemoryStore.default with indexCache := some ⟨[]⟩ }

/-- A world before any call. -/
def SharedWorld.start : SharedWorld := ⟨.empty, .empty, []⟩

/-- A write of one file, and an index of its entity. -/
def writeAndIndex (path : Str) : List (Invocation StoreCall) :=
  [⟨cachedStore, 2, .mutate (.writeFile path [] ⟨[], [], .empty, noon, one_line_nil, noon_aware⟩ none
      (str "s"))⟩, ⟨cachedStore, 2, .getMemoryIndex [(str "user", str "u1")]⟩]

/-- Where calls lead from such a world. -/
def historyFrom [Interpreter] (calls : List (Invocation StoreCall)) (w : SharedWorld) :
    Option (List (Invocation StoreCall × Except Exc StoreResult) × SharedWorld × Bool) :=
  History.exec answerShared answersShared Invocation.body calls (w, true)

/-- A history that can be computed. -/
theorem history_of_historyFrom [Interpreter] {calls : List (Invocation StoreCall)} {w w' : SharedWorld}
    {out : List (Invocation StoreCall × Except Exc StoreResult)}
    (h : historyFrom calls w = some (out, w', true)) :
    History (handlesShared fun _ => False) Invocation.body w out w' ∧ out.map (·.1) = calls :=
  (History.of_exec (answerShared_handles fun _ => False) h).2

/-- A path whose name is one character, written as a surrogate pair. -/
def splitPath : Str := str "user/u1/notes/" ++ [0xD83D, 0xDE00] ++ mdSuffix

/-- A listing that is cached names a path, and there is no such file. -/
theorem cached_trace_of_pair : let _ := Interpreter.ascii
    ∃ (calls : List (Invocation StoreCall × Except Exc StoreResult)) (w : SharedWorld)
      (key value token pre : Str) (hit : List FileEntry) (e : FileEntry),
      History (handlesShared fun _ => False) Invocation.body SharedWorld.start calls w ∧
      (∀ c ∈ calls, UsesCache ⟨[]⟩ c.1 ∧ c.2.isOk = true) ∧ w.cache.get? key = some value ∧
      decodeListing value token pre = some hit ∧ e ∈ hit ∧ w.storage.get e.path = none := by
  intro _
  have hends : ((historyFrom (writeAndIndex splitPath) .start).any fun out => out.2.2 ∧
      (out.1.all fun c => c.1.store.indexCache = some ⟨[]⟩ ∧ c.2.isOk = true) ∧
      ((out.2.1.cache.get? (listingKey ⟨[]⟩ (str "user") (str "u1"))).any fun value =>
        (decodeListing value (nextToken .start) (str "user/u1/")).any fun hit =>
          hit.any fun e => out.2.1.storage.get e.path = none) = true) = true := by
    decide +kernel
  obtain ⟨⟨calls, w, flag⟩, hout, h⟩ := (Option.any_eq_true _ _).mp hends
  rw [decide_eq_true_eq] at h
  obtain ⟨hflag, hcalls, hvalue⟩ := h
  obtain ⟨value, hget, hlists⟩ := (Option.any_eq_true _ _).mp hvalue
  obtain ⟨hit, hdecode, hmem⟩ := (Option.any_eq_true _ _).mp hlists
  obtain ⟨e, he, hnone⟩ := List.any_eq_true.mp hmem
  obtain rfl : flag = true := hflag
  exact ⟨calls, w, _, value, _, _, hit, e, (history_of_historyFrom hout).1, fun c hc => by
    simpa [UsesCache] using List.all_eq_true.mp hcalls c hc, hget, hdecode, he, of_decide_eq_true hnone⟩

/-- A file is written, indexed and deleted; it is written and indexed again. -/
theorem no_cached_trace_recreated : let _ := Interpreter.ascii
    ∃ (before after : List (Invocation StoreCall × Except Exc StoreResult)) (w₁ w₂ : SharedWorld)
      (value : Str),
      History (handlesShared fun _ => False) Invocation.body SharedWorld.start before w₁ ∧
      History (handlesShared fun _ => False) Invocation.body w₁ after w₂ ∧
      w₁.storage.get (str "user/u1/notes/n.md") = none ∧
      w₂.cache.get? (listingKey ⟨[]⟩ (str "user") (str "u1")) = some value ∧ value ≠ tombstone ∧
      Traced w₁.storage w₂.storage value := by
  intro _
  have hends : ((historyFrom (writeAndIndex (str "user/u1/notes/n.md") ++
      [⟨cachedStore, 1, .mutate (.deleteFile (str "user/u1/notes/n.md") (str "1"))⟩]) .start).any
        fun out => out.2.2 ∧ out.2.1.storage.get (str "user/u1/notes/n.md") = none ∧
          ((historyFrom (writeAndIndex (str "user/u1/notes/n.md")) out.2.1).any fun out' => out'.2.2 ∧
            (out'.2.1.cache.get? (listingKey ⟨[]⟩ (str "user") (str "u1"))).any (· ≠ tombstone)) =
              true) = true := by
    decide +kernel
  obtain ⟨⟨before, w₁, flag⟩, hout, h⟩ := (Option.any_eq_true _ _).mp hends
  rw [decide_eq_true_eq] at h
  obtain ⟨hflag, hnone, hmore⟩ := h
  obtain ⟨⟨after, w₂, flag'⟩, hout', h'⟩ := (Option.any_eq_true _ _).mp hmore
  rw [decide_eq_true_eq] at h'
  obtain ⟨hflag', hvalue⟩ := h'
  obtain ⟨value, hget, hne⟩ := (Option.any_eq_true _ _).mp hvalue
  obtain rfl : flag = true := hflag
  obtain rfl : flag' = true := hflag'
  obtain ⟨hbefore, hcalls⟩ := history_of_historyFrom hout
  obtain ⟨hafter, hcalls'⟩ := history_of_historyFrom hout'
  have huses : ∀ c ∈ before ++ after, UsesCache ⟨[]⟩ c.1 := by
    intro c hc
    have hin : c.1 ∈ (before ++ after).map (·.1) := List.mem_map_of_mem hc
    rw [List.map_append, hcalls, hcalls'] at hin
    simp only [writeAndIndex, List.mem_append, List.mem_cons, List.not_mem_nil, or_false] at hin
    rcases hin with ((h | h) | h) | (h | h)
    all_goals
      rw [h]
      rfl
  exact ⟨before, after, w₁, w₂, value, hbefore, hafter, hnone, hget, of_decide_eq_true hne,
    no_cached_trace (fun _ => rfl) hbefore hafter huses hget⟩

end Wenchang
