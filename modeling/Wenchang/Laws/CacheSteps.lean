import Wenchang.Core.SharedCache
import Wenchang.Laws.Blocks
import Wenchang.Laws.CachedListing
import Wenchang.Laws.Purge

/-!
# What a call does to a shared cache

A call that runs alone over a shared cache is a sequence of four steps: it replaces an entity's token,
perhaps after a put; it replaces the token and buries the listing, perhaps after deletes; and a reader
that finds no token mints one, and stores what it listed under the token that stands. `CacheStep` is
that, and `Invocation.steps` is the only place where a call's text is looked at.
-/

namespace Wenchang

open Py Ordered Interaction

/-! ## The keys of a cache -/

/-- A key of an entity is its two segments and the rest. -/
theorem entityPrefix_append (scope entityId rest : Str) :
    entityPrefix scope entityId ++ rest = scope ++ slash :: (entityId ++ slash :: rest) := by
  simp [entityPrefix, joinSegments]

/-- No key is under the prefixes of two entities. -/
theorem entityPrefix_disjoint {scope entityId scope' entityId' key : Str}
    (hs : isValidSegment scope = true) (he : isValidSegment entityId = true)
    (hs' : isValidSegment scope' = true) (he' : isValidSegment entityId' = true)
    (h : (entityPrefix scope entityId).isPrefixOf key = true)
    (h' : (entityPrefix scope' entityId').isPrefixOf key = true) :
    scope = scope' ∧ entityId = entityId' := by
  obtain ⟨rest, rfl⟩ := List.isPrefixOf_iff_prefix.mp h
  obtain ⟨rest', heq⟩ := List.isPrefixOf_iff_prefix.mp h'
  rw [entityPrefix_append, entityPrefix_append] at heq
  obtain ⟨rfl, hrest⟩ := append_slash_inj (slash_not_mem hs') (slash_not_mem hs) heq
  obtain ⟨rfl, -⟩ := append_slash_inj (slash_not_mem he') (slash_not_mem he) hrest
  exact ⟨rfl, rfl⟩

/-- A file is under its entity's prefix. -/
theorem under_entity {p : PathParts} (hp : p.Valid) :
    (entityPrefix p.scope p.entityId).isPrefixOf p.path = true := by
  have hsegments : ∀ segment ∈ [p.scope, p.entityId], isValidSegment segment = true := by
    simp [hp.scope, hp.entityId]
  exact List.isPrefixOf_iff_prefix.mpr ((hp.prefix_iff hsegments).mpr ⟨[p.area], rfl⟩)

section Keys

variable {cache : IndexCache} {scope entityId scope' entityId' : Str}

/-- No two entities share a token's key. -/
theorem tokenKey_inj (hs : isValidSegment scope = true) (hs' : isValidSegment scope' = true)
    (h : tokenKey cache scope entityId = tokenKey cache scope' entityId') :
    scope = scope' ∧ entityId = entityId' := by
  simp only [tokenKey, List.append_assoc, List.append_cancel_left_eq] at h
  exact append_slash_inj (slash_not_mem hs) (slash_not_mem hs') h

/-- No two entities share a listing's key. -/
theorem listingKey_inj (hs : isValidSegment scope = true) (hs' : isValidSegment scope' = true)
    (h : listingKey cache scope entityId = listingKey cache scope' entityId') :
    scope = scope' ∧ entityId = entityId' := by
  simp only [listingKey, List.append_assoc, List.append_cancel_left_eq] at h
  exact append_slash_inj (slash_not_mem hs) (slash_not_mem hs') h

/-- No token's key is a listing's. -/
theorem tokenKey_ne_listingKey :
    tokenKey cache scope entityId ≠ listingKey cache scope' entityId' := by
  have htoken : str "v1:token:" = str "v1:" ++ 116 :: str "oken:" := by decide +kernel
  have hlisting : str "v1:listing:" = str "v1:" ++ 108 :: str "isting:" := by decide +kernel
  rw [tokenKey, listingKey, htoken, hlisting]
  simp only [List.append_assoc, List.append_cancel_left_eq, List.cons_append, ne_eq, List.cons.injEq]
  exact fun h => absurd h.1 (by decide)

end Keys

/-! ## The steps -/

/-- Objects under a prefix may have been removed. -/
structure InMemoryStorage.Removed (pre : Str) (st st' : InMemoryStorage) : Prop where
  later : st.Later st'
  get : ∀ k, st'.get k = st.get k ∨ (pre.isPrefixOf k = true ∧ st'.get k = none)

/-- Nothing was removed. -/
theorem InMemoryStorage.Removed.refl (pre : Str) (st : InMemoryStorage) : st.Removed pre st where
  later := .refl st
  get _ := .inl rfl

/-- What was removed in two steps was removed. -/
theorem InMemoryStorage.Removed.trans {pre : Str} {st₁ st₂ st₃ : InMemoryStorage}
    (h : st₁.Removed pre st₂) (h' : st₂.Removed pre st₃) : st₁.Removed pre st₃ where
  later := h.later.trans h'.later
  get k := by
    rcases h'.get k with hsame | hnone
    · rw [hsame]
      exact h.get k
    · exact .inr hnone

/-- A conditional delete, as far as it has an effect. -/
theorem InMemoryStorage.removed_delete {pre key : Str} (hunder : pre.isPrefixOf key = true)
    (st : InMemoryStorage) (expected : Str) : st.Removed pre (st.deleteIfVersion key expected).2 := by
  rcases st.deleteIfVersion_cases key expected with ⟨-, hdel⟩ | ⟨-, hdel⟩
  · rw [hdel]
    refine ⟨st.later_remove key, fun k => ?_⟩
    rw [get_remove]
    split
    next hk => exact .inr ⟨hk ▸ hunder, rfl⟩
    next => exact .inl rfl
  · rw [hdel]
    exact .refl pre st

/-- An object under a prefix may have been put. -/
def InMemoryStorage.Put (pre : Str) (st st' : InMemoryStorage) : Prop :=
  st' = st ∨ ∃ key data metadata, pre.isPrefixOf key = true ∧ st' = st.putLocked key data metadata

/-- The deletes of a purge. -/
def SharedWorld.Deleted (pre : Str) (w w' : SharedWorld) : Prop :=
  ∃ st, w' = w.store st ∧ w.storage.Removed pre st

/-- Nothing was deleted. -/
theorem SharedWorld.Deleted.refl (pre : Str) (w : SharedWorld) : w.Deleted pre w :=
  ⟨w.storage, rfl, .refl pre w.storage⟩

/-- What was deleted in two steps was deleted. -/
theorem SharedWorld.Deleted.trans {pre : Str} {w₁ w₂ w₃ : SharedWorld} (h : w₁.Deleted pre w₂)
    (h' : w₂.Deleted pre w₃) : w₁.Deleted pre w₃ := by
  obtain ⟨st, rfl, hst⟩ := h
  obtain ⟨st', rfl, hst'⟩ := h'
  exact ⟨st', rfl, hst.trans hst'⟩

/-- The entries of a listing. -/
def InMemoryStorage.listEntries [Interpreter] (st : InMemoryStorage) (pre : Str) : List FileEntry :=
  (st.listing pre none).filterMap entryOf

section

variable [Interpreter]

/-- What may become of a world in which a call over a shared cache runs alone. -/
inductive CacheStep (cache : IndexCache) (scope entityId : Str) : SharedWorld → SharedWorld → Prop
  | replace (w : SharedWorld) (st : InMemoryStorage) (token : Str)
      (stored : w.storage.Put (entityPrefix scope entityId) st) (hex : IsHexToken token)
      (new : token ∉ w.minted) :
    CacheStep cache scope entityId w
      (((w.store st).mint token).set (tokenKey cache scope entityId) token)
  | bury (w : SharedWorld) (st : InMemoryStorage) (token : Str)
      (removed : w.storage.Removed (entityPrefix scope entityId) st) (hex : IsHexToken token)
      (new : token ∉ w.minted) :
    CacheStep cache scope entityId w
      ((((w.store st).mint token).set (tokenKey cache scope entityId) token).set
        (listingKey cache scope entityId) tombstone)
  | index (w : SharedWorld) (token : Str)
      (current : w.cache.get? (tokenKey cache scope entityId) = some token) :
    CacheStep cache scope entityId w (w.set (listingKey cache scope entityId)
      (encodeListing token (w.storage.listEntries (entityPrefix scope entityId))))

/-- Any number of steps, each for some entity. -/
inductive CacheSteps (cache : IndexCache) : SharedWorld → SharedWorld → Prop
  | refl (w : SharedWorld) : CacheSteps cache w w
  | cons {w w₁ w' : SharedWorld} (scope entityId : Str) (hs : isValidSegment scope = true)
      (he : isValidSegment entityId = true) (step : CacheStep cache scope entityId w w₁)
      (rest : CacheSteps cache w₁ w') : CacheSteps cache w w'

/-- Steps in sequence are steps. -/
theorem CacheSteps.trans {cache : IndexCache} {w w₁ w' : SharedWorld} (h : CacheSteps cache w w₁)
    (h' : CacheSteps cache w₁ w') : CacheSteps cache w w' := by
  induction h with
  | refl w => exact h'
  | cons scope entityId hs he step _ ih => exact .cons scope entityId hs he step (ih h')

/-- The step of one mutation, as steps of the cache. -/
theorem CacheStep.steps {cache : IndexCache} {scope entityId : Str} {w w' : SharedWorld}
    (h : CacheStep cache scope entityId w w') (hs : isValidSegment scope = true)
    (he : isValidSegment entityId = true) : CacheSteps cache w w' :=
  .cons scope entityId hs he h (.refl w')

/-- What every step keeps. -/
theorem CacheSteps.keeps {cache : IndexCache} {w w' : SharedWorld} {I : SharedWorld → Prop}
    (h : CacheSteps cache w w') (hI : ∀ scope entityId w w', isValidSegment scope = true →
      isValidSegment entityId = true → CacheStep cache scope entityId w w' → I w → I w')
    (hw : I w) : I w' := by
  induction h with
  | refl w => exact hw
  | cons scope entityId hs he step _ ih => exact ih (hI scope entityId _ _ hs he step hw)

end

/-! ## Runs of a call's parts -/

section Runs

variable {raises : Exc → Prop} {w w' : SharedWorld}

/-- A set succeeds and sets its key. -/
theorem runs_cacheSet {key value : Str} {r : Except Exc Unit}
    (h : (cacheSet key value).Runs (handlesShared raises) w r w') : r = .ok () ∧ w' = w.set key value := by
  rcases Prog.runs_bind.mp h with ⟨a, w₁, hask, hret⟩ | ⟨e, rfl, hask⟩
  · obtain ⟨a', -, -, rfl⟩ := runs_ask.mp hask
    exact Prog.runs_ret.mp hret
  · obtain ⟨a, ha, -⟩ := runs_ask.mp hask
    cases ha

/-- A get changes nothing and finds what the cache holds, or nothing. -/
theorem runs_cacheGet {key : Str} {r : Except Exc (Option Str)}
    (h : (cacheGet key).Runs (handlesShared raises) w r w') :
    w' = w ∧ ∃ found, r = .ok found ∧ ∀ value, found = some value → w.cache.get? key = some value := by
  rcases Prog.runs_bind.mp h with ⟨a, w₁, hask, hret⟩ | ⟨e, rfl, hask⟩
  · obtain ⟨a', ha, hworld, hvalue⟩ := runs_ask.mp hask
    cases ha
    subst hworld
    have hmiss : (Prog.ret none : Store (Option Str)).Runs (handlesShared raises) w₁ r w' → w' = w₁ ∧
        ∃ found, r = .ok found ∧ ∀ value, found = some value → w₁.cache.get? key = some value := by
      intro hret
      obtain ⟨rfl, rfl⟩ := Prog.runs_ret.mp hret
      exact ⟨rfl, none, rfl, nofun⟩
    cases a with
    | error e => exact hmiss hret
    | ok found =>
      cases found with
      | absent => exact hmiss hret
      | other => exact hmiss hret
      | text value =>
        obtain ⟨rfl, rfl⟩ := Prog.runs_ret.mp hret
        exact ⟨rfl, some value, rfl, fun value' hsome => Option.some.inj hsome ▸ hvalue value rfl⟩
  · obtain ⟨a, ha, -⟩ := runs_ask.mp hask
    cases ha

/-- A listing changes nothing, and shows what is there unless it raises. -/
theorem runs_storageListPage {pre : Str} {after : Option Str} {limit : Nat}
    {r : Except Exc (List ListedObject)}
    (h : (storageListPage pre after limit).Runs (handlesShared raises) w r w') :
    w' = w ∧ (r = .ok (w.storage.listPage pre after limit) ∨ ∃ e, r = .error e ∧ raises e) := by
  rcases Prog.runs_bind.mp h with ⟨a, w₁, hask, hret⟩ | ⟨e, rfl, hask⟩
  · obtain ⟨a', ha, st, hst, rfl⟩ := runs_ask.mp hask
    cases ha
    obtain ⟨rfl, rfl⟩ := Prog.runs_ofExcept.mp hret
    have hsame : st = w.storage := (handlesRaisingStorage_cases hst).elim id id
    subst hsame
    refine ⟨rfl, ?_⟩
    rcases hst with hstep | ⟨e, he, hraised, -⟩
    · exact .inl (congrArg Prod.fst hstep)
    · exact .inr ⟨e, hraised, he⟩
  · obtain ⟨a, ha, -⟩ := runs_ask.mp hask
    cases ha

/-- A get of storage changes nothing. -/
theorem runs_storageGet {key : Str} {r : Except Exc (Option StoredObject)}
    (h : (storageGet key).Runs (handlesShared raises) w r w') : w' = w := by
  rcases Prog.runs_bind.mp h with ⟨a, w₁, hask, hret⟩ | ⟨e, rfl, hask⟩
  · obtain ⟨a', ha, st, hst, rfl⟩ := runs_ask.mp hask
    obtain ⟨-, rfl⟩ := Prog.runs_ofExcept.mp hret
    have hsame : st = w.storage := (handlesRaisingStorage_cases hst).elim id id
    exact hsame ▸ rfl
  · obtain ⟨a, ha, -⟩ := runs_ask.mp hask
    cases ha

/-- A page of a purge deletes below its prefix. -/
theorem runs_purgePage {pre : Str} {page : List ListedObject} {deleted : Nat} {r : Except Exc Nat}
    (hpage : ∀ o ∈ page, pre.isPrefixOf o.key = true)
    (h : (MemoryStore.purgePage page deleted).Runs (handlesShared raises) w r w') : w.Deleted pre w' := by
  induction page generalizing deleted w with
  | nil =>
    obtain ⟨-, rfl⟩ := Prog.runs_ret.mp h
    exact .refl pre w'
  | cons o rest ih =>
    have hrest := fun o' ho' => hpage o' (List.mem_cons_of_mem _ ho')
    rcases Prog.runs_bind.mp h with ⟨a, w₁, hdelete, h⟩ | ⟨e, rfl, hdelete⟩
    · obtain ⟨a', -, st, hst, rfl⟩ := runs_ask.mp hdelete
      have hstep : w.Deleted pre (w.store st) := by
        rcases handlesRaisingStorage_cases hst with rfl | rfl
        · exact .refl pre w
        · exact ⟨_, rfl, InMemoryStorage.removed_delete (hpage o List.mem_cons_self) w.storage o.version⟩
      split at h
      · exact hstep.trans (ih hrest h)
      · exact hstep.trans (ih hrest h)
      · exact (Prog.runs_raise.mp h).2 ▸ hstep
    · obtain ⟨a, ha, -⟩ := runs_ask.mp hdelete
      cases ha

variable (s : MemoryStore)

/-- A pass of a purge deletes below its prefix. -/
theorem runs_purgePass {pre : Str} {fuel : Nat} {after : Option Str} {found : Bool} {deleted : Nat}
    {r : Except Exc (Bool × Nat)}
    (h : (s.purgePass pre fuel after found deleted).Runs (handlesShared raises) w r w') :
    w.Deleted pre w' := by
  induction fuel generalizing after found deleted w with
  | zero => exact absurd h Prog.not_runs_hang
  | succ fuel ih =>
    rcases Prog.runs_bind.mp h with ⟨page, w₁, hlist, hrest⟩ | ⟨e, rfl, hlist⟩
    · obtain ⟨rfl, hobjs⟩ := runs_storageListPage hlist
      have hpage : ∀ o ∈ page, pre.isPrefixOf o.key = true := by
        rcases hobjs with hok | ⟨e, herr, -⟩
        · obtain rfl := Except.ok.inj hok
          exact fun o ho => (mem_listing.mp (List.mem_of_mem_take ho)).1
        · cases herr
      rcases Prog.runs_bind.mp hrest with ⟨n, w₂, hdelete, hlast⟩ | ⟨e, rfl, hdelete⟩
      · have hdeleted := runs_purgePage hpage hdelete
        dsimp only at hlast
        split at hlast
        · obtain ⟨-, rfl⟩ := Prog.runs_ret.mp hlast
          exact hdeleted
        · exact hdeleted.trans (ih hlast)
      · exact runs_purgePage hpage hdelete
    · exact (runs_storageListPage hlist).1 ▸ .refl pre w

/-- So do all its passes. -/
theorem runs_purgePasses {pre scope entityId : Str} {fuel maxPasses passes deleted : Nat}
    {r : Except Exc Nat} (h : (s.purgePasses fuel pre scope entityId maxPasses passes deleted).Runs
      (handlesShared raises) w r w') : w.Deleted pre w' := by
  induction passes generalizing deleted w with
  | zero =>
    rcases Prog.runs_bind.mp h with ⟨left, w₁, hlist, hrest⟩ | ⟨e, rfl, hlist⟩
    · obtain ⟨rfl, -⟩ := runs_storageListPage hlist
      split at hrest
      · exact (Prog.runs_ret.mp hrest).2 ▸ .refl pre _
      · exact (Prog.runs_raise.mp hrest).2 ▸ .refl pre _
    · exact (runs_storageListPage hlist).1 ▸ .refl pre w
  | succ passes ih =>
    rcases Prog.runs_bind.mp h with ⟨pass, w₁, hpass, hrest⟩ | ⟨e, rfl, hpass⟩
    · have hdeleted := runs_purgePass s hpass
      split at hrest
      · exact (Prog.runs_ret.mp hrest).2 ▸ hdeleted
      · exact hdeleted.trans (ih hrest)
    · exact runs_purgePass s hpass

variable [Interpreter]

/-- A page changes nothing, and is what the storage shows unless storage raises. -/
theorem runs_listPrefix {pre : Str} {cursor after : Option Str} (hpre : isValidPrefix pre = true)
    (hcursor : MemoryStore.decodeStart cursor pre = .ok after) {r : Except Exc ListPage}
    (h : (s.listPrefix pre cursor).Runs (handlesShared raises) w r w') :
    w' = w ∧ (r = MemoryStore.pageOf s.listPageSize (w.storage.listPage pre after (s.listPageSize + 1)) ∨
      ∃ e, r = .error e ∧ raises e) := by
  have hvalid : ¬ isValidPrefix pre = false := by simp [hpre]
  unfold MemoryStore.listPrefix at h
  rw [Prog.raiseIf_neg hvalid, Prog.ret_bind, hcursor, Prog.ofExcept_ok, Prog.ret_bind] at h
  rcases Prog.runs_bind.mp h with ⟨objs, w₁, hlist, hpage⟩ | ⟨e, rfl, hlist⟩
  · obtain ⟨rfl, hobjs⟩ := runs_storageListPage hlist
    obtain ⟨rfl, rfl⟩ := Prog.runs_ofExcept.mp hpage
    rcases hobjs with hok | ⟨e, herr, -⟩
    · obtain rfl := Except.ok.inj hok
      exact ⟨rfl, .inl rfl⟩
    · cases herr
  · obtain ⟨rfl, hobjs⟩ := runs_storageListPage hlist
    rcases hobjs with hok | ⟨e', herr, he'⟩
    · cases hok
    · exact ⟨rfl, .inr ⟨e', by rw [Except.error.inj herr], he'⟩⟩

/-- **A drain changes nothing, and lists what is there** where that is pageable. Otherwise it raises;
and where what is there is pageable, that is storage's doing. -/
theorem runs_drain {pre : Str} {fuel : Nat} {cursor after : Option Str} (hpre : isValidPrefix pre = true)
    (hcursor : MemoryStore.decodeStart cursor pre = .ok after) {r : Except Exc (List FileEntry)}
    (h : (s.drain pre fuel cursor).Runs (handlesShared raises) w r w') :
    w' = w ∧ ((r = .ok ((w.storage.listing pre after).filterMap entryOf) ∧
        Pageable s.listPageSize (w.storage.listing pre after)) ∨
      ∃ e, r = .error e ∧ (Pageable s.listPageSize (w.storage.listing pre after) → raises e)) := by
  induction fuel generalizing cursor after r w' with
  | zero => exact absurd h Prog.not_runs_hang
  | succ fuel ih =>
    rcases Prog.runs_bind.mp h with ⟨page, w₁, hlist, hrest⟩ | ⟨e, rfl, hlist⟩
    · obtain ⟨rfl, hpage⟩ := runs_listPrefix s hpre hcursor hlist
      have hpage : MemoryStore.pageOf s.listPageSize
          (w₁.storage.listPage pre after (s.listPageSize + 1)) = .ok page := by
        rcases hpage with hok | ⟨e, herr, -⟩
        · exact hok.symm
        · cases herr
      cases hnext : page.nextCursor with
      | none =>
        simp only [hnext] at hrest
        obtain ⟨rfl, rfl⟩ := Prog.runs_ret.mp hrest
        obtain ⟨hentries, hpageable⟩ := page_last s.listPageSize_pos hpage hnext
        exact ⟨rfl, .inl ⟨congrArg Except.ok hentries, hpageable⟩⟩
      | some next =>
        simp only [hnext] at hrest
        obtain ⟨last, hstart, -, hentries, hpageable⟩ := page_next s.listPageSize_pos hpage hnext
        rcases Prog.runs_bind.mp hrest with ⟨rest, w₂, hdrain, hret⟩ | ⟨e, rfl, hdrain⟩
        · obtain ⟨rfl, hlisted⟩ := ih hstart hdrain
          obtain ⟨rfl, rfl⟩ := Prog.runs_ret.mp hret
          rcases hlisted with ⟨hok, hlast⟩ | ⟨e, herr, -⟩
          · rw [hentries, Except.ok.inj hok]
            exact ⟨rfl, .inl ⟨rfl, hpageable.mp hlast⟩⟩
          · cases herr
        · obtain ⟨rfl, hlisted⟩ := ih hstart hdrain
          rcases hlisted with ⟨hok, -⟩ | ⟨e', herr, he'⟩
          · cases hok
          · obtain rfl := Except.error.inj herr
            exact ⟨rfl, .inr ⟨e, rfl, fun hall => he' (hpageable.mpr hall)⟩⟩
    · obtain ⟨rfl, hpage⟩ := runs_listPrefix s hpre hcursor hlist
      refine ⟨rfl, .inr ⟨e, rfl, fun hpageable => ?_⟩⟩
      rcases hpage with hpage | ⟨e', herr, he'⟩
      · obtain ⟨page, hok⟩ := pageOf_pageable s.listPageSize_pos hpageable
        rw [InMemoryStorage.listPage, hok] at hpage
        cases hpage
      · exact Except.error.inj herr ▸ he'

/-! ## Runs of its blocks -/

variable {cache : IndexCache}

/-- What an invalidation leaves of a world. -/
def SharedWorld.invalidated (w : SharedWorld) (cache : IndexCache) (scope entityId token : Str)
    (bury : Bool) : SharedWorld :=
  let w' := (w.mint token).set (tokenKey cache scope entityId) token
  if bury then w'.set (listingKey cache scope entityId) tombstone else w'

/-- An invalidation sets a fresh token, and a tombstone where it buries. -/
theorem runs_invalidatePath (hcache : s.indexCache = some cache) {p : PathParts} (hp : p.Valid)
    {bury : Bool} {r : Except Exc Unit}
    (h : (s.invalidatePath p.path bury).Runs (handlesShared raises) w r w') :
    r = .ok () ∧ ∃ token, IsHexToken token ∧ token ∉ w.minted ∧
      w' = w.invalidated cache p.scope p.entityId token bury := by
  unfold MemoryStore.invalidatePath at h
  simp only [hcache, orValueError, parsePath_path hp, Except.mapError, Prog.ofExcept_ok,
    Prog.ret_bind] at h
  rcases Prog.runs_bind.mp h with ⟨token, w₁, hmint, h⟩ | ⟨e, rfl, hmint⟩
  · obtain ⟨a, ha, hex, hnew, rfl⟩ := runs_ask.mp hmint
    cases ha
    rcases Prog.runs_bind.mp h with ⟨u, w₂, hset, h⟩ | ⟨e, rfl, hset⟩
    · obtain ⟨-, rfl⟩ := runs_cacheSet hset
      cases bury with
      | false =>
        obtain ⟨rfl, rfl⟩ := Prog.runs_ret.mp h
        exact ⟨rfl, token, hex, hnew, rfl⟩
      | true =>
        obtain ⟨rfl, rfl⟩ := runs_cacheSet h
        exact ⟨rfl, token, hex, hnew, rfl⟩
    · cases (runs_cacheSet hset).1
  · obtain ⟨a, ha, -⟩ := runs_ask.mp hmint
    cases ha

/-- **A conditional put is one step**: the put, or nothing, and then the invalidation. -/
theorem runs_putIfVersion (hcache : s.indexCache = some cache) {p : PathParts} (hp : p.Valid)
    {data : Bytes} {metadata : Metadata} {expected : Option Str} {r : Except Exc Str}
    (h : (s.putIfVersion p.path data metadata expected).Runs (handlesShared raises) w r w') :
    CacheStep cache p.scope p.entityId w w' := by
  rcases Prog.runs_bind.mp h with ⟨result, w₁, hput, h⟩ | ⟨e, rfl, hput⟩
  · obtain ⟨a, -, st, hst, rfl⟩ := runs_ask.mp hput
    have hstored : w.storage.Put (entityPrefix p.scope p.entityId) st := by
      rcases handlesRaisingStorage_cases hst with rfl | rfl
      · exact .inl rfl
      · rcases w.storage.putIfVersion_cases p.path data metadata expected with ⟨-, hres⟩ | ⟨-, hres⟩
        · exact .inr ⟨p.path, data, metadata, under_entity hp, congrArg Prod.snd hres⟩
        · exact .inl (congrArg Prod.snd hres)
    rcases Prog.runs_bind.mp h with ⟨u, w₂, hinv, h⟩ | ⟨e, rfl, hinv⟩
    · obtain ⟨-, token, hex, hnew, rfl⟩ := runs_invalidatePath s hcache hp hinv
      obtain ⟨-, rfl⟩ := Prog.runs_ofExcept.mp h
      exact .replace w st token hstored hex hnew
    · cases (runs_invalidatePath s hcache hp hinv).1
  · obtain ⟨a, ha, -⟩ := runs_ask.mp hput
    cases ha

/-- **A conditional delete is one step**: the delete, or nothing, and then the invalidation. -/
theorem runs_deleteIfVersion (hcache : s.indexCache = some cache) {p : PathParts} (hp : p.Valid)
    {expected : Str} {r : Except Exc Unit}
    (h : (s.deleteIfVersion p.path expected).Runs (handlesShared raises) w r w') :
    CacheStep cache p.scope p.entityId w w' := by
  rcases Prog.runs_bind.mp h with ⟨result, w₁, hdelete, h⟩ | ⟨e, rfl, hdelete⟩
  · obtain ⟨a, -, st, hst, rfl⟩ := runs_ask.mp hdelete
    have hremoved : w.storage.Removed (entityPrefix p.scope p.entityId) st := by
      rcases handlesRaisingStorage_cases hst with rfl | rfl
      · exact .refl _ _
      · exact InMemoryStorage.removed_delete (under_entity hp) w.storage expected
    rcases Prog.runs_bind.mp h with ⟨u, w₂, hinv, h⟩ | ⟨e, rfl, hinv⟩
    · obtain ⟨-, token, hex, hnew, rfl⟩ := runs_invalidatePath s hcache hp hinv
      obtain ⟨-, rfl⟩ := Prog.runs_ofExcept.mp h
      exact .bury w st token hremoved hex hnew
    · cases (runs_invalidatePath s hcache hp hinv).1
  · obtain ⟨a, ha, -⟩ := runs_ask.mp hdelete
    cases ha

/-- An invalidation that is called sets a fresh token and a tombstone. -/
theorem runs_invalidateIndex (hcache : s.indexCache = some cache) {scope entityId : Str}
    (hs : isValidSegment scope = true) (he : isValidSegment entityId = true) {r : Except Exc Unit}
    (h : (s.invalidateIndex scope entityId).Runs (handlesShared raises) w r w') :
    r = .ok () ∧ ∃ token, IsHexToken token ∧ token ∉ w.minted ∧
      w' = w.invalidated cache scope entityId token true := by
  unfold MemoryStore.invalidateIndex at h
  simp only [hcache, checkEntitySegments_valid hs he, Prog.ofExcept_ok, Prog.ret_bind] at h
  rcases Prog.runs_bind.mp h with ⟨token, w₁, hmint, h⟩ | ⟨e, rfl, hmint⟩
  · obtain ⟨a, ha, hex, hnew, rfl⟩ := runs_ask.mp hmint
    cases ha
    rcases Prog.runs_bind.mp h with ⟨a, w₂, hset, h⟩ | ⟨e, rfl, hset⟩
    · obtain ⟨a', ha, rfl, rfl⟩ := runs_ask.mp hset
      cases ha
      rw [Prog.ofExcept_ok, Prog.ret_bind] at h
      rcases Prog.runs_bind.mp h with ⟨a, w₃, hset', h⟩ | ⟨e, rfl, hset'⟩
      · obtain ⟨a', ha, rfl, rfl⟩ := runs_ask.mp hset'
        cases ha
        obtain ⟨rfl, rfl⟩ := Prog.runs_ret.mp h
        exact ⟨rfl, token, hex, hnew, rfl⟩
      · obtain ⟨a', ha, -⟩ := runs_ask.mp hset'
        cases ha
    · obtain ⟨a', ha, -⟩ := runs_ask.mp hset
      cases ha
  · obtain ⟨a, ha, -⟩ := runs_ask.mp hmint
    cases ha

/-- A purge buries the listing, however its passes ended. -/
theorem runs_purge (hcache : s.indexCache = some cache) {scope entityId : Str}
    (hs : isValidSegment scope = true) (he : isValidSegment entityId = true) {fuel : Nat}
    {maxPasses : Int} {r : Except Exc Nat}
    (h : (s.purge fuel scope entityId maxPasses).Runs (handlesShared raises) w r w') :
    w' = w ∨ CacheStep cache scope entityId w w' := by
  unfold MemoryStore.purge orValueError at h
  rw [checkEntitySegments_valid hs he, Prog.ofExcept_ok, Prog.ret_bind] at h
  by_cases hpasses : maxPasses < 1
  · rw [Prog.raiseIf_bind_pos hpasses] at h
    exact .inl (Prog.runs_raise.mp h).2
  · simp only [Prog.raiseIf_neg hpasses, Prog.ret_bind, buildPrefix_entity hs he, Except.mapError,
      Prog.ofExcept_ok] at h
    have hbury : ∀ {w₁ w₂ : SharedWorld} {r : Except Exc Unit},
        w.Deleted (entityPrefix scope entityId) w₁ →
        (s.invalidateIndex scope entityId).Runs (handlesShared raises) w₁ r w₂ →
        r = .ok () ∧ CacheStep cache scope entityId w w₂ := by
      rintro w₁ w₂ r ⟨st, rfl, hremoved⟩ hinv
      obtain ⟨hr, token, hex, hnew, rfl⟩ := runs_invalidateIndex s hcache hs he hinv
      exact ⟨hr, .bury w st token hremoved hex hnew⟩
    right
    rcases Prog.runs_bind.mp h with ⟨outcome, w₁, hattempt, h⟩ | ⟨e, rfl, hattempt⟩
    · obtain ⟨r', hr', hrun⟩ := Prog.runs_attempt.mp hattempt
      cases hr'
      have hdeleted := runs_purgePasses s hrun
      cases outcome with
      | ok n =>
        rcases Prog.runs_bind.mp h with ⟨u, w₂, hinv, h⟩ | ⟨e, rfl, hinv⟩
        · exact (Prog.runs_ret.mp h).2 ▸ (hbury hdeleted hinv).2
        · cases (hbury hdeleted hinv).1
      | error e =>
        rcases Prog.runs_bind.mp h with ⟨u, w₂, hinv, h⟩ | ⟨e', rfl, hinv⟩
        · obtain ⟨r', -, hinv⟩ := Prog.runs_attempt.mp hinv
          exact (Prog.runs_raise.mp h).2 ▸ (hbury hdeleted hinv).2
        · obtain ⟨r', hr', -⟩ := Prog.runs_attempt.mp hinv
          cases hr'
    · obtain ⟨r', hr', -⟩ := Prog.runs_attempt.mp hattempt
      cases hr'

/-- What a miss does: at most it stores what is there under the token that stands. -/
theorem runs_refill {scope entityId token : Str} (hs : isValidSegment scope = true)
    (he : isValidSegment entityId = true) {fuel : Nat} {r : Except Exc (List FileEntry)}
    (hcurrent : w.cache.get? (tokenKey cache scope entityId) = some token)
    (h : (s.refill fuel cache scope entityId (entityPrefix scope entityId) token).Runs
      (handlesShared raises) w r w') :
    (r = .ok (w.storage.listEntries (entityPrefix scope entityId)) ∧
      Pageable s.listPageSize (w.storage.listing (entityPrefix scope entityId) none) ∧
      w'.storage = w.storage ∧ CacheStep cache scope entityId w w') ∨
      w' = w ∧ ∃ e, r = .error e ∧
        (Pageable s.listPageSize (w.storage.listing (entityPrefix scope entityId) none) → raises e) := by
  have hpre := entityPrefix_valid hs he
  rcases Prog.runs_bind.mp h with ⟨entries, w₁, hdrain, hrest⟩ | ⟨e, rfl, hdrain⟩
  · obtain ⟨rfl, hlisted⟩ := runs_drain s hpre rfl hdrain
    rcases hlisted with ⟨hok, hpageable⟩ | ⟨e, herr, -⟩
    · obtain rfl := Except.ok.inj hok
      rcases Prog.runs_bind.mp hrest with ⟨u, w₂, hset, hret⟩ | ⟨e, rfl, hset⟩
      · obtain ⟨-, rfl⟩ := runs_cacheSet hset
        obtain ⟨rfl, rfl⟩ := Prog.runs_ret.mp hret
        exact .inl ⟨rfl, hpageable, rfl, .index w₁ token hcurrent⟩
      · cases (runs_cacheSet hset).1
    · cases herr
  · obtain ⟨rfl, hlisted⟩ := runs_drain s hpre rfl hdrain
    rcases hlisted with ⟨hok, -⟩ | ⟨e', herr, he'⟩
    · cases hok
    · exact .inr ⟨rfl, e', by rw [Except.error.inj herr], he'⟩

/-- How a reader's read of one entity ends: with what is there, with the listing under the token that
stands, or with an exception. -/
inductive ReadsEntity (raises : Exc → Prop) (size : Nat) (cache : IndexCache) (scope entityId : Str)
    (w : SharedWorld) : Except Exc (List FileEntry) → Prop
  | listed (pageable : Pageable size (w.storage.listing (entityPrefix scope entityId) none)) :
    ReadsEntity raises size cache scope entityId w
      (.ok (w.storage.listEntries (entityPrefix scope entityId)))
  | served (token raw : Str) (hit : List FileEntry)
      (current : w.cache.get? (tokenKey cache scope entityId) = some token)
      (cached : w.cache.get? (listingKey cache scope entityId) = some raw)
      (decoded : decodeListing raw token (entityPrefix scope entityId) = some hit) :
    ReadsEntity raises size cache scope entityId w (.ok hit)
  | raised (e : Exc) (pageable :
      Pageable size (w.storage.listing (entityPrefix scope entityId) none) → raises e) :
    ReadsEntity raises size cache scope entityId w (.error e)

/-- **What a reader does**: it serves the listing under the token that stands, or refills, perhaps under
a token of its own. -/
theorem runs_cachedEntityEntries {scope entityId : Str} (hs : isValidSegment scope = true)
    (he : isValidSegment entityId = true) {fuel : Nat} {r : Except Exc (List FileEntry)}
    (h : (s.cachedEntityEntries fuel cache scope entityId).Runs (handlesShared raises) w r w') :
    CacheSteps cache w w' ∧ w'.storage = w.storage ∧
      ReadsEntity raises s.listPageSize cache scope entityId w r := by
  unfold MemoryStore.cachedEntityEntries orValueError at h
  have hprefix : joinSegments [scope, entityId] = entityPrefix scope entityId := rfl
  simp only [buildPrefix_entity hs he, Except.mapError, Prog.ofExcept_ok, Prog.ret_bind, hprefix] at h
  have hrefill : ∀ {w₁ : SharedWorld} {token : Str}, CacheSteps cache w w₁ →
      w₁.storage = w.storage → w₁.cache.get? (tokenKey cache scope entityId) = some token →
      (s.refill fuel cache scope entityId (entityPrefix scope entityId) token).Runs
        (handlesShared raises) w₁ r w' →
      CacheSteps cache w w' ∧ w'.storage = w.storage ∧
        ReadsEntity raises s.listPageSize cache scope entityId w r := by
    intro w₁ token hsteps hstorage hcurrent hrun
    rcases runs_refill s hs he hcurrent hrun with ⟨rfl, hpageable, hsame, hstep⟩ | ⟨rfl, e, rfl, hraised⟩
    · rw [hstorage] at hpageable ⊢
      exact ⟨hsteps.trans (hstep.steps hs he), hsame.trans hstorage, .listed hpageable⟩
    · exact ⟨hsteps, hstorage, .raised e (hstorage ▸ hraised)⟩
  rcases Prog.runs_bind.mp h with ⟨found, w₁, hget, hrest⟩ | ⟨e, rfl, hget⟩
  · obtain ⟨rfl, found', hfound, htoken⟩ := runs_cacheGet hget
    cases hfound
    cases found with
    | none =>
      rcases Prog.runs_bind.mp hrest with ⟨token, w₂, hmint, hrest⟩ | ⟨e, rfl, hmint⟩
      · obtain ⟨a, ha, hex, hnew, rfl⟩ := runs_ask.mp hmint
        cases ha
        rcases Prog.runs_bind.mp hrest with ⟨u, w₃, hset, hrest⟩ | ⟨e, rfl, hset⟩
        · obtain ⟨-, rfl⟩ := runs_cacheSet hset
          have hstep : CacheStep cache scope entityId w₁
              ((w₁.mint token).set (tokenKey cache scope entityId) token) :=
            .replace w₁ w₁.storage token (.inl rfl) hex hnew
          exact hrefill (hstep.steps hs he) rfl (FinMap.get?_insert_self _ _ _) hrest
        · cases (runs_cacheSet hset).1
      · obtain ⟨a, ha, -⟩ := runs_ask.mp hmint
        cases ha
    | some token =>
      have hcurrent := htoken token rfl
      rcases Prog.runs_bind.mp hrest with ⟨raw, w₂, hget', hlast⟩ | ⟨e, rfl, hget'⟩
      · obtain ⟨rfl, raw', hraw', hlisting⟩ := runs_cacheGet hget'
        cases hraw'
        cases hhit : raw.bind (decodeListing · token (entityPrefix scope entityId)) with
        | none =>
          rw [hhit] at hlast
          exact hrefill (.refl w₂) rfl hcurrent hlast
        | some hit =>
          rw [hhit] at hlast
          obtain ⟨rfl, rfl⟩ := Prog.runs_ret.mp hlast
          obtain ⟨raw, rfl, hdecode⟩ := Option.bind_eq_some_iff.mp hhit
          exact ⟨.refl _, rfl, .served token raw hit hcurrent (hlisting raw rfl) hdecode⟩
      · obtain ⟨-, found', hfound', -⟩ := runs_cacheGet hget'
        cases hfound'
  · obtain ⟨-, found', hfound', -⟩ := runs_cacheGet hget
    cases hfound'

/-! ## A call -/

/-- The blocks of a call are steps. -/
theorem stepBlocks (hcache : s.indexCache = some cache) (w₀ : SharedWorld) :
    CallBlocks s cache fun _ p => ∀ w r w', CacheSteps cache w₀ w →
      p.Runs (handlesShared raises) w r w' → CacheSteps cache w₀ w' where
  toComposes := Prog.composes_runs _ _
  uses := hcache
  get key w r w' hw h := runs_storageGet h ▸ hw
  list pre after limit w r w' hw h := (runs_storageListPage h).1 ▸ hw
  clock w r w' hw h := by
    obtain ⟨a, -, hsame⟩ := runs_ask.mp h
    exact hsame ▸ hw
  put path data metadata expected hpath w r w' hw h := by
    obtain ⟨p, hp, rfl⟩ := exists_parts hpath
    exact hw.trans ((runs_putIfVersion s hcache hp h).steps hp.scope hp.entityId)
  delete path expected hpath w r w' hw h := by
    obtain ⟨p, hp, rfl⟩ := exists_parts hpath
    exact hw.trans ((runs_deleteIfVersion s hcache hp h).steps hp.scope hp.entityId)
  cached fuel scope entityId hs he w r w' hw h :=
    hw.trans (runs_cachedEntityEntries s hs he h).1
  purge fuel scope entityId maxPasses hs he w r w' hw h := by
    rcases runs_purge s hcache hs he h with rfl | hstep
    · exact hw
    · exact hw.trans (hstep.steps hs he)
  invalidate scope entityId hs he w r w' hw h := by
    obtain ⟨-, token, hex, hnew, rfl⟩ := runs_invalidateIndex s hcache hs he h
    have hstep : CacheStep cache scope entityId w (w.invalidated cache scope entityId token true) :=
      .bury w w.storage token (.refl _ _) hex hnew
    exact hw.trans (hstep.steps hs he)

end Runs

/-- **A call that runs alone is a sequence of steps.** -/
theorem Invocation.steps [Interpreter] {raises : Exc → Prop} {cache : IndexCache}
    {i : Invocation StoreCall} (huses : UsesCache cache i) {w w' : SharedWorld}
    {r : Except Exc StoreResult} (h : i.body.Runs (handlesShared raises) w r w') :
    CacheSteps cache w w' :=
  (stepBlocks i.store huses w).call i.call i.fuel w r w' (.refl w) h

end Wenchang
