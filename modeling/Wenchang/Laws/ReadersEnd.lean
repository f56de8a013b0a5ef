import Wenchang.Laws.CacheSteps

/-!
# Readers come to an end

Alone over a shared cache, whatever storage raises and whatever the cache drops, a drain ends once its fuel
covers the keys, and with it a reader of one entity, the collection and the index.
-/

namespace Wenchang

open Py Ordered Interaction

/-! ## Operations come to an end -/

section

variable {raises : Exc → Prop} {w : SharedWorld}

/-- A listing by storage ends. -/
theorem ends_storageListPage_any (pre : Str) (after : Option Str) (limit : Nat) :
    (storageListPage pre after limit).Ends (handlesShared raises) (fun _ _ => True) w :=
  fun page _ _ => (Prog.ends_ofExcept page _).mpr trivial

/-- A `set` of the cache ends. -/
theorem ends_cacheSet_any (key value : Str) :
    (cacheSet key value).Ends (handlesShared raises) (fun _ _ => True) w := fun _ _ _ => trivial

/-- A `get` of the cache ends. -/
theorem ends_cacheGet_any (key : Str) :
    (cacheGet key).Ends (handlesShared raises) (fun _ _ => True) w := by
  refine (Prog.ends_bind _ _ _ _).mpr fun found w' _ => ?_
  rcases found with e | found
  · trivial
  · cases found <;> trivial

end

section

variable [Interpreter] {raises : Exc → Prop} {w : SharedWorld} {s : MemoryStore}

/-- A page comes to an end. -/
theorem ends_listPrefix (pre : Str) (cursor : Option Str) :
    (s.listPrefix pre cursor).Ends (handlesShared raises) (fun _ _ => True) w := by
  refine Prog.ends_raiseIf_bind (fun _ => trivial) fun _ => ?_
  refine Prog.ends_ofExcept_bind (fun _ _ => trivial) fun after _ => ?_
  exact (ends_storageListPage_any _ _ _).bind fun objs w' _ => (Prog.ends_ofExcept _ _).mpr trivial

/-- A drain comes to an end. -/
theorem ends_drain {pre : Str} (hpre : isValidPrefix pre = true) {fuel : Nat}
    {cursor after : Option Str} (hcursor : MemoryStore.decodeStart cursor pre = .ok after)
    (hfuel : (w.storage.listing pre after).length < fuel) :
    (s.drain pre fuel cursor).Ends (handlesShared raises) (fun _ _ => True) w := by
  induction fuel generalizing cursor after with
  | zero => omega
  | succ fuel ih =>
    refine (ends_listPrefix pre cursor).bind fun page w' hpage => ?_
    obtain ⟨rfl, hok | ⟨e, herr, -⟩⟩ := runs_listPrefix s hpre hcursor hpage
    · cases hnext : page.nextCursor with
      | none => trivial
      | some next =>
        obtain ⟨last, hstart, hshorter, -⟩ := page_next s.listPageSize_pos hok.symm hnext
        exact (ih hstart (by omega)).bind fun _ _ _ => trivial
    · cases herr

/-- A reader of one entity comes to an end. -/
theorem ends_cachedEntityEntries {cache : IndexCache} {scope entityId : Str} {fuel : Nat}
    (hs : isValidSegment scope = true) (he : isValidSegment entityId = true)
    (hfuel : w.storage.objects.keys.length < fuel) :
    (s.cachedEntityEntries fuel cache scope entityId).Ends (handlesShared raises) (fun _ _ => True) w := by
  have hprefix : joinSegments [scope, entityId] = entityPrefix scope entityId := rfl
  have hpre := entityPrefix_valid hs he
  have hrefill : ∀ (token : Str) (w' : SharedWorld), w'.storage = w.storage →
      (s.refill fuel cache scope entityId (entityPrefix scope entityId) token).Ends
        (handlesShared raises) (fun _ _ => True) w' := by
    intro token w' hsame
    have hlength := length_listing_le w.storage (entityPrefix scope entityId) none
    refine (ends_drain hpre rfl (by rw [hsame]; omega)).bind fun entries w'' _ => ?_
    exact (ends_cacheSet_any _ _).bind fun _ _ _ => trivial
  unfold MemoryStore.cachedEntityEntries orValueError
  simp only [buildPrefix_entity hs he, Except.mapError, Prog.ofExcept_ok, Prog.ret_bind, hprefix]
  refine (ends_cacheGet_any _).bind fun found w' hget => ?_
  obtain ⟨rfl, -⟩ := runs_cacheGet hget
  cases found with
  | none =>
    refine Prog.Ends.bind (fun _ _ _ => trivial) fun token w₁ hmint => ?_
    obtain ⟨a, -, -, -, rfl⟩ := runs_ask.mp hmint
    refine (ends_cacheSet_any _ _).bind fun u w₂ hset => ?_
    obtain ⟨-, rfl⟩ := runs_cacheSet hset
    exact hrefill token _ rfl
  | some token =>
    refine (ends_cacheGet_any _).bind fun raw w₁ hget' => ?_
    obtain ⟨rfl, -⟩ := runs_cacheGet hget'
    split
    · trivial
    · exact hrefill token _ rfl

/-- What `get_memory_index` collects of one entity. -/
def MemoryStore.entityEntries (s : MemoryStore) (fuel : Nat) (scope entityId : Str) :
    Store (List FileEntry) :=
  match s.indexCache with
  | none => orValueError (buildPrefix scope (some entityId) none) >>= fun pre => s.drain pre fuel none
  | some cache => s.cachedEntityEntries fuel cache scope entityId

/-- Entities are collected one by one. -/
theorem collect_cons (s : MemoryStore) (fuel : Nat) (scope entityId : Str) (rest : List (Str × Str)) :
    s.collect fuel ((scope, entityId) :: rest) = s.entityEntries fuel scope entityId >>= fun entries =>
      s.collect fuel rest >>= fun collected => .ret (entries ++ collected) := by
  rw [MemoryStore.collect, MemoryStore.entityEntries]
  cases s.indexCache with
  | none => exact (Prog.bind_assoc _ _ _).symm
  | some cache => rfl

/-- What is collected of one entity comes to an end, and leaves storage as it was. -/
theorem ends_entityEntries {scope entityId : Str} {fuel : Nat} (hs : isValidSegment scope = true)
    (he : isValidSegment entityId = true) (hfuel : w.storage.objects.keys.length < fuel) :
    (s.entityEntries fuel scope entityId).Ends (handlesShared raises)
      (fun _ w' => w'.storage = w.storage) w := by
  have hprefix : joinSegments [scope, entityId] = entityPrefix scope entityId := rfl
  unfold MemoryStore.entityEntries
  cases s.indexCache with
  | none =>
    simp only [orValueError, buildPrefix_entity hs he, Except.mapError, Prog.ofExcept_ok, Prog.ret_bind, hprefix]
    have hlength := length_listing_le w.storage (entityPrefix scope entityId) none
    refine (ends_drain (entityPrefix_valid hs he) rfl (by omega)).runs.mono fun r w' hrun => ?_
    rw [(runs_drain s (entityPrefix_valid hs he) rfl hrun).1]
  | some cache =>
    refine (ends_cachedEntityEntries hs he hfuel).runs.mono fun r w' hrun => ?_
    exact (runs_cachedEntityEntries s hs he hrun).2.1

/-- The collection comes to an end. -/
theorem ends_collect {fuel : Nat} {pairs : List (Str × Str)}
    (hpairs : ∀ pair ∈ pairs, isValidSegment pair.1 = true ∧ isValidSegment pair.2 = true)
    (hfuel : w.storage.objects.keys.length < fuel) :
    (s.collect fuel pairs).Ends (handlesShared raises) (fun _ _ => True) w := by
  induction pairs generalizing w with
  | nil => trivial
  | cons pair rest ih =>
    obtain ⟨scope, entityId⟩ := pair
    obtain ⟨hs, he⟩ := hpairs _ List.mem_cons_self
    rw [collect_cons]
    refine (Prog.ends_bind _ _ _ _).mpr ((ends_entityEntries hs he hfuel).mono fun r w' hsame => ?_)
    cases r with
    | error e => trivial
    | ok entries =>
      refine (ih (fun pair hpair => hpairs pair (List.mem_cons_of_mem _ hpair)) (hsame ▸ hfuel)).bind ?_
      exact fun _ _ _ => trivial

/-- **An index comes to an end**, over any scope map. -/
theorem ends_getMemoryIndex {fuel : Nat} (scopeMap : List (Str × Str))
    (hfuel : w.storage.objects.keys.length < fuel) :
    (s.getMemoryIndex fuel scopeMap).Ends (handlesShared raises) (fun _ _ => True) w := by
  refine Prog.ends_ofExcept_bind (fun _ _ => trivial) fun u hcheck => ?_
  refine (ends_collect (of_checkPairs hcheck).1.segments hfuel).bind fun collected w' _ => ?_
  exact (Prog.ends_ofExcept _ _).mpr trivial

end

end Wenchang
