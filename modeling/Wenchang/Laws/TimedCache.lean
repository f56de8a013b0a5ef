import Wenchang.Core.InMemoryIndexCache
import Wenchang.Interaction.Simulation
import Wenchang.Laws.NeverStale

/-!
# `InMemoryIndexCache` is a cache

Whatever the clock reads, what `get` finds was set last (`timed_cache_refines`): every run of stores over an
`InMemoryIndexCache` is a run over a shared cache, so what holds of the stores there holds here.
-/

namespace Wenchang

open Py Ordered Interaction

namespace InMemoryIndexCache

variable {c : InMemoryIndexCache} {now : DateTime} {key : Str}

/-- What is found was held. -/
theorem get_held {value : Str} (h : (c.get now key).1 = .ok (some value)) :
    ∃ expiresAt, c.entries.get? key = some (value, expiresAt) := by
  unfold get at h
  split at h
  · cases h
  next held hheld =>
    cases h
    exact ⟨_, hheld⟩
  next held expiresAt hheld =>
    split at h
    · cases h
    · cases h
    · cases h
      exact ⟨_, hheld⟩

/-- A `get` drops its key's entry or none. -/
theorem get_entries (c : InMemoryIndexCache) (now : DateTime) (key : Str) :
    (c.get now key).2 = c ∨ (c.get now key).2 = ⟨c.entries.erase key⟩ := by
  unfold get
  split
  · exact .inl rfl
  · exact .inl rfl
  · split
    · exact .inl rfl
    · exact .inr rfl
    · exact .inl rfl

/-- What is held after a get was held before. -/
theorem held_of_get {key' : Str} {entry : Str × Option DateTime}
    (h : (c.get now key).2.entries.get? key' = some entry) : c.entries.get? key' = some entry := by
  rcases get_entries c now key with hsame | hdropped
  · rwa [hsame] at h
  · rw [hdropped] at h
    by_cases hkey : key' = key
    · rw [hkey, FinMap.get?_erase_self] at h
      cases h
    · rwa [FinMap.get?_erase_of_ne _ hkey] at h

end InMemoryIndexCache

/-- A store is given a text only where one was found. -/
theorem CacheValue.eq_some_of_text {r : Except Exc (Option Str)} {value : Str}
    (h : r.map CacheValue.ofOption = .ok (.text value)) : r = .ok (some value) := by
  cases r with
  | error e => cases h
  | ok found =>
    cases found with
    | none => cases h
    | some stored =>
      cases h
      rfl

/-- Two worlds that differ in what their caches have dropped: what the one holds was set last in the other. -/
structure TimedWorld.StandsFor (w : TimedWorld) (v : SharedWorld) : Prop where
  storage : v.storage = w.storage
  minted : v.minted = w.minted
  held : ∀ key value expiresAt, w.cache.entries.get? key = some (value, expiresAt) →
    v.cache.get? key = some value

variable {raises : Exc → Prop}

/-- **An operation of the one is an operation of the other.** -/
theorem TimedWorld.StandsFor.handles (w : TimedWorld) (v : SharedWorld) (o : StoreOp) (a : o.Ans) (w' : TimedWorld)
    (hv : w.StandsFor v) (h : handlesTimed raises w o a w') :
    ∃ v', handlesShared raises v o a v' ∧ w'.StandsFor v' := by
  cases o with
  | storage o =>
    obtain ⟨st, hst, rfl⟩ := h
    exact ⟨v.store st, ⟨st, hv.storage ▸ hst, rfl⟩, rfl, hv.minted, hv.held⟩
  | clock =>
    obtain rfl : w' = w := h
    exact ⟨v, rfl, hv⟩
  | uuid4 =>
    obtain ⟨htoken, hfresh, rfl⟩ := h
    exact ⟨v.mint a, ⟨htoken, hv.minted ▸ hfresh, rfl⟩, hv.storage, congrArg _ hv.minted, hv.held⟩
  | cacheGet key =>
    obtain ⟨now, ha, rfl⟩ := h
    refine ⟨v, ⟨rfl, fun value hvalue => ?_⟩, hv.storage, hv.minted, fun key' value expiresAt hheld => ?_⟩
    · have hget := CacheValue.eq_some_of_text (ha.symm.trans hvalue)
      obtain ⟨expiresAt, hheld⟩ := InMemoryIndexCache.get_held hget
      exact hv.held key value expiresAt hheld
    · exact hv.held key' value expiresAt (InMemoryIndexCache.held_of_get hheld)
  | cacheSet key value =>
    obtain ⟨now, ttl, rfl, rfl⟩ := h
    refine ⟨v.set key value, ⟨rfl, rfl⟩, hv.storage, hv.minted, fun key' value' expiresAt hheld => ?_⟩
    rw [SharedWorld.set_cache]
    by_cases hkey : key' = key
    · rw [hkey] at hheld ⊢
      rw [InMemoryIndexCache.set, FinMap.get?_insert_self] at hheld
      cases hheld
      exact FinMap.get?_insert_self _ _ _
    · rw [InMemoryIndexCache.set, FinMap.get?_insert_of_ne _ _ hkey] at hheld
      rw [FinMap.get?_insert_of_ne _ _ hkey]
      exact hv.held key' value' expiresAt hheld

/-- **`InMemoryIndexCache` is a cache.** However calls of stores over one storage and one `InMemoryIndexCache`
interleave, whatever its clock reads and whatever may raise, some run over a shared cache has the same calls, as far
as they have come, the same operations with the same answers, and the same storage. -/
theorem timed_cache_refines [Interpreter] {st : InMemoryStorage} {minted : List Str} {p : TimedPool}
    (h : Pool.Run (timed raises) Invocation.body (fun _ => True) ⟨st, .empty, minted⟩ p) :
    ∃ q : SharedPool, Pool.Run (shared raises) Invocation.body (fun _ => True) ⟨st, .empty, minted⟩ q ∧
      q.threads = p.threads ∧ said q.log = said p.log ∧ q.world.storage = p.world.storage := by
  have hempty : TimedWorld.StandsFor ⟨st, .empty, minted⟩ ⟨st, .empty, minted⟩ :=
    ⟨rfl, rfl, fun _ _ _ hheld => nomatch hheld⟩
  obtain ⟨q, hrun, halike⟩ := h.sim (F := shared raises) TimedWorld.StandsFor.handles hempty
  exact ⟨q, hrun, halike.threads, halike.log, halike.world.storage⟩

/-- So long after noon. -/
def afterNoon (seconds : Nat) : DateTime := (noon.plusMicros (seconds * 1000000)).getD noon

/-- A file is written and a reader lists its entity. The next reader is served from the cache, and the one after it
comes when the entries have expired. -/
def expiringSchedule : List (Choice (Invocation StoreCall) DateTime) := List.flatten
  [.invoke (writeCall (str "user/u1/notes/n.md")) :: List.replicate 5 (.act 0 noon),
    .invoke indexCall :: List.replicate 4 (.act 1 noon),
    .invoke indexCall :: List.replicate 2 (.act 2 (afterNoon 59)),
    .invoke indexCall :: List.replicate 5 (.act 3 (afterNoon 60))]

/-- An entry expires between two indexes. -/
theorem timed_cache_refines_expiring : let _ := Interpreter.ascii
    ∃ (p : TimedPool) (q : SharedPool),
      Pool.Run (timed fun _ => False) Invocation.body (fun _ => True) ⟨.empty, .empty, []⟩ p ∧
      (∀ t < 4, p.returned t ≠ none) ∧ (ownTrace 2 p.log).length = 2 ∧ (ownTrace 3 p.log).length = 5 ∧
      Pool.Run (shared fun _ => False) Invocation.body (fun _ => True) ⟨.empty, .empty, []⟩ q ∧
      q.threads = p.threads ∧ said q.log = said p.log ∧ q.world.storage = p.world.storage := by
  intro _
  have hends : ((Pool.execWhere (fun now o w => answerTimed now o w)
      (fun _ w o => answersShared ⟨w.storage, .empty, w.minted⟩ o) Invocation.body expiringSchedule
      ⟨⟨.empty, .empty, []⟩, [], []⟩).any fun p => (∀ t < 4, (p.returned t).isSome = true) ∧
        (ownTrace 2 p.log).length = 2 ∧ (ownTrace 3 p.log).length = 5) = true := by
    decide +kernel
  obtain ⟨p, hp, h⟩ := (Option.any_eq_true _ _).mp hends
  rw [decide_eq_true_eq] at h
  obtain ⟨hreturned, htwo, hfive⟩ := h
  have hrun : Pool.Run (timed fun _ => False) Invocation.body (fun _ => True) ⟨.empty, .empty, []⟩ p :=
    Pool.Run.execWhere (fun now o w => answerTimed now o w)
      (fun now o w hok => answerTimed_handles (fun _ => False) now o w hok) (.init trivial) hp
  obtain ⟨q, hshared, hthreads, hsaid, hstorage⟩ := timed_cache_refines hrun
  exact ⟨p, q, hrun, fun t ht => Option.isSome_iff_ne_none.mp (hreturned t ht), htwo, hfive, hshared, hthreads, hsaid,
    hstorage⟩

end Wenchang
