import Wenchang.Core.SharedCache
import Wenchang.Py.TimeDelta

/-!
# `InMemoryIndexCache`

The in-process cache, whose entries expire by a clock. The clock may read anything, also earlier than before, or
naive where it read aware; the world of stores over such a cache is `timed`.
-/

namespace Wenchang

open Py Ordered Interaction

/-- `a >= b` of two `datetime`s. A naive one and an aware one cannot be compared. -/
def notBefore (a b : DateTime) : Except Exc Bool :=
  match a.utcoffset, b.utcoffset with
  | some _, some _ => .ok (decide (b.epochMicros ≤ a.epochMicros))
  | none, none => .ok (decide (b.localMicros ≤ a.localMicros))
  | _, _ => .error (.typeError (str "can't compare offset-naive and offset-aware datetimes"))

/-- `InMemoryIndexCache`: each value with the moment from which on it has expired. -/
structure InMemoryIndexCache where
  entries : FinMap Str (Str × Option DateTime)

namespace InMemoryIndexCache

/-- `InMemoryIndexCache()`. -/
def empty : InMemoryIndexCache := ⟨.empty⟩

/-- `get`, when the clock reads `now`: an expired entry is dropped. -/
def get (c : InMemoryIndexCache) (now : DateTime) (key : Str) : Except Exc (Option Str) × InMemoryIndexCache :=
  match c.entries.get? key with
  | none => (.ok none, c)
  | some (value, none) => (.ok (some value), c)
  | some (value, some expiresAt) =>
    match notBefore now expiresAt with
    | .error e => (.error e, c)
    | .ok true => (.ok none, ⟨c.entries.erase key⟩)
    | .ok false => (.ok (some value), c)

/-- `set`, when the clock reads `now`, with `ttl` in microseconds. An expiry past `datetime.max` never expires. -/
def set (c : InMemoryIndexCache) (now : DateTime) (key value : Str) (ttl : Option Int) : InMemoryIndexCache :=
  ⟨c.entries.insert key (value, ttl.bind now.plusMicros)⟩

end InMemoryIndexCache

/-- What a cache's `get` returned, to a store. -/
def CacheValue.ofOption : Option Str → CacheValue
  | none => .absent
  | some value => .text value

/-- A storage, such a cache, and the tokens minted so far. -/
structure TimedWorld where
  storage : InMemoryStorage
  cache : InMemoryIndexCache
  minted : List Str

/-- How the world answers: whatever the clock reads, and with whatever `ttl` a store sets. -/
def handlesTimed (raises : Exc → Prop) (w : TimedWorld) : (o : StoreOp) → o.Ans → TimedWorld → Prop
  | .storage o, a, w' => ∃ st, handlesRaisingStorage raises w.storage o a st ∧ w' = { w with storage := st }
  | .clock, _, w' => w' = w
  | .uuid4, token, w' => IsHexToken token ∧ token ∉ w.minted ∧ w' = { w with minted := token :: w.minted }
  | .cacheGet key, a, w' => ∃ now, a = (w.cache.get now key).1.map .ofOption ∧
      w' = { w with cache := (w.cache.get now key).2 }
  | .cacheSet key value, a, w' => ∃ now ttl, a = .ok () ∧ w' = { w with cache := w.cache.set now key value ttl }

/-- Stores over one storage and one `InMemoryIndexCache`. -/
def timed (raises : Exc → Prop) : Env StoreSig TimedWorld where
  handles := handlesTimed raises
  rely _ _ := True
  rely_refl _ := trivial
  rely_trans _ _ := trivial
  rely_of_handles _ := trivial

/-- Calls of any method over such a cache. -/
abbrev TimedPool := Pool StoreSig Exc StoreResult (Invocation StoreCall) TimedWorld

/-- A clock that reads `now`, and a `ttl` of a minute. -/
def answerTimed (now : DateTime) : (o : StoreOp) → TimedWorld → o.Ans × TimedWorld
  | .storage o, w =>
    ((InMemoryStorage.step o w.storage).1, { w with storage := (InMemoryStorage.step o w.storage).2 })
  | .clock, w => (noon, w)
  | .uuid4, w => (nextToken ⟨w.storage, .empty, w.minted⟩,
      { w with minted := nextToken ⟨w.storage, .empty, w.minted⟩ :: w.minted })
  | .cacheGet key, w => ((w.cache.get now key).1.map .ofOption, { w with cache := (w.cache.get now key).2 })
  | .cacheSet key value, w => (.ok (), { w with cache := w.cache.set now key value (some 60000000) })

/-- What is answered is handled. -/
theorem answerTimed_handles (raises : Exc → Prop) (now : DateTime) (o : StoreOp) (w : TimedWorld)
    (h : answersShared ⟨w.storage, .empty, w.minted⟩ o = true) :
    handlesTimed raises w o (answerTimed now o w).1 (answerTimed now o w).2 := by
  cases o with
  | storage o => exact ⟨_, .inl rfl, rfl⟩
  | clock => exact rfl
  | uuid4 =>
    simp only [answersShared, Bool.and_eq_true, decide_eq_true_eq, Bool.not_eq_true',
      List.contains_eq_mem, decide_eq_false_iff_not] at h
    exact ⟨h.1, h.2, rfl⟩
  | cacheGet key => exact ⟨now, rfl, rfl⟩
  | cacheSet key value => exact ⟨now, some 60000000, rfl, rfl⟩

end Wenchang
