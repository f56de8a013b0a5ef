import Wenchang.Core.Export
import Wenchang.Interaction.Sequential

/-!
# A shared cache

The world of several stores over one storage and one index cache. `set` is what a cache does at a key:
it succeeds, and a `get` that finds a text finds the one set last. It may find nothing, since entries
expire and are dropped, and it may raise. Tokens from `uuid4` never repeat. Any storage operation may
raise, before its effect or after it.
-/

namespace Wenchang

open Py Ordered Interaction

/-- A storage, what was last set at each key of the cache, and the tokens minted so far. -/
structure SharedWorld where
  storage : InMemoryStorage
  cache : FinMap Str Str
  minted : List Str

namespace SharedWorld

/-- A cache's `set`. -/
def set (w : SharedWorld) (key value : Str) : SharedWorld :=
  { w with cache := w.cache.insert key value }

/-- A token is handed out. -/
def mint (w : SharedWorld) (token : Str) : SharedWorld := { w with minted := token :: w.minted }

/-- Another storage. -/
def store (w : SharedWorld) (st : InMemoryStorage) : SharedWorld := { w with storage := st }

@[simp] theorem set_storage (w : SharedWorld) (key value : Str) :
    (w.set key value).storage = w.storage := rfl
@[simp] theorem set_cache (w : SharedWorld) (key value : Str) :
    (w.set key value).cache = w.cache.insert key value := rfl
@[simp] theorem set_minted (w : SharedWorld) (key value : Str) : (w.set key value).minted = w.minted := rfl
@[simp] theorem mint_storage (w : SharedWorld) (token : Str) : (w.mint token).storage = w.storage := rfl
@[simp] theorem mint_cache (w : SharedWorld) (token : Str) : (w.mint token).cache = w.cache := rfl
@[simp] theorem mint_minted (w : SharedWorld) (token : Str) :
    (w.mint token).minted = token :: w.minted := rfl
@[simp] theorem store_storage (w : SharedWorld) (st : InMemoryStorage) : (w.store st).storage = st := rfl
@[simp] theorem store_cache (w : SharedWorld) (st : InMemoryStorage) : (w.store st).cache = w.cache := rfl
@[simp] theorem store_minted (w : SharedWorld) (st : InMemoryStorage) :
    (w.store st).minted = w.minted := rfl

/-- What can become of a world: tokens of storage stay what they name, and minted ones stay minted. -/
structure Later (w w' : SharedWorld) : Prop where
  storage : w.storage.Later w'.storage
  minted : w.minted ⊆ w'.minted

end SharedWorld

/-- `uuid.uuid4().hex`: 32 hexadecimal digits. -/
def IsHexToken (token : Str) : Prop := token.length = 32 ∧ ∀ c ∈ token, c ∈ str "0123456789abcdef"

instance (token : Str) : Decidable (IsHexToken token) :=
  decidable_of_iff (token.length = 32 ∧ (token.all ((str "0123456789abcdef").contains ·)) = true)
    (by simp [IsHexToken])

/-- An answer of a storage that may raise some exceptions, before its effect or after it. -/
def handlesRaisingStorage (raises : Exc → Prop) (st : InMemoryStorage) (o : StorageOp) (a : o.Ans)
    (st' : InMemoryStorage) : Prop :=
  (a, st') = InMemoryStorage.step o st ∨
    ∃ e, raises e ∧ a = o.raised e ∧ (st' = st ∨ st' = (InMemoryStorage.step o st).2)

/-- How the world answers. -/
def handlesShared (raises : Exc → Prop) (w : SharedWorld) :
    (o : StoreOp) → o.Ans → SharedWorld → Prop
  | .storage o, a, w' => ∃ st, handlesRaisingStorage raises w.storage o a st ∧ w' = w.store st
  | .clock, _, w' => w' = w
  | .uuid4, token, w' => IsHexToken token ∧ token ∉ w.minted ∧ w' = w.mint token
  | .cacheGet key, a, w' => w' = w ∧ ∀ value, a = .ok (.text value) → w.cache.get? key = some value
  | .cacheSet key value, a, w' => a = .ok () ∧ w' = w.set key value

/-- Storage did nothing, or the operation. -/
theorem handlesRaisingStorage_cases {raises : Exc → Prop} {st st' : InMemoryStorage} {o : StorageOp}
    {a : o.Ans} (h : handlesRaisingStorage raises st o a st') :
    st' = st ∨ st' = (InMemoryStorage.step o st).2 := by
  rcases h with h | ⟨e, -, -, h⟩
  · exact .inr (congrArg Prod.snd h)
  · exact h

/-- Stores over one storage and one cache. -/
def shared (raises : Exc → Prop) : Env StoreSig SharedWorld where
  handles := handlesShared raises
  rely := SharedWorld.Later
  rely_refl w := ⟨.refl w.storage, fun _ h => h⟩
  rely_trans h h' := ⟨h.storage.trans h'.storage, fun _ ht => h'.minted (h.minted ht)⟩
  rely_of_handles := fun {w o a w'} h => by
    have hsame : SharedWorld.Later w w := ⟨.refl w.storage, fun _ h => h⟩
    cases o with
    | storage o =>
      obtain ⟨st, hst, rfl⟩ := h
      refine ⟨?_, fun _ ht => ht⟩
      rcases handlesRaisingStorage_cases hst with rfl | rfl
      · exact .refl w.storage
      · exact InMemoryStorage.later_step o w.storage
    | clock => exact h ▸ hsame
    | uuid4 =>
      obtain ⟨-, -, rfl⟩ := h
      exact ⟨.refl w.storage, fun _ ht => List.mem_cons_of_mem _ ht⟩
    | cacheGet key => exact h.1 ▸ hsame
    | cacheSet key value =>
      obtain ⟨-, rfl⟩ := h
      exact ⟨.refl w.storage, fun _ ht => ht⟩

/-! ## A world that answers by a function -/

/-- A token, for a world in which few have been minted. -/
def nextToken (w : SharedWorld) : Str :=
  List.replicate 31 48 ++ [Fin.ofNat _ (48 + w.minted.length)]

/-- Storage as it stands, a clock that reads `now`, tokens as `mint` has them, and a cache that drops nothing. -/
def answerHeld (now : DateTime) (mint : SharedWorld → Str) : (o : StoreOp) → SharedWorld → o.Ans × SharedWorld
  | .storage o, w => ((InMemoryStorage.step o w.storage).1, w.store (InMemoryStorage.step o w.storage).2)
  | .clock, w => (now, w)
  | .uuid4, w => (mint w, w.mint (mint w))
  | .cacheGet key, w => (.ok (match w.cache.get? key with
      | some value => .text value
      | none => .absent), w)
  | .cacheSet key value, w => (.ok (), w.set key value)

/-- Such a world in which the clock reads noon and the tokens are counted up. -/
def answerShared (o : StoreOp) (w : SharedWorld) : o.Ans × SharedWorld := answerHeld noon nextToken o w

/-- Whether the next token is one. -/
def answersShared (w : SharedWorld) : StoreOp → Bool
  | .uuid4 => decide (IsHexToken (nextToken w)) && !w.minted.contains (nextToken w)
  | _ => true

/-- What is answered is handled. -/
theorem answerShared_handles (raises : Exc → Prop) (w : SharedWorld) (o : StoreOp)
    (h : answersShared w o = true) :
    handlesShared raises w o (answerShared o w).1 (answerShared o w).2 := by
  cases o with
  | storage o => exact ⟨_, .inl rfl, rfl⟩
  | clock => exact rfl
  | uuid4 =>
    simp only [answersShared, Bool.and_eq_true, decide_eq_true_eq, Bool.not_eq_true',
      List.contains_eq_mem, decide_eq_false_iff_not] at h
    exact ⟨h.1, h.2, rfl⟩
  | cacheGet key =>
    refine ⟨rfl, fun value hvalue => ?_⟩
    cases hget : w.cache.get? key with
    | none =>
      simp only [answerShared, answerHeld, hget] at hvalue
      cases hvalue
    | some stored =>
      simp only [answerShared, answerHeld, hget] at hvalue
      cases hvalue
      rfl
  | cacheSet key value => exact ⟨rfl, rfl⟩

/-- Calls of any method over a shared cache. -/
abbrev SharedPool := Pool StoreSig Exc StoreResult (Invocation StoreCall) SharedWorld

/-- What one call did. -/
abbrev SharedTrace := Trace StoreSig SharedWorld

/-- All calls use this cache. -/
def UsesCache (cache : IndexCache) (i : Invocation StoreCall) : Prop := i.store.indexCache = some cache

end Wenchang
