import Wenchang.Exc

/-!
# Storage

`StorageOp` is the boundary between the library and its backends: five operations on objects under
flat string keys, each with bytes, a string map and a version token. An answer is an `Except`, so a
backend may raise in any operation. `InMemoryStorage` is the reference backend; each of its
operations is one step, since it runs under one lock.

What the rest of the development uses about it is stated twice, and nothing else unfolds it.
`InMemoryStorage.step_cases` says everything one operation can do. `Later` says what may become of a
store under any operations of anybody: tokens grow, and an object that still has an old token is the
old object.
-/

namespace Wenchang

open Py Ordered

/-- A flat string map. -/
abbrev Metadata := FinMap Str Str

/-- The bytes, metadata, and version of one object, from a single write. -/
structure StoredObject where
  data : Bytes
  metadata : Metadata
  version : Str
  deriving DecidableEq

/-- One object's key, metadata, and version, as returned by a listing. -/
structure ListedObject where
  key : Str
  metadata : Metadata
  version : Str
  deriving DecidableEq

/-- An operation of the `Storage` protocol. -/
inductive StorageOp where
  | get (key : Str)
  | put (key : Str) (data : Bytes) (metadata : Metadata)
  | putIfVersion (key : Str) (data : Bytes) (metadata : Metadata) (expected : Option Str)
  | deleteIfVersion (key : Str) (expected : Str)
  | listPage (pre : Str) (startAfter : Option Str) (limit : Nat)
  deriving DecidableEq

/-- What a put would write: its key, bytes and metadata. -/
def StorageOp.write? : StorageOp → Option (Str × Bytes × Metadata)
  | .put key data metadata => some (key, data, metadata)
  | .putIfVersion key data metadata _ => some (key, data, metadata)
  | _ => none

/-- What an operation returns, or the exception it raises. -/
abbrev StorageOp.Ans : StorageOp → Type
  | .get _ => Except Exc (Option StoredObject)
  | .put _ _ _ => Except Exc Str
  | .putIfVersion _ _ _ _ => Except Exc Str
  | .deleteIfVersion _ _ => Except Exc Unit
  | .listPage _ _ _ => Except Exc (List ListedObject)

/-- The state of an `InMemoryStorage`. Its tokens are the numbers below the counter, and no two
objects share one. -/
structure InMemoryStorage where
  objects : FinMap Str StoredObject
  nextToken : Nat
  issued : ∀ k o, objects.get? k = some o → ∃ n < nextToken, o.version = Py.ofNat n
  distinct : ∀ k k' o o', objects.get? k = some o → objects.get? k' = some o' →
    o.version = o'.version → k = k'

namespace InMemoryStorage

/-- `InMemoryStorage()`. -/
def empty : InMemoryStorage where
  objects := .empty
  nextToken := 1
  issued _ _ h := nomatch h
  distinct _ _ _ _ h := nomatch h

/-- `get`. -/
def get (s : InMemoryStorage) (key : Str) : Option StoredObject := s.objects.get? key

/-- The token the next put issues. -/
def token (s : InMemoryStorage) : Str := Py.ofNat s.nextToken

/-- No stored object has the token that comes next. -/
theorem version_ne_token {s : InMemoryStorage} {k : Str} {o : StoredObject} (h : s.get k = some o) :
    o.version ≠ s.token := by
  obtain ⟨n, hn, hv⟩ := s.issued k o h
  rw [hv, token]
  exact fun he => absurd (Py.ofNat_injective he) (Nat.ne_of_lt hn)

/-- `_put_locked`. -/
def putLocked (s : InMemoryStorage) (key : Str) (data : Bytes) (metadata : Metadata) :
    InMemoryStorage where
  objects := s.objects.insert key ⟨data, metadata, s.token⟩
  nextToken := s.nextToken + 1
  issued k o h := by
    rw [FinMap.get?_insert] at h
    split at h
    · exact ⟨s.nextToken, Nat.lt_succ_self _, by rw [← Option.some.inj h]; rfl⟩
    · obtain ⟨n, hn, hv⟩ := s.issued k o h
      exact ⟨n, Nat.lt_succ_of_lt hn, hv⟩
  distinct k k' o o' h h' hv := by
    rw [FinMap.get?_insert] at h h'
    split at h <;> split at h'
    next hk hk' => rw [hk, hk']
    next => exact absurd (by rw [← hv, ← Option.some.inj h]) (version_ne_token h')
    next => exact absurd (by rw [hv, ← Option.some.inj h']) (version_ne_token h)
    next => exact s.distinct k k' o o' h h' hv

/-- The object removed, if there is one: `del self._objects[key]`. -/
def remove (s : InMemoryStorage) (key : Str) : InMemoryStorage where
  objects := s.objects.erase key
  nextToken := s.nextToken
  issued k o h := by
    rw [FinMap.get?_erase] at h
    split at h
    · exact nomatch h
    · exact s.issued k o h
  distinct k k' o o' h h' hv := by
    rw [FinMap.get?_erase] at h h'
    split at h <;> split at h'
    next => exact nomatch h
    next => exact nomatch h
    next => exact nomatch h'
    next => exact s.distinct k k' o o' h h' hv

/-- The token at `key`. -/
def version (s : InMemoryStorage) (key : Str) : Option Str := (s.get key).map (·.version)

/-- `put`. -/
def put (s : InMemoryStorage) (key : Str) (data : Bytes) (metadata : Metadata) :
    Except Exc Str × InMemoryStorage :=
  (.ok s.token, s.putLocked key data metadata)

/-- `put_if_version`. -/
def putIfVersion (s : InMemoryStorage) (key : Str) (data : Bytes) (metadata : Metadata)
    (expected : Option Str) : Except Exc Str × InMemoryStorage :=
  if s.version key ≠ expected then (.error (.preconditionFailedError key), s)
  else s.put key data metadata

/-- `delete_if_version`. -/
def deleteIfVersion (s : InMemoryStorage) (key expected : Str) : Except Exc Unit × InMemoryStorage :=
  if s.version key ≠ some expected then (.error (.preconditionFailedError key), s)
  else (.ok (), s.remove key)

/-- The keys under a prefix behind `startAfter`, ascending, with what a listing shows of each. -/
def listing (s : InMemoryStorage) (pre : Str) (startAfter : Option Str) : List ListedObject :=
  (s.objects.entries.filter fun e => pre.isPrefixOf e.1 && startAfter.all (· < e.1)).map
    fun e => ⟨e.1, e.2.metadata, e.2.version⟩

/-- `list_page`. -/
def listPage (s : InMemoryStorage) (pre : Str) (startAfter : Option Str) (limit : Nat) :
    List ListedObject :=
  (s.listing pre startAfter).take limit

/-- One operation. -/
def step : (o : StorageOp) → InMemoryStorage → o.Ans × InMemoryStorage
  | .get key, s => (.ok (s.get key), s)
  | .put key data metadata, s => s.put key data metadata
  | .putIfVersion key data metadata expected, s => s.putIfVersion key data metadata expected
  | .deleteIfVersion key expected, s => s.deleteIfVersion key expected
  | .listPage pre startAfter limit, s => (.ok (s.listPage pre startAfter limit), s)

/-! ## What a step does -/

variable {s s' : InMemoryStorage}

/-- Storages with the same objects and the same next token are one. -/
theorem ext {s s' : InMemoryStorage} (hobjects : s.objects = s'.objects)
    (htoken : s.nextToken = s'.nextToken) : s = s' := by
  cases s
  cases s'
  cases hobjects
  cases htoken
  rfl

instance : DecidableEq InMemoryStorage := fun s s' =>
  decidable_of_iff (s.objects = s'.objects ∧ s.nextToken = s'.nextToken)
    ⟨fun h => ext h.1 h.2, fun h => h ▸ ⟨rfl, rfl⟩⟩

/-- After a put its key has the new object and every other key its own. -/
theorem get_putLocked (s : InMemoryStorage) (key k : Str) (data : Bytes) (metadata : Metadata) :
    (s.putLocked key data metadata).get k =
      if k = key then some ⟨data, metadata, s.token⟩ else s.get k :=
  FinMap.get?_insert _ _ _ _

/-- After a delete its key has no object and every other key its own. -/
theorem get_remove (s : InMemoryStorage) (key k : Str) :
    (s.remove key).get k = if k = key then none else s.get k :=
  FinMap.get?_erase _ _ _

/-- A put changes storage. -/
theorem putLocked_ne (s : InMemoryStorage) (key : Str) (data : Bytes) (metadata : Metadata) :
    s.putLocked key data metadata ≠ s := fun h =>
  absurd (congrArg nextToken h) (Nat.succ_ne_self _)

/-- A delete of what is there changes storage. -/
theorem remove_ne {key : Str} {o : StoredObject} (h : s.get key = some o) : s.remove key ≠ s :=
  fun he => by
    have hget := get_remove s key key
    rw [he, h, if_pos rfl] at hget
    exact nomatch hget

/-- The version of a key is its object's. -/
theorem version_eq_some {key v : Str} :
    s.version key = some v ↔ ∃ o, s.get key = some o ∧ o.version = v := by
  unfold version
  rw [Option.map_eq_some_iff]

/-- A conditional put lands at the expected version, and is refused and changes nothing at any other. -/
theorem putIfVersion_cases (s : InMemoryStorage) (key : Str) (data : Bytes) (metadata : Metadata)
    (expected : Option Str) :
    (s.version key = expected ∧ s.putIfVersion key data metadata expected =
      (.ok s.token, s.putLocked key data metadata)) ∨
    (s.version key ≠ expected ∧ s.putIfVersion key data metadata expected =
      (.error (.preconditionFailedError key), s)) := by
  by_cases h : s.version key = expected
  · exact .inl ⟨h, if_neg (not_not.mpr h)⟩
  · exact .inr ⟨h, if_pos h⟩

/-- A conditional delete lands at the expected version, and is refused at any other. -/
theorem deleteIfVersion_cases (s : InMemoryStorage) (key expected : Str) :
    (s.version key = some expected ∧ s.deleteIfVersion key expected = (.ok (), s.remove key)) ∨
    (s.version key ≠ some expected ∧
      s.deleteIfVersion key expected = (.error (.preconditionFailedError key), s)) := by
  by_cases h : s.version key = some expected
  · exact .inl ⟨h, if_neg (not_not.mpr h)⟩
  · exact .inr ⟨h, if_pos h⟩

/-- An operation puts what it writes, removes the object it deletes, or leaves the store as it is. -/
theorem step_cases (o : StorageOp) (s : InMemoryStorage) :
    (∃ key data metadata, o.write? = some (key, data, metadata) ∧
      (step o s).2 = s.putLocked key data metadata) ∨
    (∃ key expected, o = .deleteIfVersion key expected ∧ (step o s).2 = s.remove key) ∨
    (step o s).2 = s := by
  cases o with
  | get key => exact .inr (.inr rfl)
  | put key data metadata => exact .inl ⟨key, data, metadata, rfl, rfl⟩
  | putIfVersion key data metadata expected =>
    rcases s.putIfVersion_cases key data metadata expected with ⟨-, h⟩ | ⟨-, h⟩
    · exact .inl ⟨key, data, metadata, rfl, congrArg Prod.snd h⟩
    · exact .inr (.inr (congrArg Prod.snd h))
  | deleteIfVersion key expected =>
    rcases s.deleteIfVersion_cases key expected with ⟨-, h⟩ | ⟨-, h⟩
    · exact .inr (.inl ⟨key, expected, rfl, congrArg Prod.snd h⟩)
    · exact .inr (.inr (congrArg Prod.snd h))
  | listPage pre startAfter limit => exact .inr (.inr rfl)

/-! ## What may become of a store -/

/-- A token that has been issued. -/
def Issued (s : InMemoryStorage) (v : Str) : Prop := ∃ n < s.nextToken, v = Py.ofNat n

/-- The version of a stored object was issued. -/
theorem issued_of_get {k : Str} {o : StoredObject} (h : s.get k = some o) : s.Issued o.version :=
  s.issued k o h

/-- What any operations of anybody may make of a store: tokens grow, and an object that has an old
token was already there. -/
structure Later (s s' : InMemoryStorage) : Prop where
  nextToken_le : s.nextToken ≤ s'.nextToken
  old : ∀ k o, s'.get k = some o → s.Issued o.version → s.get k = some o

/-- What was issued stays issued. -/
theorem Issued.later {v : Str} (h : s.Issued v) (hl : Later s s') : s'.Issued v := by
  obtain ⟨n, hn, hv⟩ := h
  exact ⟨n, Nat.lt_of_lt_of_le hn hl.nextToken_le, hv⟩

/-- Storage is later than itself. -/
theorem Later.refl (s : InMemoryStorage) : Later s s := ⟨Nat.le_refl _, fun _ _ h _ => h⟩

/-- Later than later is later. -/
theorem Later.trans {s₁ s₂ s₃ : InMemoryStorage} (h : Later s₁ s₂) (h' : Later s₂ s₃) :
    Later s₁ s₃ where
  nextToken_le := Nat.le_trans h.nextToken_le h'.nextToken_le
  old k o ho hi := h.old k o (h'.old k o ho (hi.later h)) hi

/-- The token that comes next was not issued. -/
theorem not_issued_token (s : InMemoryStorage) : ¬ s.Issued s.token := fun ⟨_, hn, hv⟩ =>
  absurd (Py.ofNat_injective hv) (Nat.ne_of_gt hn)

/-- A put leads to a later storage. -/
theorem later_putLocked (s : InMemoryStorage) (key : Str) (data : Bytes) (metadata : Metadata) :
    Later s (s.putLocked key data metadata) where
  nextToken_le := Nat.le_succ _
  old k o ho hi := by
    rw [get_putLocked] at ho
    split at ho
    · rw [← Option.some.inj ho] at hi
      exact absurd hi s.not_issued_token
    · exact ho

/-- A delete leads to a later storage. -/
theorem later_remove (s : InMemoryStorage) (key : Str) : Later s (s.remove key) where
  nextToken_le := Nat.le_refl _
  old k o ho _ := by
    rw [get_remove] at ho
    split at ho
    · exact nomatch ho
    · exact ho

/-- **Every operation leads to a later storage.** -/
theorem later_step (o : StorageOp) (s : InMemoryStorage) : Later s (step o s).2 := by
  rcases step_cases o s with ⟨key, data, metadata, -, h⟩ | ⟨key, expected, -, h⟩ | h
  · rw [h]
    exact later_putLocked s key data metadata
  · rw [h]
    exact later_remove s key
  · rw [h]
    exact Later.refl s

/-- **A token names one object for ever.** -/
theorem Later.object_eq (h : Later s s') {k : Str} {o o' : StoredObject} (ho : s.get k = some o)
    (ho' : s'.get k = some o') (hv : o'.version = o.version) : o' = o := by
  have hold := h.old k o' ho' (hv ▸ issued_of_get ho)
  exact Option.some.inj (hold.symm.trans ho)

/-- A token that has left a key does not come back to it. -/
theorem Later.version_ne (h : Later s s') {k v : Str} (hi : s.Issued v) (hv : s.version k ≠ some v) :
    s'.version k ≠ some v := fun he => by
  obtain ⟨o, ho, rfl⟩ := version_eq_some.mp he
  exact hv (version_eq_some.mpr ⟨o, h.old k o ho hi, rfl⟩)

end InMemoryStorage

end Wenchang
