import Wenchang.Interaction.Crash
import Wenchang.Storage

/-!
# The protocol under given tokens

What an operation of the `Storage` protocol does to the objects of a store does not depend on how the
store makes its tokens. `Objects.step keep token` is an operation whose write, if it is one, issues `token`
and keeps the metadata as `keep` does: an `InMemoryStorage` is this under the tokens that it counts, and
with the metadata as it is given (`step_objects`). `issuing keep allowed` is a store whose tokens are any
that `allowed` lets follow those already issued. A backend is shown to be right by a history of this store
with the same answers.
-/

namespace Wenchang

open Py Ordered Interaction

/-- The objects of a store. -/
abbrev Objects := FinMap Str StoredObject

/-- An operation and what it returned or raised. -/
abbrev Answered := (o : StorageOp) × o.Ans

/-- The token that an answer brings: the one of the write it answers. -/
def StorageOp.token? : (o : StorageOp) → o.Ans → Option Str
  | .put _ _ _, .ok token => some token
  | .putIfVersion _ _ _ _, .ok token => some token
  | _, _ => none

namespace Objects

/-- The token at a key. -/
def version (s : Objects) (key : Str) : Option Str := (s.get? key).map (·.version)

/-- The keys under a prefix behind `startAfter`, ascending, with what a listing shows of each. -/
def listing (s : Objects) (pre : Str) (startAfter : Option Str) : List ListedObject :=
  (s.entries.filter fun e => pre.isPrefixOf e.1 && startAfter.all (· < e.1)).map
    fun e => ⟨e.1, e.2.metadata, e.2.version⟩

/-- One operation, of which a write issues `token` and keeps the metadata as `keep` does. -/
def step (keep : Metadata → Metadata) (token : Str) : (o : StorageOp) → Objects → o.Ans × Objects
  | .get key, s => (.ok (s.get? key), s)
  | .put key data metadata, s => (.ok token, s.insert key ⟨data, keep metadata, token⟩)
  | .putIfVersion key data metadata expected, s =>
    if s.version key ≠ expected then (.error (.preconditionFailedError key), s)
    else (.ok token, s.insert key ⟨data, keep metadata, token⟩)
  | .deleteIfVersion key expected, s =>
    if s.version key ≠ some expected then (.error (.preconditionFailedError key), s)
    else (.ok (), s.erase key)
  | .listPage pre startAfter limit, s => (.ok ((s.listing pre startAfter).take limit), s)

variable {s : Objects} {keep : Metadata → Metadata} {token key : Str}

/-- The version of a key is its object's. -/
theorem version_eq_some {v : Str} : s.version key = some v ↔ ∃ o, s.get? key = some o ∧ o.version = v := by
  unfold version
  rw [Option.map_eq_some_iff]

/-- A conditional put lands at the expected version. -/
theorem step_putIfVersion {data : Bytes} {metadata : Metadata} {expected : Option Str}
    (h : s.version key = expected) : step keep token (.putIfVersion key data metadata expected) s =
      (.ok token, s.insert key ⟨data, keep metadata, token⟩) := if_neg (not_not.mpr h)

/-- At another version it is refused and changes nothing. -/
theorem step_putIfVersion_ne {data : Bytes} {metadata : Metadata} {expected : Option Str}
    (h : s.version key ≠ expected) : step keep token (.putIfVersion key data metadata expected) s =
      (.error (.preconditionFailedError key), s) := if_pos h

/-- A conditional delete lands at the expected version. -/
theorem step_deleteIfVersion {expected : Str} (h : s.version key = some expected) :
    step keep token (.deleteIfVersion key expected) s = (.ok (), s.erase key) := if_neg (not_not.mpr h)

/-- At another version it is refused and changes nothing. -/
theorem step_deleteIfVersion_ne {expected : Str} (h : s.version key ≠ some expected) :
    step keep token (.deleteIfVersion key expected) s = (.error (.preconditionFailedError key), s) := if_pos h

/-- The write or the delete of an operation takes place. -/
def Commits (s : Objects) : StorageOp → Prop
  | .put _ _ _ => True
  | .putIfVersion key _ _ expected => s.version key = expected
  | .deleteIfVersion key expected => s.version key = some expected
  | _ => False

/-- What a write that takes place does. -/
theorem step_of_commits {o : StorageOp} {data : Bytes} {metadata : Metadata}
    (hwrite : o.write? = some (key, data, metadata)) (h : s.Commits o) :
    ∃ a, step keep token o s = (a, s.insert key ⟨data, keep metadata, token⟩) ∧ o.token? a = some token := by
  cases o with
  | put key' data' metadata' =>
    obtain ⟨rfl, rfl, rfl⟩ := Option.some.inj hwrite
    exact ⟨_, rfl, rfl⟩
  | putIfVersion key' data' metadata' expected =>
    obtain ⟨rfl, rfl, rfl⟩ := Option.some.inj hwrite
    exact ⟨_, step_putIfVersion h, rfl⟩
  | get key' => cases hwrite
  | deleteIfVersion key' expected => cases hwrite
  | listPage pre startAfter limit => cases hwrite

/-- The objects with this one, or none, at a key. -/
def set (s : Objects) (key : Str) : Option StoredObject → Objects
  | some o => s.insert key o
  | none => s.erase key

/-- A set key has what was set and every other key its own. -/
theorem get?_set (s : Objects) (key k : Str) (found : Option StoredObject) :
    (s.set key found).get? k = if k = key then found else s.get? k := by
  cases found with
  | none => exact FinMap.get?_erase s key k
  | some o => exact FinMap.get?_insert s key k o

/-- The objects with other bytes at a key, beside the metadata and the token that were there. -/
def tear (s : Objects) (key : Str) (data : Bytes) : Objects :=
  s.set key ((s.get? key).map fun o => { o with data := data })

/-- The token that an answer brings is that of an object. -/
theorem step_token {o : StorageOp} {a : o.Ans} {s' : Objects} {t : Str} (h : step keep token o s = (a, s'))
    (ht : o.token? a = some t) : ∃ k obj, s'.get? k = some obj ∧ obj.version = t := by
  have hinsert : ∀ {k : Str} {data : Bytes} {metadata : Metadata},
      s' = s.insert k ⟨data, keep metadata, t⟩ → ∃ k obj, s'.get? k = some obj ∧ obj.version = t := by
    rintro k data metadata rfl
    exact ⟨k, _, by rw [FinMap.get?_insert, if_pos rfl], rfl⟩
  cases o with
  | put k data metadata =>
    obtain ⟨rfl, rfl⟩ := Prod.mk.inj h
    obtain rfl := Option.some.inj ht
    exact hinsert rfl
  | putIfVersion k data metadata expected =>
    by_cases hversion : s.version k = expected
    · rw [step_putIfVersion hversion] at h
      obtain ⟨rfl, rfl⟩ := Prod.mk.inj h
      obtain rfl := Option.some.inj ht
      exact hinsert rfl
    · rw [step_putIfVersion_ne hversion] at h
      obtain ⟨rfl, rfl⟩ := Prod.mk.inj h
      cases ht
  | get k => cases ht
  | deleteIfVersion k expected => cases ht
  | listPage pre startAfter limit => cases ht

/-- The token that an answer brings is the one that was to be issued. -/
theorem eq_of_token? {o : StorageOp} {a : o.Ans} {s' : Objects} {t : Str} (h : step keep token o s = (a, s'))
    (ht : o.token? a = some t) : token = t := by
  cases o with
  | put k data metadata =>
    obtain ⟨rfl, -⟩ := Prod.mk.inj h
    exact Option.some.inj ht
  | putIfVersion k data metadata expected =>
    by_cases hversion : s.version k = expected
    · rw [step_putIfVersion hversion] at h
      obtain ⟨rfl, -⟩ := Prod.mk.inj h
      exact Option.some.inj ht
    · rw [step_putIfVersion_ne hversion] at h
      obtain ⟨rfl, -⟩ := Prod.mk.inj h
      cases ht
  | get k => cases ht
  | deleteIfVersion k expected => cases ht
  | listPage pre startAfter limit => cases ht

/-- Where no token is issued, it does not matter which was to be. -/
theorem step_of_token?_eq_none {o : StorageOp} {a : o.Ans} {s' : Objects} (h : step keep token o s = (a, s'))
    (ht : o.token? a = none) (token' : Str) : step keep token' o s = step keep token o s := by
  cases o with
  | put k data metadata =>
    obtain ⟨rfl, -⟩ := Prod.mk.inj h
    cases ht
  | putIfVersion k data metadata expected =>
    by_cases hversion : s.version k = expected
    · rw [step_putIfVersion hversion] at h
      obtain ⟨rfl, -⟩ := Prod.mk.inj h
      cases ht
    · rw [step_putIfVersion_ne hversion, step_putIfVersion_ne hversion]
  | get k => rfl
  | deleteIfVersion k expected => rfl
  | listPage pre startAfter limit => rfl

/-! ## Listings -/

/-- A listing has the objects below its prefix that come after. -/
theorem mem_listing {pre : Str} {startAfter : Option Str} {obj : ListedObject} :
    obj ∈ s.listing pre startAfter ↔ ∃ o, s.get? obj.key = some o ∧ obj = ⟨obj.key, o.metadata, o.version⟩ ∧
      pre.isPrefixOf obj.key = true ∧ ∀ key, startAfter = some key → key < obj.key := by
  have hafter : ∀ key : Str, startAfter.all (· < key) = true ↔ ∀ k, startAfter = some k → k < key :=
    fun key => by cases startAfter <;> simp
  simp only [listing, List.mem_map, List.mem_filter, Bool.and_eq_true, hafter]
  constructor
  · rintro ⟨⟨key, o⟩, ⟨hmem, hpre, hbehind⟩, rfl⟩
    exact ⟨o, FinMap.get?_eq_some.mpr hmem, rfl, hpre, hbehind⟩
  · rintro ⟨o, hget, hobj, hpre, hbehind⟩
    exact ⟨(obj.key, o), ⟨FinMap.get?_eq_some.mp hget, hpre, hbehind⟩, hobj.symm⟩

/-- A listing is in the order of its keys. -/
theorem sorted_listing (s : Objects) (pre : Str) (startAfter : Option Str) :
    (s.listing pre startAfter).Pairwise fun obj obj' => obj.key < obj'.key :=
  List.pairwise_map.mpr (s.sorted.filter _)

/-- A page of a listing: its keys ascend, are under the prefix and behind `startAfter`, and none is left out
as long as there is room. -/
structure IsPage (s : Objects) (pre : Str) (startAfter : Option Str) (limit : Nat)
    (page : List ListedObject) : Prop where
  sorted : page.Pairwise fun obj obj' => obj.key < obj'.key
  atMost : page.length ≤ limit
  shown : ∀ obj ∈ page, obj ∈ s.listing pre startAfter
  first : ∀ obj ∈ s.listing pre startAfter, obj ∈ page ∨
    page.length = limit ∧ ∀ obj' ∈ page, obj'.key < obj.key

/-- The first objects of a listing are a page. -/
theorem isPage_take (s : Objects) (pre : Str) (startAfter : Option Str) (limit : Nat) :
    s.IsPage pre startAfter limit ((s.listing pre startAfter).take limit) where
  sorted := (s.sorted_listing pre startAfter).sublist (List.take_sublist _ _)
  atMost := List.length_take_le _ _
  shown obj hobj := List.mem_of_mem_take hobj
  first obj hobj := by
    have hsorted := s.sorted_listing pre startAfter
    rw [← List.take_append_drop limit (s.listing pre startAfter)] at hobj hsorted
    rcases List.mem_append.mp hobj with htake | hdrop
    · exact .inl htake
    · refine .inr ⟨?_, fun obj' hobj' => (List.pairwise_append.mp hsorted).2.2 obj' hobj' obj hdrop⟩
      have hlong : 0 < ((s.listing pre startAfter).drop limit).length := List.length_pos_of_mem hdrop
      rw [List.length_drop] at hlong
      rw [List.length_take]
      omega

end Objects

/-- **An `InMemoryStorage` is the protocol under the tokens that it counts.** -/
theorem InMemoryStorage.step_objects (o : StorageOp) (s : InMemoryStorage) :
    (step o s).1 = (Objects.step id s.token o s.objects).1 ∧
      (step o s).2.objects = (Objects.step id s.token o s.objects).2 := by
  cases o with
  | get key => exact ⟨rfl, rfl⟩
  | put key data metadata => exact ⟨rfl, rfl⟩
  | putIfVersion key data metadata expected =>
    by_cases h : s.version key = expected
    · have hstep : step (.putIfVersion key data metadata expected) s = s.put key data metadata :=
        if_neg (not_not.mpr h)
      rw [hstep, Objects.step_putIfVersion h]
      exact ⟨rfl, rfl⟩
    · have hstep : step (.putIfVersion key data metadata expected) s = _ := if_pos h
      rw [hstep, Objects.step_putIfVersion_ne h]
      exact ⟨rfl, rfl⟩
  | deleteIfVersion key expected =>
    by_cases h : s.version key = some expected
    · have hstep : step (.deleteIfVersion key expected) s = _ := if_neg (not_not.mpr h)
      rw [hstep, Objects.step_deleteIfVersion h]
      exact ⟨rfl, rfl⟩
    · have hstep : step (.deleteIfVersion key expected) s = _ := if_pos h
      rw [hstep, Objects.step_deleteIfVersion_ne h]
      exact ⟨rfl, rfl⟩
  | listPage pre startAfter limit => exact ⟨rfl, rfl⟩

/-- The counter goes up with every token. -/
theorem InMemoryStorage.nextToken_step (o : StorageOp) (s : InMemoryStorage) :
    (step o s).2.nextToken = s.nextToken + (o.token? (step o s).1).toList.length := by
  cases o with
  | get key => rfl
  | put key data metadata => rfl
  | putIfVersion key data metadata expected =>
    by_cases h : s.version key = expected
    · have hstep : step (.putIfVersion key data metadata expected) s = s.put key data metadata :=
        if_neg (not_not.mpr h)
      rw [hstep]
      rfl
    · have hstep : step (.putIfVersion key data metadata expected) s = _ := if_pos h
      rw [hstep]
      rfl
  | deleteIfVersion key expected =>
    by_cases h : s.version key = some expected
    · have hstep : step (.deleteIfVersion key expected) s = _ := if_neg (not_not.mpr h)
      rw [hstep]
      rfl
    · have hstep : step (.deleteIfVersion key expected) s = _ := if_pos h
      rw [hstep]
      rfl
  | listPage pre startAfter limit => rfl

/-! ## Stores -/

/-- The interface of a store to its callers. -/
abbrev StorageSig : Sig := ⟨StorageOp, StorageOp.Ans⟩

/-- A caller's call of one operation. -/
def StorageOp.call (o : StorageOp) : Prog StorageSig Exc Answered := do
  return ⟨o, ← Prog.perform o⟩

/-- A caller's call runs its operation and returns its answer. -/
theorem StorageOp.runs_call {W : Type} {h : W → (o : StorageOp) → o.Ans → W → Prop} {o : StorageOp}
    {w w' : W} {r : Except Exc Answered} :
    (o.call).Runs h w r w' ↔ ∃ a, h w o a w' ∧ r = .ok ⟨o, a⟩ := by
  refine Prog.runs_vis.trans (exists_congr fun a => ?_)
  constructor
  · rintro ⟨w₁, hh, hrest⟩
    obtain ⟨rfl, rfl⟩ := Prog.runs_ret.mp hrest
    exact ⟨hh, rfl⟩
  · rintro ⟨hh, rfl⟩
    exact ⟨w', hh, .ret _ w'⟩

/-- A call dies before its operation, in the middle of it, or behind it. -/
theorem StorageOp.dies_call {W : Type} {M : Mortal StorageSig W} {o : StorageOp} {w w' : W} :
    (o.call).Dies M w w' ↔ w' = w ∨ M.cut w o w' ∨ ∃ a, M.handles w o a w' := by
  show (Prog.vis (σ := StorageSig) o fun a => .ret ⟨o, a⟩ : Prog StorageSig Exc Answered).Dies M w w' ↔ _
  constructor
  · intro h
    cases h with
    | here => exact .inl rfl
    | during _ _ _ _ hcut => exact .inr (.inl hcut)
    | later _ _ _ a _ _ hh hrest =>
      cases hrest with
      | here => exact .inr (.inr ⟨a, hh⟩)
  · rintro (rfl | hcut | ⟨a, hh⟩)
    · exact .here _ w'
    · exact .during _ _ w w' hcut
    · exact .later _ _ w a w' w' hh (.here _ w')

/-- The objects of a store, and the tokens it has issued, the last one first. -/
structure Issuing where
  objects : Objects
  issued : List Str

/-- A new store. -/
def Issuing.empty : Issuing := ⟨.empty, []⟩

/-- A store that keeps metadata as `keep` does, and issues any token that `allowed` lets follow those it has
issued. -/
def issuing (keep : Metadata → Metadata) (allowed : List Str → Str → Prop) (s : Issuing) (o : StorageOp)
    (a : o.Ans) (s' : Issuing) : Prop :=
  ∃ token, Objects.step keep token o s.objects = (a, s'.objects) ∧
    (∀ t, o.token? a = some t → allowed s.issued t) ∧ s'.issued = (o.token? a).toList ++ s.issued

/-- Such a store, of which a caller may die in the middle of a write. That leaves the new bytes beside the old
metadata and the old token. -/
def tearing (keep : Metadata → Metadata) (allowed : List Str → Str → Prop) : Mortal StorageSig Issuing where
  handles := issuing keep allowed
  cut s o s' := ∃ key data metadata, o.write? = some (key, data, metadata) ∧ s.objects.Commits o ∧
    s' = ⟨s.objects.tear key data, s.issued⟩

end Wenchang
