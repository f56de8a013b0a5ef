import Mathlib

/-!
# Finite maps and sets in key order

`FinMap α β` is a finite map kept as its entries in strictly ascending key order, and `FinSet α` a
finite set kept the same way. The order is a field, so a value of either type is the one spelling
of its contents, and a listing in key order is `entries` itself, not a sort that has to be shown stable.

Every operation is described by membership in `entries` (`mem_insert`, `mem_erase`) or by lookup
(`get?_insert`, `get?_erase`), and nothing downstream unfolds one.
-/

namespace Ordered

variable {α β : Type}

/-- A finite map from `α` to `β`, its entries in strictly ascending key order. -/
structure FinMap (α β : Type) [LinearOrder α] where
  entries : List (α × β)
  sorted : entries.Pairwise fun a b => a.1 < b.1

namespace FinMap

variable [LinearOrder α]

/-- Maps with the same entries are one. -/
theorem ext_entries {m m' : FinMap α β} (h : m.entries = m'.entries) : m = m' := by
  cases m
  cases m'
  cases h
  rfl

instance [DecidableEq β] : DecidableEq (FinMap α β) := fun m m' =>
  decidable_of_iff (m.entries = m'.entries) ⟨ext_entries, congrArg entries⟩

/-- The map with no entry. -/
def empty : FinMap α β := ⟨[], .nil⟩

/-- The value at `k`. -/
def get? (m : FinMap α β) (k : α) : Option β := m.entries.lookup k

/-- The keys, ascending. -/
def keys (m : FinMap α β) : List α := m.entries.map (·.1)

/-- `m` with `v` at `k`. -/
def insert (m : FinMap α β) (k : α) (v : β) : FinMap α β where
  entries := m.entries.filter (·.1 < k) ++ (k, v) :: m.entries.filter (k < ·.1)
  sorted := by
    refine List.pairwise_append.mpr ⟨m.sorted.filter _, ?_, ?_⟩
    · refine List.pairwise_cons.mpr ⟨fun e he => ?_, m.sorted.filter _⟩
      exact of_decide_eq_true (List.mem_filter.mp he).2
    · intro a ha b hb
      have hak : a.1 < k := of_decide_eq_true (List.mem_filter.mp ha).2
      rcases List.mem_cons.mp hb with rfl | hb
      · exact hak
      · exact hak.trans (of_decide_eq_true (List.mem_filter.mp hb).2)

/-- `m` without `k`. -/
def erase (m : FinMap α β) (k : α) : FinMap α β where
  entries := m.entries.filter (·.1 ≠ k)
  sorted := m.sorted.filter _

/-- The same keys, each value mapped. -/
def map {γ : Type} (f : β → γ) (m : FinMap α β) : FinMap α γ where
  entries := m.entries.map fun e => (e.1, f e.2)
  sorted := List.pairwise_map.mpr m.sorted

/-- Two entries at one key are one entry. -/
theorem entries_unique (m : FinMap α β) {k : α} {v v' : β} (h : (k, v) ∈ m.entries)
    (h' : (k, v') ∈ m.entries) : v = v' := by
  let R : α × β → α × β → Prop := fun a b => a.1 = b.1 → a = b
  have hsymm : Std.Symm R := ⟨fun a b h hba => (h hba.symm).symm⟩
  have hpair : m.entries.Pairwise R := m.sorted.imp fun hlt heq => absurd heq hlt.ne
  exact congrArg Prod.snd (hpair.forall_of_forall (fun _ _ _ => rfl) h h' rfl)

/-- A key is looked up as the value it stands with. -/
theorem get?_eq_some {m : FinMap α β} {k : α} {v : β} : m.get? k = some v ↔ (k, v) ∈ m.entries := by
  unfold get?
  constructor
  · intro h
    obtain ⟨l₁, l₂, heq, -⟩ := List.lookup_eq_some_iff.mp h
    exact heq ▸ List.mem_append_right _ List.mem_cons_self
  · intro h
    cases hl : m.entries.lookup k with
    | none =>
      exact absurd (beq_self_eq_true k) (by simpa using List.lookup_eq_none_iff.mp hl _ h)
    | some v' =>
      obtain ⟨l₁, l₂, heq, -⟩ := List.lookup_eq_some_iff.mp hl
      exact congrArg some (m.entries_unique (heq ▸ List.mem_append_right _ List.mem_cons_self) h)

/-- A key that is not found stands with no value. -/
theorem get?_eq_none {m : FinMap α β} {k : α} : m.get? k = none ↔ ∀ v, (k, v) ∉ m.entries := by
  rw [Option.eq_none_iff_forall_ne_some]
  exact forall_congr' fun v => not_congr get?_eq_some

/-- The keys are what is found. -/
theorem mem_keys {m : FinMap α β} {k : α} : k ∈ m.keys ↔ ∃ v, m.get? k = some v := by
  simp only [keys, List.mem_map, get?_eq_some]
  constructor
  · rintro ⟨⟨k', v⟩, h, rfl⟩
    exact ⟨v, h⟩
  · rintro ⟨v, h⟩
    exact ⟨(k, v), h, rfl⟩

/-- Each entry is checked where each key that is found is. -/
theorem all_entries {m : FinMap α β} {p : α × β → Bool} :
    m.entries.all p = true ↔ ∀ k v, m.get? k = some v → p (k, v) = true := by
  rw [List.all_eq_true]
  constructor
  · intro h k v hv
    exact h (k, v) (get?_eq_some.mp hv)
  · intro h e he
    exact h e.1 e.2 (get?_eq_some.mpr he)

@[simp] theorem get?_empty (k : α) : (empty : FinMap α β).get? k = none := rfl

/-- What was inserted is there, beside what was there. -/
@[simp] theorem mem_insert {m : FinMap α β} {k : α} {v : β} {e : α × β} :
    e ∈ (m.insert k v).entries ↔ e = (k, v) ∨ (e ∈ m.entries ∧ e.1 ≠ k) := by
  simp only [insert, List.mem_append, List.mem_cons, List.mem_filter, decide_eq_true_eq]
  constructor
  · rintro (⟨h, hlt⟩ | rfl | ⟨h, hlt⟩)
    · exact .inr ⟨h, hlt.ne⟩
    · exact .inl rfl
    · exact .inr ⟨h, hlt.ne'⟩
  · rintro (rfl | ⟨h, hne⟩)
    · exact .inr (.inl rfl)
    · rcases lt_or_gt_of_ne hne with hlt | hlt
      · exact .inl ⟨h, hlt⟩
      · exact .inr (.inr ⟨h, hlt⟩)

/-- Everything but what was erased is there. -/
@[simp] theorem mem_erase {m : FinMap α β} {k : α} {e : α × β} :
    e ∈ (m.erase k).entries ↔ e ∈ m.entries ∧ e.1 ≠ k := by
  simp only [erase, List.mem_filter, decide_eq_true_eq]

/-- After an insert its key has the new value and every other key its own. -/
theorem get?_insert (m : FinMap α β) (k k' : α) (v : β) [Decidable (k' = k)] :
    (m.insert k v).get? k' = if k' = k then some v else m.get? k' := by
  split
  · next h =>
    subst h
    exact get?_eq_some.mpr (mem_insert.mpr (.inl rfl))
  · next h =>
    refine Option.ext fun v' => ?_
    rw [get?_eq_some, get?_eq_some, mem_insert]
    constructor
    · rintro (heq | hm)
      · exact absurd (congrArg Prod.fst heq) h
      · exact hm.1
    · exact fun hm => .inr ⟨hm, h⟩

/-- After an erase its key has no value and every other key its own. -/
theorem get?_erase (m : FinMap α β) (k k' : α) [Decidable (k' = k)] :
    (m.erase k).get? k' = if k' = k then none else m.get? k' := by
  split
  · next h =>
    subst h
    exact get?_eq_none.mpr fun v hv => (mem_erase.mp hv).2 rfl
  · next h =>
    refine Option.ext fun v' => ?_
    rw [get?_eq_some, get?_eq_some, mem_erase]
    exact ⟨fun hm => hm.1, fun hm => ⟨hm, h⟩⟩

/-! ## Mapped values -/

/-- A mapped map is looked up by mapping what is found. -/
theorem get?_map {γ : Type} (f : β → γ) (m : FinMap α β) (k : α) : (m.map f).get? k = (m.get? k).map f := by
  refine Option.ext fun v => ?_
  rw [get?_eq_some, Option.map_eq_some_iff]
  simp only [map, List.mem_map, get?_eq_some]
  constructor
  · rintro ⟨e, he, heq⟩
    obtain ⟨rfl, rfl⟩ := Prod.mk.inj heq
    exact ⟨e.2, he, rfl⟩
  · rintro ⟨v, hv, rfl⟩
    exact ⟨(k, v), hv, rfl⟩

/-- Erasing and mapping commute. -/
theorem map_erase {γ : Type} (f : β → γ) (m : FinMap α β) (k : α) :
    (m.erase k).map f = (m.map f).erase k := by
  refine ext_entries ?_
  simp only [map, erase, List.filter_map, Function.comp_def]

/-! ## Folds of inserts -/

/-- Inserting and mapping commute. -/
theorem map_insert {γ : Type} (f : β → γ) (m : FinMap α β) (k : α) (v : β) :
    (m.insert k v).map f = (m.map f).insert k (f v) := by
  refine ext_entries ?_
  simp only [map, insert, List.map_append, List.map_cons, List.filter_map, Function.comp_def]

/-- So do many inserts and mapping. -/
theorem map_foldl_insert {γ : Type} (f : β → γ) (l : List (α × β)) (m : FinMap α β) :
    (l.foldl (fun m e => m.insert e.1 e.2) m).map f =
      l.foldl (fun m e => m.insert e.1 (f e.2)) (m.map f) := by
  induction l generalizing m with
  | nil => rfl
  | cons e l ih => rw [List.foldl_cons, ih, map_insert, List.foldl_cons]

/-- An entry behind all others comes last. -/
theorem entries_insert_last {m : FinMap α β} {k : α} {v : β} (h : ∀ e ∈ m.entries, e.1 < k) :
    (m.insert k v).entries = m.entries ++ [(k, v)] := by
  have hbefore : m.entries.filter (·.1 < k) = m.entries :=
    List.filter_eq_self.mpr fun e he => decide_eq_true (h e he)
  have hafter : m.entries.filter (k < ·.1) = [] :=
    List.filter_eq_nil_iff.mpr fun e he => by simpa using (h e he).le
  show m.entries.filter (·.1 < k) ++ (k, v) :: m.entries.filter (k < ·.1) = _
  rw [hbefore, hafter]

/-- **A map is built from its entries.** -/
theorem foldl_insert_entries (m : FinMap α β) :
    m.entries.foldl (fun m e => m.insert e.1 e.2) empty = m := by
  have hfold : ∀ (l : List (α × β)) (d : FinMap α β), l.Pairwise (fun a b => a.1 < b.1) →
      (∀ e ∈ d.entries, ∀ e' ∈ l, e.1 < e'.1) →
      (l.foldl (fun m e => m.insert e.1 e.2) d).entries = d.entries ++ l := by
    intro l
    induction l with
    | nil => exact fun d _ _ => (List.append_nil d.entries).symm
    | cons e l ih =>
      intro d hl hd
      obtain ⟨he, hl⟩ := List.pairwise_cons.mp hl
      have hlast := entries_insert_last (v := e.2) fun e' he' => hd e' he' e List.mem_cons_self
      rw [List.foldl_cons, ih _ hl, hlast, List.append_assoc, List.singleton_append]
      intro a ha b hb
      rw [hlast, List.mem_append, List.mem_singleton] at ha
      rcases ha with ha | rfl
      · exact hd a ha b (List.mem_cons_of_mem _ hb)
      · exact he b hb
  exact ext_entries (hfold m.entries empty m.sorted fun e he => absurd he List.not_mem_nil)

/-- The inserted key is found. -/
@[simp] theorem get?_insert_self (m : FinMap α β) (k : α) (v : β) : (m.insert k v).get? k = some v := by
  rw [get?_insert, if_pos rfl]

/-- **Frame.** An insert leaves other keys. -/
theorem get?_insert_of_ne (m : FinMap α β) {k k' : α} (v : β) (h : k' ≠ k) :
    (m.insert k v).get? k' = m.get? k' := by
  rw [get?_insert, if_neg h]

/-- The erased key is not found. -/
@[simp] theorem get?_erase_self (m : FinMap α β) (k : α) : (m.erase k).get? k = none := by
  rw [get?_erase, if_pos rfl]

/-- **Frame.** An erase leaves other keys. -/
theorem get?_erase_of_ne (m : FinMap α β) {k k' : α} (h : k' ≠ k) :
    (m.erase k).get? k' = m.get? k' := by
  rw [get?_erase, if_neg h]

end FinMap

/-! ## Sets -/

/-- A finite set of `α`, its members in strictly ascending order. -/
structure FinSet (α : Type) [LinearOrder α] where
  toList : List α
  sorted : toList.Pairwise (· < ·)

namespace FinSet

variable [LinearOrder α]

/-- Sets with the same list are one. -/
theorem ext_toList {s t : FinSet α} (h : s.toList = t.toList) : s = t := by
  cases s
  cases t
  cases h
  rfl

instance : DecidableEq (FinSet α) := fun s t =>
  decidable_of_iff (s.toList = t.toList) ⟨ext_toList, congrArg toList⟩

instance : Membership α (FinSet α) := ⟨fun s a => a ∈ s.toList⟩

/-- The list of a set holds its members. -/
theorem mem_toList {s : FinSet α} {a : α} : a ∈ s.toList ↔ a ∈ s := Iff.rfl

instance (a : α) (s : FinSet α) : Decidable (a ∈ s) := inferInstanceAs (Decidable (a ∈ s.toList))

/-- Sets with the same members are equal. -/
theorem ext {s t : FinSet α} (h : ∀ a, a ∈ s ↔ a ∈ t) : s = t := by
  have hnodup : ∀ s : FinSet α, s.toList.Nodup := fun s => s.sorted.imp fun h he => by
    rw [he] at h
    exact lt_irrefl _ h
  refine ext_toList (List.Perm.eq_of_pairwise (fun a b _ _ hab hba => ?_) s.sorted t.sorted
    ((List.perm_ext_iff_of_nodup (hnodup s) (hnodup t)).mpr h))
  exact absurd (hab.trans hba) (lt_irrefl _)

/-- The set with no member. -/
def empty : FinSet α := ⟨[], .nil⟩

/-- `s` with `a`. -/
def insert (s : FinSet α) (a : α) : FinSet α where
  toList := s.toList.filter (· < a) ++ a :: s.toList.filter (a < ·)
  sorted := by
    refine List.pairwise_append.mpr ⟨s.sorted.filter _, ?_, ?_⟩
    · refine List.pairwise_cons.mpr ⟨fun e he => ?_, s.sorted.filter _⟩
      exact of_decide_eq_true (List.mem_filter.mp he).2
    · intro b hb c hc
      have hba : b < a := of_decide_eq_true (List.mem_filter.mp hb).2
      rcases List.mem_cons.mp hc with rfl | hc
      · exact hba
      · exact hba.trans (of_decide_eq_true (List.mem_filter.mp hc).2)

/-- The members of a list, each once. -/
def ofList (l : List α) : FinSet α := l.foldl insert empty

/-- The members of `s` and of `t`. -/
def union (s t : FinSet α) : FinSet α := t.toList.foldl insert s

/-- Nothing is in the empty set. -/
@[simp] theorem not_mem_empty (a : α) : a ∉ (empty : FinSet α) := List.not_mem_nil

/-- What was inserted is there, beside what was there. -/
@[simp] theorem mem_insert {s : FinSet α} {a b : α} : b ∈ s.insert a ↔ b = a ∨ b ∈ s := by
  rw [← mem_toList, ← mem_toList]
  simp only [insert, List.mem_append, List.mem_cons, List.mem_filter, decide_eq_true_eq]
  constructor
  · rintro (⟨h, -⟩ | rfl | ⟨h, -⟩)
    · exact .inr h
    · exact .inl rfl
    · exact .inr h
  · rintro (rfl | h)
    · exact .inr (.inl rfl)
    · rcases lt_trichotomy b a with hlt | rfl | hlt
      · exact .inl ⟨h, hlt⟩
      · exact .inr (.inl rfl)
      · exact .inr (.inr ⟨h, hlt⟩)

/-- After many inserts a set holds what it held and what was inserted. -/
theorem mem_foldl_insert {l : List α} {s : FinSet α} {b : α} :
    b ∈ l.foldl insert s ↔ b ∈ s ∨ b ∈ l := by
  induction l generalizing s with
  | nil => simp only [List.foldl_nil, List.not_mem_nil, or_false]
  | cons a l ih =>
    rw [List.foldl_cons, ih, mem_insert, List.mem_cons]
    tauto

/-- A union holds the members of both. -/
@[simp] theorem mem_union {s t : FinSet α} {b : α} : b ∈ s.union t ↔ b ∈ s ∨ b ∈ t :=
  mem_foldl_insert

/-- The set of a list holds what the list holds. -/
@[simp] theorem mem_ofList {l : List α} {b : α} : b ∈ ofList l ↔ b ∈ l := by
  rw [ofList, mem_foldl_insert]
  exact or_iff_right (not_mem_empty b)

/-- A set is the set of its listed members. -/
theorem ofList_toList (s : FinSet α) : ofList s.toList = s := ext fun _ => mem_ofList

end FinSet

end Ordered
