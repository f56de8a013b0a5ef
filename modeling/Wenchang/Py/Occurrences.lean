import Wenchang.Py.Str

/-!
# Occurrences

Where one string occurs in another, overlaps included, and what `find` and `replace(old, new, 1)` say
about it. A position of an occurrence is a way to split the text around the occurrence, so a single
occurrence is a unique split.
-/

namespace Py

/-- `s[i:i+len(old)] == old`. -/
def OccursAt (s old : Str) (i : Nat) : Prop := (s.drop i).take old.length = old

instance (s old : Str) (i : Nat) : Decidable (OccursAt s old i) :=
  inferInstanceAs (Decidable (_ = _))

/-- The positions at which `old` occurs in `s`. -/
def occurrences (s old : Str) : Finset Nat :=
  (Finset.range (s.length + 1)).filter (OccursAt s old)

variable {s old new : Str} {i : Nat}

/-- A text occurs where it begins what is left. -/
theorem occursAt_iff : OccursAt s old i ↔ old <+: s.drop i := by
  rw [List.prefix_iff_eq_take, OccursAt, eq_comm]

/-- An occurrence is a position in the text where the other begins. -/
theorem mem_occurrences : i ∈ occurrences s old ↔ i ≤ s.length ∧ OccursAt s old i := by
  rw [occurrences, Finset.mem_filter, Finset.mem_range, Nat.lt_succ_iff]

/-- A split of the text around an occurrence is the occurrence's position. -/
theorem occursAt_append (p q : Str) : OccursAt (p ++ old ++ q) old p.length := by
  simp [OccursAt]

/-- A text occurs where it stands. -/
theorem mem_occurrences_append (p q : Str) : p.length ∈ occurrences (p ++ old ++ q) old :=
  mem_occurrences.mpr ⟨by simp only [List.length_append]; omega, occursAt_append p q⟩

/-- An occurrence splits the text in three. -/
theorem OccursAt.split (h : OccursAt s old i) : s.take i ++ old ++ s.drop (i + old.length) = s := by
  have hdrop : old ++ s.drop (i + old.length) = s.drop i := by
    have hsplit := List.take_append_drop old.length (s.drop i)
    rwa [h, List.drop_drop] at hsplit
  rw [List.append_assoc, hdrop, List.take_append_drop]

/-! ## `find` -/

/-- Nothing is found where nothing occurs. -/
theorem find_eq_none : find old s = none ↔ ∀ i ≤ s.length, ¬ OccursAt s old i := by
  induction s with
  | nil =>
    by_cases h : old = []
    · simp [find, h, OccursAt]
    · simp [find, h, OccursAt, Ne.symm h]
  | cons c s ih =>
    by_cases h : old.isPrefixOf (c :: s)
    · simp only [find, h, if_true, reduceCtorEq, false_iff, not_forall, not_not]
      exact ⟨0, Nat.zero_le _, occursAt_iff.mpr (List.isPrefixOf_iff_prefix.mp h)⟩
    · simp only [find, h, Bool.false_eq_true, if_false, Option.map_eq_none_iff, ih]
      constructor
      · intro hs i hi
        cases i with
        | zero => exact fun ho => h (List.isPrefixOf_iff_prefix.mpr (occursAt_iff.mp ho))
        | succ i => exact hs i (Nat.le_of_succ_le_succ hi)
      · exact fun hs i hi => hs (i + 1) (Nat.succ_le_succ hi)

/-- `find` gives the first occurrence. -/
theorem find_eq_some (h : find old s = some i) :
    i ∈ occurrences s old ∧ ∀ j < i, ¬ OccursAt s old j := by
  induction s generalizing i with
  | nil =>
    by_cases hold : old = []
    · simp only [find, hold, if_true, Option.some.injEq] at h
      simp [← h, hold, mem_occurrences, OccursAt]
    · simp [find, hold] at h
  | cons c s ih =>
    by_cases hp : old.isPrefixOf (c :: s)
    · simp only [find, hp, if_true, Option.some.injEq] at h
      subst h
      have hocc : OccursAt (c :: s) old 0 := occursAt_iff.mpr (List.isPrefixOf_iff_prefix.mp hp)
      exact ⟨mem_occurrences.mpr ⟨Nat.zero_le _, hocc⟩, fun j hj => absurd hj (Nat.not_lt_zero j)⟩
    · simp only [find, hp, Bool.false_eq_true, if_false, Option.map_eq_some_iff] at h
      obtain ⟨i', hi', rfl⟩ := h
      obtain ⟨hmem, hfirst⟩ := ih hi'
      obtain ⟨hle, hocc⟩ := mem_occurrences.mp hmem
      refine ⟨mem_occurrences.mpr ⟨Nat.succ_le_succ hle, hocc⟩, fun j hj ho => ?_⟩
      cases j with
      | zero => exact hp (List.isPrefixOf_iff_prefix.mpr (occursAt_iff.mp ho))
      | succ j => exact hfirst j (Nat.lt_of_succ_lt_succ hj) ho

/-- Occurrences behind a cut are those of the rest. -/
theorem occursAt_drop {n : Nat} : OccursAt (s.drop n) old i ↔ OccursAt s old (n + i) := by
  rw [OccursAt, OccursAt, List.drop_drop]

/-- `s.find(old, n)` is `-1` when no occurrence is at `n` or behind it. -/
theorem findFrom_eq_none {n : Nat} (h : findFrom s old n = none) :
    ∀ j ∈ occurrences s old, j < n := by
  intro j hj
  obtain ⟨hle, hocc⟩ := mem_occurrences.mp hj
  by_contra hge
  rw [not_lt] at hge
  have hn : ¬ s.length < n := not_lt.mpr (Nat.le_trans hge hle)
  rw [findFrom, if_neg hn, Option.map_eq_none_iff, find_eq_none] at h
  refine h (j - n) (by rw [List.length_drop]; omega) (occursAt_drop.mpr ?_)
  rwa [Nat.add_sub_cancel' hge]

/-- `s.find(old, n)` is the first occurrence at `n` or behind it. -/
theorem findFrom_eq_some {n : Nat} (h : findFrom s old n = some i) :
    n ≤ i ∧ i ∈ occurrences s old ∧ ∀ j ∈ occurrences s old, n ≤ j → i ≤ j := by
  have hn : ¬ s.length < n := fun hlt => by
    rw [findFrom, if_pos hlt] at h
    exact nomatch h
  rw [findFrom, if_neg hn, Option.map_eq_some_iff] at h
  obtain ⟨k, hk, rfl⟩ := h
  obtain ⟨hmem, hfirst⟩ := find_eq_some hk
  obtain ⟨hle, hocc⟩ := mem_occurrences.mp hmem
  rw [List.length_drop] at hle
  refine ⟨Nat.le_add_right n k, mem_occurrences.mpr ⟨by omega, occursAt_drop.mp hocc⟩, ?_⟩
  intro j hj hnj
  by_contra hlt
  refine hfirst (j - n) (by omega) (occursAt_drop.mpr ?_)
  rw [Nat.add_sub_cancel' hnj]
  exact (mem_occurrences.mp hj).2

/-! ## A single occurrence -/

/-- One occurrence is one way to split the text around it. -/
theorem card_occurrences_eq_one :
    (occurrences s old).card = 1 ↔ ∃! pq : Str × Str, s = pq.1 ++ old ++ pq.2 := by
  rw [Finset.card_eq_one]
  constructor
  · rintro ⟨i, hi⟩
    have hocc := (mem_occurrences.mp (hi ▸ Finset.mem_singleton_self i)).2
    refine ⟨(s.take i, s.drop (i + old.length)), hocc.split.symm, ?_⟩
    rintro ⟨p, q⟩ rfl
    have hp : p.length = i := Finset.mem_singleton.mp (hi ▸ mem_occurrences_append p q)
    subst hp
    simp
  · rintro ⟨⟨p, q⟩, rfl, hunique⟩
    refine ⟨p.length, Finset.eq_singleton_iff_unique_mem.mpr ⟨mem_occurrences_append p q, ?_⟩⟩
    intro i hi
    obtain ⟨hle, hocc⟩ := mem_occurrences.mp hi
    have hpair := hunique ((p ++ old ++ q).take i, (p ++ old ++ q).drop (i + old.length))
      hocc.split.symm
    rw [← (Prod.mk.inj hpair).1, List.length_take, Nat.min_eq_left hle]

/-- `s.replace(old, new, 1)` edits the only occurrence. -/
theorem replaceFirst_append {p q : Str} (h : (occurrences (p ++ old ++ q) old).card = 1) :
    replaceFirst (p ++ old ++ q) old new = p ++ new ++ q := by
  obtain ⟨i, hi⟩ := Finset.card_eq_one.mp h
  have hp : p.length = i := Finset.mem_singleton.mp (hi ▸ mem_occurrences_append p q)
  cases hfind : find old (p ++ old ++ q) with
  | none =>
    obtain ⟨hle, hocc⟩ := mem_occurrences.mp (mem_occurrences_append p q)
    exact absurd hocc (find_eq_none.mp hfind _ hle)
  | some j =>
    have hj : j = i := Finset.mem_singleton.mp (hi ▸ (find_eq_some hfind).1)
    subst hj
    subst hp
    rw [replaceFirst, hfind]
    simp [List.append_assoc]

/-! ## `replace` -/

/-- Nothing is left to replace behind the end. -/
theorem replaceAllFrom_skip {skip : Nat} (h : s.length ≤ skip) : replaceAllFrom old new skip s = [] := by
  induction s generalizing skip with
  | nil => cases skip <;> rfl
  | cons c s ih =>
    cases skip with
    | zero => exact absurd h (Nat.not_succ_le_zero _)
    | succ skip => exact ih (Nat.le_of_succ_le_succ h)

/-- What begins with a character that the text before it does not contain is replaced at the end. -/
theorem replaceAll_append {c : CodePoint} {p : Str} (old new : Str) (hp : c ∉ p) :
    replaceAll (p ++ c :: old) (c :: old) new = p ++ new := by
  unfold replaceAll
  induction p with
  | nil =>
    have hself : (c :: old).isPrefixOf (c :: old) = true :=
      List.isPrefixOf_iff_prefix.mpr (List.prefix_refl _)
    rw [List.nil_append, replaceAllFrom, if_pos hself, replaceAllFrom_skip (by simp), List.append_nil]
    rfl
  | cons d p ih =>
    have hne : ¬ (c :: old).isPrefixOf (d :: (p ++ c :: old)) = true := fun h => by
      obtain ⟨t, ht⟩ := List.isPrefixOf_iff_prefix.mp h
      exact hp ((List.cons.inj ht).1 ▸ List.mem_cons_self)
    rw [List.cons_append, replaceAllFrom, if_neg hne, ih fun h => hp (List.mem_cons_of_mem d h)]
    rfl

end Py
