import Wenchang.Ordered.FinMap

/-!
# A cut at a budget, and the count of what it leaves out

`Cut` says that a list is the longest prefix of another whose members fit a budget together, and
`Counts` that a map holds how often each value occurs in a list. Both determine what they describe,
and both are built a member at a time.
-/

namespace Ordered

section Cut

variable {α : Type} {size : α → Nat} {budget : Nat} {l included : List α}

/-- The longest prefix within a budget. -/
structure Cut (size : α → Nat) (budget : Nat) (l included : List α) : Prop where
  isPrefix : included <+: l
  within : (included.map size).sum ≤ budget
  longest : ∀ l', l' <+: l → (l'.map size).sum ≤ budget → l' <+: included

/-- A budget cuts a list at one place. -/
theorem Cut.unique {included' : List α} (h : Cut size budget l included)
    (h' : Cut size budget l included') : included = included' := by
  have hle := h'.longest _ h.isPrefix h.within
  have hge := h.longest _ h'.isPrefix h'.within
  exact hle.eq_of_length (le_antisymm hle.length_le hge.length_le)

/-- Nothing is cut off an empty list. -/
theorem Cut.nil : Cut size budget [] [] :=
  ⟨List.prefix_rfl, Nat.zero_le _, fun _ h _ => h⟩

/-- The first member does not fit. -/
theorem Cut.stop {a : α} (h : budget < size a) : Cut size budget (a :: l) [] where
  isPrefix := List.nil_prefix
  within := Nat.zero_le _
  longest l' hl' hsum := by
    cases l' with
    | nil => exact List.prefix_rfl
    | cons b l' =>
      obtain ⟨rfl, -⟩ := List.cons_prefix_cons.mp hl'
      rw [List.map_cons, List.sum_cons] at hsum
      omega

/-- The first member fits. -/
theorem Cut.cons {a : α} (h : size a ≤ budget) (hcut : Cut size (budget - size a) l included) :
    Cut size budget (a :: l) (a :: included) where
  isPrefix := List.cons_prefix_cons.mpr ⟨rfl, hcut.isPrefix⟩
  within := by
    have hwithin := hcut.within
    rw [List.map_cons, List.sum_cons]
    omega
  longest l' hl' hsum := by
    cases l' with
    | nil => exact List.nil_prefix
    | cons b l' =>
      obtain ⟨rfl, hrest⟩ := List.cons_prefix_cons.mp hl'
      rw [List.map_cons, List.sum_cons] at hsum
      exact List.cons_prefix_cons.mpr ⟨rfl, hcut.longest l' hrest (by omega)⟩

end Cut

section Counts

variable {α : Type} [LinearOrder α]

/-- A map holds how often each value occurs, where it does. -/
def Counts (m : FinMap α Nat) (l : List α) : Prop :=
  ∀ a n, m.get? a = some n ↔ 0 < n ∧ n = l.count a

/-- Nothing was counted at first. -/
theorem counts_empty : Counts (.empty : FinMap α Nat) [] := by
  intro a n
  rw [List.count_nil, FinMap.get?_empty]
  constructor
  · exact nofun
  · omega

variable {m : FinMap α Nat} {l : List α}

/-- What is counted is how often it occurs. -/
theorem Counts.getD (h : Counts m l) (a : α) : (m.get? a).getD 0 = l.count a := by
  cases hget : m.get? a with
  | some n => exact ((h a n).mp hget).2
  | none =>
    by_contra hne
    have hsome := (h a (l.count a)).mpr ⟨Nat.pos_of_ne_zero (Ne.symm hne), rfl⟩
    rw [hget] at hsome
    cases hsome

/-- One more occurrence is counted. -/
theorem Counts.concat (h : Counts m l) (a : α) :
    Counts (m.insert a ((m.get? a).getD 0 + 1)) (l ++ [a]) := by
  intro b n
  rw [FinMap.get?_insert, h.getD, List.count_append]
  by_cases hb : b = a
  · subst hb
    rw [if_pos rfl, List.count_singleton_self, Option.some.injEq]
    omega
  · have hnone : [a].count b = 0 := List.count_eq_zero.mpr fun hm => hb (List.mem_singleton.mp hm)
    rw [if_neg hb, h b n, hnone, Nat.add_zero]

/-- The entries are what occurs, with how often it does. -/
theorem Counts.mem_entries (h : Counts m l) {a : α} {n : Nat} [DecidablePred (· = a)] :
    (a, n) ∈ m.entries ↔ 0 < n ∧ n = l.countP (· = a) := by
  have hcount : l.count a = l.countP (· = a) :=
    List.countP_congr fun b _ => by rw [beq_iff_eq, decide_eq_true_eq]
  rw [← FinMap.get?_eq_some, h a n, hcount]

/-- An entry was counted. -/
theorem Counts.of_mem_entries (h : Counts m l) {a : α} {n : Nat} (hmem : (a, n) ∈ m.entries) :
    0 < n ∧ a ∈ l := by
  obtain ⟨hpos, hn⟩ := (h a n).mp (FinMap.get?_eq_some.mpr hmem)
  exact ⟨hpos, List.count_pos_iff.mp (hn ▸ hpos)⟩

/-- **Nothing is counted twice or missed.** -/
theorem Counts.sum_eq (h : Counts m l) : (m.entries.map (·.2)).sum = l.length := by
  have hcounts : m.entries.map (·.2) = m.keys.map (l.count ·) := by
    rw [FinMap.keys, List.map_map]
    apply List.map_congr_left
    intro e he
    exact ((h e.1 e.2).mp (FinMap.get?_eq_some.mpr he)).2
  have hperm : m.keys.Perm l.dedup := by
    have hnodup : m.keys.Nodup := List.pairwise_map.mpr (m.sorted.imp ne_of_lt)
    refine (List.perm_ext_iff_of_nodup hnodup l.nodup_dedup).mpr fun a => ?_
    rw [FinMap.mem_keys, List.mem_dedup, ← List.count_pos_iff]
    constructor
    · rintro ⟨n, hn⟩
      obtain ⟨hpos, rfl⟩ := (h a n).mp hn
      exact hpos
    · intro hpos
      exact ⟨_, (h a _).mpr ⟨hpos, rfl⟩⟩
  rw [hcounts, (hperm.map _).sum_eq]
  exact List.sum_map_count_dedup_eq_length l

end Counts

end Ordered
