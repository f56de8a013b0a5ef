import Mathlib

/-!
# A greedy scan for a subsequence

One pass over an iterator that is shared by all questions: each wanted member is looked for in what the
ones before it have left. `firstMissing_eq_none` says that the pass finds every member just when they
occur in order (`List.Sublist`), so to take the first occurrence of each is never a mistake, and
`firstMissing_eq_some` says which member it gives up at.
-/

namespace Ordered

variable {α : Type} [DecidableEq α] {a : α} {l wanted : List α}

/-- `any(x == a for x in iterator)`, and what the iterator has left: it stops behind the first match. -/
def anyEqual (a : α) : List α → Bool × List α
  | [] => (false, [])
  | x :: l => if x = a then (true, l) else anyEqual a l

/-- The first wanted member that is not found, when each is looked for in what the ones before it left. -/
def firstMissing : List α → List α → Option α
  | [], _ => none
  | a :: wanted, l =>
    let (found, left) := anyEqual a l
    if found then firstMissing wanted left else some a

/-! ## One question -/

/-- The question is answered by membership. -/
theorem anyEqual_fst : (anyEqual a l).1 = true ↔ a ∈ l := by
  induction l with
  | nil => simp [anyEqual]
  | cons x l ih =>
    unfold anyEqual
    split
    next h => simp [h]
    next h => simp [ih, Ne.symm h]

/-- **The first match is the best one**: what is left behind it holds all that any match leaves. -/
theorem cons_sublist_anyEqual (h : (anyEqual a l).1 = true) :
    (a :: wanted).Sublist l ↔ wanted.Sublist (anyEqual a l).2 := by
  induction l with
  | nil => simp [anyEqual] at h
  | cons x l ih =>
    unfold anyEqual at h ⊢
    by_cases hx : x = a
    · rw [if_pos hx, hx]
      exact List.cons_sublist_cons
    · rw [if_neg hx] at h ⊢
      rw [← ih h]
      refine ⟨fun hsub => ?_, List.Sublist.cons x⟩
      cases hsub with
      | cons _ hsub => exact hsub
      | cons_cons _ hsub => exact absurd rfl hx

/-! ## A pass -/

/-- The first wanted line is searched, and then the others behind it. -/
theorem firstMissing_cons (a : α) (wanted l : List α) : firstMissing (a :: wanted) l =
    if (anyEqual a l).1 then firstMissing wanted (anyEqual a l).2 else some a := rfl

/-- **The pass finds every member just when they occur in order.** -/
theorem firstMissing_eq_none : firstMissing wanted l = none ↔ wanted.Sublist l := by
  induction wanted generalizing l with
  | nil => simp [firstMissing]
  | cons a wanted ih =>
    rw [firstMissing_cons]
    by_cases h : (anyEqual a l).1 = true
    · rw [if_pos h, ih, cons_sublist_anyEqual h]
    · rw [if_neg h]
      have hmem : a ∉ l := fun hm => h (anyEqual_fst.mpr hm)
      simp only [reduceCtorEq, false_iff]
      exact fun hsub => hmem (hsub.subset List.mem_cons_self)

/-- The pass gives up at the first member that cannot be placed behind those before it. -/
theorem firstMissing_eq_some : firstMissing wanted l = some a ↔
    ∃ before after, wanted = before ++ a :: after ∧ before.Sublist l ∧ ¬ (before ++ [a]).Sublist l := by
  induction wanted generalizing l with
  | nil => simp [firstMissing]
  | cons b wanted ih =>
    rw [firstMissing_cons]
    by_cases h : (anyEqual b l).1 = true
    · rw [if_pos h, ih]
      constructor
      · rintro ⟨before, after, rfl, hbefore, hstuck⟩
        refine ⟨b :: before, after, rfl, (cons_sublist_anyEqual h).mpr hbefore, ?_⟩
        rwa [List.cons_append, cons_sublist_anyEqual h]
      · rintro ⟨before, after, heq, hbefore, hstuck⟩
        cases before with
        | nil =>
          obtain ⟨rfl, -⟩ := List.cons.inj heq
          exact absurd (List.singleton_sublist.mpr (anyEqual_fst.mp h)) hstuck
        | cons c before =>
          obtain ⟨rfl, rfl⟩ := List.cons.inj heq
          rw [List.cons_append, cons_sublist_anyEqual h] at hstuck
          exact ⟨before, after, rfl, (cons_sublist_anyEqual h).mp hbefore, hstuck⟩
    · have hmem : b ∉ l := fun hm => h (anyEqual_fst.mpr hm)
      rw [if_neg h, Option.some.injEq]
      constructor
      · rintro rfl
        refine ⟨[], wanted, rfl, List.nil_sublist l, ?_⟩
        exact fun hsub => hmem (List.singleton_sublist.mp hsub)
      · rintro ⟨before, after, heq, hbefore, -⟩
        cases before with
        | nil => exact (List.cons.inj heq).1
        | cons c before =>
          obtain ⟨rfl, -⟩ := List.cons.inj heq
          exact absurd (hbefore.subset List.mem_cons_self) hmem

end Ordered
