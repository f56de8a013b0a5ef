import Mathlib

/-!
# Scanning a changing set in order

A scan reads an ordered set in pieces. Each `Read` takes what lies behind the position that the last
one reached, up to a position of its own, and the set may be another one at every read. What a scan
is good for does not depend on how the pieces are chosen: its members ascend (`Scan.pairwise`), each
was there when it was read (`Scan.mem`), what was there all the time is seen (`Scan.complete`), and a
scan over finitely many values comes to its end (`Scan.length_le`).
-/

namespace Ordered

variable {α : Type} [LinearOrder α]

/-- Behind a position; `none` is the position before everything. -/
def Behind (after : Option α) (a : α) : Prop := ∀ b ∈ after, b < a

/-- Up to a position; `none` is the end. -/
def UpTo (upTo : Option α) (a : α) : Prop := ∀ b ∈ upTo, a ≤ b

/-- Everything is behind nothing. -/
theorem behind_none (a : α) : Behind none a := nofun

/-- Everything is up to no bound. -/
theorem upTo_none (a : α) : UpTo none a := nofun

/-- What is not behind a bound is up to it. -/
theorem upTo_of_not_behind {b a : α} (h : ¬ Behind (some b) a) : UpTo (some b) a := by
  intro c hc
  cases hc
  apply le_of_not_gt
  intro hlt
  apply h
  intro c hc
  cases hc
  exact hlt

/-- The first members of an ascending list, by what they are: members of it, not more than `n`, and
before every member that is left out, which there is only where they are `n`. -/
theorem eq_take_of_first {β : Type} {f : β → α} {l full : List β} {n : Nat}
    (hl : l.Pairwise fun a b => f a < f b) (hfull : full.Pairwise fun a b => f a < f b)
    (hmem : ∀ a ∈ l, a ∈ full) (hlen : l.length ≤ n)
    (hfirst : ∀ a ∈ full, a ∈ l ∨ l.length = n ∧ ∀ b ∈ l, f b < f a) : l = full.take n := by
  induction l generalizing full n with
  | nil =>
    cases full with
    | nil => rw [List.take_nil]
    | cons a full =>
      rcases hfirst a List.mem_cons_self with ha | ⟨rfl, -⟩
      · exact absurd ha List.not_mem_nil
      · rfl
  | cons a l ih =>
    obtain ⟨ha, hl⟩ := List.pairwise_cons.mp hl
    cases full with
    | nil => exact absurd (hmem a List.mem_cons_self) List.not_mem_nil
    | cons b full =>
      obtain ⟨hb, htails⟩ := List.pairwise_cons.mp hfull
      -- The least member is the first of both.
      have hab : a = b := by
        rcases List.mem_cons.mp (hmem a List.mem_cons_self) with hab | hmema
        · exact hab
        · rcases hfirst b List.mem_cons_self with hmemb | ⟨-, hbefore⟩
          · rcases List.mem_cons.mp hmemb with hba | hmemb
            · exact hba.symm
            · exact absurd ((ha b hmemb).trans (hb a hmema)) (lt_irrefl _)
          · exact absurd ((hbefore a List.mem_cons_self).trans (hb a hmema)) (lt_irrefl _)
      subst hab
      cases n with
      | zero => cases hlen
      | succ n =>
        have htail : l = full.take n := by
          refine ih hl htails (fun c hc => ?_) (Nat.le_of_succ_le_succ hlen) fun c hc => ?_
          · rcases List.mem_cons.mp (hmem c (List.mem_cons_of_mem _ hc)) with rfl | hc'
            · exact absurd (ha c hc) (lt_irrefl _)
            · exact hc'
          · rcases hfirst c (List.mem_cons_of_mem _ hc) with hc' | ⟨hlen, hbefore⟩
            · rcases List.mem_cons.mp hc' with rfl | hc'
              · exact absurd (hb c hc) (lt_irrefl _)
              · exact .inl hc'
            · exact .inr ⟨Nat.succ.inj hlen, fun d hd => hbefore d (List.mem_cons_of_mem _ hd)⟩
        rw [List.take_succ_cons, ← htail]

/-- The members behind a value, as many as asked for: of a list that may start with the value itself, one
member more is taken. -/
theorem take_filter_ne {β : Type} {f : β → α} {l : List β} (hl : l.Pairwise fun a b => f a < f b) {s : α}
    (hle : ∀ a ∈ l, s ≤ f a) {p : β → Bool} (hp : ∀ a ∈ l, p a = true ↔ f a ≠ s) (n : Nat) :
    ((l.take (n + 1)).filter p).take n = (l.filter p).take n := by
  cases l with
  | nil => rfl
  | cons a l =>
    obtain ⟨ha, -⟩ := List.pairwise_cons.mp hl
    have hrest : ∀ b ∈ l, p b = true := fun b hb =>
      (hp b (List.mem_cons_of_mem _ hb)).mpr ((hle a List.mem_cons_self).trans_lt (ha b hb)).ne'
    have hfilter : ∀ m, (l.take m).filter p = l.take m := fun m =>
      List.filter_eq_self.mpr fun b hb => hrest b (List.mem_of_mem_take hb)
    rw [List.take_succ_cons]
    by_cases hpa : p a = true
    · rw [List.filter_cons_of_pos hpa, List.filter_cons_of_pos hpa, hfilter, List.filter_eq_self.mpr hrest]
      cases n with
      | zero => rfl
      | succ n =>
        rw [List.take_succ_cons, List.take_succ_cons, List.take_take, Nat.min_eq_left (Nat.le_succ n)]
    · rw [List.filter_cons_of_neg hpa, List.filter_cons_of_neg hpa, hfilter, List.filter_eq_self.mpr hrest,
        List.take_take, Nat.min_self]

/-- One read of `A`: everything behind `after` up to `upTo`, which is the last member read. -/
structure Read (A : Set α) (after upTo : Option α) (seen : List α) : Prop where
  sorted : seen.Pairwise (· < ·)
  mem : ∀ a ∈ seen, a ∈ A ∧ Behind after a ∧ UpTo upTo a
  complete : ∀ a ∈ A, Behind after a → UpTo upTo a → a ∈ seen
  last : ∀ b ∈ upTo, b ∈ seen

/-- A read to the end, cut off behind `n` members. -/
theorem Read.take {A : Set α} {after : Option α} {seen : List α} (h : Read A after none seen)
    {n : Nat} {b : α} (hb : (seen.take n).getLast? = some b) :
    Read A after (some b) (seen.take n) := by
  have hsplit : (seen.take n ++ seen.drop n).Pairwise (· < ·) := by
    rw [List.take_append_drop]
    exact h.sorted
  obtain ⟨hsorted, -, hcross⟩ := List.pairwise_append.mp hsplit
  have hmem : b ∈ seen.take n := List.mem_of_getLast? hb
  refine ⟨hsorted, fun a ha => ?_, fun a ha hafter hle => ?_, fun c hc => ?_⟩
  · obtain ⟨hA, hafter, -⟩ := h.mem a (List.mem_of_mem_take ha)
    refine ⟨hA, hafter, fun c hc => ?_⟩
    cases hc
    -- The last member of an ascending list is its greatest.
    obtain ⟨init, hinit⟩ := List.getLast?_eq_some_iff.mp hb
    rw [hinit] at ha hsorted
    rcases List.mem_append.mp ha with ha | ha
    · exact le_of_lt ((List.pairwise_append.mp hsorted).2.2 a ha b (List.mem_singleton_self b))
    · exact le_of_eq (List.mem_singleton.mp ha)
  · have hseen := h.complete a ha hafter nofun
    rw [← List.take_append_drop n seen] at hseen
    rcases List.mem_append.mp hseen with hseen | hseen
    · exact hseen
    · exact absurd (hcross b hmem a hseen) (not_lt_of_ge (hle b rfl))
  · cases hc
    exact hmem

/-- A read sees all members of a kind in its range. -/
theorem Read.card_le {A : Set α} {after upTo : Option α} {seen : List α} (h : Read A after upTo seen)
    (q : α → Bool) {K : Finset α}
    (hK : ∀ a ∈ K, a ∈ A ∧ q a = true ∧ Behind after a ∧ UpTo upTo a) : K.card ≤ seen.countP q := by
  have hsub : K ⊆ (seen.filter q).toFinset := fun a ha => by
    obtain ⟨hA, hq, hafter, hupTo⟩ := hK a ha
    exact List.mem_toFinset.mpr (List.mem_filter.mpr ⟨h.complete a hA hafter hupTo, hq⟩)
  calc K.card ≤ (seen.filter q).toFinset.card := Finset.card_le_card hsub
    _ ≤ (seen.filter q).length := List.toFinset_card_le _
    _ = seen.countP q := List.countP_eq_length_filter.symm

/-- Reads one after the other, the `j`-th of `A (i + j)`, from the position `after` on. With `done` the
last one went to the end. -/
inductive Scan (A : Nat → Set α) : Bool → Nat → Option α → List (List α) → Prop
  | stop (i : Nat) (after : Option α) : Scan A false i after []
  | last (i : Nat) (after : Option α) (seen : List α) (read : Read (A i) after none seen) :
    Scan A true i after [seen]
  | next (i : Nat) (after : Option α) (seen : List α) (b : α) (done : Bool) (rest : List (List α))
      (read : Read (A i) after (some b) seen) (scan : Scan A done (i + 1) (some b) rest) :
    Scan A done i after (seen :: rest)

variable {A : Nat → Set α} {done : Bool} {i : Nat} {after : Option α} {reads : List (List α)}

/-- What is above what is behind is behind. -/
theorem Behind.trans {b a : α} (hb : Behind after b) (ha : b < a) : Behind after a :=
  fun c hc => (hb c hc).trans ha

/-- Everything a scan sees is behind its position. -/
theorem Scan.behind (h : Scan A done i after reads) : ∀ a ∈ reads.flatten, Behind after a := by
  induction h with
  | stop i after => exact fun a ha => absurd ha List.not_mem_nil
  | last i after seen read =>
    intro a ha
    rw [List.flatten_singleton] at ha
    exact (read.mem a ha).2.1
  | next i after seen b done rest read scan ih =>
    intro a ha
    rw [List.flatten_cons] at ha
    rcases List.mem_append.mp ha with ha | ha
    · exact (read.mem a ha).2.1
    · have hb := (read.mem b (read.last b rfl)).2.1
      exact hb.trans (ih a ha b rfl)

/-- **A scan ascends**, and so sees nothing twice. -/
theorem Scan.pairwise (h : Scan A done i after reads) : reads.flatten.Pairwise (· < ·) := by
  induction h with
  | stop i after => exact .nil
  | last i after seen read =>
    rw [List.flatten_singleton]
    exact read.sorted
  | next i after seen b done rest read scan ih =>
    rw [List.flatten_cons]
    refine List.pairwise_append.mpr ⟨read.sorted, ih, fun a ha c hc => ?_⟩
    exact lt_of_le_of_lt ((read.mem a ha).2.2 b rfl) (scan.behind c hc b rfl)

/-- What a scan sees was there when it was read. -/
theorem Scan.mem (h : Scan A done i after reads) {j : Nat} {seen : List α}
    (hj : reads[j]? = some seen) {a : α} (ha : a ∈ seen) : a ∈ A (i + j) := by
  induction h generalizing j with
  | stop i after => cases hj
  | last i after seen' read =>
    cases j with
    | zero =>
      cases hj
      exact (read.mem a ha).1
    | succ j => cases hj
  | next i after seen' b done rest read scan ih =>
    cases j with
    | zero =>
      cases hj
      exact (read.mem a ha).1
    | succ j =>
      rw [← Nat.succ_add_eq_add_succ]
      exact ih hj

/-- **A finished scan sees what was there all the time.** -/
theorem Scan.complete (h : Scan A true i after reads) {a : α} (hafter : Behind after a)
    (hA : ∀ j < reads.length, a ∈ A (i + j)) : a ∈ reads.flatten := by
  generalize hd : true = d at h
  induction h with
  | stop i after => cases hd
  | last i after seen read =>
    rw [List.flatten_singleton]
    exact read.complete a (hA 0 Nat.one_pos) hafter nofun
  | next i after seen b done rest read scan ih =>
    rw [List.flatten_cons, List.mem_append]
    by_cases hle : a ≤ b
    · left
      apply read.complete a (hA 0 (Nat.succ_pos _)) hafter
      intro c hc
      cases hc
      exact hle
    · right
      apply ih _ _ hd
      · intro c hc
        cases hc
        exact lt_of_not_ge hle
      · intro j hj
        rw [Nat.succ_add_eq_add_succ]
        exact hA (j + 1) (Nat.succ_lt_succ hj)

/-- **A scan over finitely many values ends**: it cannot take more reads than there are values, and
one. -/
theorem Scan.length_le (h : Scan A done i after reads) (K : Finset α)
    (hK : ∀ j, ∀ a ∈ A j, a ∈ K) : reads.length ≤ K.card + 1 := by
  classical
  have hlen : reads.length ≤ (K.filter (Behind after)).card + 1 := by
    induction h with
    | stop i after => exact Nat.zero_le _
    | last i after seen read => exact Nat.succ_le_succ (Nat.zero_le _)
    | next i after seen b done rest read scan ih =>
      obtain ⟨hbA, hb, -⟩ := read.mem b (read.last b rfl)
      have hsub : K.filter (Behind (some b)) ⊂ K.filter (Behind after) := by
        refine Finset.ssubset_iff_subset_ne.mpr ⟨fun a ha => ?_, fun he => ?_⟩
        · obtain ⟨haK, ha⟩ := Finset.mem_filter.mp ha
          exact Finset.mem_filter.mpr ⟨haK, hb.trans (ha b rfl)⟩
        · have hmem : b ∈ K.filter (Behind after) := Finset.mem_filter.mpr ⟨hK i b hbA, hb⟩
          rw [← he] at hmem
          exact lt_irrefl b ((Finset.mem_filter.mp hmem).2 b rfl)
      have hcard := Finset.card_lt_card hsub
      rw [List.length_cons]
      omega
  exact hlen.trans (Nat.succ_le_succ (Finset.card_filter_le _ _))

end Ordered
