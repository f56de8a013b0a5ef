import Wenchang.Interaction.Pool

/-!
# Registers of a world

A `Register` is a part of the world that some operations overwrite and no other touches, so what stands in it is
what was written last (`Register.last_write`). Where no value is ever written twice, a value that stands at two
moments has stood between them (`Register.stood`): what is tagged with the value can be told to be as recent as
the value is. Values that are drawn, each no more than once, and written by whoever drew them are such
(`Register.once_of_drawn`).

A moment of a log is a position in it, and the world of a moment is the one its operation met.
-/

namespace Interaction

variable {σ : Sig} {ε α κ W V : Type} {E : Env σ W}

/-! ## Moments of a log -/

/-- An event of a chain stands between what came before and what comes after. -/
theorem Chain.at {w w' : W} {l : Log σ W} (h : Chain E w l w') {n t : Nat} {e : Event σ W}
    (hn : l[n]? = some (t, e)) : Chain E w (l.take n) e.pre ∧ E.handles e.pre e.op e.ans e.post ∧
      Chain E e.post (l.drop (n + 1)) w' := by
  obtain ⟨hlt, hget⟩ := List.getElem?_eq_some_iff.mp hn
  have hsplit : l = l.take n ++ (t, e) :: l.drop (n + 1) := by
    rw [← hget, List.getElem_cons_drop, List.take_append_drop]
  rw [hsplit] at h
  exact h.split

/-- What stands between two lists stands at the length of the first. -/
theorem getElem?_mid {β : Type} (l₁ : List β) (b : β) (l₂ : List β) : (l₁ ++ b :: l₂)[l₁.length]? = some b := by
  simp

/-- The worlds of an earlier moment and a later one. -/
theorem Chain.rely_at {w w' : W} {l : Log σ W} (h : Chain E w l w') {m n t u : Nat} {e e' : Event σ W}
    (hm : l[m]? = some (t, e)) (hn : l[n]? = some (u, e')) (hlt : m < n) : E.rely e.post e'.pre :=
  (((h.at hn).1.at ((List.getElem?_take_of_lt hlt).trans hm)).2.2).rely

/-- Parts of what a call did stand in parts of the log. -/
theorem ownTrace_eq_append {t : Nat} {l : Log σ W} {tr tr' : Trace σ W} (h : ownTrace t l = tr ++ tr') :
    ∃ l₁ l₂, l = l₁ ++ l₂ ∧ ownTrace t l₁ = tr ∧ ownTrace t l₂ = tr' := by
  obtain ⟨f₁, f₂, hf, htr, htr'⟩ := List.map_eq_append_iff.mp h
  obtain ⟨l₁, l₂, rfl, hl₁, hl₂⟩ := List.filter_eq_append_iff.mp hf
  refine ⟨l₁, l₂, rfl, ?_, ?_⟩
  · rw [ownTrace, hl₁, htr]
  · rw [ownTrace, hl₂, htr']

/-- The moment of the last thing a call did. -/
theorem ownTrace_last {t : Nat} {l : Log σ W} {tr : Trace σ W} {e : Event σ W} (h : ownTrace t l = tr ++ [e]) :
    ∃ n : Nat, l[n]? = some (t, e) ∧ ∀ (m : Nat) (e' : Event σ W), l[m]? = some (t, e') → m ≤ n := by
  obtain ⟨l₁, l₂, rfl, -, hnone⟩ := ownTrace_split h
  refine ⟨l₁.length, getElem?_mid _ _ _, fun m e' hm => ?_⟩
  by_contra hlater
  obtain ⟨d, rfl⟩ := Nat.exists_eq_add_of_lt (Nat.not_le.mp hlater)
  rw [List.getElem?_append_right (by omega), Nat.add_assoc, Nat.add_sub_cancel_left, List.getElem?_cons_succ] at hm
  have hown : e' ∈ ownTrace t l₂ := mem_ownTrace.mpr (List.mem_of_getElem? hm)
  rw [hnone] at hown
  exact List.not_mem_nil hown

/-! ## Registers -/

/-- A part of the world that some operations overwrite. -/
structure Register (E : Env σ W) (V : Type) where
  value : W → Option V
  write? : σ.Op → Option V
  handled : ∀ {w : W} {o : σ.Op} {a : σ.Ans o} {w' : W}, E.handles w o a w' →
    value w' = (write? o).or (value w)

namespace Register

variable (R : Register E V) {w w' : W} {l : Log σ W}

/-- What stands in a register was written, and nothing was written since. -/
theorem last_write (h : Chain E w l w') (hempty : R.value w = none) {v : V} (hv : R.value w' = some v) :
    ∃ (n t : Nat) (e : Event σ W), l[n]? = some (t, e) ∧ R.write? e.op = some v ∧
      ∀ (m t' : Nat) (e' : Event σ W), l[m]? = some (t', e') → n < m → R.write? e'.op = none := by
  induction l using List.reverseRecOn generalizing w' with
  | nil =>
    have hw : w = w' := h
    rw [← hw, hempty] at hv
    cases hv
  | append_singleton l te ih =>
    obtain ⟨u, e₁⟩ := te
    obtain ⟨hl, hh, hpost⟩ := h.split
    have hw : e₁.post = w' := hpost
    have hvalue := R.handled hh
    rw [hw, hv] at hvalue
    cases hwrite : R.write? e₁.op with
    | some v' =>
      rw [hwrite, Option.some_or] at hvalue
      refine ⟨l.length, u, e₁, getElem?_mid l _ [], by rw [hwrite, hvalue], fun m t' e' hm hlt => ?_⟩
      have hm' := (List.getElem?_eq_some_iff.mp hm).1
      rw [List.length_append, List.length_singleton] at hm'
      omega
    | none =>
      rw [hwrite, Option.none_or] at hvalue
      obtain ⟨n, t, e, hn, he, hafter⟩ := ih hl hvalue.symm
      have hlt := (List.getElem?_eq_some_iff.mp hn).1
      refine ⟨n, t, e, by rw [List.getElem?_append_left hlt, hn], he, fun m t' e' hm hnm => ?_⟩
      rcases getElem?_concat hm with hm | ⟨-, hlast⟩
      · exact hafter m t' e' hm hnm
      · rw [(Prod.mk.inj hlast).2, hwrite]

/-- The same at a moment of the log. -/
theorem last_write_before (h : Chain E w l w') (hempty : R.value w = none) {n t : Nat} {e : Event σ W}
    (hn : l[n]? = some (t, e)) {v : V} (hv : R.value e.pre = some v) :
    ∃ (m u : Nat) (e' : Event σ W), l[m]? = some (u, e') ∧ m < n ∧ R.write? e'.op = some v ∧
      ∀ (k u' : Nat) (e'' : Event σ W), l[k]? = some (u', e'') → m < k → k < n → R.write? e''.op = none := by
  obtain ⟨m, u, e', hm, hwrite, hafter⟩ := R.last_write (h.at hn).1 hempty hv
  have hlt : m < n := by
    have := (List.getElem?_eq_some_iff.mp hm).1
    rw [List.length_take] at this
    omega
  rw [List.getElem?_take_of_lt hlt] at hm
  refine ⟨m, u, e', hm, hlt, hwrite, fun k u' e'' hk hmk hkn => ?_⟩
  exact hafter k u' e'' (by rw [List.getElem?_take_of_lt hkn, hk]) hmk

/-- No value is written twice. -/
def Once (l : Log σ W) : Prop :=
  ∀ (i j t u : Nat) (e e' : Event σ W) (v : V), l[i]? = some (t, e) → l[j]? = some (u, e') → R.write? e.op = some v →
    R.write? e'.op = some v → i = j

/-- **What stands again has stood.** A register holds at one moment what it holds, or is given, at another. What
was written to it before the first was written no later than the other. -/
theorem stood (h : Chain E w l w') (hempty : R.value w = none) (honce : R.Once l) {n m j t u u' : Nat}
    {e e' e'' : Event σ W} {v : V} (hn : l[n]? = some (t, e)) (hv : R.value e.pre = some v)
    (hm : l[m]? = some (u, e')) (hv' : R.value e'.pre = some v ∨ R.write? e'.op = some v)
    (hj : l[j]? = some (u', e'')) (hwritten : (R.write? e''.op).isSome = true) (hlt : j < n) : j ≤ m := by
  obtain ⟨i, s, d, hi, hin, hd, hafter⟩ := R.last_write_before h hempty hn hv
  have hji : j ≤ i := by
    by_contra hlater
    rw [hafter j u' e'' hj (Nat.not_le.mp hlater) hlt] at hwritten
    cases hwritten
  rcases hv' with hv' | hv'
  · obtain ⟨i', s', d', hi', him, hd', -⟩ := R.last_write_before h hempty hm hv'
    have hsame : i = i' := honce i i' s s' d d' v hi hi' hd hd'
    omega
  · have hsame : i = m := honce i m s u d e' v hi hm hd hv'
    omega

/-- Values that nobody draws twice, and that only a call that has just drawn them writes, are written once. -/
theorem once_of_drawn {drawn : Event σ W → Option V}
    (hdrawn : ∀ (i j t u : Nat) (e e' : Event σ W) (v : V), l[i]? = some (t, e) →
      l[j]? = some (u, e') → drawn e = some v → drawn e' = some v → i = j)
    (hwrite : ∀ (n t : Nat) (e : Event σ W) (v : V), l[n]? = some (t, e) → R.write? e.op = some v →
      ∃ tr d, ownTrace t (l.take n) = tr ++ [d] ∧ drawn d = some v) : R.Once l := by
  -- Nothing else of the call stands between the draw and the write.
  have hbefore : ∀ (n t : Nat) (e : Event σ W) (v : V), l[n]? = some (t, e) → R.write? e.op = some v →
      ∃ (k : Nat) (d : Event σ W), l[k]? = some (t, d) ∧ k < n ∧ drawn d = some v ∧
        ∀ (m : Nat) (e' : Event σ W), l[m]? = some (t, e') → m < n → m ≤ k := by
    intro n t e v hn hv
    obtain ⟨tr, d, htr, hd⟩ := hwrite n t e v hn hv
    obtain ⟨k, hk, hlast⟩ := ownTrace_last htr
    have hkn : k < n := by
      have := (List.getElem?_eq_some_iff.mp hk).1
      rw [List.length_take] at this
      omega
    rw [List.getElem?_take_of_lt hkn] at hk
    refine ⟨k, d, hk, hkn, hd, fun m e' hm hmn => ?_⟩
    exact hlast m e' (by rw [List.getElem?_take_of_lt hmn, hm])
  intro i j t u e e' v hi hj he he'
  obtain ⟨k, d, hk, hki, hd, hbetween⟩ := hbefore i t e v hi he
  obtain ⟨k', d', hk', hkj, hd', hbetween'⟩ := hbefore j u e' v hj he'
  obtain rfl := hdrawn k k' t u d d' v hk hk' hd hd'
  rw [hk] at hk'
  obtain ⟨rfl, rfl⟩ := Prod.mk.inj (Option.some.inj hk')
  rcases Nat.lt_trichotomy i j with hlt | heq | hgt
  · exact absurd (hbetween' i e hi hlt) (by omega)
  · exact heq
  · exact absurd (hbetween j e' hj hgt) (by omega)

end Register

end Interaction
