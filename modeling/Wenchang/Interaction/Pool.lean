import Wenchang.Interaction.Prog

/-!
# Pools of programs

A `Pool` is a world, the calls invoked so far, and the log of every operation in the order in which
they happened. A step invokes a call or lets one call in flight perform its next operation, so a
`Run` is any interleaving. `Run` takes a property `P` of pools and asks it of every pool it passes:
what a theorem assumes "at every moment" is stated there.

A theorem about a run has two sources. `Run.sat` carries the specification of each call's program
over to the pool: what a call did so far is its part of the log (`ownTrace`), and its remaining
program still satisfies the specification after it. `Run.chain` says how the worlds of the log fit
together, across all calls. `Run.past` goes back from a run to the moment a call was invoked.
-/

namespace Interaction

variable {σ : Sig} {ε α κ W : Type}

/-- How a program that performs no further operation has ended. -/
def Prog.outcome? : Prog σ ε α → Option (Except ε α)
  | ret a => some (.ok a)
  | raise e => some (.error e)
  | hang => none
  | vis _ _ => none

/-- A program that has ended is its outcome. -/
theorem Prog.eq_of_outcome {p : Prog σ ε α} {r : Except ε α} (h : p.outcome? = some r) : p = ofExcept r := by
  cases p with
  | ret a => exact Option.some.inj h ▸ rfl
  | raise e => exact Option.some.inj h ▸ rfl
  | hang => cases h
  | vis o k => cases h

/-- A call: what was called, how long the log was then, and what remains to be done. -/
structure Thread (σ : Sig) (ε α κ : Type) where
  call : κ
  start : Nat
  prog : Prog σ ε α

/-- A call that has not returned or raised. -/
def Thread.InFlight (th : Thread σ ε α κ) : Prop := th.prog.outcome? = none

instance (th : Thread σ ε α κ) : Decidable th.InFlight :=
  inferInstanceAs (Decidable (th.prog.outcome? = none))

/-- The operations performed so far, each with the call that performed it. -/
abbrev Log (σ : Sig) (W : Type) := List (Nat × Event σ W)

/-- A world, the calls invoked so far, and everything they did. -/
structure Pool (σ : Sig) (ε α κ W : Type) where
  world : W
  threads : List (Thread σ ε α κ)
  log : Log σ W

/-- How call `t` has ended, if it has. -/
def Pool.returned (p : Pool σ ε α κ W) (t : Nat) : Option (Except ε α) :=
  p.threads[t]?.bind (·.prog.outcome?)

/-- What call `t` did, in order. -/
def ownTrace (t : Nat) (log : Log σ W) : Trace σ W :=
  (log.filter (·.1 = t)).map (·.2)

namespace Pool

variable (E : Env σ W) (body : κ → Prog σ ε α)

/-- The pool before any call. -/
def init (w : W) : Pool σ ε α κ W := ⟨w, [], []⟩

/-- One step: a call is invoked, or a call performs its next operation. -/
inductive Step : Pool σ ε α κ W → Pool σ ε α κ W → Prop
  | invoke (p : Pool σ ε α κ W) (c : κ) :
    Step p ⟨p.world, p.threads ++ [⟨c, p.log.length, body c⟩], p.log⟩
  | act (p : Pool σ ε α κ W) (t : Nat) (c : κ) (start : Nat) (o : σ.Op)
      (k : σ.Ans o → Prog σ ε α) (a : σ.Ans o) (w : W)
      (thread : p.threads[t]? = some ⟨c, start, .vis o k⟩)
      (handles : E.handles p.world o a w) :
    Step p ⟨w, p.threads.set t ⟨c, start, k a⟩, p.log ++ [(t, ⟨p.world, o, a, w⟩)]⟩

/-- The pools reached from the world `w` through pools that all have the property `P`. -/
inductive Run (P : Pool σ ε α κ W → Prop) (w : W) : Pool σ ε α κ W → Prop
  | init (holds : P (Pool.init w)) : Run P w (Pool.init w)
  | step {p p' : Pool σ ε α κ W} (run : Run P w p) (step : Step E body p p') (holds : P p') :
    Run P w p'

end Pool

open Pool

variable {E : Env σ W} {body : κ → Prog σ ε α} {P : Pool σ ε α κ W → Prop} {w : W}
  {p p' : Pool σ ε α κ W}

/-- A call returned what its program has as its outcome. -/
theorem Pool.returned_eq_some {t : Nat} {r : Except ε α} :
    p.returned t = some r ↔ ∃ th, p.threads[t]? = some th ∧ th.prog.outcome? = some r :=
  Option.bind_eq_some_iff

/-- Every state of a run meets what its states must meet. -/
theorem Pool.Run.holds (h : Run E body P w p) : P p := by
  cases h with
  | init h => exact h
  | step _ _ h => exact h

/-- What the states of a run meet may be weakened. -/
theorem Pool.Run.mono {P' : Pool σ ε α κ W → Prop} (h : Run E body P w p)
    (himp : ∀ p, P p → P' p) : Run E body P' w p := by
  induction h with
  | init h => exact .init (himp _ h)
  | step _ hs h ih => exact ih.step hs (himp _ h)

@[simp] theorem ownTrace_nil (t : Nat) : ownTrace t ([] : Log σ W) = [] := rfl

/-- A thread's trace of two logs is the two traces. -/
theorem ownTrace_append (t : Nat) (l l' : Log σ W) :
    ownTrace t (l ++ l') = ownTrace t l ++ ownTrace t l' := by
  simp only [ownTrace, List.filter_append, List.map_append]

/-- An event is appended to the trace of its thread. -/
theorem ownTrace_concat (t u : Nat) (l : Log σ W) (e : Event σ W) :
    ownTrace t (l ++ [(u, e)]) = if u = t then ownTrace t l ++ [e] else ownTrace t l := by
  rw [ownTrace_append]
  by_cases h : u = t
  · simp only [ownTrace, h, List.filter_cons, decide_true, if_pos, List.filter_nil, List.map_cons,
      List.map_nil]
  · simp only [ownTrace, h, List.filter_cons, decide_false, Bool.false_eq_true, if_false,
      List.filter_nil, List.map_nil, List.append_nil]

/-- A thread's trace holds the events that it logged. -/
theorem mem_ownTrace {t : Nat} {l : Log σ W} {e : Event σ W} : e ∈ ownTrace t l ↔ (t, e) ∈ l := by
  simp only [ownTrace, List.mem_map, List.mem_filter, decide_eq_true_eq]
  constructor
  · rintro ⟨⟨u, e'⟩, ⟨hm, rfl⟩, rfl⟩
    exact hm
  · exact fun h => ⟨(t, e), ⟨h, rfl⟩, rfl⟩

/-- An operation of a call stands in the log, with what the call did before and after it. -/
theorem ownTrace_split {t : Nat} {l : Log σ W} {tr tr' : Trace σ W} {e : Event σ W}
    (h : ownTrace t l = tr ++ e :: tr') :
    ∃ l₁ l₂, l = l₁ ++ (t, e) :: l₂ ∧ ownTrace t l₁ = tr ∧ ownTrace t l₂ = tr' := by
  obtain ⟨f₁, f₂, hf, htr, hf₂⟩ := List.map_eq_append_iff.mp h
  obtain ⟨⟨u, e'⟩, f₃, rfl, rfl, htr'⟩ := List.map_eq_cons_iff.mp hf₂
  obtain ⟨l₁, l₂, rfl, hl₁, hl₂⟩ := List.filter_eq_append_iff.mp hf
  obtain ⟨m₁, m₂, rfl, hm₁, hu, hm₂⟩ := List.filter_eq_cons_iff.mp hl₂
  have hut : u = t := of_decide_eq_true hu
  have hnone : ownTrace t m₁ = [] := by
    rw [ownTrace, List.filter_eq_nil_iff.mpr hm₁, List.map_nil]
  refine ⟨l₁ ++ m₁, m₂, by rw [hut, List.append_assoc], ?_, ?_⟩
  · rw [ownTrace_append, hnone, List.append_nil, ownTrace, hl₁, htr]
  · rw [ownTrace, hm₂, htr']

/-- Of two elements of a list, the later one stands behind the earlier one. -/
theorem mem_of_append_cons_eq {β : Type} {l₁ l₂ m₁ m₂ : List β} {a b : β}
    (h : l₁ ++ a :: l₂ = m₁ ++ b :: m₂) (hlt : l₁.length < m₁.length) : b ∈ l₂ := by
  obtain ⟨d, hd⟩ := Nat.exists_eq_add_of_lt hlt
  have hb : (l₁ ++ a :: l₂)[m₁.length]? = some b := by
    rw [h, List.getElem?_append_right (Nat.le_refl _), Nat.sub_self, List.getElem?_cons_zero]
  rw [List.getElem?_append_right (Nat.le_of_lt hlt), hd, Nat.add_assoc, Nat.add_sub_cancel_left,
    List.getElem?_cons_succ] at hb
  exact List.mem_of_getElem? hb

/-- At most one element has a property if none before one that has it does. -/
theorem countP_le_one {β : Type} {q : β → Bool} {l : List β}
    (h : ∀ l₁ b l₂, l = l₁ ++ b :: l₂ → q b = true → ∀ a ∈ l₁, ¬ q a = true) : l.countP q ≤ 1 := by
  induction l using List.reverseRecOn with
  | nil => exact Nat.zero_le 1
  | append_singleton l b ih =>
    rw [List.countP_append, List.countP_singleton]
    by_cases hb : q b = true
    · have hnone : l.countP q = 0 := List.countP_eq_zero.mpr (h l b [] rfl hb)
      rw [hnone, if_pos hb]
    · rw [if_neg hb]
      exact ih fun l₁ a l₂ hl => h l₁ a (l₂ ++ [b]) (by rw [hl, List.append_assoc]; rfl)

/-- There are no more positions with a property than elements. -/
theorem card_le_countP {β : Type} {q : β → Bool} {l : List β} {S : Finset Nat}
    (h : ∀ i ∈ S, ∃ b, l[i]? = some b ∧ q b = true) : S.card ≤ l.countP q := by
  induction l using List.reverseRecOn generalizing S with
  | nil =>
    have hempty : S = ∅ := Finset.eq_empty_of_forall_notMem fun i hi => by
      obtain ⟨b, hb, -⟩ := h i hi
      cases hb
    exact hempty ▸ Nat.le_refl 0
  | append_singleton l b ih =>
    have hrest := @ih (S.erase l.length) fun i hi => by
      obtain ⟨hne, hi⟩ := Finset.mem_erase.mp hi
      obtain ⟨c, hc, hq⟩ := h i hi
      rcases Nat.lt_or_ge i l.length with hlt | hge
      · rw [List.getElem?_append_left hlt] at hc
        exact ⟨c, hc, hq⟩
      · have hlast := (List.getElem?_eq_some_iff.mp hc).1
        rw [List.length_append, List.length_singleton] at hlast
        exact absurd (by omega) hne
    rw [List.countP_append, List.countP_singleton]
    by_cases hlast : l.length ∈ S
    · obtain ⟨c, hc, hq⟩ := h _ hlast
      rw [List.getElem?_concat_length] at hc
      cases hc
      rw [if_pos hq, ← Finset.card_erase_add_one hlast]
      exact Nat.succ_le_succ hrest
    · rw [Finset.erase_eq_of_notMem hlast] at hrest
      exact Nat.le_add_right_of_le hrest

/-! ## How the worlds of a log fit together -/

/-- The log leads from one world to another, each operation handled in the world it met. -/
def Chain (E : Env σ W) : W → Log σ W → W → Prop
  | w, [], w' => w = w'
  | w, (_, e) :: l, w' => e.pre = w ∧ E.handles e.pre e.op e.ans e.post ∧ Chain E e.post l w'

/-- Two chains in sequence are one. -/
theorem chain_append {l l' : Log σ W} {w w' : W} :
    Chain E w (l ++ l') w' ↔ ∃ v, Chain E w l v ∧ Chain E v l' w' := by
  induction l generalizing w with
  | nil => exact ⟨fun h => ⟨w, rfl, h⟩, fun ⟨_, h, h'⟩ => h ▸ h'⟩
  | cons e l ih =>
    simp only [List.cons_append, Chain, ih]
    constructor
    · rintro ⟨hpre, hh, v, hv, hv'⟩
      exact ⟨v, ⟨hpre, hh, hv⟩, hv'⟩
    · rintro ⟨v, ⟨hpre, hh, hv⟩, hv'⟩
      exact ⟨hpre, hh, v, hv, hv'⟩

/-- A chain goes from one world to a later one. -/
theorem Chain.rely {l : Log σ W} {w w' : W} (h : Chain E w l w') : E.rely w w' := by
  induction l generalizing w with
  | nil => exact h ▸ E.rely_refl w
  | cons e l ih =>
    obtain ⟨hpre, hh, hrest⟩ := h
    exact hpre ▸ E.rely_trans (E.rely_of_handles hh) (ih hrest)

/-- One operation of a log: what led to it, how it was handled, what came of it. -/
theorem Chain.split {l l' : Log σ W} {t : Nat} {e : Event σ W} {w w' : W}
    (h : Chain E w (l ++ (t, e) :: l') w') :
    Chain E w l e.pre ∧ E.handles e.pre e.op e.ans e.post ∧ Chain E e.post l' w' := by
  obtain ⟨v, hv, hpre, hh, hrest⟩ := chain_append.mp h
  exact ⟨hpre ▸ hv, hh, hrest⟩

/-- What every operation of a log keeps holds at its end, and held when each was performed. -/
theorem Chain.keeps {I : W → Prop} {l : Log σ W} {w w' : W} (h : Chain E w l w') (hw : I w)
    (hkeep : ∀ l₁ t e l₂, l = l₁ ++ (t, e) :: l₂ → E.handles e.pre e.op e.ans e.post → I e.pre →
      I e.post) : I w' ∧ ∀ te ∈ l, I te.2.pre := by
  induction l using List.reverseRecOn generalizing w' with
  | nil =>
    have hw' : w = w' := h
    exact ⟨hw' ▸ hw, fun te hte => absurd hte List.not_mem_nil⟩
  | append_singleton l te ih =>
    obtain ⟨t, e⟩ := te
    obtain ⟨hl, hh, hpost⟩ := h.split
    have hw' : e.post = w' := hpost
    obtain ⟨hpre, hall⟩ := ih hl fun l₁ u e' l₂ hsplit =>
      hkeep l₁ u e' (l₂ ++ [(t, e)]) (by rw [hsplit, List.append_assoc]; rfl)
    refine ⟨hw' ▸ hkeep l t e [] rfl hh hpre, fun te hte => ?_⟩
    rcases List.mem_append.mp hte with hte | hte
    · exact hall te hte
    · exact List.mem_singleton.mp hte ▸ hpre

/-- What holds of a world has held from the start, or since some operation. -/
theorem Chain.since (q : W → Prop) {l : Log σ W} {w w' : W} (h : Chain E w l w') (hq : q w') :
    (q w ∧ ∀ te ∈ l, q te.2.pre) ∨ ∃ l₁ t e l₂, l = l₁ ++ (t, e) :: l₂ ∧ ¬ q e.pre ∧ q e.post ∧
      ∀ te ∈ l₂, q te.2.pre := by
  induction l using List.reverseRecOn generalizing w' with
  | nil =>
    have hw : w = w' := h
    exact .inl ⟨hw ▸ hq, fun te hte => absurd hte List.not_mem_nil⟩
  | append_singleton l te ih =>
    obtain ⟨t, e⟩ := te
    obtain ⟨hl, -, hpost⟩ := h.split
    have hw : e.post = w' := hpost
    by_cases hpre : q e.pre
    · rcases ih hl hpre with ⟨hstart, hall⟩ | ⟨l₁, u, e', l₂, rfl, hnot, hsince, hall⟩
      · refine .inl ⟨hstart, fun te hte => ?_⟩
        rcases List.mem_append.mp hte with hte | hte
        · exact hall te hte
        · exact List.mem_singleton.mp hte ▸ hpre
      · refine .inr ⟨l₁, u, e', l₂ ++ [(t, e)], by rw [List.append_assoc]; rfl, hnot, hsince,
          fun te hte => ?_⟩
        rcases List.mem_append.mp hte with hte | hte
        · exact hall te hte
        · exact List.mem_singleton.mp hte ▸ hpre
    · exact .inr ⟨l, t, e, [], rfl, hpre, hw ▸ hq, fun te hte => absurd hte List.not_mem_nil⟩

/-- **The log of a run is a chain** from its first world to its last. -/
theorem Pool.Run.chain (h : Run E body P w p) : Chain E w p.log p.world := by
  induction h with
  | init => rfl
  | step _ hs _ ih =>
    cases hs with
    | invoke c => exact ih
    | act t c start o k a w' hth hh => exact chain_append.mpr ⟨_, ih, rfl, hh, rfl⟩

/-- What holds of the world at every moment held of it at every operation. -/
theorem Pool.Run.pre {R : W → Prop} (h : Run E body (fun p => R p.world) w p) {t : Nat}
    {e : Event σ W} (he : (t, e) ∈ p.log) : R e.pre := by
  induction h with
  | init => exact absurd he List.not_mem_nil
  | step hrun hs _ ih =>
    cases hs with
    | invoke c => exact ih he
    | act u c start o k a w' hth hh =>
      rcases List.mem_append.mp he with he | he
      · exact ih he
      · cases List.mem_singleton.mp he
        exact hrun.holds

/-! ## What one step does to the calls -/

/-- What stands in a list with one more stood there before, or is the new one. -/
theorem getElem?_concat {β : Type} {l : List β} {b x : β} {t : Nat} (h : (l ++ [b])[t]? = some x) :
    l[t]? = some x ∨ (t = l.length ∧ x = b) := by
  rcases Nat.lt_or_ge t l.length with hlt | hge
  · rw [List.getElem?_append_left hlt] at h
    exact .inl h
  · rw [List.getElem?_append_right hge, List.getElem?_singleton] at h
    split at h
    next hzero => exact .inr ⟨by omega, (Option.some.inj h).symm⟩
    next => exact nomatch h

/-- A call after a step: untouched, just invoked, or the one that performed the operation. -/
theorem Pool.Step.thread_cases (h : Step E body p p') {t : Nat} {th : Thread σ ε α κ}
    (ht : p'.threads[t]? = some th) :
    (p.threads[t]? = some th ∧ ownTrace t p'.log = ownTrace t p.log) ∨
    (t = p.threads.length ∧ th = ⟨th.call, p.log.length, body th.call⟩ ∧ p'.log = p.log) ∨
    (∃ c start o k a w', p.threads[t]? = some ⟨c, start, .vis o k⟩ ∧ th = ⟨c, start, k a⟩ ∧
      E.handles p.world o a w' ∧ p'.log = p.log ++ [(t, ⟨p.world, o, a, w'⟩)]) := by
  cases h with
  | invoke c =>
    rcases getElem?_concat ht with ht | ⟨hnew, rfl⟩
    · exact .inl ⟨ht, rfl⟩
    · exact .inr (.inl ⟨hnew, rfl, rfl⟩)
  | act u c start o k a w' hu hh =>
    by_cases htu : u = t
    · subst htu
      have hlt : u < p.threads.length := (List.getElem?_eq_some_iff.mp hu).1
      rw [List.getElem?_set_self hlt] at ht
      exact .inr (.inr ⟨c, start, o, k, a, w', hu, (Option.some.inj ht).symm, hh, rfl⟩)
    · rw [List.getElem?_set_ne htu] at ht
      exact .inl ⟨ht, by rw [ownTrace_concat, if_neg htu]⟩

/-- A call before a step is still there after it: the same call, invoked at the same moment. -/
theorem Pool.Step.thread_later (h : Step E body p p') {t : Nat} {th : Thread σ ε α κ}
    (ht : p.threads[t]? = some th) :
    ∃ prog, p'.threads[t]? = some ⟨th.call, th.start, prog⟩ := by
  have hlt : t < p.threads.length := (List.getElem?_eq_some_iff.mp ht).1
  cases h with
  | invoke c => exact ⟨th.prog, by rw [List.getElem?_append_left hlt, ht]⟩
  | act u c start o k a w' hu hh =>
    by_cases htu : u = t
    · subst htu
      rw [hu] at ht
      cases ht
      exact ⟨k a, List.getElem?_set_self hlt⟩
    · exact ⟨th.prog, by rw [List.getElem?_set_ne htu, ht]⟩

/-- The log after a step: the same, or one operation longer. -/
theorem Pool.Step.log_cases (h : Step E body p p') :
    p'.log = p.log ∨ ∃ t c start o k a w', p.threads[t]? = some ⟨c, start, .vis o k⟩ ∧
      E.handles p.world o a w' ∧ p'.log = p.log ++ [(t, ⟨p.world, o, a, w'⟩)] := by
  cases h with
  | invoke c => exact .inl rfl
  | act t c start o k a w' ht hh => exact .inr ⟨t, c, start, o, k, a, w', ht, hh, rfl⟩

/-! ## What each call does -/

/-- Every operation belongs to a call. -/
theorem Pool.Run.lt_of_mem_log (h : Run E body P w p) {t : Nat} {e : Event σ W}
    (he : (t, e) ∈ p.log) : t < p.threads.length := by
  induction h with
  | init => exact absurd he List.not_mem_nil
  | step _ hs _ ih =>
    have hgrow : ∀ u th, _ := fun u th => @Pool.Step.thread_later _ _ _ _ _ _ _ _ _ hs u th
    rcases hs.log_cases with hlog | ⟨u, c, start, o, k, a, w', hu, -, hlog⟩
    · obtain ⟨prog, ht⟩ := hgrow t _ (List.getElem?_eq_getElem (ih (hlog ▸ he)))
      exact (List.getElem?_eq_some_iff.mp ht).1
    · rw [hlog, List.mem_append, List.mem_singleton] at he
      rcases he with he | he
      · obtain ⟨prog, ht⟩ := hgrow t _ (List.getElem?_eq_getElem (ih he))
        exact (List.getElem?_eq_some_iff.mp ht).1
      · obtain ⟨prog, ht⟩ := hgrow u _ hu
        rw [(Prod.mk.inj he).1]
        exact (List.getElem?_eq_some_iff.mp ht).1

/-- A call that is not there has done nothing. -/
theorem Pool.Run.ownTrace_eq_nil (h : Run E body P w p) {t : Nat} (ht : p.threads.length ≤ t) :
    ownTrace t p.log = [] := by
  refine List.eq_nil_iff_forall_not_mem.mpr fun e he => ?_
  exact absurd (h.lt_of_mem_log (mem_ownTrace.mp he)) (Nat.not_lt.mpr ht)

/-- An operation now answered in the current world may come after what its call did before. -/
theorem Pool.Run.admits (h : Run E body P w p) (t : Nat) {o : σ.Op} {a : σ.Ans o} {w' : W}
    (hh : E.handles p.world o a w') : E.Admits (ownTrace t p.log) ⟨p.world, o, a, w'⟩ where
  handles := hh
  rely e' he' := by
    obtain ⟨l₁, l₂, hl⟩ := List.append_of_mem (mem_ownTrace.mp he')
    have hc := h.chain
    rw [hl] at hc
    exact hc.split.2.2.rely

/-- What remains of a program once it has been answered as a trace says. -/
inductive Prog.Follows : Prog σ ε α → Trace σ W → Prog σ ε α → Prop
  | nil (q : Prog σ ε α) : Follows q [] q
  | cons (w : W) (o : σ.Op) (a : σ.Ans o) (w' : W) (k : σ.Ans o → Prog σ ε α) {tr : Trace σ W}
      {q : Prog σ ε α} (rest : (k a).Follows tr q) : Follows (.vis o k) (⟨w, o, a, w'⟩ :: tr) q

/-- What a program is left with follows one more event. -/
theorem Prog.Follows.concat {q : Prog σ ε α} {tr : Trace σ W} {o : σ.Op} {k : σ.Ans o → Prog σ ε α}
    (h : q.Follows tr (.vis o k)) (w : W) (a : σ.Ans o) (w' : W) :
    q.Follows (tr ++ [⟨w, o, a, w'⟩]) (k a) := by
  generalize hr : Prog.vis o k = r at h
  induction h with
  | nil q => exact hr ▸ .cons w o a w' k (.nil _)
  | cons w₁ o₁ a₁ w₂ k₁ _ ih => exact .cons w₁ o₁ a₁ w₂ k₁ (ih hr)

/-- Nothing follows a raise. -/
theorem Prog.Follows.raise_eq {e : ε} {tr : Trace σ W} {q : Prog σ ε α}
    (h : (Prog.raise e).Follows tr q) : tr = [] ∧ q = .raise e := by
  cases h
  exact ⟨rfl, rfl⟩

/-- A sequence that returned: its first part did, and then the rest. -/
theorem Prog.Follows.of_bind {β : Type} {q : Prog σ ε α} {f : α → Prog σ ε β} {tr : Trace σ W} {b : β}
    (h : (q >>= f).Follows tr (.ret b)) :
    ∃ a tr₁ tr₂, tr = tr₁ ++ tr₂ ∧ q.Follows tr₁ (.ret a) ∧ (f a).Follows tr₂ (.ret b) := by
  induction q generalizing tr with
  | ret a => exact ⟨a, [], tr, rfl, .nil _, h⟩
  | raise e => cases h
  | hang => cases h
  | vis o k ih =>
    cases h with
    | cons w o a w' k' rest =>
      obtain ⟨b', tr₁, tr₂, rfl, hfirst, hrest⟩ := ih a rest
      exact ⟨b', ⟨w, o, a, w'⟩ :: tr₁, tr₂, rfl, .cons w o a w' k hfirst, hrest⟩

/-- What a program did that ended: it followed its own text, with operations it can issue. -/
theorem Prog.Issues.sat_follows {G : Trace σ W → σ.Op → Prop} {P : σ.Op → Prop} {p : Prog σ ε α}
    {tr : Trace σ W} (hp : p.Issues P) (hG : ∀ q o, P o → G (tr ++ q) o) :
    p.Sat E G (fun tr' r => ∃ q, tr' = tr ++ q ∧ p.Follows q (.ofExcept r) ∧ ∀ e ∈ q, P e.op) tr := by
  induction p generalizing tr with
  | ret a => exact ⟨[], (List.append_nil tr).symm, .nil _, nofun⟩
  | raise e => exact ⟨[], (List.append_nil tr).symm, .nil _, nofun⟩
  | hang => trivial
  | vis o k ih =>
    have hissue := hG [] o hp.1
    rw [List.append_nil] at hissue
    refine ⟨hissue, fun w a w' _ => ?_⟩
    have hrest : ∀ q o', P o' → G (tr ++ [⟨w, o, a, w'⟩] ++ q) o' := fun q o' ho' => by
      rw [List.append_assoc]
      exact hG _ o' ho'
    refine (ih a (hp.2 a) hrest).post ?_
    rintro tr' r ⟨q, rfl, hfollows, hq⟩
    exact ⟨⟨w, o, a, w'⟩ :: q, List.append_assoc _ _ _, .cons w o a w' k hfollows,
      List.forall_mem_cons.mpr ⟨hp.1, hq⟩⟩

/-- **A call is where its trace has brought it.** -/
theorem Pool.Run.follows (h : Run E body P w p) {t : Nat} {th : Thread σ ε α κ}
    (ht : p.threads[t]? = some th) : (body th.call).Follows (ownTrace t p.log) th.prog := by
  induction h generalizing th with
  | init => exact nomatch ht
  | step hrun hs _ ih =>
    rcases hs.thread_cases ht with ⟨ht', htr⟩ | ⟨hnew, hth, hlog⟩ |
      ⟨c, start, o, k, a, w', ht', rfl, hh, hlog⟩
    · rw [htr]
      exact ih ht'
    · rw [hth, hlog, hrun.ownTrace_eq_nil (Nat.le_of_eq hnew.symm)]
      exact .nil _
    · rw [hlog, ownTrace_concat, if_pos rfl]
      exact (ih ht').concat _ a w'

/-- No call begins after the log's end. -/
theorem Pool.Run.start_le (h : Run E body P w p) {t : Nat} {th : Thread σ ε α κ}
    (ht : p.threads[t]? = some th) : th.start ≤ p.log.length := by
  induction h generalizing th with
  | init => exact nomatch ht
  | step _ hs _ ih =>
    rcases hs.thread_cases ht with ⟨ht', -⟩ | ⟨-, hth, hlog⟩ | ⟨c, start, o, k, a, w', ht', rfl, -, hlog⟩
    · have hgrow := hs.log_cases
      have hle := ih ht'
      rcases hgrow with hlog | ⟨_, _, _, _, _, _, _, -, -, hlog⟩
      · rw [hlog]
        exact hle
      · rw [hlog, List.length_append]
        omega
    · exact Nat.le_of_eq (by rw [hth, hlog])
    · have hle := ih ht'
      rw [hlog, List.length_append]
      exact Nat.le_add_right_of_le hle

section Spec

variable {G : κ → Trace σ W → σ.Op → Prop} {Q : κ → Trace σ W → Except ε α → Prop}

/-- **The specification of every call holds in the pool.** What remains of a call satisfies the
call's specification after what the call did. -/
theorem Pool.Run.sat (hbody : ∀ c, (body c).Sat E (G c) (Q c) []) (h : Run E body P w p) {t : Nat}
    {th : Thread σ ε α κ} (ht : p.threads[t]? = some th) :
    th.prog.Sat E (G th.call) (Q th.call) (ownTrace t p.log) := by
  induction h generalizing th with
  | init => exact nomatch ht
  | step hrun hs _ ih =>
    rcases hs.thread_cases ht with ⟨ht', htr⟩ | ⟨hnew, hth, hlog⟩ |
      ⟨c, start, o, k, a, w', ht', rfl, hh, hlog⟩
    · rw [htr]
      exact ih ht'
    · rw [hth, hlog, hrun.ownTrace_eq_nil (Nat.le_of_eq hnew.symm)]
      exact hbody th.call
    · rw [hlog, ownTrace_concat, if_pos rfl]
      exact (ih ht').2 _ a w' (hrun.admits t hh)

/-- What a call that has ended did, and how it ended, is as specified. -/
theorem Pool.Run.post (hbody : ∀ c, (body c).Sat E (G c) (Q c) []) (h : Run E body P w p) {t : Nat}
    {th : Thread σ ε α κ} (ht : p.threads[t]? = some th) {r : Except ε α}
    (hr : th.prog.outcome? = some r) : Q th.call (ownTrace t p.log) r := by
  have hsat := h.sat hbody ht
  rw [Prog.eq_of_outcome hr] at hsat
  exact (Prog.sat_ofExcept _ _).mp hsat

/-- **Every operation was guaranteed when it was issued**, by the call it belongs to, which had been
invoked before. -/
theorem Pool.Run.guarantee (hbody : ∀ c, (body c).Sat E (G c) (Q c) []) (h : Run E body P w p)
    {l l' : Log σ W} {t : Nat} {e : Event σ W} (hl : p.log = l ++ (t, e) :: l') :
    ∃ th, p.threads[t]? = some th ∧ th.start ≤ l.length ∧ G th.call (ownTrace t l) e.op ∧
      E.Admits (ownTrace t l) e := by
  induction h generalizing l' with
  | init => exact absurd hl.symm (List.append_ne_nil_of_right_ne_nil _ (List.cons_ne_nil _ _))
  | @step q q' hrun hs _ ih =>
    -- An operation of the log before the step was guaranteed then; its call is still there.
    have hold : ∀ r, q.log = l ++ (t, e) :: r → ∃ th, q'.threads[t]? = some th ∧
        th.start ≤ l.length ∧ G th.call (ownTrace t l) e.op ∧ E.Admits (ownTrace t l) e :=
      fun r hr => by
        obtain ⟨th, ht, hstart, hg, ha⟩ := ih hr
        obtain ⟨prog, ht'⟩ := hs.thread_later ht
        exact ⟨_, ht', hstart, hg, ha⟩
    rcases hs.log_cases with hlog | ⟨u, c, start, o, k, a, w', hu, hh, hlog⟩
    · exact hold l' (hlog ▸ hl)
    · rw [hlog] at hl
      rcases List.eq_nil_or_concat l' with rfl | ⟨r, e', rfl⟩
      · obtain ⟨rfl, hlast⟩ := List.append_inj' hl rfl
        obtain ⟨rfl, rfl⟩ := Prod.mk.inj (List.cons.inj hlast).1
        obtain ⟨prog, ht'⟩ := hs.thread_later hu
        have hstart := hrun.start_le hu
        exact ⟨_, ht', hstart, (hrun.sat hbody hu).1, hrun.admits u hh⟩
      · rw [List.concat_eq_append, ← List.cons_append, ← List.append_assoc] at hl
        exact hold r (List.append_inj' hl rfl).1

end Spec

/-! ## Going back in a run -/

/-- `p'` may come after `p`: its log goes on from there, every call of `p` is still there, and a call
that had ended has done nothing since. -/
structure Pool.Extends (p p' : Pool σ ε α κ W) : Prop where
  log : p.log <+: p'.log
  later : ∀ (t : Nat) (th : Thread σ ε α κ), p.threads[t]? = some th →
    ∃ prog, p'.threads[t]? = some ⟨th.call, th.start, prog⟩
  ended : ∀ (t : Nat) (th : Thread σ ε α κ), p.threads[t]? = some th → ¬ th.InFlight →
    ownTrace t p'.log = ownTrace t p.log ∧ p'.threads[t]? = some th

/-- A pool extends itself. -/
theorem Pool.Extends.refl (p : Pool σ ε α κ W) : p.Extends p :=
  ⟨List.prefix_rfl, fun _ th h => ⟨th.prog, h⟩, fun _ _ h _ => ⟨rfl, h⟩⟩

/-- Extensions compose. -/
theorem Pool.Extends.trans {p₁ p₂ p₃ : Pool σ ε α κ W} (h : p₁.Extends p₂) (h' : p₂.Extends p₃) :
    p₁.Extends p₃ where
  log := h.log.trans h'.log
  later t th ht := by
    obtain ⟨prog, ht'⟩ := h.later t th ht
    have hlater := h'.later t _ ht'
    exact hlater
  ended t th ht hend := by
    obtain ⟨htr, ht'⟩ := h.ended t th ht hend
    obtain ⟨htr', ht''⟩ := h'.ended t th ht' hend
    exact ⟨htr'.trans htr, ht''⟩

/-- A step extends its pool. -/
theorem Pool.Step.extends (h : Step E body p p') : p.Extends p' where
  log := by
    rcases h.log_cases with hlog | ⟨_, _, _, _, _, _, _, -, -, hlog⟩
    · exact hlog ▸ List.prefix_rfl
    · exact hlog ▸ List.prefix_append _ _
  later t th ht := h.thread_later ht
  ended t th ht hend := by
    obtain ⟨prog, ht'⟩ := h.thread_later ht
    rcases h.thread_cases ht' with ⟨hsame, htr⟩ | ⟨hnew, -⟩ | ⟨c, start, o, k, a, w', hvis, -⟩
    · exact ⟨htr, ht'.trans (hsame.symm.trans ht)⟩
    · exact absurd (List.getElem?_eq_some_iff.mp ht).1 (hnew ▸ Nat.lt_irrefl _)
    · rw [hvis] at ht
      exact absurd rfl (Option.some.inj ht ▸ hend)

/-- What a run passed came before where it is. -/
theorem Pool.Run.passed (h : Run E body P w p) : Run E body (fun q => P q ∧ q.Extends p) w p := by
  induction h with
  | init h => exact .init ⟨h, Extends.refl _⟩
  | @step q q' _ hs h ih =>
    have hbefore : Run E body (fun r => P r ∧ r.Extends q') w q :=
      ih.mono fun r hr => ⟨hr.1, hr.2.trans hs.extends⟩
    exact hbefore.step hs ⟨h, Extends.refl _⟩

/-- Calls do not go away. -/
theorem Pool.Extends.length_le (h : p.Extends p') : p.threads.length ≤ p'.threads.length := by
  by_contra hlt
  rw [Nat.not_le] at hlt
  obtain ⟨prog, ht⟩ := h.later _ _ (List.getElem?_eq_getElem hlt)
  exact absurd (List.getElem?_eq_some_iff.mp ht).1 (Nat.lt_irrefl _)

/-- **The moment a call was invoked.** A pool the run passed: it had the property `P`, the call was
its last, and its log ended where the call starts. -/
theorem Pool.Run.past (h : Run E body P w p) {t : Nat} {th : Thread σ ε α κ}
    (ht : p.threads[t]? = some th) : ∃ q, Run E body P w q ∧ q.Extends p ∧
      q.threads.length = t + 1 ∧ q.threads[t]? = some ⟨th.call, th.start, body th.call⟩ ∧
      q.log.length = th.start := by
  induction h generalizing th with
  | init => exact nomatch ht
  | @step q q' hrun hs hq ih =>
    rcases hs.thread_cases ht with ⟨ht', -⟩ | ⟨rfl, hth, hlog⟩ | ⟨c, start, o, k, a, w', ht', rfl, -⟩
    · obtain ⟨r, hr, hext, hlen, hth, hstart⟩ := ih ht'
      exact ⟨r, hr, hext.trans hs.extends, hlen, hth, hstart⟩
    · refine ⟨q', hrun.step hs hq, Extends.refl q', ?_, hth ▸ ht, ?_⟩
      · cases hs with
        | invoke c => exact List.length_append
        | act u c start o k a w' hu hh =>
          have := (List.getElem?_eq_some_iff.mp ht).1
          rw [List.length_set] at this
          exact absurd this (Nat.lt_irrefl _)
      · rw [hlog, hth]
    · obtain ⟨r, hr, hext, hlen, hth, hstart⟩ := ih ht'
      exact ⟨r, hr, hext.trans hs.extends, hlen, hth, hstart⟩

/-- A call that does something later was in flight. -/
theorem Pool.Extends.inFlight {p p' : Pool σ ε α κ W} (h : p.Extends p') {t : Nat}
    {th : Thread σ ε α κ} (ht : p.threads[t]? = some th) {l l' : Log σ W} {e : Event σ W}
    (hl : p'.log = l ++ (t, e) :: l') (hlen : p.log.length ≤ l.length) : th.InFlight := by
  by_contra hend
  have htr := (h.ended t th ht hend).1
  obtain ⟨r, hr⟩ := h.log
  have hsplit : l = p.log ++ l.drop p.log.length := by
    have hpre : p.log <+: l := by
      refine List.prefix_of_prefix_length_le ⟨r, hr⟩ ?_ hlen
      exact ⟨_, hl.symm⟩
    obtain ⟨m, rfl⟩ := hpre
    rw [List.drop_left]
  rw [hl, hsplit, List.append_assoc, ownTrace_append] at htr
  have hnil := List.append_right_eq_self.mp htr
  have hmem : e ∈ ownTrace t (l.drop p.log.length ++ (t, e) :: l') :=
    mem_ownTrace.mpr (List.mem_append_right _ List.mem_cons_self)
  rw [hnil] at hmem
  exact absurd hmem List.not_mem_nil

/-! ## Running a schedule -/

/-- One entry of a schedule: invoke a call, or let a call perform its next operation, answered by
one of a family of handlers. -/
inductive Choice (κ ι : Type) where
  | invoke (c : κ)
  | act (t : Nat) (i : ι)

namespace Pool

variable {ι : Type} (H : ι → (o : σ.Op) → W → σ.Ans o × W)

/-- The pool a schedule leads to, or `none` where it lets a call act that has ended. -/
def exec (body : κ → Prog σ ε α) : List (Choice κ ι) → Pool σ ε α κ W → Option (Pool σ ε α κ W)
  | [], p => some p
  | .invoke c :: rest, p =>
    exec body rest ⟨p.world, p.threads ++ [⟨c, p.log.length, body c⟩], p.log⟩
  | .act t i :: rest, p =>
    match p.threads[t]? with
    | some ⟨c, start, .vis o k⟩ =>
      exec body rest ⟨(H i o p.world).2, p.threads.set t ⟨c, start, k (H i o p.world).1⟩,
        p.log ++ [(t, ⟨p.world, o, (H i o p.world).1, (H i o p.world).2⟩)]⟩
    | _ => none

/-- A schedule whose handlers the environment allows is a run. -/
theorem Run.exec (hH : ∀ i o w, E.handles w o (H i o w).1 (H i o w).2)
    (h : Run E body (fun _ => True) w p) {schedule : List (Choice κ ι)}
    (he : exec H body schedule p = some p') : Run E body (fun _ => True) w p' := by
  induction schedule generalizing p with
  | nil => exact Option.some.inj he ▸ h
  | cons choice rest ih =>
    cases choice with
    | invoke c => exact ih (h.step (.invoke p c) trivial) he
    | act t i =>
      unfold Pool.exec at he
      split at he
      next c start o k ht => exact ih (h.step (.act p t c start o k _ _ ht (hH i o _)) trivial) he
      next => exact nomatch he

/-- The pool a schedule leads to, where its handlers answer some operations only. -/
def execWhere (ok : ι → W → σ.Op → Bool) (body : κ → Prog σ ε α) :
    List (Choice κ ι) → Pool σ ε α κ W → Option (Pool σ ε α κ W)
  | [], p => some p
  | .invoke c :: rest, p =>
    execWhere ok body rest ⟨p.world, p.threads ++ [⟨c, p.log.length, body c⟩], p.log⟩
  | .act t i :: rest, p =>
    match p.threads[t]? with
    | some ⟨c, start, .vis o k⟩ =>
      if ok i p.world o then
        execWhere ok body rest ⟨(H i o p.world).2, p.threads.set t ⟨c, start, k (H i o p.world).1⟩,
          p.log ++ [(t, ⟨p.world, o, (H i o p.world).1, (H i o p.world).2⟩)]⟩
      else none
    | _ => none

/-- What is executed is a run, where the choices are allowed. -/
theorem Run.execWhere {ok : ι → W → σ.Op → Bool}
    (hH : ∀ i o w, ok i w o = true → E.handles w o (H i o w).1 (H i o w).2)
    (h : Run E body (fun _ => True) w p) {schedule : List (Choice κ ι)}
    (he : execWhere H ok body schedule p = some p') : Run E body (fun _ => True) w p' := by
  induction schedule generalizing p with
  | nil => exact Option.some.inj he ▸ h
  | cons choice rest ih =>
    cases choice with
    | invoke c => exact ih (h.step (.invoke p c) trivial) he
    | act t i =>
      unfold Pool.execWhere at he
      split at he
      next c start o k ht =>
        split at he
        next hok => exact ih (h.step (.act p t c start o k _ _ ht (hH i o _ hok)) trivial) he
        next => cases he
      next => cases he

/-- A schedule's calls are the ones it invokes. -/
theorem exec_calls {schedule : List (Choice κ ι)} (he : exec H body schedule p = some p') {th : Thread σ ε α κ}
    (hth : th ∈ p'.threads) : (∃ th' ∈ p.threads, th'.call = th.call) ∨ .invoke th.call ∈ schedule := by
  induction schedule generalizing p with
  | nil => exact .inl ⟨th, Option.some.inj he ▸ hth, rfl⟩
  | cons choice rest ih =>
    cases choice with
    | invoke c =>
      rcases ih he with ⟨th', hth', hcall⟩ | hlater
      · rcases List.mem_append.mp hth' with hth' | hnew
        · exact .inl ⟨th', hth', hcall⟩
        · obtain rfl := List.mem_singleton.mp hnew
          exact .inr (hcall ▸ List.mem_cons_self)
      · exact .inr (List.mem_cons_of_mem _ hlater)
    | act t i =>
      unfold Pool.exec at he
      split at he
      next c start o k ht =>
        rcases ih he with ⟨th', hth', hcall⟩ | hlater
        · rcases List.mem_or_eq_of_mem_set hth' with hth' | rfl
          · exact .inl ⟨th', hth', hcall⟩
          · exact .inl ⟨_, List.mem_of_getElem? ht, hcall⟩
        · exact .inr (List.mem_cons_of_mem _ hlater)
      next => cases he

end Pool

end Interaction
