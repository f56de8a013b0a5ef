import Wenchang.Interaction.Pool

/-!
# Programs with their outcome wrapped

`p.mapOutcome g` does what `p` does and ends as `g` says of the way `p` ended. A layer that only checks
arguments before a call and shapes its outcome afterwards is such a wrapper, so a run of wrapped calls is a
run of the calls themselves: the same world, the same log, and outcomes that correspond
(`Pool.Run.unwrap`).
-/

namespace Interaction

variable {σ τ : Sig} {ε ε' ε'' α β γ κ κ' W : Type}

namespace Prog

/-- Run `p` to its end, and end as `g` says. -/
def mapOutcome (g : Except ε α → Except ε' β) : Prog σ ε α → Prog σ ε' β
  | ret a => ofExcept (g (.ok a))
  | raise e => ofExcept (g (.error e))
  | hang => hang
  | vis o k => vis o fun a => (k a).mapOutcome g

variable {g : Except ε α → Except ε' β} {p : Prog σ ε α}

/-- Catching and raising again is mapping the outcome. -/
theorem attempt_bind_ofExcept (p : Prog σ ε α) (g : Except ε α → Except ε' β) :
    ((p.attempt : Prog σ ε' _) >>= fun r => ofExcept (g r)) = p.mapOutcome g := by
  induction p with
  | ret a => rfl
  | raise e => rfl
  | hang => rfl
  | vis o k ih => exact congrArg (vis o) (funext ih)

/-- Outcomes are mapped in sequence. -/
theorem mapOutcome_mapOutcome (g' : Except ε' β → Except ε'' γ) :
    (p.mapOutcome g).mapOutcome g' = p.mapOutcome fun r => g' (g r) := by
  have hof : ∀ r : Except ε' β, (ofExcept r : Prog σ ε' β).mapOutcome g' = ofExcept (g' r) := by
    intro r
    cases r <;> rfl
  induction p with
  | ret a => exact hof _
  | raise e => exact hof _
  | hang => rfl
  | vis o k ih => exact congrArg (vis o) (funext ih)

/-- Returning a function of the result. -/
theorem bind_ret_mapOutcome (f : α → β) (g : Except ε β → Except ε' γ) :
    (p >>= fun a => ret (f a)).mapOutcome g = p.mapOutcome fun r => g (r.map f) := by
  induction p with
  | ret a => rfl
  | raise e => rfl
  | hang => rfl
  | vis o k ih => exact congrArg (vis o) (funext ih)

/-- An operation whose implementation is a program run to its end. -/
theorem interp_vis_attempt {h : ∀ o : σ.Op, Prog τ ε (σ.Ans o)} {o : σ.Op} {q : Prog τ ε' β}
    {enc : Except ε' β → σ.Ans o} {g : σ.Ans o → Except ε α}
    (hh : h o = q.mapOutcome fun r => .ok (enc r)) :
    (vis o fun a => ofExcept (g a) : Prog σ ε α).interp h = q.mapOutcome fun r => g (enc r) := by
  have hinterp : ∀ r : Except ε α, (ofExcept r : Prog σ ε α).interp h = ofExcept r := by
    intro r
    cases r <;> rfl
  rw [interp, hh]
  clear hh
  induction q with
  | ret b => exact hinterp _
  | raise e => exact hinterp _
  | hang => rfl
  | vis o' k ih => exact congrArg (vis o') (funext ih)

/-- Mapping the outcome asks for nothing. -/
theorem Issues.mapOutcome {P : σ.Op → Prop} (h : p.Issues P) : (p.mapOutcome g).Issues P := by
  induction p with
  | ret a => exact issues_ofExcept _
  | raise e => exact issues_ofExcept _
  | hang => trivial
  | vis o k ih => exact ⟨h.1, fun a => ih a (h.2 a)⟩

/-- What a wrapped program has ended with. -/
theorem outcome?_mapOutcome {r' : Except ε' β} (h : (p.mapOutcome g).outcome? = some r') :
    ∃ r, p.outcome? = some r ∧ r' = g r := by
  have hof : ∀ r : Except ε' β, (ofExcept r : Prog σ ε' β).outcome? = some r := by
    intro r
    cases r <;> rfl
  cases p with
  | ret a => exact ⟨.ok a, rfl, Option.some.inj (h.symm.trans (hof _))⟩
  | raise e => exact ⟨.error e, rfl, Option.some.inj (h.symm.trans (hof _))⟩
  | hang => cases h
  | vis o k => cases h

/-- A wrapped program that goes on is one that goes on, wrapped. -/
theorem mapOutcome_eq_vis {o : σ.Op} {k' : σ.Ans o → Prog σ ε' β} (h : p.mapOutcome g = vis o k') :
    ∃ k, p = vis o k ∧ ∀ a, k' a = (k a).mapOutcome g := by
  have hof : ∀ r : Except ε' β, (ofExcept r : Prog σ ε' β) ≠ vis o k' := by
    intro r
    cases r <;> nofun
  cases p with
  | ret a => exact absurd h (hof _)
  | raise e => exact absurd h (hof _)
  | hang => cases h
  | vis o₁ k =>
    rw [mapOutcome] at h
    obtain ⟨rfl, hk⟩ := Prog.vis.inj h
    exact ⟨k, rfl, fun a => (congrFun (eq_of_heq hk) a).symm⟩

end Prog

/-! ## Runs -/

/-- A wrapped call and the call in it. -/
structure Thread.Wraps (f : κ' → κ) (g : κ' → Except ε α → Except ε' β) (th' : Thread σ ε' β κ')
    (th : Thread σ ε α κ) : Prop where
  call : th.call = f th'.call
  start : th.start = th'.start
  prog : th'.prog = th.prog.mapOutcome (g th'.call)

/-- A pool of wrapped calls, and of the calls in them. -/
structure Pool.Wraps (f : κ' → κ) (g : κ' → Except ε α → Except ε' β) (p' : Pool σ ε' β κ' W)
    (p : Pool σ ε α κ W) : Prop where
  world : p.world = p'.world
  log : p.log = p'.log
  length : p.threads.length = p'.threads.length
  threads : ∀ (t : Nat) (th' : Thread σ ε' β κ'), p'.threads[t]? = some th' →
    ∃ th, p.threads[t]? = some th ∧ th'.Wraps f g th

variable {E : Env σ W} {body : κ → Prog σ ε α} {body' : κ' → Prog σ ε' β} {f : κ' → κ}
  {g : κ' → Except ε α → Except ε' β} {w : W} {p₁ p₂ : Pool σ ε' β κ' W} {p : Pool σ ε α κ W}

/-- **A step of a wrapped call is one of the call in it.** -/
theorem Pool.Step.unwrap (hbody : ∀ c, body' c = (body (f c)).mapOutcome (g c)) (h : Pool.Step E body' p₁ p₂)
    (hwraps : p₁.Wraps f g p) : ∃ q, Pool.Step E body p q ∧ p₂.Wraps f g q := by
  cases h with
  | invoke c =>
    refine ⟨_, .invoke p (f c), hwraps.world, hwraps.log, ?_, fun t th' ht => ?_⟩
    · rw [List.length_append, List.length_append, hwraps.length]
      rfl
    rcases getElem?_concat ht with ht | ⟨rfl, rfl⟩
    · obtain ⟨th, hth, hw⟩ := hwraps.threads t th' ht
      exact ⟨th, List.getElem?_append_left (List.getElem?_eq_some_iff.mp hth).1 ▸ hth, hw⟩
    · refine ⟨⟨f c, p.log.length, body (f c)⟩, ?_, rfl, congrArg List.length hwraps.log, hbody c⟩
      rw [← hwraps.length, List.getElem?_concat_length]
  | act t c start o k' a w' thread handles =>
    obtain ⟨th, hth, hw⟩ := hwraps.threads t _ thread
    obtain ⟨k, hprog, hk⟩ := Prog.mapOutcome_eq_vis hw.prog.symm
    obtain ⟨c₀, start₀, prog₀⟩ := th
    obtain rfl : prog₀ = .vis o k := hprog
    have hlt : t < p.threads.length := (List.getElem?_eq_some_iff.mp hth).1
    refine ⟨_, .act p t c₀ start₀ o k a w' hth (hwraps.world ▸ handles), rfl, ?_, ?_, fun u th' hu => ?_⟩
    · rw [hwraps.log, hwraps.world]
    · rw [List.length_set, List.length_set, hwraps.length]
    by_cases htu : t = u
    · subst htu
      rw [List.getElem?_set_self (hwraps.length ▸ hlt)] at hu
      obtain rfl := Option.some.inj hu
      exact ⟨_, List.getElem?_set_self hlt, hw.call, hw.start, hk a⟩
    · rw [List.getElem?_set_ne htu] at hu
      rw [List.getElem?_set_ne htu]
      exact hwraps.threads u th' hu

/-- **A run of wrapped calls is a run of the calls in them.** -/
theorem Pool.Run.unwrap (hbody : ∀ c, body' c = (body (f c)).mapOutcome (g c))
    (h : Pool.Run E body' (fun _ => True) w p₁) :
    ∃ p, Pool.Run E body (fun _ => True) w p ∧ p₁.Wraps f g p := by
  induction h with
  | init _ => exact ⟨Pool.init w, .init trivial, rfl, rfl, rfl, nofun⟩
  | step _ hs _ ih =>
    obtain ⟨p, hrun, hwraps⟩ := ih
    obtain ⟨q, hstep, hq⟩ := hs.unwrap hbody hwraps
    exact ⟨q, hrun.step hstep trivial, hq⟩

/-- Every call is in a wrapped one. -/
theorem Pool.Wraps.exists_call (h : p₁.Wraps f g p) {th : Thread σ ε α κ} (hth : th ∈ p.threads) :
    ∃ th' ∈ p₁.threads, th.call = f th'.call := by
  obtain ⟨t, ht⟩ := List.mem_iff_getElem?.mp hth
  have hlt : t < p₁.threads.length := h.length ▸ (List.getElem?_eq_some_iff.mp ht).1
  obtain ⟨th₀, hth₀, hw⟩ := h.threads t _ (List.getElem?_eq_getElem hlt)
  obtain rfl := Option.some.inj (ht.symm.trans hth₀)
  exact ⟨_, List.getElem_mem hlt, hw.call⟩

/-- How a wrapped call has ended, by how the call in it has. -/
theorem Pool.Wraps.outcome (h : p₁.Wraps f g p) {t : Nat} {th' : Thread σ ε' β κ'}
    (ht : p₁.threads[t]? = some th') {r' : Except ε' β} (hend : th'.prog.outcome? = some r') :
    ∃ th r, p.threads[t]? = some th ∧ th.call = f th'.call ∧ th.prog.outcome? = some r ∧ r' = g th'.call r := by
  obtain ⟨th, hth, hw⟩ := h.threads t th' ht
  obtain ⟨r, hr, heq⟩ := Prog.outcome?_mapOutcome (hw.prog ▸ hend)
  exact ⟨th, r, hth, hw.call, hr, heq⟩

end Interaction
