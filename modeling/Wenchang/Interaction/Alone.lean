import Wenchang.Interaction.Pool

/-!
# Programs run alone

`Prog.Ends h Q p w` is total correctness for a program that nobody interrupts: whatever the world
answers, as far as `h` allows, `p` comes to an end, and `Q` holds of how it ended and of the world
it left. A world that answers by a function is the special case `Prog.run`.

`Prog.Skips hidden p q` compares two programs: `q` is `p` without its hidden operations, whose answers
`p` ignores. Where hidden operations leave the world as it is, `p` ends as `q` does.
`Prog.AtMost` counts operations, whatever is answered and whoever is in between.
-/

namespace Interaction

variable {σ : Sig} {ε ε' α β κ W : Type}

namespace Prog

/-- However `h` lets the world answer, `p` ends, and as `Q` says. -/
def Ends (h : W → (o : σ.Op) → σ.Ans o → W → Prop) (Q : Except ε α → W → Prop) :
    Prog σ ε α → W → Prop
  | ret a, w => Q (.ok a) w
  | raise e, w => Q (.error e) w
  | hang, _ => False
  | vis o k, w => ∀ a w', h w o a w' → (k a).Ends h Q w'

section Ends

variable {h h' : W → (o : σ.Op) → σ.Ans o → W → Prop} {Q Q' : Except ε α → W → Prop}

@[simp] theorem ends_ret (a : α) (w : W) : (ret a : Prog σ ε α).Ends h Q w ↔ Q (.ok a) w := Iff.rfl
@[simp] theorem ends_raise (e : ε) (w : W) :
    (raise e : Prog σ ε α).Ends h Q w ↔ Q (.error e) w := Iff.rfl
@[simp] theorem ends_hang (w : W) : (hang : Prog σ ε α).Ends h Q w ↔ False := Iff.rfl
@[simp] theorem ends_vis (o : σ.Op) (k : σ.Ans o → Prog σ ε α) (w : W) :
    (vis o k).Ends h Q w ↔ ∀ a w', h w o a w' → (k a).Ends h Q w' := Iff.rfl

/-- The outcome of the first part of a sequence. -/
def afterEnd (h : W → (o : σ.Op) → σ.Ans o → W → Prop) (Q : Except ε β → W → Prop)
    (f : α → Prog σ ε β) : Except ε α → W → Prop
  | .ok a, w => (f a).Ends h Q w
  | .error e, w => Q (.error e) w

@[simp] theorem afterEnd_ok (Q : Except ε β → W → Prop) (f : α → Prog σ ε β) (a : α) (w : W) :
    afterEnd h Q f (.ok a) w ↔ (f a).Ends h Q w := Iff.rfl
@[simp] theorem afterEnd_error (Q : Except ε β → W → Prop) (f : α → Prog σ ε β) (e : ε) (w : W) :
    afterEnd h Q f (.error e) w ↔ Q (.error e) w := Iff.rfl

/-- A sequence ends where its first part ends and then its rest. -/
theorem ends_bind (p : Prog σ ε α) (f : α → Prog σ ε β) (Q : Except ε β → W → Prop) (w : W) :
    (p >>= f).Ends h Q w ↔ p.Ends h (afterEnd h Q f) w := by
  induction p generalizing w with
  | ret a => rfl
  | raise e => rfl
  | hang => rfl
  | vis o k ih =>
    simp only [vis_bind, ends_vis]
    exact forall_congr' fun a => forall_congr' fun w' => imp_congr_right fun _ => ih a w'

/-- A caught program ends where the program does. -/
theorem ends_attempt (p : Prog σ ε α) (Q : Except ε' (Except ε α) → W → Prop) (w : W) :
    (p.attempt).Ends h Q w ↔ p.Ends h (fun r w => Q (.ok r) w) w := by
  induction p generalizing w with
  | ret a => rfl
  | raise e => rfl
  | hang => rfl
  | vis o k ih =>
    exact forall_congr' fun a => forall_congr' fun w' => imp_congr_right fun _ => ih a w'

/-- A result at hand has ended. -/
@[simp] theorem ends_ofExcept (r : Except ε α) (w : W) : (ofExcept r).Ends (σ := σ) h Q w ↔ Q r w := by
  cases r <;> rfl

/-- A result at hand, then the rest. -/
theorem ends_ofExcept_bind {r : Except ε α} {f : α → Prog σ ε β} {Q : Except ε β → W → Prop} {w : W}
    (herr : ∀ e, r = .error e → Q (.error e) w) (hok : ∀ a, r = .ok a → (f a).Ends h Q w) :
    (ofExcept r >>= f).Ends h Q w := by
  cases r with
  | ok a => exact hok a rfl
  | error e => exact herr e rfl

/-- A check, then the rest. -/
theorem ends_raiseIf_bind {c : Prop} [Decidable c] {e : ε} {f : Unit → Prog σ ε β}
    {Q : Except ε β → W → Prop} {w : W} (herr : c → Q (.error e) w)
    (hok : ¬ c → (f ()).Ends h Q w) : (raiseIf c e >>= f).Ends h Q w := by
  by_cases hc : c
  · rw [raiseIf_pos hc]
    exact herr hc
  · rw [raiseIf_neg hc]
    exact hok hc

/-- What holds at the end may be weakened. -/
theorem Ends.mono {p : Prog σ ε α} {w : W} (he : p.Ends h Q w) (hQ : ∀ r w, Q r w → Q' r w) :
    p.Ends h Q' w := by
  induction p generalizing w with
  | ret a => exact hQ _ _ he
  | raise e => exact hQ _ _ he
  | hang => exact he
  | vis o k ih => exact fun a w' hh => ih a (he a w' hh)

/-- A world that answers in fewer ways. -/
theorem Ends.anti {p : Prog σ ε α} {w : W} (he : p.Ends h Q w)
    (hh : ∀ w o a w', h' w o a w' → h w o a w') : p.Ends h' Q w := by
  induction p generalizing w with
  | ret a => exact he
  | raise e => exact he
  | hang => exact he
  | vis o k ih => exact fun a w' hs => ih a (he a w' (hh _ _ _ _ hs))

/-- A world that answers by a function, in a way that `h` allows. -/
theorem Ends.run {g : (o : σ.Op) → W → σ.Ans o × W} (hg : ∀ w o, h w o (g o w).1 (g o w).2)
    {p : Prog σ ε α} {w : W} (he : p.Ends h Q w) : ∃ r w', p.run g w = (some r, w') ∧ Q r w' := by
  induction p generalizing w with
  | ret a => exact ⟨_, _, rfl, he⟩
  | raise e => exact ⟨_, _, rfl, he⟩
  | hang => exact he.elim
  | vis o k ih => exact ih _ (he _ _ (hg w o))

/-- **Simulation.** A program ends as it does in another world that may answer the same. -/
theorem Ends.sim {V : Type} {P : σ.Op → Prop} {g : V → (o : σ.Op) → σ.Ans o → V → Prop} {R : V → W → Prop}
    {Q : Except ε α → V → Prop} (hR : ∀ v w o a w', P o → R v w → h w o a w' → ∃ v', g v o a v' ∧ R v' w')
    {p : Prog σ ε α} (hp : p.Issues P) {v : V} {w : W} (hvw : R v w) (he : p.Ends g Q v) :
    p.Ends h (fun r w => ∃ v, R v w ∧ Q r v) w := by
  induction p generalizing v w with
  | ret a => exact ⟨v, hvw, he⟩
  | raise e => exact ⟨v, hvw, he⟩
  | hang => exact he
  | vis o k ih =>
    intro a w' hh
    obtain ⟨v', hg, hvw'⟩ := hR v w o a w' hp.1 hvw hh
    exact ih a (hp.2 a) hvw' (he a v' hg)

/-- Two facts about one program. -/
theorem Ends.and {p : Prog σ ε α} {w : W} (he : p.Ends h Q w) (he' : p.Ends h Q' w) :
    p.Ends h (fun r w => Q r w ∧ Q' r w) w := by
  induction p generalizing w with
  | ret a => exact ⟨he, he'⟩
  | raise e => exact ⟨he, he'⟩
  | hang => exact he
  | vis o k ih => exact fun a w' hh => ih a (he a w' hh) (he' a w' hh)

end Ends

/-! ## Hidden operations -/

/-- `q` is `p` without its hidden operations, whose answers make no difference. -/
inductive Skips (hidden : σ.Op → Prop) : Prog σ ε α → Prog σ ε α → Prop
  | ret (a : α) : Skips hidden (.ret a) (.ret a)
  | raise (e : ε) : Skips hidden (.raise e) (.raise e)
  | hang : Skips hidden .hang .hang
  | vis {o : σ.Op} {k k' : σ.Ans o → Prog σ ε α} (shown : ¬ hidden o)
      (rest : ∀ a, Skips hidden (k a) (k' a)) : Skips hidden (.vis o k) (.vis o k')
  | skip {o : σ.Op} {k : σ.Ans o → Prog σ ε α} {q : Prog σ ε α} (skipped : hidden o)
      (rest : ∀ a, Skips hidden (k a) q) : Skips hidden (.vis o k) q

section Skips

variable {hidden : σ.Op → Prop}

/-- A program that asks for nothing hidden skips nothing. -/
theorem Issues.skips {p : Prog σ ε α} (hp : p.Issues fun o => ¬ hidden o) : Skips hidden p p := by
  induction p with
  | ret a => exact .ret a
  | raise e => exact .raise e
  | hang => exact .hang
  | vis o k ih => exact .vis hp.1 fun a => ih a (hp.2 a)

/-- Sequences skip what their parts skip. -/
theorem Skips.bind {p q : Prog σ ε α} {f g : α → Prog σ ε β} (hp : Skips hidden p q)
    (hf : ∀ a, Skips hidden (f a) (g a)) : Skips hidden (p >>= f) (q >>= g) := by
  induction hp with
  | ret a => exact hf a
  | raise e => exact .raise e
  | hang => exact .hang
  | vis ho _ ih => exact .vis ho ih
  | skip ho _ ih => exact .skip ho ih

/-- Caught programs skip what the programs skip. -/
theorem Skips.attempt {p q : Prog σ ε α} (hp : Skips hidden p q) :
    Skips hidden (p.attempt : Prog σ ε' _) q.attempt := by
  induction hp with
  | ret a => exact .ret _
  | raise e => exact .ret _
  | hang => exact .hang
  | vis ho _ ih => exact .vis ho ih
  | skip ho _ ih => exact .skip ho ih

/-- **Hidden operations do not show.** Where a world leaves them without effect and answers the others
by a function, a program with hidden operations ends as the run of the program without them. -/
theorem Skips.ends {h : W → (o : σ.Op) → σ.Ans o → W → Prop} {g : (o : σ.Op) → W → σ.Ans o × W}
    (hhidden : ∀ w o a w', hidden o → h w o a w' → w' = w)
    (hshown : ∀ w o a w', ¬ hidden o → h w o a w' → (a, w') = g o w) {p q : Prog σ ε α}
    (hp : Skips hidden p q) {w : W} (hq : (q.run g w).1 ≠ none) :
    p.Ends h (fun r w' => q.run g w = (some r, w')) w := by
  induction hp generalizing w with
  | ret a => exact rfl
  | raise e => exact rfl
  | hang => exact absurd rfl hq
  | vis ho _ ih =>
    intro a w' ha
    obtain ⟨rfl, rfl⟩ := Prod.mk.inj (hshown _ _ _ _ ho ha)
    exact ih _ hq
  | skip ho _ ih =>
    intro a w' ha
    obtain rfl := hhidden _ _ _ _ ho ha
    exact ih a hq

end Skips

/-! ## Counting operations -/

/-- Whatever is answered, `p` performs at most `n` operations with the property `P`. -/
def AtMost (P : σ.Op → Prop) [DecidablePred P] : Nat → Prog σ ε α → Prop
  | _, ret _ => True
  | _, raise _ => True
  | _, hang => True
  | n, vis o k => if P o then 0 < n ∧ ∀ a, (k a).AtMost P (n - 1) else ∀ a, (k a).AtMost P n

section AtMost

variable {P : σ.Op → Prop} [DecidablePred P] {m n : Nat}

/-- A bound may be raised. -/
theorem AtMost.mono {p : Prog σ ε α} (hp : p.AtMost P m) (hle : m ≤ n) : p.AtMost P n := by
  induction p generalizing m n with
  | ret a => trivial
  | raise e => trivial
  | hang => trivial
  | vis o k ih =>
    by_cases ho : P o
    · simp only [AtMost, ho, if_true] at hp ⊢
      exact ⟨by omega, fun a => ih a (hp.2 a) (by omega)⟩
    · simp only [AtMost, ho, if_false] at hp ⊢
      exact fun a => ih a (hp a) hle

/-- Bounds add up in sequence. -/
theorem AtMost.bind {p : Prog σ ε α} {f : α → Prog σ ε β} (hp : p.AtMost P m)
    (hf : ∀ a, (f a).AtMost P n) : (p >>= f).AtMost P (m + n) := by
  induction p generalizing m with
  | ret a => exact (hf a).mono (Nat.le_add_left n m)
  | raise e => trivial
  | hang => trivial
  | vis o k ih =>
    by_cases ho : P o
    · simp only [vis_bind, AtMost, ho, if_true] at hp ⊢
      refine ⟨by omega, fun a => ?_⟩
      have hrest := ih a (hp.2 a)
      rwa [show m - 1 + n = m + n - 1 by omega] at hrest
    · simp only [vis_bind, AtMost, ho, if_false] at hp ⊢
      exact fun a => ih a (hp a)

/-- A program that issues no such operation. -/
theorem Issues.atMost {p : Prog σ ε α} (hp : p.Issues fun o => ¬ P o) (n : Nat) : p.AtMost P n := by
  induction p with
  | ret a => trivial
  | raise e => trivial
  | hang => trivial
  | vis o k ih =>
    simp only [AtMost, hp.1, if_false]
    exact fun a => ih a (hp.2 a)

/-- A first part that issues no such operation leaves the bound to the second. -/
theorem Issues.atMost_bind {p : Prog σ ε α} {f : α → Prog σ ε β} (hp : p.Issues fun o => ¬ P o)
    (hf : ∀ a, (f a).AtMost P n) : (p >>= f).AtMost P n := by
  have hbind := (hp.atMost 0).bind hf
  rwa [Nat.zero_add] at hbind

/-- A caught program keeps its bound. -/
theorem AtMost.attempt {p : Prog σ ε α} (hp : p.AtMost P n) :
    (p.attempt : Prog σ ε' _).AtMost P n := by
  induction p generalizing n with
  | ret a => trivial
  | raise e => trivial
  | hang => trivial
  | vis o k ih =>
    by_cases ho : P o
    · simp only [Prog.attempt, AtMost, ho, if_true] at hp ⊢
      exact ⟨hp.1, fun a => ih a (hp.2 a)⟩
    · simp only [Prog.attempt, AtMost, ho, if_false] at hp ⊢
      exact fun a => ih a (hp a)

/-- **A bound on a program bounds its traces.** -/
theorem AtMost.countP_le {p q : Prog σ ε α} {tr : Trace σ W} (hp : p.AtMost P n)
    (h : p.Follows tr q) : tr.countP (P ·.op) ≤ n := by
  induction h generalizing n with
  | nil q => exact Nat.zero_le n
  | cons w o a w' k _ ih =>
    by_cases ho : P o
    · simp only [AtMost, ho, if_true] at hp
      have hrest := ih (hp.2 a)
      simp only [List.countP_cons, ho, decide_true, if_true]
      omega
    · simp only [AtMost, ho, if_false] at hp
      simp only [List.countP_cons, ho, decide_false, Bool.false_eq_true, if_false]
      exact ih (hp a)

end AtMost

end Prog

/-- What a call has performed so far in a pool is bounded by its program. -/
theorem Pool.Run.countP_le {E : Env σ W} {body : κ → Prog σ ε α} {A : Pool σ ε α κ W → Prop} {w : W}
    {p : Pool σ ε α κ W} (h : Run E body A w p) {P : σ.Op → Prop} [DecidablePred P] {n : Nat}
    {t : Nat} {th : Thread σ ε α κ} (ht : p.threads[t]? = some th)
    (hbody : (body th.call).AtMost P n) : (ownTrace t p.log).countP (P ·.op) ≤ n :=
  hbody.countP_le (h.follows ht)

end Interaction
