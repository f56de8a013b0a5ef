import Wenchang.Interaction.Sequential

/-!
# Programs that die

`Prog.Passes` is `Prog.Ends` with an assertion about the way: whatever the world answers, `p` comes to
an end as `Q` says, and every world it passes has `I`. That is what a program keeps that may die between
any two of its operations, or in the middle of one: `Dies` is every way to do so, and `Passes.dies` says
that a program that passes only worlds with `I` dies in a world with `I`.
-/

namespace Interaction

variable {σ τ : Sig} {ε ε' α β κ W : Type}

/-- How a world answers, and what an operation that is cut short may leave. -/
structure Mortal (σ : Sig) (W : Type) where
  handles : W → (o : σ.Op) → σ.Ans o → W → Prop
  cut : W → σ.Op → W → Prop

namespace Prog

variable {M : Mortal σ W} {I I' : W → Prop}

/-- However the world answers, `p` passes only worlds with `I`, and ends as `Q` says. -/
def Passes (M : Mortal σ W) (I : W → Prop) (Q : Except ε α → W → Prop) : Prog σ ε α → W → Prop
  | ret a, w => I w ∧ Q (.ok a) w
  | raise e, w => I w ∧ Q (.error e) w
  | hang, _ => False
  | vis o k, w => I w ∧ (∀ w', M.cut w o w' → I w') ∧
      ∀ a w', M.handles w o a w' → (k a).Passes M I Q w'

/-- `p` may die in a world. -/
inductive Dies (M : Mortal σ W) : Prog σ ε α → W → W → Prop
  | here (p : Prog σ ε α) (w : W) : Dies M p w w
  | during (o : σ.Op) (k : σ.Ans o → Prog σ ε α) (w w' : W) (cut : M.cut w o w') :
    Dies M (.vis o k) w w'
  | later (o : σ.Op) (k : σ.Ans o → Prog σ ε α) (w : W) (a : σ.Ans o) (w₁ w' : W)
      (handled : M.handles w o a w₁) (rest : Dies M (k a) w₁ w') : Dies M (.vis o k) w w'

section Passes

variable {Q Q' : Except ε α → W → Prop} {w w' : W}

/-- A program that returned passes through where it is. -/
@[simp] theorem passes_ret {a : α} : (ret a : Prog σ ε α).Passes M I Q w ↔ I w ∧ Q (.ok a) w := Iff.rfl

/-- A program that raised passes through where it is. -/
@[simp] theorem passes_raise {e : ε} : (raise e : Prog σ ε α).Passes M I Q w ↔ I w ∧ Q (.error e) w :=
  Iff.rfl

/-- An operation passes through where it is cut, and goes on where it is done. -/
theorem passes_vis {o : σ.Op} {k : σ.Ans o → Prog σ ε α} : (vis o k).Passes M I Q w ↔
    I w ∧ (∀ w', M.cut w o w' → I w') ∧ ∀ a w', M.handles w o a w' → (k a).Passes M I Q w' := Iff.rfl

/-- A program passes through where it starts. -/
theorem Passes.first {p : Prog σ ε α} (hp : p.Passes M I Q w) : I w := by
  cases p with
  | ret a => exact hp.1
  | raise e => exact hp.1
  | hang => exact hp.elim
  | vis o k => exact hp.1

/-- What is passed through and what holds at the end may be weakened. -/
theorem Passes.mono {p : Prog σ ε α} (hp : p.Passes M I Q w) (hI : ∀ w, I w → I' w)
    (hQ : ∀ r w, I w → Q r w → Q' r w) : p.Passes M I' Q' w := by
  induction p generalizing w with
  | ret a => exact ⟨hI _ hp.1, hQ _ _ hp.1 hp.2⟩
  | raise e => exact ⟨hI _ hp.1, hQ _ _ hp.1 hp.2⟩
  | hang => exact hp.elim
  | vis o k ih => exact ⟨hI _ hp.1, fun w' hc => hI _ (hp.2.1 w' hc), fun a w' hh => ih a (hp.2.2 a w' hh)⟩

/-- The outcome of the first part of a sequence. -/
def afterPass (M : Mortal σ W) (I : W → Prop) (Q : Except ε β → W → Prop) (f : α → Prog σ ε β) :
    Except ε α → W → Prop
  | .ok a, w => (f a).Passes M I Q w
  | .error e, w => Q (.error e) w

/-- A sequence passes through what its first part does, and then its rest. -/
theorem passes_bind {p : Prog σ ε α} {f : α → Prog σ ε β} {Q : Except ε β → W → Prop} :
    (p >>= f).Passes M I Q w ↔ p.Passes M I (afterPass M I Q f) w := by
  induction p generalizing w with
  | ret a => exact ⟨fun h => ⟨h.first, h⟩, fun h => h.2⟩
  | raise e => rfl
  | hang => rfl
  | vis o k ih =>
    simp only [vis_bind, passes_vis, ih]

/-- The rule for a sequence: a specification of the first part, and the second from where it ends. -/
theorem Passes.bind {p : Prog σ ε α} {f : α → Prog σ ε β} {Q' : Except ε β → W → Prop}
    (hp : p.Passes M I Q w) (hok : ∀ a w', I w' → Q (.ok a) w' → (f a).Passes M I Q' w')
    (herr : ∀ e w', I w' → Q (.error e) w' → Q' (.error e) w') : (p >>= f).Passes M I Q' w := by
  refine passes_bind.mpr (hp.mono (fun _ hI => hI) fun r w' hI hr => ?_)
  cases r with
  | ok a => exact hok a w' hI hr
  | error e => exact herr e w' hI hr

/-- A caught program passes through what the program does. -/
theorem passes_attempt {p : Prog σ ε α} {Q : Except ε' (Except ε α) → W → Prop} :
    (p.attempt).Passes M I Q w ↔ p.Passes M I (fun r w => Q (.ok r) w) w := by
  induction p generalizing w with
  | ret a => rfl
  | raise e => rfl
  | hang => rfl
  | vis o k ih => simp only [attempt, passes_vis, ih]

/-- The rule for a handler: the second part goes on from however the first ended. -/
theorem Passes.bind_attempt {p : Prog σ ε α} {f : Except ε α → Prog σ ε' β} {Q' : Except ε' β → W → Prop}
    (hp : p.Passes M I Q w) (hf : ∀ r w', I w' → Q r w' → (f r).Passes M I Q' w') :
    (p.attempt >>= f).Passes M I Q' w :=
  passes_bind.mpr (passes_attempt.mpr (hp.mono (fun _ hI => hI) hf))

/-- What holds at the end holds where no call dies. -/
theorem Passes.ends {p : Prog σ ε α} (hp : p.Passes M I Q w) : p.Ends M.handles Q w := by
  induction p generalizing w with
  | ret a => exact hp.2
  | raise e => exact hp.2
  | hang => exact hp
  | vis o k ih => exact fun a w' hh => ih a (hp.2.2 a w' hh)

/-- What the operations that a program issues keep, the program keeps wherever it is cut short. -/
theorem Passes.keeps {P : σ.Op → Prop} {J : W → Prop} {p : Prog σ ε α} (hp : p.Passes M I Q w)
    (hissues : p.Issues P) (hhandles : ∀ w o a w', P o → M.handles w o a w' → J w → J w')
    (hcut : ∀ w o w', P o → M.cut w o w' → J w → J w') (hw : J w) :
    p.Passes M (fun w => I w ∧ J w) (fun r w => Q r w ∧ J w) w := by
  induction p generalizing w with
  | ret a => exact ⟨⟨hp.1, hw⟩, hp.2, hw⟩
  | raise e => exact ⟨⟨hp.1, hw⟩, hp.2, hw⟩
  | hang => exact hp
  | vis o k ih =>
    refine ⟨⟨hp.1, hw⟩, fun w' hc => ⟨hp.2.1 w' hc, hcut w o w' hissues.1 hc hw⟩, fun a w' hh => ?_⟩
    exact ih a (hp.2.2 a w' hh) (hissues.2 a) (hhandles w o a w' hissues.1 hh hw)

/-- **A program dies only in worlds it passes.** -/
theorem Passes.dies {p : Prog σ ε α} (hp : p.Passes M I Q w) (hd : p.Dies M w w') : I w' := by
  induction hd with
  | here p w => exact hp.first
  | during o k w w' hcut => exact hp.2.1 w' hcut
  | later o k w a w₁ w' hh _ ih => exact ih (hp.2.2 a w₁ hh)

/-- What a program that ends has come to. -/
theorem Passes.of_runs {p : Prog σ ε α} (hp : p.Passes M I Q w) {r : Except ε α}
    (hr : p.Runs M.handles w r w') : Q r w' := hp.ends.of_runs hr

end Passes

end Prog

/-! ## Histories of programs that die -/

/-- Calls made one after the other, each in the world the last one left: one that ends does so with an
outcome, and one that dies has none. -/
inductive MortalHistory (M : Mortal σ W) (body : κ → Prog σ ε α) : W → List (κ × Option (Except ε α)) → W → Prop
  | nil (w : W) : MortalHistory M body w [] w
  | ended (c : κ) (r : Except ε α) (rest : List (κ × Option (Except ε α))) (w w₁ w' : W)
      (run : (body c).Runs M.handles w r w₁) (tail : MortalHistory M body w₁ rest w') :
      MortalHistory M body w ((c, some r) :: rest) w'
  | died (c : κ) (rest : List (κ × Option (Except ε α))) (w w₁ w' : W) (dies : (body c).Dies M w w₁)
      (tail : MortalHistory M body w₁ rest w') : MortalHistory M body w ((c, none) :: rest) w'

/-- **Simulation of histories with deaths.** Where each call can be made in another world with the same
outcome, and dies there where it dies here, so can a history of them. -/
theorem MortalHistory.sim {V : Type} {M : Mortal σ W} {N : Mortal τ V} {body : κ → Prog σ ε α}
    {body' : κ → Prog τ ε α} {R : W → V → Prop} {w w' : W} {calls : List (κ × Option (Except ε α))}
    (hist : MortalHistory M body w calls w')
    (hended : ∀ c ∈ calls.map (·.1), ∀ w v r w', R w v → (body c).Runs M.handles w r w' →
      ∃ v', (body' c).Runs N.handles v r v' ∧ R w' v')
    (hdied : ∀ c ∈ calls.map (·.1), ∀ w v w', R w v → (body c).Dies M w w' →
      ∃ v', (body' c).Dies N v v' ∧ R w' v') {v : V} (hR : R w v) :
    ∃ v', MortalHistory N body' v calls v' ∧ R w' v' := by
  induction hist generalizing v with
  | nil w => exact ⟨v, .nil v, hR⟩
  | ended c r rest w w₁ w' run _ ih =>
    obtain ⟨v₁, hrun, hR₁⟩ := hended c List.mem_cons_self w v r w₁ hR run
    obtain ⟨v', htail, hR'⟩ := ih (fun c hc => hended c (List.mem_cons_of_mem _ hc))
      (fun c hc => hdied c (List.mem_cons_of_mem _ hc)) hR₁
    exact ⟨v', .ended c r rest v v₁ v' hrun htail, hR'⟩
  | died c rest w w₁ w' dies _ ih =>
    obtain ⟨v₁, hdies, hR₁⟩ := hdied c List.mem_cons_self w v w₁ hR dies
    obtain ⟨v', htail, hR'⟩ := ih (fun c hc => hended c (List.mem_cons_of_mem _ hc))
      (fun c hc => hdied c (List.mem_cons_of_mem _ hc)) hR₁
    exact ⟨v', .died c rest v v₁ v' hdies htail, hR'⟩

/-! ## Running such a history -/

/-- The first operations of a program. -/
def Prog.upTo : Nat → Prog σ ε α → Prog σ ε Unit
  | n + 1, .vis o k => .vis o fun a => (k a).upTo n
  | _, _ => .ret ()

/-- A program dies where its first operations lead. -/
theorem Prog.dies_of_upTo {M : Mortal σ W} {n : Nat} {p : Prog σ ε α} {w w' : W} {r : Except ε Unit}
    (hrun : (p.upTo n).Runs M.handles w r w') : p.Dies M w w' := by
  induction n generalizing p w with
  | zero =>
    have hret : (Prog.ret () : Prog σ ε Unit).Runs M.handles w r w' := by cases p <;> exact hrun
    obtain ⟨-, rfl⟩ := runs_ret.mp hret
    exact .here p w'
  | succ n ih =>
    cases p with
    | ret a => exact (runs_ret.mp hrun).2 ▸ .here _ w'
    | raise e => exact (runs_ret.mp hrun).2 ▸ .here _ w'
    | hang => exact (runs_ret.mp hrun).2 ▸ .here _ w'
    | vis o k =>
      obtain ⟨a, w₁, hh, hrest⟩ := runs_vis.mp hrun
      exact .later o k w a w₁ w' hh (ih hrest)

/-- The history of some calls, of which those with a number die after so many operations. -/
def MortalHistory.exec (g : (o : σ.Op) → W → σ.Ans o × W) (ok : W → σ.Op → Bool) (body : κ → Prog σ ε α) :
    List (κ × Option Nat) → W × Bool → Option (List (κ × Option (Except ε α)) × (W × Bool))
  | [], w => some ([], w)
  | (c, none) :: rest, w =>
    match (body c).run (guarded g ok) w with
    | (some r, w₁) => (exec g ok body rest w₁).map fun out => ((c, some r) :: out.1, out.2)
    | (none, _) => none
  | (c, some n) :: rest, w =>
    match ((body c).upTo n).run (guarded g ok) w with
    | (some _, w₁) => (exec g ok body rest w₁).map fun out => ((c, none) :: out.1, out.2)
    | (none, _) => none

/-- What is executed is a history. -/
theorem MortalHistory.of_exec {M : Mortal σ W} {g : (o : σ.Op) → W → σ.Ans o × W} {ok : W → σ.Op → Bool}
    (hg : ∀ w o, ok w o = true → M.handles w o (g o w).1 (g o w).2) {body : κ → Prog σ ε α}
    {calls : List (κ × Option Nat)} {w : W × Bool} {out : List (κ × Option (Except ε α))} {w' : W}
    (hexec : MortalHistory.exec g ok body calls w = some (out, w', true)) :
    w.2 = true ∧ MortalHistory M body w.1 out w' ∧ out.map (·.1) = calls.map (·.1) := by
  induction calls generalizing w out with
  | nil =>
    obtain ⟨rfl, rfl⟩ := Prod.mk.inj (Option.some.inj hexec)
    exact ⟨rfl, .nil w', rfl⟩
  | cons c rest ih =>
    obtain ⟨c, dies⟩ := c
    cases dies with
    | none =>
      unfold MortalHistory.exec at hexec
      split at hexec
      next r w₁ hrun =>
        obtain ⟨⟨out', w₂⟩, htail, hout⟩ := Option.map_eq_some_iff.mp hexec
        obtain ⟨rfl, rfl⟩ := Prod.mk.inj hout
        obtain ⟨hflag, hist, hcalls⟩ := ih htail
        obtain ⟨v, flag⟩ := w₁
        obtain rfl : flag = true := hflag
        obtain ⟨hw, hrun'⟩ := Prog.runs_of_guarded hg hrun
        exact ⟨hw, .ended c r out' w.1 v w' hrun' hist, congrArg (c :: ·) hcalls⟩
      next => cases hexec
    | some n =>
      unfold MortalHistory.exec at hexec
      split at hexec
      next r w₁ hrun =>
        obtain ⟨⟨out', w₂⟩, htail, hout⟩ := Option.map_eq_some_iff.mp hexec
        obtain ⟨rfl, rfl⟩ := Prod.mk.inj hout
        obtain ⟨hflag, hist, hcalls⟩ := ih htail
        obtain ⟨v, flag⟩ := w₁
        obtain rfl : flag = true := hflag
        obtain ⟨hw, hrun'⟩ := Prog.runs_of_guarded hg hrun
        exact ⟨hw, .died c out' w.1 v w' (Prog.dies_of_upTo hrun') hist, congrArg (c :: ·) hcalls⟩
      next => cases hexec

end Interaction
