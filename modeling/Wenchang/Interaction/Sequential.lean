import Wenchang.Interaction.Alone

/-!
# Sequential histories

`Prog.Runs h p w r w'` is one run of a program that nobody interrupts, from its first world to its
last, each operation answered as `h` allows. Unlike `Prog.Ends` it says nothing of programs that do not
come to an end. A `History` is a sequence of such runs, each in the world the last one left, and
`History.keeps` carries an invariant of worlds along it. Keeping an invariant in runs composes, so it is
proved of a program's blocks.
-/

namespace Interaction

variable {σ τ : Sig} {ε ε' α β κ W : Type}

namespace Prog

/-- `p` may run alone from `w` to `w'` and end as `r`. -/
inductive Runs (h : W → (o : σ.Op) → σ.Ans o → W → Prop) : Prog σ ε α → W → Except ε α → W → Prop
  | ret (a : α) (w : W) : Runs h (.ret a) w (.ok a) w
  | raise (e : ε) (w : W) : Runs h (.raise e) w (.error e) w
  | vis (o : σ.Op) (k : σ.Ans o → Prog σ ε α) (w : W) (a : σ.Ans o) (w₁ : W) (r : Except ε α) (w' : W)
      (handled : h w o a w₁) (rest : Runs h (k a) w₁ r w') : Runs h (.vis o k) w r w'

section Runs

variable {h : W → (o : σ.Op) → σ.Ans o → W → Prop} {w w' : W}

/-- A program that returned runs to it and leaves the world. -/
theorem runs_ret {a : α} {r : Except ε α} : (ret a : Prog σ ε α).Runs h w r w' ↔ r = .ok a ∧ w' = w := by
  constructor
  · intro hr
    cases hr
    exact ⟨rfl, rfl⟩
  · rintro ⟨rfl, rfl⟩
    exact .ret a _

/-- A program that raised runs to it and leaves the world. -/
theorem runs_raise {e : ε} {r : Except ε α} :
    (raise e : Prog σ ε α).Runs h w r w' ↔ r = .error e ∧ w' = w := by
  constructor
  · intro hr
    cases hr
    exact ⟨rfl, rfl⟩
  · rintro ⟨rfl, rfl⟩
    exact .raise e _

/-- An operation is run, and then what follows its answer. -/
theorem runs_vis {o : σ.Op} {k : σ.Ans o → Prog σ ε α} {r : Except ε α} :
    (vis o k).Runs h w r w' ↔ ∃ a w₁, h w o a w₁ ∧ (k a).Runs h w₁ r w' := by
  constructor
  · intro hr
    cases hr with
    | vis _ _ _ a w₁ _ _ hh rest => exact ⟨a, w₁, hh, rest⟩
  · rintro ⟨a, w₁, hh, rest⟩
    exact .vis o k w a w₁ r w' hh rest

/-- What hangs does not run to an end. -/
theorem not_runs_hang {r : Except ε α} : ¬ (hang : Prog σ ε α).Runs h w r w' := nofun

/-- A run of a sequence: a run of its first part, and if that returned one of its second. -/
theorem runs_bind {p : Prog σ ε α} {f : α → Prog σ ε β} {r : Except ε β} :
    (p >>= f).Runs h w r w' ↔
      (∃ a w₁, p.Runs h w (.ok a) w₁ ∧ (f a).Runs h w₁ r w') ∨
        ∃ e, r = .error e ∧ p.Runs h w (.error e) w' := by
  induction p generalizing w with
  | ret a => simp [runs_ret]
  | raise e => simp [runs_raise]
  | hang => simp [not_runs_hang]
  | vis o k ih =>
    simp only [vis_bind, runs_vis, ih]
    constructor
    · rintro ⟨a, w₁, hh, ⟨b, w₂, hp, hf⟩ | ⟨e, rfl, hp⟩⟩
      · exact .inl ⟨b, w₂, ⟨a, w₁, hh, hp⟩, hf⟩
      · exact .inr ⟨e, rfl, a, w₁, hh, hp⟩
    · rintro (⟨b, w₂, ⟨a, w₁, hh, hp⟩, hf⟩ | ⟨e, rfl, a, w₁, hh, hp⟩)
      · exact ⟨a, w₁, hh, .inl ⟨b, w₂, hp, hf⟩⟩
      · exact ⟨a, w₁, hh, .inr ⟨e, rfl, hp⟩⟩

/-- A caught program runs as the program does. -/
theorem runs_attempt {p : Prog σ ε α} {r : Except ε' (Except ε α)} :
    (p.attempt).Runs h w r w' ↔ ∃ r', r = .ok r' ∧ p.Runs h w r' w' := by
  induction p generalizing w with
  | ret a => simp [attempt, runs_ret]
  | raise e => simp [attempt, runs_ret, runs_raise]
  | hang => simp [attempt, not_runs_hang]
  | vis o k ih =>
    simp only [attempt, runs_vis, ih]
    constructor
    · rintro ⟨a, w₁, hh, r', rfl, hp⟩
      exact ⟨r', rfl, a, w₁, hh, hp⟩
    · rintro ⟨r', rfl, a, w₁, hh, hp⟩
      exact ⟨a, w₁, hh, r', rfl, hp⟩

/-- A result at hand runs to itself. -/
theorem runs_ofExcept {r r' : Except ε α} :
    (ofExcept r : Prog σ ε α).Runs h w r' w' ↔ r' = r ∧ w' = w := by
  cases r with
  | ok a => exact runs_ret
  | error e => exact runs_raise

/-- What holds however a program ends holds of its run. -/
theorem Ends.of_runs {p : Prog σ ε α} {Q : Except ε α → W → Prop} {r : Except ε α}
    (he : p.Ends h Q w) (hr : p.Runs h w r w') : Q r w' := by
  induction hr with
  | ret a w => exact he
  | raise e w => exact he
  | vis o k w a w₁ r w' hh _ ih => exact ih (he a w₁ hh)

/-- A program that ends has a run, where the world answers all that it can ask. -/
theorem Ends.exists_run {P : σ.Op → Prop} {p : Prog σ ε α} {Q : Except ε α → W → Prop} (he : p.Ends h Q w)
    (hp : p.Issues P) (htotal : ∀ o, P o → ∀ w, ∃ a w', h w o a w') :
    ∃ r w', p.Runs h w r w' ∧ Q r w' := by
  induction p generalizing w with
  | ret a => exact ⟨_, _, .ret a w, he⟩
  | raise e => exact ⟨_, _, .raise e w, he⟩
  | hang => exact he.elim
  | vis o k ih =>
    obtain ⟨a, w₁, hh⟩ := htotal o hp.1 w
    obtain ⟨r, w', hrest, hr⟩ := ih a (he a w₁ hh) (hp.2 a)
    exact ⟨r, w', .vis o k w a w₁ r w' hh hrest, hr⟩

/-- A program that ends does so by a run. -/
theorem Ends.runs {p : Prog σ ε α} {Q : Except ε α → W → Prop} (he : p.Ends h Q w) :
    p.Ends h (fun r w' => p.Runs h w r w') w := by
  induction p generalizing w with
  | ret a => exact .ret a w
  | raise e => exact .raise e w
  | hang => exact he
  | vis o k ih => exact fun a w' hh => (ih a (he a w' hh)).mono fun r w'' hr => .vis o k w a w' r w'' hh hr

/-- A sequence ends where its second part does after every run of the first. -/
theorem Ends.bind {p : Prog σ ε α} {f : α → Prog σ ε β} (hp : p.Ends h (fun _ _ => True) w)
    (hf : ∀ a w', p.Runs h w (.ok a) w' → (f a).Ends h (fun _ _ => True) w') :
    (p >>= f).Ends h (fun _ _ => True) w := by
  rw [ends_bind]
  refine hp.runs.mono fun r w' hr => ?_
  cases r with
  | ok a => exact hf a w' hr
  | error e => trivial

/-- A program run alone against a function, in a larger world that answers its operations so too. -/
theorem Issues.runs_of_run {V : Type} {P : σ.Op → Prop} {g : (o : σ.Op) → V → σ.Ans o × V} {proj : W → V}
    {p : Prog σ ε α} (hp : p.Issues P)
    (hg : ∀ o, P o → ∀ w, ∃ w', h w o (g o (proj w)).1 w' ∧ proj w' = (g o (proj w)).2)
    {r : Except ε α} {v : V} (hrun : p.run g (proj w) = (some r, v)) :
    ∃ w', p.Runs h w r w' ∧ proj w' = v := by
  induction p generalizing w with
  | ret a =>
    obtain ⟨hr, rfl⟩ := Prod.mk.inj hrun
    exact ⟨w, Option.some.inj hr ▸ .ret a w, rfl⟩
  | raise e =>
    obtain ⟨hr, rfl⟩ := Prod.mk.inj hrun
    exact ⟨w, Option.some.inj hr ▸ .raise e w, rfl⟩
  | hang => cases hrun
  | vis o k ih =>
    obtain ⟨w₁, hh, hproj⟩ := hg o hp.1 w
    rw [run_vis, ← hproj] at hrun
    obtain ⟨w', hrest, hv⟩ := ih _ (hp.2 _) hrun
    exact ⟨w', .vis o k w _ w₁ r w' hh hrest, hv⟩

end Runs

/-- A program that only reads, in two worlds that answer it alike. -/
theorem Issues.run_alike {V : Type} {P : σ.Op → Prop} {f : (o : σ.Op) → W → σ.Ans o × W}
    {g : (o : σ.Op) → V → σ.Ans o × V} {v : V} {w : W} {p : Prog σ ε α} (hp : p.Issues P)
    (hg : ∀ o, P o → (g o v).2 = v) (hf : ∀ o, P o → f o w = ((g o v).1, w)) :
    p.run f w = ((p.run g v).1, w) := by
  induction p with
  | ret a => rfl
  | raise e => rfl
  | hang => rfl
  | vis o k ih =>
    rw [run_vis, run_vis, hf o hp.1, hg o hp.1]
    exact ih _ (hp.2 _)

/-- Keeping an invariant in runs composes. -/
theorem composes_runs (h : W → (o : σ.Op) → σ.Ans o → W → Prop) (I : W → Prop) :
    Composes fun α (p : Prog σ ε α) => ∀ w r w', I w → p.Runs h w r w' → I w' where
  ret _ _ _ _ _ hw hr := (runs_ret.mp hr).2 ▸ hw
  raise _ _ _ _ _ hw hr := (runs_raise.mp hr).2 ▸ hw
  hang _ _ _ _ _ hr := absurd hr not_runs_hang
  bind _ _ _ _ hp hf w _ w' hw hr := by
    rcases runs_bind.mp hr with ⟨a, w₁, hfirst, hrest⟩ | ⟨e, rfl, hfirst⟩
    · exact hf a w₁ _ w' (hp w _ w₁ hw hfirst) hrest
    · exact hp w _ w' hw hfirst
  attempt _ _ hp w _ w' hw hr := by
    obtain ⟨r', rfl, hr'⟩ := runs_attempt.mp hr
    exact hp w r' w' hw hr'

end Prog

/-! ## Histories -/

/-- Calls made one after the other, each run alone in the world the last one left. -/
inductive History (h : W → (o : σ.Op) → σ.Ans o → W → Prop) (body : κ → Prog σ ε α) :
    W → List (κ × Except ε α) → W → Prop
  | nil (w : W) : History h body w [] w
  | cons (c : κ) (r : Except ε α) (rest : List (κ × Except ε α)) (w w₁ w' : W)
      (run : (body c).Runs h w r w₁) (tail : History h body w₁ rest w') :
      History h body w ((c, r) :: rest) w'

/-- What every call keeps, a history keeps. -/
theorem History.keeps {h : W → (o : σ.Op) → σ.Ans o → W → Prop} {body : κ → Prog σ ε α} {I : W → Prop}
    {w w' : W} {calls : List (κ × Except ε α)} (hist : History h body w calls w')
    (hI : ∀ c ∈ calls.map (·.1), ∀ w r w', I w → (body c).Runs h w r w' → I w') (hw : I w) : I w' := by
  induction hist with
  | nil w => exact hw
  | cons c r rest w w₁ w' run _ ih =>
    exact ih (fun c hc => hI c (List.mem_cons_of_mem _ hc)) (hI c List.mem_cons_self w r w₁ hw run)

/-- **Simulation.** Where each call can be made in another world with the same outcome, so can a history
of them. -/
theorem History.sim {V : Type} {h : W → (o : σ.Op) → σ.Ans o → W → Prop} {body : κ → Prog σ ε α}
    {g : V → (o : τ.Op) → τ.Ans o → V → Prop} {body' : κ → Prog τ ε α} {R : W → V → Prop} {w w' : W}
    {calls : List (κ × Except ε α)} (hist : History h body w calls w')
    (hstep : ∀ c ∈ calls.map (·.1), ∀ w v r w', R w v → (body c).Runs h w r w' →
      ∃ v', (body' c).Runs g v r v' ∧ R w' v') {v : V} (hR : R w v) :
    ∃ v', History g body' v calls v' ∧ R w' v' := by
  induction hist generalizing v with
  | nil w => exact ⟨v, .nil v, hR⟩
  | cons c r rest w w₁ w' run _ ih =>
    obtain ⟨v₁, hrun, hR₁⟩ := hstep c List.mem_cons_self w v r w₁ hR run
    obtain ⟨v', htail, hR'⟩ := ih (fun c hc => hstep c (List.mem_cons_of_mem _ hc)) hR₁
    exact ⟨v', .cons c r rest v v₁ v' hrun htail, hR'⟩

/-! ## Running a history -/

/-- A world that answers by a function, with a flag that stays up as long as each answer passes a test. -/
def guarded (g : (o : σ.Op) → W → σ.Ans o × W) (ok : W → σ.Op → Bool) (o : σ.Op) (w : W × Bool) :
    σ.Ans o × (W × Bool) :=
  ((g o w.1).1, (g o w.1).2, w.2 && ok w.1 o)

/-- The history of some calls in such a world, and where it leads. -/
def History.exec (g : (o : σ.Op) → W → σ.Ans o × W) (ok : W → σ.Op → Bool) (body : κ → Prog σ ε α) :
    List κ → W × Bool → Option (List (κ × Except ε α) × (W × Bool))
  | [], w => some ([], w)
  | c :: rest, w =>
    match (body c).run (guarded g ok) w with
    | (some r, w₁) => (exec g ok body rest w₁).map fun out => ((c, r) :: out.1, out.2)
    | (none, _) => none

section Exec

variable {h : W → (o : σ.Op) → σ.Ans o → W → Prop} {g : (o : σ.Op) → W → σ.Ans o × W}
  {ok : W → σ.Op → Bool}

/-- What is executed under a guard is run. -/
theorem Prog.runs_of_guarded (hg : ∀ w o, ok w o = true → h w o (g o w).1 (g o w).2) {p : Prog σ ε α}
    {w : W × Bool} {r : Except ε α} {w' : W} (hrun : p.run (guarded g ok) w = (some r, w', true)) :
    w.2 = true ∧ p.Runs h w.1 r w' := by
  induction p generalizing w with
  | ret a =>
    obtain ⟨hr, rfl⟩ := Prod.mk.inj hrun
    exact ⟨rfl, Option.some.inj hr ▸ .ret a w'⟩
  | raise e =>
    obtain ⟨hr, rfl⟩ := Prod.mk.inj hrun
    exact ⟨rfl, Option.some.inj hr ▸ .raise e w'⟩
  | hang => cases hrun
  | vis o k ih =>
    obtain ⟨hflag, hrest⟩ := ih _ hrun
    obtain ⟨hw, hok⟩ := Bool.and_eq_true_iff.mp hflag
    exact ⟨hw, .vis o k _ _ _ r w' (hg w.1 o hok) hrest⟩

/-- A history in which every answer passed the test. -/
theorem History.of_exec (hg : ∀ w o, ok w o = true → h w o (g o w).1 (g o w).2) {body : κ → Prog σ ε α}
    {calls : List κ} {w : W × Bool} {out : List (κ × Except ε α)} {w' : W}
    (hexec : History.exec g ok body calls w = some (out, w', true)) :
    w.2 = true ∧ History h body w.1 out w' ∧ out.map (·.1) = calls := by
  induction calls generalizing w out with
  | nil =>
    obtain ⟨rfl, rfl⟩ := Prod.mk.inj (Option.some.inj hexec)
    exact ⟨rfl, .nil w', rfl⟩
  | cons c rest ih =>
    unfold History.exec at hexec
    split at hexec
    next r w₁ hrun =>
      obtain ⟨tail, htail, hout⟩ := Option.map_eq_some_iff.mp hexec
      obtain ⟨out', w₂⟩ := tail
      obtain ⟨rfl, rfl⟩ := Prod.mk.inj hout
      obtain ⟨hflag, hist, hcalls⟩ := ih htail
      obtain ⟨v, flag⟩ := w₁
      obtain rfl : flag = true := hflag
      obtain ⟨hw, hrun'⟩ := Prog.runs_of_guarded hg hrun
      exact ⟨hw, .cons c r out' w.1 v w' hrun' hist, congrArg (c :: ·) hcalls⟩
    next => cases hexec

end Exec

end Interaction
