import Wenchang.Interaction.Pool

/-!
# Simulation of pools

A world stands for another where every operation that the one handles the other handles too, with the same answer.
Then a run over the one is a run over the other: the same calls, invoked at the same moments and as far as they
have come, and the same operations with the same answers in the same order (`Pool.Run.sim`).
-/

namespace Interaction

variable {σ : Sig} {ε α κ W V : Type}

/-- What a log says, whatever the worlds: who asked for what, and what was answered. -/
def said (l : Log σ W) : List (Nat × (o : σ.Op) × σ.Ans o) := l.map fun te => (te.1, ⟨te.2.op, te.2.ans⟩)

/-- As much is said as is logged. -/
theorem length_said (l : Log σ W) : (said l).length = l.length := List.length_map _

/-- Two pools that differ in their worlds only, and those as a relation allows. -/
structure Pool.Alike (R : W → V → Prop) (p : Pool σ ε α κ W) (q : Pool σ ε α κ V) : Prop where
  world : R p.world q.world
  threads : q.threads = p.threads
  log : said q.log = said p.log

section

variable {R : W → V → Prop} {E : Env σ W} {F : Env σ V} {body : κ → Prog σ ε α} {p p' : Pool σ ε α κ W}
  {q : Pool σ ε α κ V}

/-- Pools that are alike have logged alike much. -/
theorem Pool.Alike.length_log (h : p.Alike R q) : q.log.length = p.log.length := by
  rw [← length_said, h.log, length_said]

/-- A step of the one is a step of the other. -/
theorem Pool.Step.sim (hhandles : ∀ w v o a w', R w v → E.handles w o a w' → ∃ v', F.handles v o a v' ∧ R w' v')
    (h : Step E body p p') (halike : p.Alike R q) : ∃ q', Step F body q q' ∧ p'.Alike R q' := by
  cases h with
  | invoke c =>
    refine ⟨_, .invoke q c, halike.world, ?_, halike.log⟩
    simp only [halike.threads, halike.length_log]
  | act t c start o k a w' ht hh =>
    obtain ⟨v', hh', hR⟩ := hhandles _ _ o a w' halike.world hh
    refine ⟨_, .act q t c start o k a v' (halike.threads ▸ ht) hh', hR, ?_, ?_⟩
    · simp only [halike.threads]
    · have hlog := halike.log
      simp only [said] at hlog
      simp only [said, List.map_append, hlog, List.map_cons, List.map_nil]

/-- **A run of the one is a run of the other.** -/
theorem Pool.Run.sim (hhandles : ∀ w v o a w', R w v → E.handles w o a w' → ∃ v', F.handles v o a v' ∧ R w' v')
    {w : W} {v : V} (hR : R w v) (h : Run E body (fun _ => True) w p) :
    ∃ q, Run F body (fun _ => True) v q ∧ p.Alike R q := by
  induction h with
  | init _ => exact ⟨Pool.init v, .init trivial, hR, rfl, rfl⟩
  | step _ hs _ ih =>
    obtain ⟨q, hrun, halike⟩ := ih
    obtain ⟨q', hstep, halike'⟩ := hs.sim hhandles halike
    exact ⟨q', hrun.step hstep trivial, halike'⟩

end

end Interaction
