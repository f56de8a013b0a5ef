import Mathlib

/-!
# Programs over an interface

A `Prog σ ε α` is a program that talks to the world only through the operations of an interface
`σ`: it performs an operation, receives an answer, and goes on. It ends with a value, by raising
an exception, or not at all: `hang` is what a loop becomes when its fuel runs out, and it promises
nothing. The world is not part of the program. The same program is run alone against a function
(`Prog.run`), reasoned about against an adversary (`Prog.Sat`), and put in a pool with others
(`Interaction.Pool`).

`Prog.Sat` is the program logic. An `Env` says what answers an operation may get in a world and
what may happen to the world between two operations of one program. The two-place invariant `G` is
asked of every operation when it is issued, over the trace of what the program did before, and `Q`
is asked of the outcome. `sat_bind` is its one composition rule, and it is an equivalence, so a
program written in `do` notation is verified by rewriting.
-/

namespace Interaction

/-- An interface: its operations, and the type of each operation's answer. -/
structure Sig where
  Op : Type
  Ans : Op → Type

/-- A program over `σ` that returns an `α` or raises an `ε`. -/
inductive Prog (σ : Sig) (ε α : Type) : Type where
  | ret (a : α)
  | raise (e : ε)
  | hang
  | vis (o : σ.Op) (k : σ.Ans o → Prog σ ε α)

variable {σ τ : Sig} {ε ε' α β γ W : Type}

namespace Prog

/-- Run `p`, then `f` on what it returns. An exception or a hang skips `f`. -/
def bind (p : Prog σ ε α) (f : α → Prog σ ε β) : Prog σ ε β :=
  match p with
  | ret a => f a
  | raise e => raise e
  | hang => hang
  | vis o k => vis o fun a => (k a).bind f

instance : Monad (Prog σ ε) where
  pure := ret
  bind := bind

@[simp] theorem pure_eq (a : α) : (pure a : Prog σ ε α) = ret a := rfl
@[simp] theorem ret_bind (a : α) (f : α → Prog σ ε β) : (ret a >>= f) = f a := rfl
@[simp] theorem raise_bind (e : ε) (f : α → Prog σ ε β) : (raise e >>= f) = raise e := rfl
@[simp] theorem hang_bind (f : α → Prog σ ε β) : (hang >>= f) = hang := rfl
@[simp] theorem vis_bind (o : σ.Op) (k : σ.Ans o → Prog σ ε α) (f : α → Prog σ ε β) :
    (vis o k >>= f) = vis o fun a => k a >>= f := rfl

/-- A program that goes on with its result is itself. -/
theorem bind_ret (p : Prog σ ε α) : (p >>= ret) = p := by
  induction p with
  | ret a => rfl
  | raise e => rfl
  | hang => rfl
  | vis o k ih =>
    rw [vis_bind]
    exact congrArg _ (funext ih)

/-- Going on associates. -/
theorem bind_assoc (p : Prog σ ε α) (f : α → Prog σ ε β) (g : β → Prog σ ε γ) :
    (p >>= f >>= g) = (p >>= fun a => f a >>= g) := by
  induction p with
  | ret a => rfl
  | raise e => rfl
  | hang => rfl
  | vis o k ih =>
    simp only [vis_bind]
    exact congrArg _ (funext ih)

instance : LawfulMonad (Prog σ ε) :=
  LawfulMonad.mk' _ bind_ret (fun _ _ => rfl) bind_assoc

/-- One operation, returning its answer. -/
def perform (o : σ.Op) : Prog σ ε (σ.Ans o) := vis o ret

/-- A pure computation that may raise. -/
def ofExcept : Except ε α → Prog σ ε α
  | .ok a => ret a
  | .error e => raise e

/-- `if c: raise e`. -/
def raiseIf (c : Prop) [Decidable c] (e : ε) : Prog σ ε Unit :=
  if c then raise e else ret ()

/-- Run `p` to its end and return how it ended: `try` with every exception caught. -/
def attempt : Prog σ ε α → Prog σ ε' (Except ε α)
  | ret a => ret (.ok a)
  | raise e => ret (.error e)
  | hang => hang
  | vis o k => vis o fun a => (k a).attempt

/-- Run a program over `σ` on top of `τ`, each operation replaced by its implementation. -/
def interp (h : ∀ o : σ.Op, Prog τ ε (σ.Ans o)) : Prog σ ε α → Prog τ ε α
  | ret a => ret a
  | raise e => raise e
  | hang => hang
  | vis o k => h o >>= fun a => (k a).interp h

@[simp] theorem perform_bind (o : σ.Op) (f : σ.Ans o → Prog σ ε α) :
    (perform o >>= f) = vis o f := rfl

@[simp] theorem ofExcept_ok (a : α) : (ofExcept (.ok a) : Prog σ ε α) = ret a := rfl
@[simp] theorem ofExcept_error (e : ε) : (ofExcept (.error e) : Prog σ ε α) = raise e := rfl

/-- What holds is raised for. -/
theorem raiseIf_pos {c : Prop} [Decidable c] (h : c) (e : ε) :
    (raiseIf c e : Prog σ ε Unit) = raise e := if_pos h

/-- What does not hold is passed over. -/
theorem raiseIf_neg {c : Prop} [Decidable c] (h : ¬ c) (e : ε) :
    (raiseIf c e : Prog σ ε Unit) = ret () := if_neg h

/-- What is raised for ends what would go on. -/
theorem raiseIf_bind_pos {c : Prop} [Decidable c] (h : c) (e : ε) (f : Unit → Prog σ ε β) :
    (raiseIf c e >>= f) = raise e := by
  rw [raiseIf_pos h, raise_bind]

/-! ## The program run alone -/

/-- Run `p` alone against a world that answers by a function. `none` is a hang. -/
def run (h : (o : σ.Op) → W → σ.Ans o × W) : Prog σ ε α → W → Option (Except ε α) × W
  | ret a, w => (some (.ok a), w)
  | raise e, w => (some (.error e), w)
  | hang, w => (none, w)
  | vis o k, w => (k (h o w).1).run h (h o w).2

section Run

variable (h : (o : σ.Op) → W → σ.Ans o × W)

@[simp] theorem run_ret (a : α) (w : W) : (ret a : Prog σ ε α).run h w = (some (.ok a), w) := rfl
@[simp] theorem run_raise (e : ε) (w : W) :
    (raise e : Prog σ ε α).run h w = (some (.error e), w) := rfl
@[simp] theorem run_hang (w : W) : (hang : Prog σ ε α).run h w = (none, w) := rfl
@[simp] theorem run_vis (o : σ.Op) (k : σ.Ans o → Prog σ ε α) (w : W) :
    (vis o k).run h w = (k (h o w).1).run h (h o w).2 := rfl

/-- The run of a sequence: the second program runs only on a returned value. -/
theorem run_bind (p : Prog σ ε α) (f : α → Prog σ ε β) (w : W) :
    (p >>= f).run h w = match p.run h w with
      | (some (.ok a), w') => (f a).run h w'
      | (some (.error e), w') => (some (.error e), w')
      | (none, w') => (none, w') := by
  induction p generalizing w with
  | ret a => rfl
  | raise e => rfl
  | hang => rfl
  | vis o k ih => exact ih _ _

/-- A result that is at hand runs to itself and leaves the world. -/
@[simp] theorem run_ofExcept (r : Except ε α) (w : W) :
    (ofExcept r : Prog σ ε α).run h w = (some r, w) := by
  cases r <;> rfl

/-- What is caught is what the program ran to. -/
theorem run_attempt (p : Prog σ ε α) (w : W) :
    (p.attempt : Prog σ ε' _).run h w = ((p.run h w).1.map .ok, (p.run h w).2) := by
  induction p generalizing w with
  | ret a => rfl
  | raise e => rfl
  | hang => rfl
  | vis o k ih => exact ih _ _

end Run

/-! ## What a program may ask for -/

/-- Every operation `p` can issue, under whatever answers it gets, has property `P`. -/
def Issues (P : σ.Op → Prop) : Prog σ ε α → Prop
  | ret _ => True
  | raise _ => True
  | hang => True
  | vis o k => P o ∧ ∀ a, (k a).Issues P

section Issues

variable {P : σ.Op → Prop}

@[simp] theorem issues_ret (a : α) : (ret a : Prog σ ε α).Issues P := trivial
@[simp] theorem issues_raise (e : ε) : (raise e : Prog σ ε α).Issues P := trivial
@[simp] theorem issues_hang : (hang : Prog σ ε α).Issues P := trivial
@[simp] theorem issues_vis (o : σ.Op) (k : σ.Ans o → Prog σ ε α) :
    (vis o k).Issues P ↔ P o ∧ ∀ a, (k a).Issues P := Iff.rfl

/-- Every program asks only for operations. -/
theorem issues_true (p : Prog σ ε α) : p.Issues fun _ => True := by
  induction p with
  | ret a => trivial
  | raise e => trivial
  | hang => trivial
  | vis o k ih => exact ⟨trivial, ih⟩

/-- A program in sequence asks for what its two parts ask for. -/
theorem Issues.bind {p : Prog σ ε α} {f : α → Prog σ ε β} (hp : p.Issues P)
    (hf : ∀ a, (f a).Issues P) : (p >>= f).Issues P := by
  induction p with
  | ret a => exact hf a
  | raise e => trivial
  | hang => trivial
  | vis o k ih => exact ⟨hp.1, fun a => ih a (hp.2 a)⟩

/-- A caught program asks for no more. -/
theorem Issues.attempt {p : Prog σ ε α} (hp : p.Issues P) :
    (p.attempt : Prog σ ε' _).Issues P := by
  induction p with
  | ret a => trivial
  | raise e => trivial
  | hang => trivial
  | vis o k ih => exact ⟨hp.1, fun a => ih a (hp.2 a)⟩

/-- A result at hand asks for nothing. -/
@[simp] theorem issues_ofExcept (r : Except ε α) : (ofExcept r : Prog σ ε α).Issues P := by
  cases r <;> trivial

/-- A check asks for nothing. -/
@[simp] theorem issues_raiseIf (c : Prop) [Decidable c] (e : ε) :
    (raiseIf c e : Prog σ ε Unit).Issues P := by
  unfold raiseIf
  split <;> trivial

/-- One operation asks for itself. -/
@[simp] theorem issues_perform (o : σ.Op) : (perform o : Prog σ ε _).Issues P ↔ P o :=
  ⟨fun h => h.1, fun h => ⟨h, fun _ => trivial⟩⟩

/-- What a program asks for may be said more widely. -/
theorem Issues.mono {P' : σ.Op → Prop} {p : Prog σ ε α} (hp : p.Issues P)
    (himp : ∀ o, P o → P' o) : p.Issues P' := by
  induction p with
  | ret a => trivial
  | raise e => trivial
  | hang => trivial
  | vis o k ih => exact ⟨himp o hp.1, fun a => ih a (hp.2 a)⟩

/-- An implementation whose operations have `P'` gives a program whose operations have `P'`. -/
theorem Issues.interp {P' : τ.Op → Prop} {h : ∀ o : σ.Op, Prog τ ε (σ.Ans o)}
    {p : Prog σ ε α} (hp : p.Issues P) (hh : ∀ o, P o → (h o).Issues P') :
    (p.interp h).Issues P' := by
  induction p with
  | ret a => trivial
  | raise e => trivial
  | hang => trivial
  | vis o k ih => exact (hh o hp.1).bind fun a => ih a (hp.2 a)

/-- **Two worlds that answer alike.** If every operation a program can issue is answered equally
in two related worlds and leaves related worlds, the program's two runs end equally, in related
worlds. -/
theorem Issues.run_rel {h : (o : σ.Op) → W → σ.Ans o × W} {R : W → W → Prop}
    (hR : ∀ o, P o → ∀ w w', R w w' → (h o w).1 = (h o w').1 ∧ R (h o w).2 (h o w').2)
    {p : Prog σ ε α} (hp : p.Issues P) {w w' : W} (hw : R w w') :
    (p.run h w).1 = (p.run h w').1 ∧ R (p.run h w).2 (p.run h w').2 := by
  induction p generalizing w w' with
  | ret a => exact ⟨rfl, hw⟩
  | raise e => exact ⟨rfl, hw⟩
  | hang => exact ⟨rfl, hw⟩
  | vis o k ih =>
    obtain ⟨hans, hpost⟩ := hR o hp.1 w w' hw
    simp only [run_vis, ← hans]
    exact ih _ (hp.2 _) hpost

/-- A relation between a world and its successor that every issued operation keeps, and that
composes, holds between a run's first world and its last. -/
theorem Issues.run_post {h : (o : σ.Op) → W → σ.Ans o × W} {R : W → W → Prop}
    (refl : ∀ w, R w w) (trans : ∀ {a b c}, R a b → R b c → R a c)
    (hR : ∀ o, P o → ∀ w, R w (h o w).2) {p : Prog σ ε α} (hp : p.Issues P) (w : W) :
    R w (p.run h w).2 := by
  induction p generalizing w with
  | ret a => exact refl w
  | raise e => exact refl w
  | hang => exact refl w
  | vis o k ih => exact trans (hR o hp.1 w) (ih _ (hp.2 _) _)

end Issues

end Prog

/-! ## Traces and environments -/

/-- One operation as it happened: the world before it, the answer it got, the world after it. -/
structure Event (σ : Sig) (W : Type) where
  pre : W
  op : σ.Op
  ans : σ.Ans op
  post : W

/-- What one program did, in order. -/
abbrev Trace (σ : Sig) (W : Type) := List (Event σ W)

/-- What a program may meet: which answers an operation can get and what it does to the world
(`handles`), and what can become of the world while the program is between two operations
(`rely`). Every operation is itself something that can happen between two operations of another
program. -/
structure Env (σ : Sig) (W : Type) where
  handles : W → (o : σ.Op) → σ.Ans o → W → Prop
  rely : W → W → Prop
  rely_refl : ∀ w, rely w w
  rely_trans : ∀ {a b c}, rely a b → rely b c → rely a c
  rely_of_handles : ∀ {w o a w'}, handles w o a w' → rely w w'

/-- `e` may come after `tr` in one program's trace. -/
structure Env.Admits (E : Env σ W) (tr : Trace σ W) (e : Event σ W) : Prop where
  handles : E.handles e.pre e.op e.ans e.post
  rely : ∀ e' ∈ tr, E.rely e'.post e.pre

/-! ## The program logic -/

namespace Prog

variable {E : Env σ W} {G : Trace σ W → σ.Op → Prop} {Q : Trace σ W → Except ε α → Prop}

/-- After the trace `tr`, `p` issues only operations that `G` allows and ends as `Q` says. -/
def Sat (E : Env σ W) (G : Trace σ W → σ.Op → Prop) :
    Prog σ ε α → (Trace σ W → Except ε α → Prop) → Trace σ W → Prop
  | ret a, Q, tr => Q tr (.ok a)
  | raise e, Q, tr => Q tr (.error e)
  | hang, _, _ => True
  | vis o k, Q, tr => G tr o ∧
      ∀ w a w', E.Admits tr ⟨w, o, a, w'⟩ → (k a).Sat E G Q (tr ++ [⟨w, o, a, w'⟩])

/-- The postcondition of `p` in `p >>= f`. -/
def andThen (E : Env σ W) (G : Trace σ W → σ.Op → Prop) (f : α → Prog σ ε β)
    (Q : Trace σ W → Except ε β → Prop) : Trace σ W → Except ε α → Prop
  | tr, .ok a => (f a).Sat E G Q tr
  | tr, .error e => Q tr (.error e)

@[simp] theorem andThen_ok (f : α → Prog σ ε β) (Q : Trace σ W → Except ε β → Prop) (tr a) :
    andThen E G f Q tr (.ok a) ↔ (f a).Sat E G Q tr := Iff.rfl
@[simp] theorem andThen_error (f : α → Prog σ ε β) (Q : Trace σ W → Except ε β → Prop) (tr e) :
    andThen E G f Q tr (.error e) ↔ Q tr (.error e) := Iff.rfl

@[simp] theorem sat_ret (a : α) (tr) : (ret a).Sat E G Q tr ↔ Q tr (.ok a) := Iff.rfl
@[simp] theorem sat_raise (e : ε) (tr) : (raise e).Sat E G Q tr ↔ Q tr (.error e) := Iff.rfl
@[simp] theorem sat_hang (tr) : (hang : Prog σ ε α).Sat E G Q tr ↔ True := Iff.rfl

/-- An operation is guaranteed where it is issued, and whatever is answered the rest satisfies. -/
theorem sat_vis (o : σ.Op) (k : σ.Ans o → Prog σ ε α) (tr) :
    (vis o k).Sat E G Q tr ↔ G tr o ∧
      ∀ w a w', E.Admits tr ⟨w, o, a, w'⟩ → (k a).Sat E G Q (tr ++ [⟨w, o, a, w'⟩]) := Iff.rfl

/-- The composition rule. -/
theorem sat_bind (p : Prog σ ε α) (f : α → Prog σ ε β) (Q : Trace σ W → Except ε β → Prop) (tr) :
    (p >>= f).Sat E G Q tr ↔ p.Sat E G (andThen E G f Q) tr := by
  induction p generalizing tr with
  | ret a => rfl
  | raise e => rfl
  | hang => rfl
  | vis o k ih =>
    simp only [vis_bind, sat_vis]
    exact and_congr_right fun _ => forall_congr' fun w => forall_congr' fun a =>
      forall_congr' fun w' => imp_congr_right fun _ => ih a _

/-- `try` around a program: its postcondition is asked of the outcome as a value. -/
theorem sat_attempt (p : Prog σ ε α) (Q : Trace σ W → Except ε' (Except ε α) → Prop) (tr) :
    (p.attempt).Sat E G Q tr ↔ p.Sat E G (fun tr r => Q tr (.ok r)) tr := by
  induction p generalizing tr with
  | ret a => rfl
  | raise e => rfl
  | hang => rfl
  | vis o k ih =>
    exact and_congr_right fun _ => forall_congr' fun w => forall_congr' fun a =>
      forall_congr' fun w' => imp_congr_right fun _ => ih a _

/-- A result at hand satisfies what it is said of. -/
@[simp] theorem sat_ofExcept (r : Except ε α) (tr) :
    (ofExcept r).Sat E G Q tr ↔ Q tr r := by
  cases r <;> rfl

/-- A check satisfies both of its ways out. -/
@[simp] theorem sat_raiseIf (c : Prop) [Decidable c] (e : ε) (Q : Trace σ W → Except ε Unit → Prop)
    (tr) : (raiseIf c e).Sat E G Q tr ↔ (c → Q tr (.error e)) ∧ (¬ c → Q tr (.ok ())) := by
  by_cases h : c
  · rw [raiseIf_pos h]
    exact ⟨fun hq => ⟨fun _ => hq, fun hn => absurd h hn⟩, fun hq => hq.1 h⟩
  · rw [raiseIf_neg h]
    exact ⟨fun hq => ⟨fun hc => absurd hc h, fun _ => hq⟩, fun hq => hq.2 h⟩

/-- A result at hand, then the rest: its error ends the call, its value goes on. -/
theorem sat_ofExcept_bind {r : Except ε α} {f : α → Prog σ ε β}
    {Q : Trace σ W → Except ε β → Prop} {tr} (herr : ∀ e, r = .error e → Q tr (.error e))
    (hok : ∀ a, r = .ok a → (f a).Sat E G Q tr) : (ofExcept r >>= f).Sat E G Q tr := by
  cases r with
  | ok a => exact hok a rfl
  | error e => exact herr e rfl

/-- A check, then the rest. -/
theorem sat_raiseIf_bind {c : Prop} [Decidable c] {e : ε} {f : Unit → Prog σ ε β}
    {Q : Trace σ W → Except ε β → Prop} {tr} (herr : c → Q tr (.error e))
    (hok : ¬ c → (f ()).Sat E G Q tr) : (raiseIf c e >>= f).Sat E G Q tr :=
  (sat_bind _ _ _ _).mpr ((sat_raiseIf _ _ _ _).mpr ⟨herr, hok⟩)

/-- A weaker guarantee and a weaker postcondition. -/
theorem Sat.mono {G' : Trace σ W → σ.Op → Prop} {Q' : Trace σ W → Except ε α → Prop}
    {p : Prog σ ε α} {tr} (h : p.Sat E G Q tr) (hG : ∀ tr o, G tr o → G' tr o)
    (hQ : ∀ tr r, Q tr r → Q' tr r) : p.Sat E G' Q' tr := by
  induction p generalizing tr with
  | ret a => exact hQ _ _ h
  | raise e => exact hQ _ _ h
  | hang => trivial
  | vis o k ih => exact ⟨hG _ _ h.1, fun w a w' he => ih a (h.2 w a w' he)⟩

/-- What holds at the end may be weakened. -/
theorem Sat.post {Q' : Trace σ W → Except ε α → Prop} {p : Prog σ ε α} {tr}
    (h : p.Sat E G Q tr) (hQ : ∀ tr r, Q tr r → Q' tr r) : p.Sat E G Q' tr :=
  h.mono (fun _ _ hg => hg) hQ

/-- A program of which only the operations it can issue are known satisfies what holds after any
trace of such operations, however it ends. -/
theorem Issues.sat {P : σ.Op → Prop} {p : Prog σ ε α} {tr : Trace σ W} (hp : p.Issues P)
    (hG : ∀ q o, P o → G (tr ++ q) o) (hQ : ∀ q r, (∀ e ∈ q, P e.op) → Q (tr ++ q) r) :
    p.Sat E G Q tr := by
  have hnil : ∀ r, Q tr r := fun r => by
    have h := hQ [] r fun e he => absurd he List.not_mem_nil
    rwa [List.append_nil] at h
  induction p generalizing tr with
  | ret a => exact hnil _
  | raise e => exact hnil _
  | hang => trivial
  | vis o k ih =>
    have hissue := hG [] o hp.1
    rw [List.append_nil] at hissue
    refine ⟨hissue, fun w a w' _ => ih a (hp.2 a) (fun q o' ho' => ?_) (fun q r hq => ?_) fun r => ?_⟩
    · rw [List.append_assoc]
      exact hG _ o' ho'
    · rw [List.append_assoc]
      exact hQ _ r (List.forall_mem_cons.mpr ⟨hp.1, hq⟩)
    · exact hQ _ r (List.forall_mem_cons.mpr ⟨hp.1, fun e he => absurd he List.not_mem_nil⟩)

/-- The rule for a program that is run inside a larger one: its specification, stated over its own
guarantee, replaces its text. -/
theorem Sat.andThen {p : Prog σ ε α} {f : α → Prog σ ε β} {Q' : Trace σ W → Except ε β → Prop} {tr}
    (h : p.Sat E G Q tr) (hok : ∀ tr a, Q tr (.ok a) → (f a).Sat E G Q' tr)
    (herr : ∀ tr e, Q tr (.error e) → Q' tr (.error e)) : (p >>= f).Sat E G Q' tr := by
  refine (sat_bind p f Q' tr).mpr (h.post fun tr r hr => ?_)
  cases r with
  | ok a => exact hok tr a hr
  | error e => exact herr tr e hr

/-- The trace only grows, and every operation it gained passed the guarantee. -/
theorem Sat.and_prefix {p : Prog σ ε α} {tr₀ tr : Trace σ W} (hpre : tr₀ <+: tr)
    (h : p.Sat E G Q tr) : p.Sat E G (fun tr r => Q tr r ∧ tr₀ <+: tr) tr := by
  induction p generalizing tr with
  | ret a => exact ⟨h, hpre⟩
  | raise e => exact ⟨h, hpre⟩
  | hang => trivial
  | vis o k ih =>
    exact ⟨h.1, fun w a w' he => ih a (hpre.trans (List.prefix_append _ _)) (h.2 w a w' he)⟩

/-! ## Properties put together -/

/-- A property of programs that holds of what is put together from programs it holds of. -/
structure Composes (D : (α : Type) → Prog σ ε α → Prop) : Prop where
  ret : ∀ (α : Type) (a : α), D α (.ret a)
  raise : ∀ (α : Type) (e : ε), D α (.raise e)
  hang : ∀ α : Type, D α .hang
  bind : ∀ (α β : Type) (p : Prog σ ε α) (f : α → Prog σ ε β), D α p → (∀ a, D β (f a)) →
    D β (p >>= f)
  attempt : ∀ (α : Type) (p : Prog σ ε α), D α p → D (Except ε α) p.attempt

section Composes

variable {D : (α : Type) → Prog σ ε α → Prop}

/-- A result at hand is in what composes. -/
theorem Composes.ofExcept (h : Composes D) (r : Except ε α) : D α (ofExcept r) := by
  cases r with
  | ok a => exact h.ret α a
  | error e => exact h.raise α e

/-- A check in front of a program: what is behind it may rely on it. -/
theorem Composes.raiseIf (h : Composes D) {c : Prop} [Decidable c] {e : ε} {f : Unit → Prog σ ε β}
    (hf : ¬ c → D β (f ())) : D β (Prog.raiseIf c e >>= f) := by
  by_cases hc : c
  · rw [raiseIf_bind_pos hc]
    exact h.raise β e
  · rw [raiseIf_neg hc, ret_bind]
    exact hf hc

end Composes

/-- What a program may ask for composes. -/
theorem composes_issues (P : σ.Op → Prop) :
    Composes fun α (p : Prog σ ε α) => p.Issues P where
  ret _ _ := trivial
  raise _ _ := trivial
  hang _ := trivial
  bind _ _ _ _ hp hf := hp.bind hf
  attempt _ _ hp := hp.attempt

/-- A guarantee that holds after traces with a property, which each part keeps, composes. -/
theorem composes_sat_keeps (E : Env σ W) (G : Trace σ W → σ.Op → Prop) (I : Trace σ W → Prop) :
    Composes fun α (p : Prog σ ε α) => ∀ tr, I tr → p.Sat E G (fun tr' _ => I tr') tr where
  ret _ _ _ hI := hI
  raise _ _ _ hI := hI
  hang _ _ _ := trivial
  bind _ _ _ _ hp hf tr hI := (hp tr hI).andThen (fun tr' a hI' => hf a tr' hI') fun _ _ hI' => hI'
  attempt _ _ hp tr hI := (sat_attempt _ _ _).mpr (hp tr hI)

end Prog

end Interaction
