import Wenchang.Interaction.Crash
import Wenchang.Interaction.Pool

/-!
# Programs behind a lock

Each call asks for one lock, shared or exclusive, before it does anything else, waits until it is granted,
and gives it back with its last operation. Any call may die at any moment, which gives its lock back too. Then
what calls do that run at the same time, they could have done one after the other, in the order in which they
ended (`LockPool.Run.serializes`), and those that died died there.

That a lock is asked for may change the world, as opening a lock file does that was not there. So the world
of the calls in flight is the world of the calls that ended, or what asking makes of it (`Lock.Near`).
-/

namespace Interaction

variable {σ : Sig} {ε ε' α β κ W : Type}

/-! ## Partial runs -/

/-- `p` may have come from `w` to `w'`, where `q` remains to be done. -/
inductive Prog.Reaches (h : W → (o : σ.Op) → σ.Ans o → W → Prop) (p : Prog σ ε α) (w : W) :
    Prog σ ε α → W → Prop
  | refl : Reaches h p w p w
  | step (o : σ.Op) (k : σ.Ans o → Prog σ ε α) (w₁ : W) (a : σ.Ans o) (w₂ : W)
      (before : Reaches h p w (.vis o k) w₁) (handled : h w₁ o a w₂) : Reaches h p w (k a) w₂

/-- What is reached, and then run to its end, is run. -/
theorem Prog.Reaches.runs {h : W → (o : σ.Op) → σ.Ans o → W → Prop} {p q : Prog σ ε α} {w w₁ w' : W}
    {r : Except ε α} (hreach : p.Reaches h w q w₁) (hr : q.Runs h w₁ r w') : p.Runs h w r w' := by
  induction hreach with
  | refl => exact hr
  | step o k w₁ a w₂ _ handled ih => exact ih (.vis o k w₁ a w₂ r w' handled hr)

/-- What is reached and dies there has died. -/
theorem Prog.Reaches.dies {M : Mortal σ W} {p q : Prog σ ε α} {w w₁ w' : W}
    (hreach : p.Reaches M.handles w q w₁) (hd : q.Dies M w₁ w') : p.Dies M w w' := by
  induction hreach with
  | refl => exact hd
  | step o k w₁ a w₂ _ handled ih => exact ih (.later o k w₁ a w₂ w' handled hd)

/-- What is reached asks for no more than the whole. -/
theorem Prog.Reaches.issues {h : W → (o : σ.Op) → σ.Ans o → W → Prop} {P : σ.Op → Prop} {p q : Prog σ ε α}
    {w w' : W} (hreach : p.Reaches h w q w') (hp : p.Issues P) : q.Issues P := by
  induction hreach with
  | refl => exact hp
  | step o k w₁ a w₂ _ _ ih => exact ih.2 a

/-- A program that has its outcome runs to it at once. -/
theorem Prog.runs_of_outcome {h : W → (o : σ.Op) → σ.Ans o → W → Prop} {p : Prog σ ε α} {r : Except ε α}
    (hr : p.outcome? = some r) (w : W) : p.Runs h w r w := by
  rw [Prog.eq_of_outcome hr]
  exact runs_ofExcept.mpr ⟨rfl, rfl⟩

/-- A program that has its outcome asks for nothing. -/
theorem Prog.issues_of_outcome {P : σ.Op → Prop} {p : Prog σ ε α} (h : p.outcome? ≠ none) : p.Issues P := by
  cases p with
  | vis o k => exact absurd rfl h
  | _ => trivial

/-- Programs that have their outcomes have one in sequence. -/
theorem Prog.outcome_bind {p : Prog σ ε α} {f : α → Prog σ ε β} (hp : p.outcome? ≠ none)
    (hf : ∀ a, (f a).outcome? ≠ none) : (p >>= f).outcome? ≠ none := by
  cases p with
  | ret a => exact hf a
  | raise e => nofun
  | _ => exact absurd rfl hp

/-- A caught program has its outcome as well. -/
theorem Prog.outcome_attempt {p : Prog σ ε α} (hp : p.outcome? ≠ none) :
    (p.attempt : Prog σ ε' _).outcome? ≠ none := by
  cases p with
  | ret a => nofun
  | raise e => nofun
  | _ => exact absurd rfl hp

/-- One history after another. -/
theorem MortalHistory.append {M : Mortal σ W} {body : κ → Prog σ ε α} {w w₁ w' : W}
    {calls calls' : List (κ × Option (Except ε α))} (hist : MortalHistory M body w calls w₁)
    (hist' : MortalHistory M body w₁ calls' w') : MortalHistory M body w (calls ++ calls') w' := by
  induction hist with
  | nil w => exact hist'
  | ended c r rest w w₁ w₂ run _ ih => exact .ended c r _ w w₁ w' run (ih hist')
  | died c rest w w₁ w₂ dies _ ih => exact .died c _ w w₁ w' dies (ih hist')

/-! ## Locks -/

/-- A lock, by the operations that ask for it. -/
structure Lock (σ : Sig) (W : Type) where
  asks : σ.Op → Prop
  /-- The answer with which a call goes on to wait, for the lock exclusively or shared. -/
  takes : (o : σ.Op) → σ.Ans o → Option Bool
  /-- A world in which to ask changes nothing. -/
  opened : W → Prop
  /-- What a call may do that holds the lock exclusively or shared. -/
  inside : Bool → σ.Op → Prop

/-- A call asks for the lock first, if it does anything; it ends when it is refused, and does not ask for it
again when it holds it. -/
def Prog.Sectioned (L : Lock σ W) : Prog σ ε α → Prop
  | vis o k => L.asks o ∧ ∀ a, match L.takes o a with
    | none => (k a).outcome? ≠ none
    | some exclusive => (k a).Issues fun o => (∀ a, L.takes o a = none) ∧ L.inside exclusive o
  | _ => True

/-- A program that does not get its lock ends there. -/
theorem Prog.Sectioned.ends {L : Lock σ W} {o : σ.Op} {k : σ.Ans o → Prog σ ε α} (h : (vis o k).Sectioned L)
    {a : σ.Ans o} (ha : L.takes o a = none) : (k a).outcome? ≠ none := by
  have hk := h.2 a
  rwa [ha] at hk

/-- Under its lock a program asks for what the lock protects and takes no other. -/
theorem Prog.Sectioned.issues {L : Lock σ W} {o : σ.Op} {k : σ.Ans o → Prog σ ε α} (h : (vis o k).Sectioned L)
    {a : σ.Ans o} {exclusive : Bool} (ha : L.takes o a = some exclusive) :
    (k a).Issues fun o => (∀ a, L.takes o a = none) ∧ L.inside exclusive o := by
  have hk := h.2 a
  rwa [ha] at hk

/-- The lock of a larger program is that of its first part, where the rest only shapes the outcome. -/
theorem Prog.Sectioned.bind {L : Lock σ W} {p : Prog σ ε α} {f : α → Prog σ ε β} (hp : p.Sectioned L)
    (hf : ∀ a, (f a).outcome? ≠ none) : (p >>= f).Sectioned L := by
  cases p with
  | ret a =>
    show (f a).Sectioned L
    have hfa := hf a
    cases hp : f a with
    | vis o k => exact absurd (congrArg outcome? hp) hfa
    | _ => trivial
  | raise e => trivial
  | hang => trivial
  | vis o k =>
    refine ⟨hp.1, fun a => ?_⟩
    cases htakes : L.takes o a with
    | none => exact outcome_bind (hp.ends htakes) hf
    | some exclusive => exact (hp.issues htakes).bind fun b => issues_of_outcome (hf b)

/-- A caught program takes its lock as the program does. -/
theorem Prog.Sectioned.attempt {L : Lock σ W} {p : Prog σ ε α} (hp : p.Sectioned L) :
    (p.attempt : Prog σ ε' _).Sectioned L := by
  cases p with
  | vis o k =>
    refine ⟨hp.1, fun a => ?_⟩
    cases htakes : L.takes o a with
    | none => exact outcome_attempt (hp.ends htakes)
    | some exclusive => exact (hp.issues htakes).attempt
  | _ => trivial

/-- A result at hand before a program takes no lock. -/
theorem Prog.sectioned_ofExcept_bind {L : Lock σ W} {r : Except ε α} {f : α → Prog σ ε β}
    (hf : ∀ a, (f a).Sectioned L) : (ofExcept r >>= f).Sectioned L := by
  cases r with
  | ok a => exact hf a
  | error e => trivial

/-- A lock that is asked for in the same way, and behind which more is allowed. -/
theorem Prog.Sectioned.mono {L L' : Lock σ W} {p : Prog σ ε α} (hp : p.Sectioned L) (hasks : L'.asks = L.asks)
    (htakes : L'.takes = L.takes) (hinside : ∀ x o, L.inside x o → L'.inside x o) : p.Sectioned L' := by
  obtain ⟨asks, takes, opened, inside⟩ := L'
  obtain rfl : asks = L.asks := hasks
  obtain rfl : takes = L.takes := htakes
  cases p with
  | vis o k =>
    refine ⟨hp.1, fun a => ?_⟩
    have hk := hp.2 a
    cases ha : L.takes o a with
    | none =>
      rw [ha] at hk
      exact hk
    | some exclusive =>
      rw [ha] at hk
      exact hk.mono fun o ho => ⟨ho.1, hinside exclusive o ho.2⟩
  | _ => trivial

/-- What a call may do at all. -/
theorem Prog.Sectioned.issues_all {L : Lock σ W} {p : Prog σ ε α} (hp : p.Sectioned L) :
    p.Issues fun o => L.asks o ∨ ∃ exclusive, L.inside exclusive o := by
  cases p with
  | vis o k =>
    refine ⟨.inl hp.1, fun a => ?_⟩
    cases htakes : L.takes o a with
    | none => exact issues_of_outcome (hp.ends htakes)
    | some exclusive => exact (hp.issues htakes).mono fun o ho => .inr ⟨exclusive, ho.2⟩
  | _ => trivial

namespace Lock

variable (L : Lock σ W) (M : Mortal σ W)

/-- To ask for the lock makes the one world of the other. -/
def Opens (w w' : W) : Prop :=
  L.opened w' ∧ ∀ (o : σ.Op) (a : σ.Ans o), L.takes o a ≠ none → M.handles w o a w'

/-- The world, or what asking makes of it. -/
def Near (w w' : W) : Prop := w = w' ∨ L.Opens M w w'

/-- What is assumed of a lock: to ask for it changes the world once at most, a call that holds it leaves it
opened, and one that shares it changes nothing. -/
structure Lawful : Prop where
  opens : ∀ w o a w', L.takes o a ≠ none → M.handles w o a w' → L.Opens M w w'
  again : ∀ w, L.opened w → L.Opens M w w
  asked : ∀ w o a w', L.asks o → L.opened w → M.handles w o a w' → w' = w ∧ L.takes o a ≠ none
  refused : ∀ w o a w', L.asks o → L.takes o a = none → M.handles w o a w' → w' = w
  cut_ask : ∀ w o w', L.asks o → M.cut w o w' → w' = w
  keeps : ∀ w o a w', L.inside true o → M.handles w o a w' → L.opened w → L.opened w'
  cut_keeps : ∀ w o w', L.inside true o → M.cut w o w' → L.opened w → L.opened w'
  reads : ∀ w o a w', L.inside false o → M.handles w o a w' → w' = w
  cut_reads : ∀ w o w', L.inside false o → M.cut w o w' → w' = w

variable {L M}

/-- A world with its lock file opened was opened from what it is near. -/
theorem Near.opens (hL : L.Lawful M) {w w' : W} (h : L.Near M w w') (hopened : L.opened w') :
    L.Opens M w w' := by
  rcases h with rfl | h
  · exact hL.again w hopened
  · exact h

/-- A world that was not opened is near itself only. -/
theorem Near.eq {w w' : W} (h : L.Near M w w') (hopened : ¬ L.opened w') : w = w' := by
  rcases h with rfl | h
  · rfl
  · exact absurd h.1 hopened

end Lock

/-! ## Pools -/

/-- Where a call is with the lock. -/
inductive Hold where
  | outside
  | waiting (exclusive : Bool)
  | holding (exclusive : Bool)
  deriving DecidableEq

/-- Two calls may be where they are at the same time: none holds the lock beside one that holds it
exclusively. -/
def Hold.Compatible : Hold → Hold → Prop
  | .holding x, .holding y => x = false ∧ y = false
  | _, _ => True

instance (h h' : Hold) : Decidable (h.Compatible h') :=
  match h, h' with
  | .holding x, .holding y => inferInstanceAs (Decidable (x = false ∧ y = false))
  | .outside, _ => .isTrue trivial
  | .waiting _, _ => .isTrue trivial
  | .holding _, .outside => .isTrue trivial
  | .holding _, .waiting _ => .isTrue trivial

/-- Compatibility of holds is mutual. -/
theorem Hold.Compatible.symm {h h' : Hold} (hc : h.Compatible h') : h'.Compatible h := by
  cases h <;> cases h' <;> first | trivial | exact And.symm hc

/-- Nothing holds a lock beside a call that holds it exclusively. -/
theorem Hold.Compatible.not_holding {h : Hold} (hc : (Hold.holding true).Compatible h) (x : Bool) :
    h ≠ .holding x := by
  rintro rfl
  cases hc.1

/-- Nothing holds a lock exclusively beside a call that holds it. -/
theorem Hold.Compatible.not_exclusive {x : Bool} {h : Hold} (hc : (Hold.holding x).Compatible h) :
    h ≠ .holding true := by
  rintro rfl
  cases hc.2

/-- A call in flight. -/
structure Locker (σ : Sig) (ε α κ : Type) where
  call : κ
  hold : Hold
  prog : Prog σ ε α

namespace Locker

/-- A call stays in flight, unless it has nothing left to do. -/
def live (th : Locker σ ε α κ) : List (Locker σ ε α κ) :=
  match th.prog.outcome? with
  | some _ => []
  | none => [th]

/-- How a call has ended. -/
def ended (th : Locker σ ε α κ) : List (κ × Option (Except ε α)) :=
  match th.prog.outcome? with
  | some r => [(th.call, some r)]
  | none => []

/-- A call has ended with its outcome, or runs on. -/
theorem live_cases (th : Locker σ ε α κ) : (∃ r, th.prog.outcome? = some r ∧ th.live = [] ∧
    th.ended = [(th.call, some r)]) ∨ th.live = [th] ∧ th.ended = [] := by
  unfold live ended
  cases th.prog.outcome? with
  | some r => exact .inl ⟨r, rfl, rfl, rfl⟩
  | none => exact .inr ⟨rfl, rfl⟩

end Locker

/-- A world, the calls in flight, and those that have ended or died, in that order. -/
structure LockPool (σ : Sig) (ε α κ W : Type) where
  world : W
  calls : List (Locker σ ε α κ)
  done : List (κ × Option (Except ε α))

namespace LockPool

variable (M : Mortal σ W) (L : Lock σ W) (body : κ → Prog σ ε α)

/-- One step: a call is invoked; asks for the lock; is granted it; performs its next operation; dies. A call
that has nothing left to do ends at once, and whatever ends or dies gives the lock back. -/
inductive Step : LockPool σ ε α κ W → LockPool σ ε α κ W → Prop
  | invoke (w : W) (calls : List (Locker σ ε α κ)) (done : List (κ × Option (Except ε α))) (c : κ) :
    Step ⟨w, calls, done⟩
      ⟨w, calls ++ (⟨c, .outside, body c⟩ : Locker σ ε α κ).live,
        done ++ (⟨c, .outside, body c⟩ : Locker σ ε α κ).ended⟩
  | ask (w : W) (l l' : List (Locker σ ε α κ)) (done : List (κ × Option (Except ε α))) (c : κ) (o : σ.Op)
      (k : σ.Ans o → Prog σ ε α) (a : σ.Ans o) (w' : W) (exclusive : Bool)
      (takes : L.takes o a = some exclusive) (handled : M.handles w o a w') :
    Step ⟨w, l ++ ⟨c, .outside, .vis o k⟩ :: l', done⟩ ⟨w', l ++ ⟨c, .waiting exclusive, k a⟩ :: l', done⟩
  | grant (w : W) (l l' : List (Locker σ ε α κ)) (done : List (κ × Option (Except ε α))) (c : κ)
      (p : Prog σ ε α) (exclusive : Bool)
      (compatible : ∀ th ∈ l ++ l', Hold.Compatible (.holding exclusive) th.hold) :
    Step ⟨w, l ++ ⟨c, .waiting exclusive, p⟩ :: l', done⟩
      ⟨w, l ++ (⟨c, .holding exclusive, p⟩ : Locker σ ε α κ).live ++ l',
        done ++ (⟨c, .holding exclusive, p⟩ : Locker σ ε α κ).ended⟩
  | act (w : W) (l l' : List (Locker σ ε α κ)) (done : List (κ × Option (Except ε α))) (c : κ) (hold : Hold)
      (o : σ.Op) (k : σ.Ans o → Prog σ ε α) (a : σ.Ans o) (w' : W) (running : ∀ x, hold ≠ .waiting x)
      (takes : L.takes o a = none) (handled : M.handles w o a w') :
    Step ⟨w, l ++ ⟨c, hold, .vis o k⟩ :: l', done⟩
      ⟨w', l ++ (⟨c, hold, k a⟩ : Locker σ ε α κ).live ++ l', done ++ (⟨c, hold, k a⟩ : Locker σ ε α κ).ended⟩
  | die (w : W) (l l' : List (Locker σ ε α κ)) (done : List (κ × Option (Except ε α))) (th : Locker σ ε α κ) :
    Step ⟨w, l ++ th :: l', done⟩ ⟨w, l ++ l', done ++ [(th.call, none)]⟩
  | cut (w : W) (l l' : List (Locker σ ε α κ)) (done : List (κ × Option (Except ε α))) (c : κ) (hold : Hold)
      (o : σ.Op) (k : σ.Ans o → Prog σ ε α) (w' : W) (running : ∀ x, hold ≠ .waiting x)
      (cut : M.cut w o w') :
    Step ⟨w, l ++ ⟨c, hold, .vis o k⟩ :: l', done⟩ ⟨w', l ++ l', done ++ [(c, none)]⟩

/-- The pools reached from the world `w`. -/
inductive Run (w : W) : LockPool σ ε α κ W → Prop
  | init : Run w ⟨w, [], []⟩
  | step {p p' : LockPool σ ε α κ W} (run : Run w p) (step : Step M L body p p') : Run w p'

variable {M L body}

/-! ## What holds of a pool -/

/-- What a call goes on with that has asked for the lock. -/
def Asked (L : Lock σ W) (body : κ → Prog σ ε α) (c : κ) (exclusive : Bool) (p : Prog σ ε α) : Prop :=
  ∃ (o : σ.Op) (k : σ.Ans o → Prog σ ε α) (a : σ.Ans o),
    body c = .vis o k ∧ L.takes o a = some exclusive ∧ p = k a

/-- Where a call is, when the calls that ended have led to `v` and the world is `w`. What a call has done that
shares the lock has changed nothing. -/
def At (M : Mortal σ W) (L : Lock σ W) (body : κ → Prog σ ε α) (v w : W) (th : Locker σ ε α κ) : Prop :=
  match th.hold with
  | .outside => th.prog = body th.call
  | .waiting x => Asked L body th.call x th.prog
  | .holding false => ∃ p, Asked L body th.call false p ∧ p.Reaches M.handles w th.prog w
  | .holding true => ∃ p w₁, Asked L body th.call true p ∧ L.Opens M v w₁ ∧ p.Reaches M.handles w₁ th.prog w

/-- What is left of a call that asked for its lock stays inside the lock. -/
theorem Asked.issues (hbody : ∀ c, (body c).Sectioned L) {c : κ} {x : Bool} {p : Prog σ ε α}
    (h : Asked L body c x p) : p.Issues fun o => (∀ a, L.takes o a = none) ∧ L.inside x o := by
  obtain ⟨o, k, a, hc, htakes, rfl⟩ := h
  exact (hc ▸ hbody c).issues htakes

/-- What a call did since it asked, it does from any world in which to ask leads there. -/
theorem Asked.runs {c : κ} {x : Bool} {p : Prog σ ε α} (h : Asked L body c x p) {v w w' : W}
    (hopens : L.Opens M v w) {r : Except ε α} (hr : p.Runs M.handles w r w') : (body c).Runs M.handles v r w' := by
  obtain ⟨o, k, a, hc, htakes, rfl⟩ := h
  rw [hc]
  exact .vis o k v a w r w' (hopens.2 o a (by rw [htakes]; nofun)) hr

/-- A call that asked for its lock and dies later has died as one from where it started. -/
theorem Asked.dies {c : κ} {x : Bool} {p : Prog σ ε α} (h : Asked L body c x p) {v w w' : W}
    (hopens : L.Opens M v w) (hd : p.Dies M w w') : (body c).Dies M v w' := by
  obtain ⟨o, k, a, hc, htakes, rfl⟩ := h
  rw [hc]
  exact .later o k v a w w' (hopens.2 o a (by rw [htakes]; nofun)) hd

/-- A pool whose ended calls have led to `v`. -/
structure Inv (M : Mortal σ W) (L : Lock σ W) (body : κ → Prog σ ε α) (w₀ : W) (p : LockPool σ ε α κ W)
    (v : W) : Prop where
  hist : MortalHistory M body w₀ p.done v
  near : (∀ th ∈ p.calls, th.hold ≠ .holding true) → L.Near M v p.world
  opened : ∀ th ∈ p.calls, th.hold ≠ .outside → L.opened p.world
  compatible : p.calls.Pairwise fun th th' => Hold.Compatible th.hold th'.hold
  at_calls : ∀ th ∈ p.calls, At M L body v p.world th

section

variable {v v' w w' w₀ : W} {l l' : List (Locker σ ε α κ)} {done : List (κ × Option (Except ε α))}
  {th th' u : Locker σ ε α κ}

/-- A call that does not hold the lock stands where it stood, whatever the others do. -/
theorem At.of_not_holding (h : At M L body v w u) (hu : ∀ x, u.hold ≠ .holding x) : At M L body v' w' u := by
  unfold At at h ⊢
  cases hhold : u.hold with
  | outside => simpa only [hhold] using h
  | waiting x => simpa only [hhold] using h
  | holding x => exact absurd hhold (hu x)

/-- A call that does not hold it exclusively stands where it stood, whatever was written before it. -/
theorem At.of_not_exclusive (h : At M L body v w u) (hu : u.hold ≠ .holding true) : At M L body v' w u := by
  unfold At at h ⊢
  cases hhold : u.hold with
  | outside => simpa only [hhold] using h
  | waiting x => simpa only [hhold] using h
  | holding x =>
    cases x with
    | false => simpa only [hhold] using h
    | true => exact absurd hhold hu

/-- The other calls are compatible with this one and with each other. -/
theorem Inv.others (h : Inv M L body w₀ ⟨w, l ++ th :: l', done⟩ v) :
    (∀ u ∈ l ++ l', th.hold.Compatible u.hold) ∧
      (l ++ l').Pairwise fun u u' => Hold.Compatible u.hold u'.hold :=
  List.pairwise_cons.mp ((List.pairwise_middle fun hc => Hold.Compatible.symm hc).mp h.compatible)

/-- What the invariant says of another call. -/
theorem Inv.of_mem (h : Inv M L body w₀ ⟨w, l ++ th :: l', done⟩ v) (hu : u ∈ l ++ l') :
    At M L body v w u ∧ (u.hold ≠ .outside → L.opened w) := by
  have hmem : u ∈ l ++ th :: l' := by
    rcases List.mem_append.mp hu with hu | hu
    · exact List.mem_append_left _ hu
    · exact List.mem_append_right _ (List.mem_cons_of_mem _ hu)
  exact ⟨h.at_calls u hmem, h.opened u hmem⟩

/-- What the invariant says of the call that acts. -/
theorem Inv.of_self (h : Inv M L body w₀ ⟨w, l ++ th :: l', done⟩ v) :
    At M L body v w th ∧ (th.hold ≠ .outside → L.opened w) := by
  have hmem : th ∈ l ++ th :: l' := List.mem_append_right _ List.mem_cons_self
  exact ⟨h.at_calls th hmem, h.opened th hmem⟩

/-- While nobody holds the lock exclusively, the disk is near the serial one. -/
theorem Inv.near_of_others (h : Inv M L body w₀ ⟨w, l ++ th :: l', done⟩ v)
    (hothers : ∀ u ∈ l ++ l', u.hold ≠ .holding true) (hth : th.hold ≠ .holding true) : L.Near M v w := by
  refine h.near fun u hu => ?_
  rcases List.mem_append.mp hu with hu | hu
  · exact hothers u (List.mem_append_left _ hu)
  · rcases List.mem_cons.mp hu with rfl | hu
    · exact hth
    · exact hothers u (List.mem_append_right _ hu)

/-- A call that holds the lock, and the world in which it got it: nothing else holds it exclusively. -/
theorem Inv.holding (hL : L.Lawful M) {x : Bool} (h : Inv M L body w₀ ⟨w, l ++ th :: l', done⟩ v)
    (hth : th.hold = .holding x) : ∃ p w₁, Asked L body th.call x p ∧ L.Opens M v w₁ ∧
      p.Reaches M.handles w₁ th.prog w ∧ (x = false → w₁ = w) := by
  have hself := h.of_self
  have hat := hself.1
  rw [At, hth] at hat
  cases x with
  | true =>
    obtain ⟨p, w₁, hasked, hopens, hreach⟩ := hat
    exact ⟨p, w₁, hasked, hopens, hreach, nofun⟩
  | false =>
    obtain ⟨p, hasked, hreach⟩ := hat
    have hopened := hself.2 (by rw [hth]; nofun)
    have hnear := h.near_of_others (fun u hu => (hth ▸ h.others.1 u hu).not_exclusive) (by rw [hth]; nofun)
    exact ⟨p, w, hasked, hnear.opens hL hopened, hreach, fun _ => rfl⟩

/-- A call goes away, and the ended calls lead to another world. -/
theorem Inv.leaves (h : Inv M L body w₀ ⟨w, l ++ th :: l', done⟩ v) {r : Option (Except ε α)}
    (hist : MortalHistory M body v [(th.call, r)] v')
    (near : (∀ u ∈ l ++ l', u.hold ≠ .holding true) → L.Near M v' w')
    (others : ∀ u ∈ l ++ l', At M L body v w u → At M L body v' w' u)
    (opened : ∀ u ∈ l ++ l', u.hold ≠ .outside → L.opened w → L.opened w') :
    Inv M L body w₀ ⟨w', l ++ l', done ++ [(th.call, r)]⟩ v' where
  hist := h.hist.append hist
  near := near
  opened u hu hne := opened u hu hne ((h.of_mem hu).2 hne)
  compatible := h.others.2
  at_calls u hu := others u hu (h.of_mem hu).1

/-- A call goes on. -/
theorem Inv.stays (h : Inv M L body w₀ ⟨w, l ++ th :: l', done⟩ v)
    (near : (∀ u ∈ l ++ l', u.hold ≠ .holding true) → th'.hold ≠ .holding true → L.Near M v w')
    (compatible : ∀ u ∈ l ++ l', th'.hold.Compatible u.hold)
    (others : ∀ u ∈ l ++ l', At M L body v w u → At M L body v w' u)
    (opened : th'.hold ≠ .outside ∨ L.opened w → L.opened w') (self : At M L body v w' th') :
    Inv M L body w₀ ⟨w', l ++ th' :: l', done⟩ v where
  hist := h.hist
  near hne := by
    refine near (fun u hu => ?_) (hne th' (List.mem_append_right _ List.mem_cons_self))
    refine hne u ?_
    rcases List.mem_append.mp hu with hu | hu
    · exact List.mem_append_left _ hu
    · exact List.mem_append_right _ (List.mem_cons_of_mem _ hu)
  opened u hu hne := by
    rcases List.mem_append.mp hu with hu | hu
    · exact opened (.inr ((h.of_mem (List.mem_append_left _ hu)).2 hne))
    · rcases List.mem_cons.mp hu with rfl | hu
      · exact opened (.inl hne)
      · exact opened (.inr ((h.of_mem (List.mem_append_right _ hu)).2 hne))
  compatible :=
    (List.pairwise_middle fun hc => Hold.Compatible.symm hc).mpr (List.pairwise_cons.mpr ⟨compatible, h.others.2⟩)
  at_calls u hu := by
    rcases List.mem_append.mp hu with hu | hu
    · exact others u (List.mem_append_left _ hu) (h.of_mem (List.mem_append_left _ hu)).1
    · rcases List.mem_cons.mp hu with rfl | hu
      · exact self
      · exact others u (List.mem_append_right _ hu) (h.of_mem (List.mem_append_right _ hu)).1

/-! ## The steps -/

/-- A new call keeps the invariant. -/
theorem Inv.invoke {calls : List (Locker σ ε α κ)} (h : Inv M L body w₀ ⟨w, calls, done⟩ v) (c : κ) :
    Inv M L body w₀ ⟨w, calls ++ (⟨c, .outside, body c⟩ : Locker σ ε α κ).live,
      done ++ (⟨c, .outside, body c⟩ : Locker σ ε α κ).ended⟩ v := by
  rcases (⟨c, .outside, body c⟩ : Locker σ ε α κ).live_cases with ⟨r, hr, hlive, hended⟩ | ⟨hlive, hended⟩
  · rw [hlive, hended, List.append_nil]
    exact ⟨h.hist.append (.ended c r [] v v v (Prog.runs_of_outcome hr v) (.nil v)), h.near, h.opened,
      h.compatible, h.at_calls⟩
  rw [hlive, hended, List.append_nil]
  have hcases : ∀ u ∈ calls ++ [(⟨c, .outside, body c⟩ : Locker σ ε α κ)],
      u ∈ calls ∨ u = ⟨c, .outside, body c⟩ := fun u hu => by
    simpa only [List.mem_append, List.mem_singleton] using hu
  refine ⟨h.hist, fun hne => h.near fun u hu => hne u (List.mem_append_left _ hu), fun u hu hne => ?_, ?_,
    fun u hu => ?_⟩
  · rcases hcases u hu with hu | rfl
    · exact h.opened u hu hne
    · exact absurd rfl hne
  · rw [List.pairwise_append]
    refine ⟨h.compatible, List.pairwise_singleton _ _, fun u hu u' hu' => ?_⟩
    obtain rfl := List.mem_singleton.mp hu'
    exact Hold.Compatible.symm trivial
  · rcases hcases u hu with hu | rfl
    · exact h.at_calls u hu
    · exact rfl

variable {c : κ} {o : σ.Op} {k : σ.Ans o → Prog σ ε α} {a : σ.Ans o}

/-- A call that asks for its lock keeps the invariant. -/
theorem Inv.ask (hL : L.Lawful M) (hbody : ∀ c, (body c).Sectioned L) {x : Bool}
    (h : Inv M L body w₀ ⟨w, l ++ ⟨c, .outside, .vis o k⟩ :: l', done⟩ v) (htakes : L.takes o a = some x)
    (hh : M.handles w o a w') : Inv M L body w₀ ⟨w', l ++ ⟨c, .waiting x, k a⟩ :: l', done⟩ v := by
  have hprog : body c = .vis o k := h.of_self.1.symm
  have hsome : L.takes o a ≠ none := by
    rw [htakes]
    nofun
  have hself : At M L body v w' ⟨c, .waiting x, k a⟩ := ⟨o, k, a, hprog, htakes, rfl⟩
  by_cases hopened : L.opened w
  · obtain ⟨rfl, -⟩ := hL.asked w o a w' (hprog ▸ hbody c).1 hopened hh
    exact h.stays (fun hne _ => h.near_of_others hne nofun) (fun _ _ => trivial) (fun _ _ hu => hu)
      (fun _ => hopened) hself
  · -- Nobody has the lock, or waits for it, that is not opened.
    have houtside : ∀ u ∈ l ++ l', u.hold = .outside := fun u hu => by
      by_contra hne
      exact hopened ((h.of_mem hu).2 hne)
    have hopens := hL.opens w o a w' hsome hh
    refine h.stays (fun hne _ => ?_) (fun _ _ => trivial) (fun u hu hat => ?_) (fun _ => hopens.1) hself
    · obtain rfl := (h.near_of_others hne nofun).eq hopened
      exact .inr hopens
    · refine hat.of_not_holding fun y => ?_
      rw [houtside u hu]
      nofun

/-- A call that holds the lock has nothing left to do: the ended calls, with it, have led to the world. -/
theorem Inv.release {x : Bool} {q : Prog σ ε α} {r : Except ε α}
    (h : Inv M L body w₀ ⟨w, l ++ th :: l', done⟩ v) (hth : ∀ u ∈ l ++ l', (Hold.holding x).Compatible u.hold)
    {p : Prog σ ε α} {w₁ : W} (hasked : Asked L body th.call x p) (hopens : L.Opens M v w₁)
    (hreach : p.Reaches M.handles w₁ q w') (hr : q.outcome? = some r) (hw : x = false → w' = w)
    (hopened : L.opened w → L.opened w') :
    Inv M L body w₀ ⟨w', l ++ l', done ++ [(th.call, some r)]⟩ w' := by
  have hrun := hasked.runs hopens (hreach.runs (Prog.runs_of_outcome hr w'))
  refine h.leaves (.ended _ r [] v w' w' hrun (.nil w')) (fun _ => .inl rfl) (fun u hu hat => ?_)
    fun _ _ _ => hopened
  cases x with
  | true => exact hat.of_not_holding (hth u hu).not_holding
  | false =>
    obtain rfl := hw rfl
    exact hat.of_not_exclusive (hth u hu).not_exclusive

/-- A lock that is granted keeps the invariant. -/
theorem Inv.grant (hL : L.Lawful M) {x : Bool} {p : Prog σ ε α}
    (h : Inv M L body w₀ ⟨w, l ++ ⟨c, .waiting x, p⟩ :: l', done⟩ v)
    (hcompatible : ∀ u ∈ l ++ l', Hold.Compatible (.holding x) u.hold) :
    ∃ v', Inv M L body w₀ ⟨w, l ++ (⟨c, .holding x, p⟩ : Locker σ ε α κ).live ++ l',
      done ++ (⟨c, .holding x, p⟩ : Locker σ ε α κ).ended⟩ v' := by
  have hasked : Asked L body c x p := h.of_self.1
  have hopened : L.opened w := h.of_self.2 nofun
  have hnear : L.Near M v w := h.near_of_others (fun u hu => (hcompatible u hu).not_exclusive) nofun
  have hopens := hnear.opens hL hopened
  rcases (⟨c, .holding x, p⟩ : Locker σ ε α κ).live_cases with ⟨r, hr, hlive, hended⟩ | ⟨hlive, hended⟩
  · rw [hlive, hended, List.append_nil]
    exact ⟨w, h.release hcompatible hasked hopens .refl hr (fun _ => rfl) fun h => h⟩
  · rw [hlive, hended, List.append_nil, List.append_assoc]
    refine ⟨v, h.stays (fun _ _ => hnear) hcompatible (fun _ _ hu => hu) (fun _ => hopened) ?_⟩
    cases x with
    | false => exact ⟨p, hasked, .refl⟩
    | true => exact ⟨p, w, hasked, hopens, .refl⟩

/-- What a call does that holds the lock. -/
theorem Inv.act_holding (hL : L.Lawful M) (hbody : ∀ c, (body c).Sectioned L) {x : Bool}
    (h : Inv M L body w₀ ⟨w, l ++ ⟨c, .holding x, .vis o k⟩ :: l', done⟩ v) (hh : M.handles w o a w') :
    ∃ v', Inv M L body w₀ ⟨w', l ++ (⟨c, .holding x, k a⟩ : Locker σ ε α κ).live ++ l',
      done ++ (⟨c, .holding x, k a⟩ : Locker σ ε α κ).ended⟩ v' := by
  obtain ⟨p, w₁, hasked, hopens, hreach, hw₁⟩ := h.holding hL rfl
  have hinside : L.inside x o := (hreach.issues (hasked.issues hbody)).1.2
  have hreach' := hreach.step o k w a w' hh
  have hw : x = false → w' = w := by
    rintro rfl
    exact hL.reads w o a w' hinside hh
  have hopened : L.opened w → L.opened w' := by
    cases x with
    | false => exact fun hopened => hw rfl ▸ hopened
    | true => exact hL.keeps w o a w' hinside hh
  rcases (⟨c, .holding x, k a⟩ : Locker σ ε α κ).live_cases with ⟨r, hr, hlive, hended⟩ | ⟨hlive, hended⟩
  · rw [hlive, hended, List.append_nil]
    exact ⟨w', h.release h.others.1 hasked hopens hreach' hr hw hopened⟩
  rw [hlive, hended, List.append_nil, List.append_assoc]
  refine ⟨v, ?_⟩
  cases x with
  | false =>
    obtain rfl := hw rfl
    obtain rfl := hw₁ rfl
    exact h.stays (fun hne _ => h.near_of_others hne nofun) h.others.1 (fun _ _ hu => hu)
      (fun _ => hopens.1) ⟨p, hasked, hreach'⟩
  | true =>
    exact h.stays (fun _ hne => absurd rfl hne) h.others.1
      (fun u hu hat => hat.of_not_holding (h.others.1 u hu).not_holding)
      (fun _ => hopened (h.of_self.2 nofun)) ⟨p, w₁, hasked, hopens, hreach'⟩

/-- What a call does that is refused the lock: it ends. -/
theorem Inv.act_outside (hL : L.Lawful M) (hbody : ∀ c, (body c).Sectioned L)
    (h : Inv M L body w₀ ⟨w, l ++ ⟨c, .outside, .vis o k⟩ :: l', done⟩ v) (htakes : L.takes o a = none)
    (hh : M.handles w o a w') :
    Inv M L body w₀ ⟨w', l ++ (⟨c, .outside, k a⟩ : Locker σ ε α κ).live ++ l',
      done ++ (⟨c, .outside, k a⟩ : Locker σ ε α κ).ended⟩ v := by
  have hprog : body c = .vis o k := h.of_self.1.symm
  have hsectioned := hprog ▸ hbody c
  obtain ⟨r, hr⟩ := Option.ne_none_iff_exists'.mp (hsectioned.ends htakes)
  have hclosed : ¬ L.opened w := fun hopened => (hL.asked w o a w' hsectioned.1 hopened hh).2 htakes
  have houtside : ∀ u ∈ l ++ l', u.hold = .outside := fun u hu => by
    by_contra hne
    exact hclosed ((h.of_mem hu).2 hne)
  have hnear : L.Near M v w := h.near_of_others (fun u hu => by rw [houtside u hu]; nofun) nofun
  obtain rfl := hnear.eq hclosed
  obtain rfl := hL.refused v o a w' hsectioned.1 htakes hh
  have hrun : (body c).Runs M.handles w' r w' := by
    rw [hprog]
    exact .vis o k w' a w' r w' hh (Prog.runs_of_outcome hr w')
  rcases (⟨c, .outside, k a⟩ : Locker σ ε α κ).live_cases with ⟨r', hr', hlive, hended⟩ | ⟨hlive, -⟩
  · obtain rfl : r' = r := Option.some.inj (hr'.symm.trans hr)
    rw [hlive, hended, List.append_nil]
    exact h.leaves (.ended c r' [] w' w' w' hrun (.nil w')) (fun _ => .inl rfl) (fun _ _ hu => hu)
      fun _ _ _ hopened => hopened
  · rw [Locker.live, hr] at hlive
    cases hlive

/-- A call that dies before it acts keeps the invariant. -/
theorem Inv.die (h : Inv M L body w₀ ⟨w, l ++ th :: l', done⟩ v) :
    ∃ v', Inv M L body w₀ ⟨w, l ++ l', done ++ [(th.call, none)]⟩ v' := by
  by_cases hth : th.hold = .holding true
  · have hat := h.of_self.1
    rw [At, hth] at hat
    obtain ⟨p, w₁, hasked, hopens, hreach⟩ := hat
    have hdies := hasked.dies hopens (hreach.dies (.here th.prog w))
    refine ⟨w, h.leaves (.died _ [] v w w hdies (.nil w)) (fun _ => .inl rfl) (fun u hu hat => ?_)
      fun _ _ _ hopened => hopened⟩
    exact hat.of_not_holding (hth ▸ h.others.1 u hu).not_holding
  · exact ⟨v, h.leaves (.died _ [] v v v (.here _ v) (.nil v)) (fun hne => h.near_of_others hne hth)
      (fun _ _ hu => hu) fun _ _ _ hopened => hopened⟩

/-- A call that dies in the middle of an operation keeps the invariant. -/
theorem Inv.cut (hL : L.Lawful M) (hbody : ∀ c, (body c).Sectioned L) {hold : Hold}
    (h : Inv M L body w₀ ⟨w, l ++ ⟨c, hold, .vis o k⟩ :: l', done⟩ v) (hrunning : ∀ x, hold ≠ .waiting x)
    (hcut : M.cut w o w') : ∃ v', Inv M L body w₀ ⟨w', l ++ l', done ++ [(c, none)]⟩ v' := by
  cases hold with
  | outside =>
    have hprog : body c = .vis o k := h.of_self.1.symm
    obtain rfl := hL.cut_ask w o w' (hprog ▸ hbody c).1 hcut
    exact h.die
  | waiting x => exact absurd rfl (hrunning x)
  | holding x =>
    obtain ⟨p, w₁, hasked, hopens, hreach, -⟩ := h.holding hL rfl
    have hinside : L.inside x o := (hreach.issues (hasked.issues hbody)).1.2
    cases x with
    | false =>
      obtain rfl := hL.cut_reads w o w' hinside hcut
      exact h.die
    | true =>
      have hdies := hasked.dies hopens (hreach.dies (.during o k w w' hcut))
      exact ⟨w', h.leaves (.died c [] v w' w' hdies (.nil w')) (fun _ => .inl rfl)
        (fun u hu hat => hat.of_not_holding (h.others.1 u hu).not_holding)
        fun _ _ _ hopened => hL.cut_keeps w o w' hinside hcut hopened⟩

/-- **One step.** -/
theorem Inv.step (hL : L.Lawful M) (hbody : ∀ c, (body c).Sectioned L) {p p' : LockPool σ ε α κ W}
    (h : Inv M L body w₀ p v) (hs : Step M L body p p') : ∃ v', Inv M L body w₀ p' v' := by
  cases hs with
  | invoke w calls done c => exact ⟨v, h.invoke c⟩
  | ask w l l' done c o k a w' x htakes hh => exact ⟨v, h.ask hL hbody htakes hh⟩
  | grant w l l' done c p x hcompatible => exact h.grant hL hcompatible
  | act w l l' done c hold o k a w' hrunning htakes hh =>
    cases hold with
    | outside => exact ⟨v, h.act_outside hL hbody htakes hh⟩
    | waiting x => exact absurd rfl (hrunning x)
    | holding x => exact h.act_holding hL hbody hh
  | die w l l' done th => exact h.die
  | cut w l l' done c hold o k w' hrunning hcut => exact h.cut hL hbody hrunning hcut

/-- **Calls behind a lock are serial.** What ended, in the order in which it ended, is a history of calls made
one after the other. It has led to the world, or to one of which asking for the lock makes the world, unless
somebody is at work who holds the lock exclusively. -/
theorem Run.serializes (hL : L.Lawful M) (hbody : ∀ c, (body c).Sectioned L) {p : LockPool σ ε α κ W}
    (h : Run M L body w₀ p) : ∃ v, MortalHistory M body w₀ p.done v ∧
      ((∀ th ∈ p.calls, th.hold ≠ .holding true) → L.Near M v p.world) := by
  have hinv : ∃ v, Inv M L body w₀ p v := by
    induction h with
    | init => exact ⟨w₀, .nil w₀, fun _ => .inl rfl, nofun, List.Pairwise.nil, nofun⟩
    | step _ hs ih =>
      obtain ⟨v, hv⟩ := ih
      exact hv.step hL hbody hs
  obtain ⟨v, hv⟩ := hinv
  exact ⟨v, hv.hist, hv.near⟩

end

/-! ## Running a schedule -/

/-- One entry of a schedule. A call is named by its place among those in flight. -/
inductive Turn (κ : Type) where
  | invoke (c : κ)
  | ask (t : Nat)
  | grant (t : Nat)
  | act (t : Nat)
  | die (t : Nat)

/-- A call in flight, with those before and behind it. -/
def focus (p : LockPool σ ε α κ W) (t : Nat) :
    Option (List (Locker σ ε α κ) × Locker σ ε α κ × List (Locker σ ε α κ)) :=
  match p.calls.drop t with
  | th :: l' => some (p.calls.take t, th, l')
  | [] => none

/-- The call in focus stands among the others. -/
theorem calls_of_focus {p : LockPool σ ε α κ W} {t : Nat} {l l' : List (Locker σ ε α κ)} {th : Locker σ ε α κ}
    (h : p.focus t = some (l, th, l')) : p.calls = l ++ th :: l' := by
  unfold focus at h
  split at h
  next th' rest hdrop =>
    obtain ⟨rfl, hrest⟩ := Prod.mk.inj (Option.some.inj h)
    obtain ⟨rfl, rfl⟩ := Prod.mk.inj hrest
    rw [← hdrop, List.take_append_drop]
  next => cases h

section

variable (L body) (g : (o : σ.Op) → W → σ.Ans o × W) (ok : W → σ.Op → Bool)

/-- The pool after an entry, in a world that answers by a function, or `none` where the entry does not apply
or an answer does not pass a test. -/
def next : Turn κ → LockPool σ ε α κ W → Option (LockPool σ ε α κ W)
  | .invoke c, p =>
    let th : Locker σ ε α κ := ⟨c, .outside, body c⟩
    some ⟨p.world, p.calls ++ th.live, p.done ++ th.ended⟩
  | .ask t, p =>
    match p.focus t with
    | some (l, ⟨c, .outside, .vis o k⟩, l') =>
      match L.takes o (g o p.world).1 with
      | some x =>
        if ok p.world o = true then some ⟨(g o p.world).2, l ++ ⟨c, .waiting x, k (g o p.world).1⟩ :: l', p.done⟩
        else none
      | none => none
    | _ => none
  | .grant t, p =>
    match p.focus t with
    | some (l, ⟨c, .waiting x, q⟩, l') =>
      if ∀ th ∈ l ++ l', Hold.Compatible (.holding x) th.hold then
        let th : Locker σ ε α κ := ⟨c, .holding x, q⟩
        some ⟨p.world, l ++ th.live ++ l', p.done ++ th.ended⟩
      else none
    | _ => none
  | .act t, p =>
    match p.focus t with
    | some (l, ⟨c, .holding x, .vis o k⟩, l') =>
      match L.takes o (g o p.world).1 with
      | some _ => none
      | none =>
        if ok p.world o = true then
          let th : Locker σ ε α κ := ⟨c, .holding x, k (g o p.world).1⟩
          some ⟨(g o p.world).2, l ++ th.live ++ l', p.done ++ th.ended⟩
        else none
    | _ => none
  | .die t, p =>
    match p.focus t with
    | some (l, th, l') => some ⟨p.world, l ++ l', p.done ++ [(th.call, none)]⟩
    | none => none

/-- The pool that a schedule leads to. -/
def exec (schedule : List (Turn κ)) (p : LockPool σ ε α κ W) : Option (LockPool σ ε α κ W) :=
  schedule.foldlM (fun p turn => next L body g ok turn p) p

variable {L body g ok}

/-- A turn is a step. -/
theorem Step.next (hg : ∀ w o, ok w o = true → M.handles w o (g o w).1 (g o w).2) {turn : Turn κ}
    {p p' : LockPool σ ε α κ W} (hn : next L body g ok turn p = some p') : Step M L body p p' := by
  obtain ⟨w, calls, done⟩ := p
  cases turn with
  | invoke c =>
    obtain rfl := Option.some.inj hn
    exact .invoke w calls done c
  | ask t =>
    rw [LockPool.next] at hn
    split at hn
    next l c o k l' hfocus =>
      obtain rfl : calls = l ++ ⟨c, .outside, .vis o k⟩ :: l' := calls_of_focus hfocus
      split at hn
      next x htakes =>
        split at hn
        next hok =>
          obtain rfl := Option.some.inj hn
          exact .ask w l l' done c o k _ _ x htakes (hg w o hok)
        next => cases hn
      next => cases hn
    next => cases hn
  | grant t =>
    rw [LockPool.next] at hn
    split at hn
    next l c x q l' hfocus =>
      obtain rfl : calls = l ++ ⟨c, .waiting x, q⟩ :: l' := calls_of_focus hfocus
      split at hn
      next hcompatible =>
        obtain rfl := Option.some.inj hn
        exact .grant w l l' done c q x hcompatible
      next => cases hn
    next => cases hn
  | act t =>
    rw [LockPool.next] at hn
    split at hn
    next l c x o k l' hfocus =>
      obtain rfl : calls = l ++ ⟨c, .holding x, .vis o k⟩ :: l' := calls_of_focus hfocus
      split at hn
      next => cases hn
      next htakes =>
        split at hn
        next hok =>
          obtain rfl := Option.some.inj hn
          exact .act w l l' done c (.holding x) o k _ _ nofun htakes (hg w o hok)
        next => cases hn
    next => cases hn
  | die t =>
    rw [LockPool.next] at hn
    split at hn
    next l th l' hfocus =>
      obtain rfl : calls = l ++ th :: l' := calls_of_focus hfocus
      obtain rfl := Option.some.inj hn
      exact .die w l l' done th
    next => cases hn

/-- A schedule is a run. -/
theorem Run.exec (hg : ∀ w o, ok w o = true → M.handles w o (g o w).1 (g o w).2) {schedule : List (Turn κ)} {w : W}
    {p p' : LockPool σ ε α κ W} (h : Run M L body w p) (he : exec L body g ok schedule p = some p') :
    Run M L body w p' := by
  induction schedule generalizing p with
  | nil => exact Option.some.inj he ▸ h
  | cons turn rest ih =>
    obtain ⟨p₁, hnext, hrest⟩ := Option.bind_eq_some_iff.mp he
    exact ih (h.step (.next hg hnext)) hrest

end

end LockPool

end Interaction
