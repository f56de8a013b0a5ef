import Wenchang.Laws.Mutators
import Wenchang.Laws.Reach

/-!
# Calls of any method

The specification of the mutators, carried over to pools in which every method runs: readers,
listings, the index and purges do not write, so nothing more needs to be known of them.
-/

namespace Wenchang

open Py Ordered Interaction

/-- A call as it runs. -/
abbrev StoreThread := Thread StoreSig Exc StoreResult (Invocation StoreCall)

/-- Calls running over one storage. -/
abbrev StorePool := Pool StoreSig Exc StoreResult (Invocation StoreCall) InMemoryStorage

variable [Interpreter]

/-- What a call may do after a trace. -/
def StoreCall.Guarantee (s : MemoryStore) : StoreCall → StoreTrace → StoreOp → Prop
  | .mutate m, tr, o => m.Guarantee s tr o
  | _, _, o => o.write? = none

/-- How a call ends. -/
def StoreCall.Outcome : StoreCall → StoreTrace → Except Exc StoreResult → Prop
  | .mutate m, tr, .ok (.file file) => m.Outcome tr (.ok file)
  | .mutate m, tr, .error e => m.Outcome tr (.error e)
  | .mutate _, _, .ok _ => False
  | _, _, _ => True

/-- A call that is not a mutator writes nothing. -/
theorem StoreCall.Reaches.write_eq_none {c : StoreCall} (hc : ∀ m, c ≠ .mutate m) {o : StoreOp}
    (h : c.Reaches o) : o.write? = none := by
  cases o with
  | storage o =>
    cases o with
    | put key data metadata =>
      cases c with
      | mutate m => exact absurd rfl (hc m)
      | listPrefix pre cursor => obtain ⟨_, _, h⟩ := h; cases h
      | getMemoryIndex scopeMap => obtain ⟨_, _, _, _, h⟩ := h; cases h
      | _ => cases h
    | putIfVersion key data metadata expected =>
      cases c with
      | mutate m => exact absurd rfl (hc m)
      | listPrefix pre cursor => obtain ⟨_, _, h⟩ := h; cases h
      | getMemoryIndex scopeMap => obtain ⟨_, _, _, _, h⟩ := h; cases h
      | _ => cases h
    | _ => rfl
  | _ => rfl

section

variable {lossy : Prop} (s : MemoryStore)

/-- **What a call does**, whatever happens between its steps. -/
theorem StoreCall.sat (c : StoreCall) (fuel : Nat) :
    (c.body s fuel).Sat (inMemory lossy) (c.Guarantee s) c.Outcome [] := by
  have hreader : (∀ m, c ≠ .mutate m) → (∀ tr o, o.write? = none → c.Guarantee s tr o) →
      (∀ tr r, c.Outcome tr r) →
      (c.body s fuel).Sat (inMemory lossy) (c.Guarantee s) c.Outcome [] := by
    intro hc hG hQ
    exact (c.issues s fuel).sat (fun q o ho => hG q o (ho.write_eq_none hc)) fun _ r _ => hQ _ r
  cases c with
  | mutate m =>
    apply (m.sat s fuel).andThen
    · intro tr file h
      exact h
    · intro tr e h
      exact h
  | _ => exact hreader (fun _ => nofun) (fun _ _ h => h) fun _ _ => trivial

end

section Runs

variable {lossy : Prop} {P : StorePool → Prop} {w : InMemoryStorage} {p : StorePool}

/-- Every step of a run was one its call may make, and could be answered as it was. -/
theorem store_guarantee (h : Pool.Run (inMemory lossy) Invocation.body P w p)
    {l l' : Log StoreSig InMemoryStorage} {t : Nat} {e : Event StoreSig InMemoryStorage}
    (hl : p.log = l ++ (t, e) :: l') :
    ∃ th, p.threads[t]? = some th ∧ th.start ≤ l.length ∧
      th.call.call.Guarantee th.call.store (ownTrace t l) e.op ∧
      (inMemory lossy).Admits (ownTrace t l) e :=
  h.guarantee (fun i : Invocation StoreCall => StoreCall.sat i.store i.call i.fuel) hl

/-- How a call of a run ended. -/
theorem store_outcome (h : Pool.Run (inMemory lossy) Invocation.body P w p) {t : Nat}
    {th : StoreThread} (ht : p.threads[t]? = some th) {r : Except Exc StoreResult}
    (hr : th.prog.outcome? = some r) : th.call.call.Outcome (ownTrace t p.log) r :=
  h.post (fun i : Invocation StoreCall => StoreCall.sat i.store i.call i.fuel) ht hr

end Runs

end Wenchang
