import Wenchang.Core.Worlds

/-!
# Export

`export` reads an entity's objects raw, page by page. With it come the calls that may run beside a
purge or an export: those of other stores, and writers that use storage directly.
-/

namespace Wenchang

open Py Ordered Interaction

/-- One stored object under an entity's prefix, exactly as stored. -/
structure ExportedObject where
  key : Str
  data : Bytes
  metadata : Metadata
  version : Str
  deriving DecidableEq

namespace MemoryStore

variable (s : MemoryStore)

/-- The inner loop of `export`: an object deleted since the listing is left out. -/
def exportPage : List ListedObject → Store (List ExportedObject)
  | [] => return []
  | obj :: rest => do
    match ← storageGet obj.key with
    | none => exportPage rest
    | some stored =>
      let out ← exportPage rest
      return ⟨obj.key, stored.data, stored.metadata, stored.version⟩ :: out

/-- The loop of `export`, from a key on. -/
def exportPages (pre : Str) : Nat → Option Str → Store (List ExportedObject)
  | 0, _ => .hang
  | fuel + 1, startAfter => do
    let page ← storageListPage pre startAfter s.listPageSize
    let out ← exportPage page
    if page.length < s.listPageSize then return out
    else
      let rest ← exportPages pre fuel (page.getLast?.map (·.key))
      return out ++ rest

/-- `export`. -/
def exportObjects [Interpreter] (fuel : Nat) (scope entityId : Str) :
    Store (List ExportedObject) := do
  Prog.ofExcept (checkEntitySegments scope entityId)
  let pre ← orValueError (buildPrefix scope (some entityId) none)
  s.exportPages pre fuel none

end MemoryStore

/-! ## Calls beside each other -/

/-- A call of any method, or an operation of somebody who uses storage directly. -/
inductive AnyCall where
  | store (c : StoreCall)
  | exportObjects (scope entityId : Str)
  | storage (op : StorageOp)
  deriving DecidableEq

/-- What such a call returns. -/
inductive AnyResult where
  | store (result : StoreResult)
  | exported (objects : List ExportedObject)
  | done
  deriving DecidableEq

/-- The program of a call. -/
def AnyCall.body [Interpreter] (s : MemoryStore) (fuel : Nat) : AnyCall → Store AnyResult
  | .store c => return .store (← c.body s fuel)
  | .exportObjects scope entityId => return .exported (← s.exportObjects fuel scope entityId)
  | .storage op => do
    let _ ← ask (.storage op)
    return .done

/-- The program of an invoked call. -/
def Invocation.anyBody [Interpreter] (i : Invocation AnyCall) : Store AnyResult :=
  i.call.body i.store i.fuel

/-- A call as it runs. -/
abbrev AnyThread := Thread StoreSig Exc AnyResult (Invocation AnyCall)

/-- Calls running over one storage. -/
abbrev AnyPool := Pool StoreSig Exc AnyResult (Invocation AnyCall) InMemoryStorage

/-! ## Storage that fails -/

/-- The answer of an operation that raises. -/
def StorageOp.raised (e : Exc) : (o : StorageOp) → o.Ans
  | .get _ => .error e
  | .put _ _ _ => .error e
  | .putIfVersion _ _ _ _ => .error e
  | .deleteIfVersion _ _ => .error e
  | .listPage _ _ _ => .error e

/-- An exception of a backend or a cache: not the one that only a purge raises. -/
def Exc.Outside : Exc → Prop
  | .purgeIncompleteError _ _ _ => False
  | _ => True

/-- An in-memory storage of which any operation may raise instead, without effect. A cache does what
it likes. -/
def failing : Env StoreSig InMemoryStorage where
  handles s o a s' :=
    match o, a with
    | .storage o, a => (a, s') = InMemoryStorage.step o s ∨
        ∃ e : Exc, e.Outside ∧ a = o.raised e ∧ s' = s
    | .cacheSet _ _, a => s' = s ∧ ∀ e, a = .error e → e.Outside
    | _, _ => s' = s
  rely := InMemoryStorage.Later
  rely_refl := InMemoryStorage.Later.refl
  rely_trans := InMemoryStorage.Later.trans
  rely_of_handles := fun {s o a s'} h => by
    cases o with
    | storage o =>
      rcases h with h | ⟨e, -, -, rfl⟩
      · have hpost : s' = (InMemoryStorage.step o s).2 := congrArg Prod.snd h
        exact hpost ▸ InMemoryStorage.later_step o s
      · exact InMemoryStorage.Later.refl _
    | cacheSet key value => exact h.1 ▸ InMemoryStorage.Later.refl s
    | _ => exact h ▸ InMemoryStorage.Later.refl s

/-- What is answered is handled where storage may fail. -/
theorem answerAt_failing (now : DateTime) (o : StoreOp) (s : InMemoryStorage) :
    failing.handles s o (answerAt now o s).1 (answerAt now o s).2 := by
  cases o with
  | storage o =>
    cases o with
    | putIfVersion key data metadata expected =>
      simp [failing, answerAt, Reply.answer, InMemoryStorage.step]
    | _ => exact .inl rfl
  | cacheSet key value =>
    refine ⟨rfl, fun e he => ?_⟩
    cases he
  | _ => rfl

end Wenchang
