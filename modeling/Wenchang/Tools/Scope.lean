import Wenchang.Exc
import Wenchang.Paths

/-!
# Who may write what

The identity a resolver returned and the adopter's policy, both with the checks of their constructors
as fields, and the check that the tool layer runs before every mutating call. It looks at a path only;
`MemoryStore` runs none of it.
-/

namespace Wenchang

open Py Ordered

/-! ## Identity -/

/-- The caller's entity ID and role within one scope. -/
structure ScopeGrant where
  entityId : Str
  role : Str
  entity_valid : isValidSegment entityId = true
  role_ne : role ≠ []
  deriving DecidableEq

/-- What a resolver returns: the caller's grant in each scope it can reach. -/
structure Identity where
  grants : FinMap Str ScopeGrant
  scopes_valid : ∀ scope grant, grants.get? scope = some grant → isValidSegment scope = true

/-- The caller's scopes with their entities. -/
def Identity.scopeMap (identity : Identity) : List (Str × Str) :=
  identity.grants.entries.map fun entry => (entry.1, entry.2.entityId)

/-! ## Policy -/

/-- The roles that may write each restricted scope. A scope that is absent is unrestricted. -/
structure ScopePolicy where
  writeRoles : FinMap Str (FinSet Str)
  scopes_valid : ∀ scope roles, writeRoles.get? scope = some roles → isValidSegment scope = true
  roles_valid : ∀ scope roles, writeRoles.get? scope = some roles → roles ≠ .empty ∧ [] ∉ roles

/-- `permitted_roles`. -/
def ScopePolicy.permittedRoles (policy : ScopePolicy) (scope : Str) : Option (FinSet Str) :=
  policy.writeRoles.get? scope

/-! ## Checks -/

/-- `SYSTEM_AREA`. -/
def systemArea : Str := str "system"

section

variable [Interpreter]

/-- `check_not_system`. -/
def checkNotSystem (path : Str) : Except Exc Unit :=
  match parsePath path with
  | .error _ => .error (.notFoundError path .invalidPath)
  | .ok parts =>
    if parts.area = systemArea then .error (.restrictedScopeError path parts.scope .systemReadOnly none)
    else .ok ()

/-- `check_write_allowed`. -/
def checkWriteAllowed (path : Str) (identity : Identity) (policy : ScopePolicy) : Except Exc Unit :=
  match parsePath path with
  | .error _ => .error (.notFoundError path .invalidPath)
  | .ok parts =>
    let notGranted := Exc.restrictedScopeError path parts.scope .notGranted none
    match identity.grants.get? parts.scope with
    | none => .error notGranted
    | some grant =>
      if grant.entityId ≠ parts.entityId then .error notGranted
      else
        match policy.permittedRoles parts.scope with
        | none => .ok ()
        | some permitted =>
          if grant.role ∉ permitted then
            .error (.restrictedScopeError path parts.scope .roleRequired (some permitted))
          else .ok ()

/-- `check_write`. -/
def checkWrite (path : Str) (identity : Identity) (policy : ScopePolicy) : Except Exc Unit := do
  checkNotSystem path
  checkWriteAllowed path identity policy

/-- A caller that may write in its own entity of a scope. -/
structure MayWrite (identity : Identity) (policy : ScopePolicy) (parts : PathParts) (grant : ScopeGrant) :
    Prop where
  granted : identity.grants.get? parts.scope = some grant
  own : parts.entityId = grant.entityId
  not_system : parts.area ≠ systemArea
  role : ∀ roles, policy.writeRoles.get? parts.scope = some roles → grant.role ∈ roles

/-- A path is accepted where it parses outside the system area. -/
theorem checkNotSystem_eq_ok {path : Str} {u : Unit} : checkNotSystem path = .ok u ↔
    ∃ parts, parsePath path = .ok parts ∧ parts.area ≠ systemArea := by
  unfold checkNotSystem
  cases hparts : parsePath path with
  | error e => simp only [reduceCtorEq, false_and, exists_false]
  | ok parts =>
    simp only [Except.ok.injEq, exists_eq_left']
    by_cases harea : parts.area = systemArea
    · simp only [harea, if_pos, reduceCtorEq, ne_eq, not_true]
    · simp only [harea, if_false, ne_eq, not_false_iff]

/-- **What the check accepts.** -/
theorem checkWrite_eq_ok {path : Str} {identity : Identity} {policy : ScopePolicy} {u : Unit} :
    checkWrite path identity policy = .ok u ↔
      ∃ parts grant, parsePath path = .ok parts ∧ MayWrite identity policy parts grant := by
  unfold checkWrite
  simp only [except_bind_eq_ok, exists_const, checkNotSystem_eq_ok]
  constructor
  · rintro ⟨⟨parts, hparts, harea⟩, hallowed⟩
    unfold checkWriteAllowed at hallowed
    simp only [hparts] at hallowed
    split at hallowed
    · cases hallowed
    next grant hgrant =>
      split at hallowed
      · cases hallowed
      next hown =>
        refine ⟨parts, grant, hparts, hgrant, (not_not.mp hown).symm, harea, fun roles hroles => ?_⟩
        rw [ScopePolicy.permittedRoles, hroles] at hallowed
        by_contra hrole
        simp only [if_pos hrole] at hallowed
        cases hallowed
  · rintro ⟨parts, grant, hparts, h⟩
    refine ⟨⟨parts, hparts, h.not_system⟩, ?_⟩
    unfold checkWriteAllowed
    simp only [hparts, h.granted, ScopePolicy.permittedRoles]
    rw [if_neg (not_not.mpr h.own.symm)]
    cases hroles : policy.writeRoles.get? parts.scope with
    | none => rfl
    | some roles => exact if_neg (not_not.mpr (h.role roles hroles))

end

end Wenchang
