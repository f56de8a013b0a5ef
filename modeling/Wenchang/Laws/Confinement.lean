import Wenchang.Tools.MemoryTools

/-!
# What the tools send

Every path and prefix that a tool sends is under the caller's own entity, and a path parses back into
the arguments it was built from. A mutating tool sends anything at all only where the caller may write,
and the path it sends is the one it checked. `tool_confinement` says this of every tool, whatever the
client answers. It rests on `path_eq_ok` and `writePath_eq_ok`, which say what the checks accept.
-/

namespace Wenchang

open Py Ordered Interaction

/-! ## Arguments -/

section

variable {argument value : Str}

/-- An argument is exact where it is a text. -/
theorem exactArg_eq_ok {arg : Arg} : exactArg argument arg = .ok value ↔ arg = .text value := by
  cases arg with
  | text s => simp only [exactArg, Except.ok.injEq, Arg.text.injEq]
  | other typeName => simp only [exactArg, reduceCtorEq]

/-- An optional argument is exact where it is a text or left out. -/
theorem exactOptional_eq_ok {arg : Option Arg} {value : Option Str} :
    exactOptional argument arg = .ok value ↔ arg = value.map .text := by
  cases arg with
  | none => cases value <;> simp [exactOptional]
  | some arg =>
    cases arg with
    | text s => cases value <;> simp [exactOptional, exactArg, Except.map]
    | other typeName => cases value <;> simp [exactOptional, exactArg, Except.map]

/-- An argument is encodable where it holds no surrogate. -/
theorem encodableArg_eq_ok {u : Unit} : encodableArg argument value = .ok u ↔ Scalar value := by
  unfold encodableArg
  cases hencode : utf8Encode value with
  | ok data => exact ⟨fun _ => (utf8Encode_eq_ok.mp hencode).1, fun _ => rfl⟩
  | error e =>
    constructor
    · intro h
      cases h
    · intro h
      rw [utf8Encode_of_scalar h] at hencode
      cases hencode

/-- An area is accepted where it is a slug. -/
theorem checkAreaSlug_eq_ok [Interpreter] {area : Str} {u : Unit} :
    checkAreaSlug area = .ok u ↔ isAreaSlug area = true := by
  unfold checkAreaSlug
  split
  next h => exact ⟨fun _ => h, fun _ => rfl⟩
  next h => exact ⟨nofun, fun h' => absurd h' h⟩

/-- A name is accepted where no character of it is forbidden. -/
theorem checkNameChars_eq_ok [Interpreter] {name : Str} {u : Unit} :
    checkNameChars name = .ok u ↔ ∀ c ∈ name, isForbiddenNameChar c = false := by
  unfold checkNameChars
  cases hfind : name.find? isForbiddenNameChar with
  | none => simpa only [true_iff, List.find?_eq_none, Bool.not_eq_true] using hfind
  | some c =>
    refine iff_of_false nofun fun hall => ?_
    have hforbidden := List.find?_some hfind
    rw [hall c (List.mem_of_find?_eq_some hfind)] at hforbidden
    cases hforbidden

end

/-! ## Paths -/

/-- A file is under its entity. -/
theorem PathParts.under_entity (parts : PathParts) :
    joinSegments [parts.scope, parts.entityId] <+: parts.path := by
  refine ⟨joinSegments [parts.area] ++ (parts.name ++ mdSuffix), ?_⟩
  rw [parts.path_eq, ← List.append_assoc, ← joinSegments_append]
  rfl

/-- The file that the arguments of a tool name, in the caller's own entity. -/
structure Addresses [Interpreter] (identity : Identity) (scope area name : Arg) (parts : PathParts)
    (grant : ScopeGrant) : Prop where
  scope_eq : scope = .text parts.scope
  area_eq : area = .text parts.area
  name_eq : name = .text parts.name
  granted : identity.grants.get? parts.scope = some grant
  own : parts.entityId = grant.entityId
  valid : parts.Valid
  slug : isAreaSlug parts.area = true
  name_chars : ∀ c ∈ parts.name, isForbiddenNameChar c = false
  scalar : Scalar parts.scope ∧ Scalar parts.area ∧ Scalar parts.name

section

variable [Interpreter] {t : MemoryTools} {scope area name : Arg} {path : Str}

/-- The entity of a scope is the one granted. -/
theorem entity_eq_ok {scope entityId : Str} : t.entity scope = .ok entityId ↔
    ∃ grant, t.identity.grants.get? scope = some grant ∧ grant.entityId = entityId := by
  unfold MemoryTools.entity
  cases t.identity.grants.get? scope with
  | none => simp only [reduceCtorEq, false_and, exists_false]
  | some grant => simp only [Except.ok.injEq, Option.some.injEq, exists_eq_left']

/-- An addressed path is below the granted entity. -/
theorem Addresses.under {parts : PathParts} {grant : ScopeGrant}
    (h : Addresses t.identity scope area name parts grant) :
    joinSegments [parts.scope, grant.entityId] <+: parts.path := h.own ▸ parts.under_entity

/-- **What `_path` accepts**, and what it then builds. -/
theorem path_eq_ok : t.path scope area name = .ok path ↔
    ∃ parts grant, Addresses t.identity scope area name parts grant ∧ path = parts.path := by
  unfold MemoryTools.path
  simp only [except_bind_eq_ok, exactArg_eq_ok, encodableArg_eq_ok, entity_eq_ok, exists_const]
  constructor
  · rintro ⟨scope, hscope, area, harea, name, hname, hscalar, hscalar', hscalar'', entityId,
      ⟨grant, hgrant, hown⟩, h⟩
    split at h
    · cases h
    next built hbuilt =>
      obtain ⟨hvalid, rfl⟩ := buildPath_eq_ok.mp hbuilt
      simp only [except_bind_eq_ok, checkAreaSlug_eq_ok, checkNameChars_eq_ok, exists_const,
        Except.ok.injEq] at h
      obtain ⟨hslug, hchars, rfl⟩ := h
      exact ⟨_, grant, ⟨hscope, harea, hname, hgrant, hown.symm, hvalid, hslug, hchars, hscalar, hscalar',
        hscalar''⟩, rfl⟩
  · rintro ⟨parts, grant, h, rfl⟩
    refine ⟨_, h.scope_eq, _, h.area_eq, _, h.name_eq, h.scalar.1, h.scalar.2.1, h.scalar.2.2, _,
      ⟨grant, h.granted, h.own.symm⟩, ?_⟩
    rw [buildPath_eq_ok.mpr ⟨h.valid, rfl⟩]
    simp only [except_bind_eq_ok, checkAreaSlug_eq_ok, checkNameChars_eq_ok, exists_const, and_true]
    exact ⟨h.slug, h.name_chars⟩

/-- **What a mutating tool goes on with**: the file is the caller's own, the caller may write it, and
the path is the one that was checked. -/
theorem writePath_eq_ok : t.writePath scope area name = .ok path ↔
    ∃ parts grant, Addresses t.identity scope area name parts grant ∧
      MayWrite t.identity t.policy parts grant ∧ path = parts.path := by
  unfold MemoryTools.writePath
  simp only [except_bind_eq_ok, exists_const, path_eq_ok, checkWrite_eq_ok]
  constructor
  · rintro ⟨_, ⟨parts, grant, haddresses, rfl⟩, ⟨parts', grant', hparse, hmay⟩, h⟩
    rw [parsePath_path haddresses.valid] at hparse
    cases hparse
    cases haddresses.granted.symm.trans hmay.granted
    cases h
    exact ⟨parts, grant, haddresses, hmay, rfl⟩
  · rintro ⟨parts, grant, haddresses, hmay, rfl⟩
    exact ⟨_, ⟨parts, grant, haddresses, rfl⟩, ⟨parts, grant, parsePath_path haddresses.valid, hmay⟩, rfl⟩

end

/-! ## Prefixes -/

/-- The prefix that the arguments of a listing name, in the caller's own entity. -/
structure Lists (identity : Identity) (scope : Arg) (area : Option Arg) (pre : Str)
    (scopeName : Str) (areaName : Option Str) (grant : ScopeGrant) : Prop where
  scope_eq : scope = .text scopeName
  area_eq : area = areaName.map .text
  granted : identity.grants.get? scopeName = some grant
  slug : ∀ a ∈ areaName, isAreaSlug a = true
  pre_eq : pre = joinSegments (scopeName :: grant.entityId :: areaName.toList)

/-- A listed prefix is below the granted entity. -/
theorem Lists.under {identity : Identity} {scope : Arg} {area : Option Arg} {pre scopeName : Str}
    {areaName : Option Str} {grant : ScopeGrant} (h : Lists identity scope area pre scopeName areaName grant) :
    joinSegments [scopeName, grant.entityId] <+: pre := by
  refine ⟨joinSegments areaName.toList, ?_⟩
  rw [h.pre_eq, ← joinSegments_append]
  rfl

section

variable [Interpreter] {t : MemoryTools}

/-- An optional area is accepted where it is a slug or left out. -/
theorem slugOptional_eq_ok {area : Option Str} {u : Unit} :
    MemoryTools.slugOptional area = .ok u ↔ ∀ a ∈ area, isAreaSlug a = true := by
  cases area with
  | none => simp only [MemoryTools.slugOptional, Option.not_mem_none, false_implies, implies_true]
  | some area => simp only [MemoryTools.slugOptional, checkAreaSlug_eq_ok, Option.mem_some_iff, forall_eq']

/-- **What `_prefix` builds.** -/
theorem pre_eq_ok {scope : Arg} {area : Option Arg} {pre : Str} (h : t.pre scope area = .ok pre) :
    ∃ scopeName areaName grant, Lists t.identity scope area pre scopeName areaName grant := by
  unfold MemoryTools.pre at h
  simp only [except_bind_eq_ok, exactArg_eq_ok, exactOptional_eq_ok, entity_eq_ok] at h
  obtain ⟨scopeName, hscope, areaName, harea, -, -, -, -, entityId, ⟨grant, hgrant, rfl⟩, h⟩ := h
  split at h
  · cases h
  next built hbuilt =>
    obtain ⟨-, -, rfl⟩ := buildPrefix_eq_ok.mp hbuilt
    simp only [except_bind_eq_ok, slugOptional_eq_ok, exists_const, Except.ok.injEq] at h
    obtain ⟨hslug, rfl⟩ := h
    exact ⟨scopeName, areaName, grant, hscope, harea, hgrant, hslug, rfl⟩

end

/-! ## The tools -/

namespace ToolWrite

/-- The scope argument. -/
def scope : ToolWrite → Arg
  | .writeFile scope _ _ _ _ _ _ => scope
  | .appendLine scope _ _ _ _ _ _ => scope
  | .replaceFact scope _ _ _ _ _ _ _ => scope
  | .deleteFile scope _ _ _ => scope

/-- The area argument. -/
def area : ToolWrite → Arg
  | .writeFile _ area _ _ _ _ _ => area
  | .appendLine _ area _ _ _ _ _ => area
  | .replaceFact _ area _ _ _ _ _ _ => area
  | .deleteFile _ area _ _ => area

/-- The name argument. -/
def name : ToolWrite → Arg
  | .writeFile _ _ name _ _ _ _ => name
  | .appendLine _ _ name _ _ _ _ => name
  | .replaceFact _ _ name _ _ _ _ _ => name
  | .deleteFile _ _ name _ => name

/-- The operation that a tool stands for, at a path and under a source. -/
def Sends (source path : Str) : ToolWrite → ClientOp → Prop
  | .writeFile .., op => ∃ content metadata expectedVersion,
      op = .writeFile path content metadata expectedVersion source
  | .appendLine .., op => ∃ line expectedVersion aliases description,
      op = .appendLine path line expectedVersion source aliases description
  | .replaceFact .., op => ∃ oldString newString expectedVersion aliases description,
      op = .replaceFact path oldString newString expectedVersion source aliases description
  | .deleteFile .., op => ∃ expectedVersion, op = .deleteFile path expectedVersion

end ToolWrite

namespace MemoryTools

variable [Interpreter] {t : MemoryTools}

/-- A mutating tool goes through `_path` and `check_write` first, and sends that path. -/
theorem writeArgs_eq_ok {w : ToolWrite} {op : ClientOp} (h : t.writeArgs w = .ok op) :
    ∃ path, t.writePath w.scope w.area w.name = .ok path ∧ w.Sends t.source path op := by
  cases w with
  | writeFile scope area name content description aliases expectedVersion =>
    simp only [writeArgs, writeFileArgs, except_bind_eq_ok] at h
    obtain ⟨path, hpath, content, -, -, -, description, -, aliases, -, version, -, metadata, -, h⟩ := h
    exact ⟨path, hpath, content, metadata, version, (Except.ok.inj h).symm⟩
  | appendLine scope area name line expectedVersion aliases description =>
    simp only [writeArgs, appendLineArgs, except_bind_eq_ok] at h
    obtain ⟨path, hpath, line, -, -, -, h⟩ := h
    split at h
    · cases h
    · simp only [except_bind_eq_ok] at h
      obtain ⟨version, -, aliases, -, description, -, h⟩ := h
      exact ⟨path, hpath, line, version, aliases, description, (Except.ok.inj h).symm⟩
  | replaceFact scope area name oldString newString expectedVersion aliases description =>
    simp only [writeArgs, replaceFactArgs, except_bind_eq_ok] at h
    obtain ⟨path, hpath, oldString, -, newString, -, h⟩ := h
    split at h
    · cases h
    · simp only [except_bind_eq_ok] at h
      obtain ⟨-, -, version, -, aliases, -, description, -, h⟩ := h
      exact ⟨path, hpath, oldString, newString, version, aliases, description, (Except.ok.inj h).symm⟩
  | deleteFile scope area name expectedVersion =>
    simp only [writeArgs, deleteFileArgs, except_bind_eq_ok] at h
    obtain ⟨path, hpath, version, -, h⟩ := h
    exact ⟨path, hpath, version, (Except.ok.inj h).symm⟩

/-- A path that is sent for a scope, an area and a name: it is under the caller's own entity, and it
parses back into these. -/
structure OwnPath (t : MemoryTools) (scope area name : Arg) (path : Str) (parts : PathParts)
    (grant : ScopeGrant) : Prop where
  scope_eq : scope = .text parts.scope
  area_eq : area = .text parts.area
  name_eq : name = .text parts.name
  granted : t.identity.grants.get? parts.scope = some grant
  own : parts.entityId = grant.entityId
  under : joinSegments [parts.scope, grant.entityId] <+: path
  parses : parsePath path = .ok parts
  slug : isAreaSlug parts.area = true

/-- What is addressed is a path of one's own. -/
theorem OwnPath.of_addresses {scope area name : Arg} {parts : PathParts} {grant : ScopeGrant}
    (h : Addresses t.identity scope area name parts grant) :
    t.OwnPath scope area name parts.path parts grant :=
  ⟨h.scope_eq, h.area_eq, h.name_eq, h.granted, h.own, h.under, parsePath_path h.valid, h.slug⟩

/-- A prefix that is sent for a scope and an area: it is under the caller's own entity. -/
def OwnPrefix (t : MemoryTools) (scope : Arg) (area : Option Arg) (pre : Str) : Prop :=
  ∃ scopeName areaName grant, Lists t.identity scope area pre scopeName areaName grant ∧
    joinSegments [scopeName, grant.entityId] <+: pre

/-- The caller may write the scope and the area it names, as far as these two arguments tell. -/
def MayMutate (t : MemoryTools) (w : ToolWrite) : Prop :=
  ∃ scope area grant, w.scope = .text scope ∧ w.area = .text area ∧
    t.identity.grants.get? scope = some grant ∧ area ≠ systemArea ∧
      ∀ roles, t.policy.writeRoles.get? scope = some roles → grant.role ∈ roles

/-- What a tool may send to the client. -/
def Confined (t : MemoryTools) : ToolCall → ClientOp → Prop
  | .getMemoryIndex, op => op = .getMemoryIndex t.identity.scopeMap
  | .readFile scope area name, op => ∃ path parts grant, op = .readFile path ∧
      t.OwnPath scope area name path parts grant
  | .listPrefix scope area _, op => ∃ pre cursor, op = .listPrefix pre cursor ∧ t.OwnPrefix scope area pre
  | .mutate w, op => ∃ path parts grant, w.Sends t.source path op ∧
      t.OwnPath w.scope w.area w.name path parts grant ∧ MayWrite t.identity t.policy parts grant ∧
        checkWrite path t.identity t.policy = .ok ()

/-- **A path that is written is permitted.** -/
theorem writePath_confined {w : ToolWrite} {path : Str}
    (h : t.writePath w.scope w.area w.name = .ok path) : ∃ parts grant,
      t.OwnPath w.scope w.area w.name path parts grant ∧ MayWrite t.identity t.policy parts grant ∧
        checkWrite path t.identity t.policy = .ok () := by
  obtain ⟨parts, grant, haddresses, hmay, rfl⟩ := writePath_eq_ok.mp h
  exact ⟨parts, grant, OwnPath.of_addresses haddresses, hmay,
    checkWrite_eq_ok.mpr ⟨parts, grant, parsePath_path haddresses.valid, hmay⟩⟩

/-- A read of the tools asks for its own path. -/
theorem issues_readFile (t : MemoryTools) (scope area name : Arg) :
    (t.readFile scope area name).Issues (t.Confined (.readFile scope area name)) := by
  unfold readFile
  cases hpath : t.path scope area name with
  | error e => trivial
  | ok path =>
    obtain ⟨parts, grant, haddresses, rfl⟩ := path_eq_ok.mp hpath
    refine ⟨⟨parts.path, parts, grant, rfl, OwnPath.of_addresses haddresses⟩, fun a => ?_⟩
    exact Prog.issues_ofExcept a

/-- A page of the tools asks for its own prefix. -/
theorem issues_listPrefix (t : MemoryTools) (scope : Arg) (area cursor : Option Arg) :
    (t.listPrefix scope area cursor).Issues (t.Confined (.listPrefix scope area cursor)) := by
  unfold listPrefix
  cases hpre : t.pre scope area with
  | error e => trivial
  | ok pre =>
    obtain ⟨scopeName, areaName, grant, hlists⟩ := pre_eq_ok hpre
    have hown : t.OwnPrefix scope area pre := ⟨scopeName, areaName, grant, hlists, hlists.under⟩
    have hcall : ∀ cursor', (callClient (.listPrefix pre cursor')).Issues
        (t.Confined (.listPrefix scope area cursor)) := fun cursor' =>
      ⟨⟨pre, cursor', rfl, hown⟩, fun a => Prog.issues_ofExcept a⟩
    rw [Prog.ofExcept_ok, Prog.ret_bind]
    cases cursor with
    | none => exact hcall none
    | some cursor =>
      refine (Prog.issues_ofExcept _).bind fun value => (hcall (some value)).attempt.bind fun r => ?_
      cases r <;> trivial

/-- **A mutating tool that may not write calls nothing.** -/
theorem mutate_raises {w : ToolWrite} (h : ¬ t.MayMutate w) : ∃ e, t.call (.mutate w) = .raise e := by
  cases hargs : t.writeArgs w with
  | error e =>
    refine ⟨e, ?_⟩
    rw [call, hargs, Prog.ofExcept_error, Prog.raise_bind]
  | ok op =>
    obtain ⟨path, hpath, -⟩ := writeArgs_eq_ok hargs
    obtain ⟨parts, grant, haddresses, hmay, -⟩ := writePath_eq_ok.mp hpath
    exact absurd ⟨parts.scope, parts.area, grant, haddresses.scope_eq, haddresses.area_eq,
      haddresses.granted, hmay.not_system, hmay.role⟩ h

/-- A tool sends only what is confined, whatever the client answers. -/
theorem issues_confined (t : MemoryTools) (c : ToolCall) : (t.call c).Issues (t.Confined c) := by
  cases c with
  | getMemoryIndex => exact ⟨rfl, fun a => (Prog.issues_ofExcept a).bind fun index => trivial⟩
  | readFile scope area name => exact (issues_readFile t scope area name).bind fun file => trivial
  | listPrefix scope area cursor =>
    exact (issues_listPrefix t scope area cursor).bind fun page => trivial
  | mutate w =>
    cases hargs : t.writeArgs w with
    | error e =>
      rw [call, hargs]
      trivial
    | ok op =>
      rw [call, hargs]
      obtain ⟨path, hpath, hsends⟩ := writeArgs_eq_ok hargs
      obtain ⟨parts, grant, hconfined⟩ := writePath_confined hpath
      refine ⟨⟨path, parts, grant, hsends, hconfined⟩, fun a => ?_⟩
      exact (Prog.issues_ofExcept a).bind fun result => trivial

/-- **Confinement and authorization.** Whatever the client answers, a tool sends only what is under the
caller's own entity in the scope it was asked for, with the area and the name it was asked for; and a
mutating tool only where the caller may write, at the path that it checked. Elsewhere it raises without
a call. -/
theorem tool_confinement (t : MemoryTools) (c : ToolCall) : (t.call c).Issues (t.Confined c) ∧
    ∀ w, t.MayMutate w ∨ ∃ e, t.call (.mutate w) = .raise e := by
  refine ⟨issues_confined t c, fun w => ?_⟩
  by_cases h : t.MayMutate w
  · exact .inl h
  · exact .inr (mutate_raises h)

end MemoryTools

end Wenchang
