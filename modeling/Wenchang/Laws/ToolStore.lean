import Wenchang.Interaction.Wrapped
import Wenchang.Laws.Edits
import Wenchang.Laws.Isolation

/-!
# The call behind a tool

A tool call checks its arguments, makes one call of the store at most, and shapes what that call ended with
(`program_cases`). What it passes on has no surrogates (`writeArgs_scalar`), but for the caller's entity and
source, which are not arguments.
-/

namespace Wenchang

open Py Ordered Interaction

/-- The call of a store that answers a client operation. -/
def ClientOp.storeCall : ClientOp → StoreCall
  | .getMemoryIndex scopeMap => .getMemoryIndex scopeMap
  | .readFile path => .readFile path
  | .listPrefix pre cursor => .listPrefix pre cursor
  | .writeFile path content metadata expectedVersion source =>
    .mutate (.writeFile path content metadata expectedVersion source)
  | .appendLine path line expectedVersion source aliases description =>
    .mutate (.appendLine path line expectedVersion source aliases description)
  | .replaceFact path oldString newString expectedVersion source aliases description =>
    .mutate (.replaceFact path oldString newString expectedVersion source aliases description)
  | .deleteFile path expectedVersion => .mutate (.deleteFile path expectedVersion)

/-- What this call returned, as the operation's answer; a call returns nothing of another kind. -/
def ClientOp.readResult : (o : ClientOp) → StoreResult → o.Ans
  | .getMemoryIndex _, .index index => .ok index
  | .readFile _, .file (some file) => .ok file
  | .listPrefix _ _, .page page => .ok page
  | .writeFile _ _ _ _ _, .file (some file) => .ok file
  | .appendLine _ _ _ _ _ _, .file (some file) => .ok file
  | .replaceFact _ _ _ _ _ _ _, .file (some file) => .ok file
  | .deleteFile _ _, .file none => .ok ()
  | _, _ => .error (.foreign [])

/-- How a tool that sent an operation ends, once it is answered. -/
def ClientOp.finish (o : ClientOp) (cursor : Bool) : o.Ans → Except Exc ToolResult
  | .ok result => .ok (o.toResult result)
  | .error e =>
    .error (if cursor = true then (if e.isValueError = true then reraiseArgument (str "cursor") e else e) else e)

section

variable [Interpreter]

/-- A client in process runs the store's call and reads its result. -/
theorem inProcess_eq (s : MemoryStore) (fuel : Nat) (o : ClientOp) :
    inProcess s fuel o = (o.storeCall.body s fuel).mapOutcome fun r => .ok (r.bind o.readResult) := by
  have hone : ∀ {α : Type} (p : Store α) (wrap : α → StoreResult) (read : StoreResult → Except Exc α),
      (∀ a, read (wrap a) = .ok a) →
      (p.attempt : Store (Except Exc α)) = (do return wrap (← p) : Store StoreResult).mapOutcome fun r =>
        .ok (r.bind read) := by
    intro α p wrap read hread
    show p.attempt = (p >>= fun a => Prog.ret (wrap a)).mapOutcome _
    rw [Prog.bind_ret_mapOutcome, ← Prog.bind_ret p.attempt, ← Prog.attempt_bind_ofExcept]
    refine congrArg (p.attempt >>= ·) (funext fun r => ?_)
    cases r with
    | ok a => exact congrArg Prog.ret (hread a).symm
    | error e => rfl
  have htwo : ∀ {α : Type} (p : Store α) (wrap : α → Option MemoryFile) (read : StoreResult → Except Exc α),
      (∀ a, read (.file (wrap a)) = .ok a) →
      (p.attempt : Store (Except Exc α)) = (do return .file (← (do return wrap (← p) : Store (Option MemoryFile))) :
        Store StoreResult).mapOutcome fun r => .ok (r.bind read) := by
    intro α p wrap read hread
    rw [hone p (fun a => .file (wrap a)) read hread]
    show _ = ((p >>= fun a => Prog.ret (wrap a)) >>= fun file => Prog.ret (StoreResult.file file)).mapOutcome _
    rw [Prog.bind_assoc]
    rfl
  cases o with
  | getMemoryIndex scopeMap => exact hone _ _ _ fun _ => rfl
  | readFile path => exact hone _ _ _ fun _ => rfl
  | listPrefix pre cursor => exact hone _ _ _ fun _ => rfl
  | deleteFile path expected => exact htwo _ (fun _ => none) _ fun _ => rfl
  | _ => exact htwo _ some _ fun _ => rfl

/-- An operation that a tool call sends: it is confined, and a mutating tool has checked its arguments. -/
structure MemoryTools.Sends (t : MemoryTools) (c : ToolCall) (o : ClientOp) : Prop where
  confined : t.Confined c o
  args : ∀ w, c = .mutate w → t.writeArgs w = .ok o

/-- A tool call checks its arguments and sends one operation, or refuses. -/
theorem MemoryTools.call_cases (t : MemoryTools) (c : ToolCall) : (∃ e, t.call c = .raise e) ∨
    ∃ (o : ClientOp) (cursor : Bool), t.Sends c o ∧
      t.call c = .vis o fun a => Prog.ofExcept (o.finish cursor a) := by
  have hconfined := t.issues_confined c
  have hread : ∀ {c : ToolCall} {o : ClientOp}, t.Confined c o → (∀ w, c ≠ .mutate w) → t.Sends c o := fun hc hne =>
    ⟨hc, fun w hw => absurd hw (hne w)⟩
  have hplain : ∀ (o : ClientOp) (a : o.Ans),
      (Prog.ofExcept a >>= fun r => Prog.ret (o.toResult r) : Tool ToolResult) =
        Prog.ofExcept (o.finish false a) := by
    intro o a
    cases a with
    | ok r => rfl
    | error e => rfl
  cases c with
  | getMemoryIndex =>
    exact .inr ⟨_, false, hread hconfined.1 (fun _ => ToolCall.noConfusion),
      congrArg _ (funext fun a => hplain (.getMemoryIndex _) a)⟩
  | readFile scope area name =>
    rw [MemoryTools.call, MemoryTools.readFile] at hconfined ⊢
    cases hpath : t.path scope area name with
    | error e => exact .inl ⟨e, rfl⟩
    | ok path =>
      rw [hpath] at hconfined
      exact .inr ⟨_, false, hread hconfined.1 (fun _ => ToolCall.noConfusion),
        congrArg _ (funext fun a => hplain (.readFile path) a)⟩
  | listPrefix scope area cursor =>
    rw [MemoryTools.call, MemoryTools.listPrefix] at hconfined ⊢
    cases hpre : t.pre scope area with
    | error e => exact .inl ⟨e, rfl⟩
    | ok pre =>
      rw [hpre] at hconfined
      cases cursor with
      | none =>
        exact .inr ⟨_, false, hread hconfined.1 (fun _ => ToolCall.noConfusion),
          congrArg _ (funext fun a => hplain (.listPrefix pre none) a)⟩
      | some cursor =>
        cases hcursor : exactArg (str "cursor") cursor with
        | error e =>
          refine .inl ⟨e, ?_⟩
          simp only [Prog.ofExcept_ok, Prog.ret_bind, hcursor, Prog.ofExcept_error, Prog.raise_bind]
        | ok cursor =>
          simp only [Prog.ofExcept_ok, Prog.ret_bind, hcursor] at hconfined ⊢
          refine .inr ⟨.listPrefix pre (some cursor), true, hread hconfined.1 (fun _ => ToolCall.noConfusion), ?_⟩
          show Prog.vis _ _ = Prog.vis _ _
          refine congrArg (Prog.vis _) (funext fun a => ?_)
          cases a with
          | ok page => rfl
          | error e => rfl
  | mutate w =>
    rw [MemoryTools.call] at hconfined ⊢
    cases hargs : t.writeArgs w with
    | error e => exact .inl ⟨e, rfl⟩
    | ok o =>
      rw [hargs] at hconfined
      refine .inr ⟨o, false, ⟨hconfined.1, fun w' hw => ?_⟩, congrArg _ (funext fun a => hplain o a)⟩
      obtain rfl := ToolCall.mutate.inj hw
      exact hargs

/-- **A tool call over a store** is a wrapped call of the store, or refuses. -/
theorem MemoryTools.program_cases (t : MemoryTools) (s : MemoryStore) (fuel : Nat) (c : ToolCall) :
    (∃ e, t.program s fuel c = .raise e) ∨ ∃ (o : ClientOp) (cursor : Bool), t.Sends c o ∧
      t.program s fuel c = (o.storeCall.body s fuel).mapOutcome fun r => o.finish cursor (r.bind o.readResult) := by
  rcases t.call_cases c with ⟨e, he⟩ | ⟨o, cursor, hsends, hcall⟩
  · refine .inl ⟨e, ?_⟩
    rw [MemoryTools.program, he]
    rfl
  · refine .inr ⟨o, cursor, hsends, ?_⟩
    rw [MemoryTools.program, hcall]
    exact Prog.interp_vis_attempt (inProcess_eq s fuel o)

end

/-! ## Arguments -/

/-- Members that are accepted are scalar. -/
theorem aliasMembers_scalar {members : List Arg} {aliases : List Str} (h : aliasMembers members = .ok aliases) :
    ∀ a ∈ aliases, Scalar a := by
  induction members generalizing aliases with
  | nil => exact Except.ok.inj h ▸ List.forall_mem_nil _
  | cons member rest ih =>
    simp only [aliasMembers, except_bind_eq_ok, encodableArg_eq_ok] at h
    obtain ⟨value, -, -, hvalue, aliases', haliases', h⟩ := h
    obtain rfl := Except.ok.inj h
    exact List.forall_mem_cons.mpr ⟨hvalue, ih haliases'⟩

/-- Aliases that are accepted are scalar. -/
theorem aliasesArg_scalar {arg : AliasesArg} {aliases : List Str} (h : aliasesArg arg = .ok aliases) :
    ∀ a ∈ aliases, Scalar a := by
  cases arg with
  | items members => exact aliasMembers_scalar h
  | other typeName => cases h

/-- So are they where they may be left out. -/
theorem aliasesOptional_scalar {arg : Option AliasesArg} {aliases : Option (List Str)}
    (h : aliasesOptional arg = .ok aliases) : ∀ a ∈ aliases.getD [], Scalar a := by
  cases arg with
  | none => exact Except.ok.inj h ▸ List.forall_mem_nil _
  | some arg =>
    cases hmembers : aliasesArg arg with
    | ok members =>
      rw [aliasesOptional, hmembers] at h
      exact Except.ok.inj h ▸ aliasesArg_scalar hmembers
    | error e =>
      rw [aliasesOptional, hmembers] at h
      cases h

section

variable [Interpreter]

/-- **What a mutating tool sends has no surrogates**, where its caller's entity and source have none. -/
theorem MemoryTools.writeArgs_scalar {t : MemoryTools} {w : ToolWrite} {o : ClientOp} (h : t.writeArgs w = .ok o)
    (hsource : Scalar t.source)
    (hentity : ∀ scope grant, t.identity.grants.get? scope = some grant → Scalar grant.entityId) {m : Mutator}
    (hm : o.storeCall = .mutate m) : Scalar m.path ∧ ∀ a ∈ m.names, Scalar a := by
  have hpath : ∀ {scope area name : Arg} {path : Str}, t.writePath scope area name = .ok path → Scalar path := by
    intro scope area name path hpath
    obtain ⟨parts, grant, haddresses, -, rfl⟩ := writePath_eq_ok.mp hpath
    obtain ⟨hscope, harea, hname⟩ := haddresses.scalar
    have hown : Scalar parts.entityId := haddresses.own ▸ hentity _ grant haddresses.granted
    have hslash : isSurrogate slash = false := by decide
    exact hscope.append (.cons hslash (hown.append (.cons hslash (harea.append (.cons hslash
      (hname.append (scalar_str _)))))))
  cases w with
  | writeFile scope area name content description aliases expectedVersion =>
    simp only [writeArgs, writeFileArgs, except_bind_eq_ok] at h
    obtain ⟨path, hp, content, -, -, -, description, -, aliases, haliases, version, -, metadata, hmetadata, h⟩ := h
    obtain rfl := Except.ok.inj h
    obtain rfl := StoreCall.mutate.inj hm
    have hmade : metadata.aliases = aliases ∧ metadata.sources = .empty := by
      unfold FileMetadata.make at hmetadata
      split at hmetadata
      · split at hmetadata
        · exact Except.ok.inj hmetadata ▸ ⟨rfl, rfl⟩
        · cases hmetadata
      · cases hmetadata
    have hnames : ∀ a ∈ t.source :: aliases ++ FinSet.empty.toList, Scalar a :=
      List.forall_mem_append.mpr
        ⟨List.forall_mem_cons.mpr ⟨hsource, aliasesArg_scalar haliases⟩, List.forall_mem_nil _⟩
    rw [← hmade.1, ← hmade.2] at hnames
    exact ⟨hpath hp, hnames⟩
  | appendLine scope area name line expectedVersion aliases description =>
    simp only [writeArgs, appendLineArgs, except_bind_eq_ok] at h
    obtain ⟨path, hp, line, -, -, -, h⟩ := h
    split at h
    · cases h
    simp only [except_bind_eq_ok] at h
    obtain ⟨version, -, aliases, haliases, description, -, h⟩ := h
    obtain rfl := Except.ok.inj h
    obtain rfl := StoreCall.mutate.inj hm
    exact ⟨hpath hp, List.forall_mem_cons.mpr ⟨hsource, aliasesOptional_scalar haliases⟩⟩
  | replaceFact scope area name oldString newString expectedVersion aliases description =>
    simp only [writeArgs, replaceFactArgs, except_bind_eq_ok] at h
    obtain ⟨path, hp, oldString, -, newString, -, h⟩ := h
    split at h
    · cases h
    simp only [except_bind_eq_ok] at h
    obtain ⟨-, -, version, -, aliases, haliases, description, -, h⟩ := h
    obtain rfl := Except.ok.inj h
    obtain rfl := StoreCall.mutate.inj hm
    exact ⟨hpath hp, List.forall_mem_cons.mpr ⟨hsource, aliasesOptional_scalar haliases⟩⟩
  | deleteFile scope area name expectedVersion =>
    simp only [writeArgs, deleteFileArgs, except_bind_eq_ok] at h
    obtain ⟨path, hp, version, -, h⟩ := h
    obtain rfl := Except.ok.inj h
    obtain rfl := StoreCall.mutate.inj hm
    exact ⟨hpath hp, List.forall_mem_nil _⟩

end

end Wenchang
