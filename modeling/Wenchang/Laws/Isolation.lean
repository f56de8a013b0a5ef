import Wenchang.Laws.Cacheless
import Wenchang.Laws.Confinement
import Wenchang.Laws.Paging
import Wenchang.Tools.Session

/-!
# A session sees its own entities only

Two storages that agree inside the prefixes of an identity's grants, and on the next token, answer every
operation of its session alike and agree again afterwards (`AgreeOn.answer`); and an operation inside
changes nothing outside. That a session only issues such operations is what confinement at the tools
(`tool_confinement`) and the reach of the store's methods (`StoreCall.issues`) come to together, so
`tenant_isolation` is about any calls, in any order, with any arguments and cursors.
-/

namespace Wenchang

open Py Ordered Interaction

/-! ## Inside and outside -/

/-- A key under the prefix of one of the identity's grants. -/
def Identity.Owns (identity : Identity) (key : Str) : Prop :=
  ∃ scope grant, identity.grants.get? scope = some grant ∧ entityPrefix scope grant.entityId <+: key

/-- The path of a file in the entity of one of the identity's grants. -/
def Identity.OwnsFile [Interpreter] (identity : Identity) (path : Str) : Prop :=
  ∃ parts grant, parsePath path = .ok parts ∧ identity.grants.get? parts.scope = some grant ∧
    parts.entityId = grant.entityId

/-- Two storages that agree on the keys inside, and on the next token. -/
structure AgreeOn (inside : Str → Prop) (st st' : InMemoryStorage) : Prop where
  objects : ∀ key, inside key → st.get key = st'.get key
  nextToken : st.nextToken = st'.nextToken

/-- No key outside is created, changed or deleted. -/
def SameOutside (inside : Str → Prop) (st st' : InMemoryStorage) : Prop :=
  ∀ key, ¬ inside key → st'.get key = st.get key

/-- An operation that names keys inside, or a prefix of which every key is. -/
def StorageOp.Inside (inside : Str → Prop) : StorageOp → Prop
  | .get key => inside key
  | .put key _ _ => inside key
  | .putIfVersion key _ _ _ => inside key
  | .deleteIfVersion key _ => inside key
  | .listPage pre _ _ => ∀ key, pre <+: key → inside key

/-- An operation of a store that asks storage for nothing outside. -/
def StoreOp.Inside (inside : Str → Prop) : StoreOp → Prop
  | .storage o => o.Inside inside
  | _ => True

section

variable {inside : Str → Prop} {st st' : InMemoryStorage}

/-- A storage is the same as itself. -/
theorem SameOutside.refl (st : InMemoryStorage) : SameOutside inside st st := fun _ _ => rfl

/-- What is the same twice is the same. -/
theorem SameOutside.trans {st'' : InMemoryStorage} (h : SameOutside inside st st')
    (h' : SameOutside inside st' st'') : SameOutside inside st st'' := fun key hkey =>
  (h' key hkey).trans (h key hkey)

namespace AgreeOn

/-- Storages that agree have the same token next. -/
theorem token (h : AgreeOn inside st st') : st.token = st'.token := congrArg Py.ofNat h.nextToken

/-- Storages that agree have the same versions inside. -/
theorem version (h : AgreeOn inside st st') {key : Str} (hkey : inside key) :
    st.version key = st'.version key := congrArg (Option.map _) (h.objects key hkey)

/-- The same put keeps storages agreeing. -/
theorem putLocked (h : AgreeOn inside st st') (key : Str) (data : Bytes) (metadata : Metadata) :
    AgreeOn inside (st.putLocked key data metadata) (st'.putLocked key data metadata) where
  objects k hk := by
    rw [InMemoryStorage.get_putLocked, InMemoryStorage.get_putLocked, h.token, h.objects k hk]
  nextToken := congrArg (· + 1) h.nextToken

/-- The same delete keeps storages agreeing. -/
theorem remove (h : AgreeOn inside st st') (key : Str) :
    AgreeOn inside (st.remove key) (st'.remove key) where
  objects k hk := by
    rw [InMemoryStorage.get_remove, InMemoryStorage.get_remove, h.objects k hk]
  nextToken := h.nextToken

/-- A listing inside shows the same. -/
theorem listPage (h : AgreeOn inside st st') {pre : Str} (hpre : ∀ key, pre <+: key → inside key)
    (after : Option Str) (limit : Nat) : st.listPage pre after limit = st'.listPage pre after limit := by
  refine congrArg (List.take limit) (listing_congr fun key hkey _ => ?_)
  exact h.objects key (hpre key (List.isPrefixOf_iff_prefix.mp hkey))

/-- **An operation inside tells the two storages not apart**, and leaves them in agreement. -/
theorem step (h : AgreeOn inside st st') {o : StorageOp} (ho : o.Inside inside) :
    (InMemoryStorage.step o st).1 = (InMemoryStorage.step o st').1 ∧
      AgreeOn inside (InMemoryStorage.step o st).2 (InMemoryStorage.step o st').2 := by
  cases o with
  | get key => exact ⟨congrArg Except.ok (h.objects key ho), h⟩
  | put key data metadata => exact ⟨congrArg Except.ok h.token, h.putLocked key data metadata⟩
  | putIfVersion key data metadata expected =>
    have hversion := h.version (show inside key from ho)
    rcases st.putIfVersion_cases key data metadata expected with ⟨hmatch, hput⟩ | ⟨hmatch, hput⟩
    · have hput' := (st'.putIfVersion_cases key data metadata expected).resolve_right
        fun hfails => hfails.1 (hversion ▸ hmatch)
      rw [InMemoryStorage.step, hput, InMemoryStorage.step, hput'.2]
      exact ⟨congrArg Except.ok h.token, h.putLocked key data metadata⟩
    · have hput' := (st'.putIfVersion_cases key data metadata expected).resolve_left
        fun hfits => hmatch (hversion.trans hfits.1)
      rw [InMemoryStorage.step, hput, InMemoryStorage.step, hput'.2]
      exact ⟨rfl, h⟩
  | deleteIfVersion key expected =>
    have hversion := h.version (show inside key from ho)
    rcases st.deleteIfVersion_cases key expected with ⟨hmatch, hdelete⟩ | ⟨hmatch, hdelete⟩
    · have hdelete' := (st'.deleteIfVersion_cases key expected).resolve_right
        fun hfails => hfails.1 (hversion ▸ hmatch)
      rw [InMemoryStorage.step, hdelete, InMemoryStorage.step, hdelete'.2]
      exact ⟨rfl, h.remove key⟩
    · have hdelete' := (st'.deleteIfVersion_cases key expected).resolve_left
        fun hfits => hmatch (hversion.trans hfits.1)
      rw [InMemoryStorage.step, hdelete, InMemoryStorage.step, hdelete'.2]
      exact ⟨rfl, h⟩
  | listPage pre after limit => exact ⟨congrArg Except.ok (h.listPage ho after limit), h⟩

end AgreeOn

/-- An operation inside leaves what is outside. -/
theorem sameOutside_step {o : StorageOp} (ho : o.Inside inside) (st : InMemoryStorage) :
    SameOutside inside st (InMemoryStorage.step o st).2 := by
  rcases InMemoryStorage.step_cases o st with ⟨key, data, metadata, hwrite, h⟩ | ⟨key, expected, rfl, h⟩ | h
  · intro k hk
    have hkey : inside key := by
      cases o with
      | put key data metadata =>
        cases hwrite
        exact ho
      | putIfVersion key data metadata expected =>
        cases hwrite
        exact ho
      | get | deleteIfVersion | listPage => cases hwrite
    rw [h, InMemoryStorage.get_putLocked, if_neg]
    rintro rfl
    exact hk hkey
  · intro k hk
    rw [h, InMemoryStorage.get_remove, if_neg]
    rintro rfl
    exact hk ho
  · rw [h]
    exact SameOutside.refl st

/-! ## Worlds -/

/-- Two worlds that a session cannot tell apart: the clock reads the same. -/
structure AlikeOn (inside : Str → Prop) (w w' : SessionWorld) : Prop where
  agree : AgreeOn inside w.storage w'.storage
  clock : w.clock = w'.clock

/-- **Worlds that are alike inside answer alike** what is asked inside, and stay alike. -/
theorem AlikeOn.answer {w w' : SessionWorld} (h : AlikeOn inside w w') {o : StoreOp}
    (ho : o.Inside inside) : (SessionWorld.answer o w).1 = (SessionWorld.answer o w').1 ∧
      AlikeOn inside (SessionWorld.answer o w).2 (SessionWorld.answer o w').2 := by
  cases o with
  | storage o =>
    obtain ⟨hans, hagree⟩ := h.agree.step (show o.Inside inside from ho)
    exact ⟨hans, hagree, h.clock⟩
  | clock => exact ⟨congrFun h.clock 0, h.agree, funext fun n => congrFun h.clock (n + 1)⟩
  | uuid4 => exact ⟨rfl, h⟩
  | cacheGet key => exact ⟨rfl, h⟩
  | cacheSet key value => exact ⟨rfl, h⟩

/-- An answer leaves what is outside. -/
theorem sameOutside_answer {o : StoreOp} (ho : o.Inside inside) (w : SessionWorld) :
    SameOutside inside w.storage (SessionWorld.answer o w).2.storage := by
  cases o with
  | storage o => exact sameOutside_step (show o.Inside inside from ho) w.storage
  | clock => exact SameOutside.refl _
  | uuid4 => exact SameOutside.refl _
  | cacheGet key => exact SameOutside.refl _
  | cacheSet key value => exact SameOutside.refl _

end

/-! ## What a client operation reaches -/

/-- A client operation whose paths and prefixes are inside. -/
def ClientOp.Inside [Interpreter] (identity : Identity) : ClientOp → Prop
  | .getMemoryIndex scopeMap => scopeMap = identity.scopeMap
  | .readFile path => identity.Owns path
  | .listPrefix pre _ => ∀ key, pre <+: key → identity.Owns key
  | .writeFile path _ _ _ _ => identity.OwnsFile path
  | .appendLine path _ _ _ _ _ => identity.OwnsFile path
  | .replaceFact path _ _ _ _ _ _ => identity.OwnsFile path
  | .deleteFile path _ => identity.OwnsFile path

/-- What is below a mapped entity is owned. -/
theorem Identity.scopeMap_owns {identity : Identity} {pair : Str × Str} (h : pair ∈ identity.scopeMap) {key : Str}
    (hkey : entityPrefix pair.1 pair.2 <+: key) : identity.Owns key := by
  obtain ⟨entry, hentry, rfl⟩ := List.mem_map.mp h
  exact ⟨entry.1, entry.2, FinMap.get?_eq_some.mpr hentry, hkey⟩

section

variable [Interpreter] {identity : Identity}

/-- A file that is owned is below what is owned. -/
theorem Identity.OwnsFile.owns {path : Str} (h : identity.OwnsFile path) : identity.Owns path := by
  obtain ⟨parts, grant, hparse, hgrant, hown⟩ := h
  obtain ⟨-, rfl⟩ := parsePath_eq_ok.mp hparse
  exact ⟨parts.scope, grant, hgrant, hown ▸ parts.under_entity⟩

/-- A mutator of a file inside stays inside: it steps at the file, and lists the file's own entity. -/
theorem Mutator.inside {m : Mutator} (h : identity.OwnsFile m.path) (o : StoreOp) (ho : m.Reaches o) :
    o.Inside identity.Owns := by
  cases o with
  | storage o =>
    have hpath : ∀ key, key = m.path → identity.Owns key := by
      rintro key rfl
      exact h.owns
    cases o with
    | get key => exact hpath key ho
    | put key data metadata => exact absurd ho not_false
    | putIfVersion key data metadata expected => exact hpath key ho
    | deleteIfVersion key expected => exact hpath key ho
    | listPage pre after limit =>
      obtain ⟨parts, hparse, rfl⟩ := ho
      obtain ⟨parts', grant, hparse', hgrant, hown⟩ := h
      cases hparse.symm.trans hparse'
      intro key hkey
      exact ⟨parts.scope, grant, hgrant, hown ▸ hkey⟩
  | clock => trivial
  | uuid4 => trivial
  | cacheGet key => trivial
  | cacheSet key value => trivial

/-- **A client operation inside asks storage for nothing outside.** -/
theorem inProcess_issues (s : MemoryStore) (fuel : Nat) {o : ClientOp} (h : o.Inside identity) :
    (inProcess s fuel o).Issues (StoreOp.Inside identity.Owns) := by
  have hquiet : ∀ o : StoreOp, o.Quiet → o.Inside identity.Owns := by
    intro o ho
    cases o with
    | storage o => exact absurd ho not_false
    | clock | uuid4 | cacheGet | cacheSet => trivial
  cases o with
  | getMemoryIndex scopeMap =>
    refine (issues_getMemoryIndex s (fun pair hpair _ _ key hkey => ?_) hquiet fuel).attempt
    rw [show scopeMap = identity.scopeMap from h] at hpair
    exact Identity.scopeMap_owns hpair hkey
  | readFile path => exact (issues_readFile (show identity.Owns path from h)).attempt
  | listPrefix pre cursor => exact (issues_listPrefix s (fun _ _ => h) cursor).attempt
  | writeFile path content metadata expected source =>
    let m := Mutator.writeFile path content metadata expected source
    exact (((m.blocks s).writeFile fuel content metadata expected source).mono
      (Mutator.inside (m := m) h)).attempt
  | appendLine path line expected source aliases description =>
    let m := Mutator.appendLine path line expected source aliases description
    exact (((m.blocks s).appendLine line expected source aliases description).mono
      (Mutator.inside (m := m) h)).attempt
  | replaceFact path oldString newString expected source aliases description =>
    let m := Mutator.replaceFact path oldString newString expected source aliases description
    exact (((m.blocks s).replaceFact oldString newString expected source aliases description).mono
      (Mutator.inside (m := m) h)).attempt
  | deleteFile path expected =>
    let m := Mutator.deleteFile path expected
    exact (((m.blocks s).deleteFile expected).mono (Mutator.inside (m := m) h)).attempt

end

/-! ## Sessions -/

namespace MemoryTools

variable [Interpreter] {t : MemoryTools}

/-- The path of a tool call is owned. -/
theorem OwnPath.ownsFile {scope area name : Arg} {path : Str} {parts : PathParts} {grant : ScopeGrant}
    (h : t.OwnPath scope area name path parts grant) : t.identity.OwnsFile path :=
  ⟨parts, grant, h.parses, h.granted, h.own⟩

/-- What is confined is inside. -/
theorem Confined.inside {c : ToolCall} {op : ClientOp} (h : t.Confined c op) : op.Inside t.identity := by
  cases c with
  | getMemoryIndex =>
    obtain rfl : op = .getMemoryIndex t.identity.scopeMap := h
    exact rfl
  | readFile scope area name =>
    obtain ⟨path, parts, grant, rfl, hown⟩ := h
    exact hown.ownsFile.owns
  | listPrefix scope area cursor =>
    obtain ⟨pre, cursor', rfl, scopeName, areaName, grant, hlists, hunder⟩ := h
    intro key hkey
    exact ⟨scopeName, grant, hlists.granted, hunder.trans hkey⟩
  | mutate w =>
    obtain ⟨path, parts, grant, hsends, hown, -⟩ := h
    have hfile := hown.ownsFile
    cases w with
    | writeFile =>
      obtain ⟨content, metadata, version, rfl⟩ := hsends
      exact hfile
    | appendLine =>
      obtain ⟨line, version, aliases, description, rfl⟩ := hsends
      exact hfile
    | replaceFact =>
      obtain ⟨oldString, newString, version, aliases, description, rfl⟩ := hsends
      exact hfile
    | deleteFile =>
      obtain ⟨version, rfl⟩ := hsends
      exact hfile

variable (t) (s : MemoryStore) (fuel : Nat)

/-- **What a tool call over a store asks for** is inside the caller's own entities. -/
theorem issues_inside (c : ToolCall) :
    (t.program s fuel c).Issues (StoreOp.Inside t.identity.Owns) :=
  Prog.Issues.interp (t.issues_confined c) fun _ h => inProcess_issues s fuel h.inside

/-- One call tells two worlds not apart. -/
theorem alikeOn_runCall (c : ToolCall) {w w' : SessionWorld} (h : AlikeOn t.identity.Owns w w') :
    (t.runCall s fuel c w).1 = (t.runCall s fuel c w').1 ∧
      AlikeOn t.identity.Owns (t.runCall s fuel c w).2 (t.runCall s fuel c w').2 :=
  (t.issues_inside s fuel c).run_rel (fun _ ho _ _ halike => halike.answer ho) h

/-- One call changes nothing outside. -/
theorem sameOutside_runCall (c : ToolCall) (w : SessionWorld) :
    SameOutside t.identity.Owns w.storage (t.runCall s fuel c w).2.storage :=
  (t.issues_inside s fuel c).run_post (R := fun w w' => SameOutside t.identity.Owns w.storage w'.storage)
    (fun w => SameOutside.refl w.storage)
    (fun {w w' w''} (h : SameOutside _ w.storage w'.storage) (h' : SameOutside _ w'.storage w''.storage) =>
      h.trans h')
    (fun _ ho w => sameOutside_answer ho w) w

/-- **A session sees only what it owns**, call by call. -/
theorem alikeOn_session (calls : List ToolCall) {w w' : SessionWorld} (h : AlikeOn t.identity.Owns w w') :
    (t.session s fuel calls w).1 = (t.session s fuel calls w').1 ∧
      AlikeOn t.identity.Owns (t.session s fuel calls w).2 (t.session s fuel calls w').2 := by
  induction calls generalizing w w' with
  | nil => exact ⟨rfl, h⟩
  | cons c calls ih =>
    obtain ⟨hout, halike⟩ := t.alikeOn_runCall s fuel c h
    obtain ⟨houts, halikes⟩ := ih halike
    simp only [session, hout, houts]
    exact ⟨trivial, halikes⟩

/-- A session leaves what is outside its grants. -/
theorem sameOutside_session (calls : List ToolCall) (w : SessionWorld) :
    SameOutside t.identity.Owns w.storage (t.session s fuel calls w).2.storage := by
  induction calls generalizing w with
  | nil => exact SameOutside.refl w.storage
  | cons c calls ih => exact (t.sameOutside_runCall s fuel c w).trans (ih _)

/-- **Tenant isolation.** A session over two storages that agree inside the caller's own entities, and on
the next token, has the same outcomes in both, call by call; in neither is a key outside created, changed
or deleted. -/
theorem tenant_isolation (calls : List ToolCall) (clock : Nat → DateTime) {st st' : InMemoryStorage}
    (h : AgreeOn t.identity.Owns st st') :
    (t.session s.cacheless fuel calls ⟨st, clock⟩).1 = (t.session s.cacheless fuel calls ⟨st', clock⟩).1 ∧
      SameOutside t.identity.Owns st (t.session s.cacheless fuel calls ⟨st, clock⟩).2.storage ∧
      SameOutside t.identity.Owns st' (t.session s.cacheless fuel calls ⟨st', clock⟩).2.storage := by
  have halike : AlikeOn t.identity.Owns ⟨st, clock⟩ ⟨st', clock⟩ := ⟨h, rfl⟩
  exact ⟨(t.alikeOn_session s.cacheless fuel calls halike).1,
    t.sameOutside_session s.cacheless fuel calls ⟨st, clock⟩,
    t.sameOutside_session s.cacheless fuel calls ⟨st', clock⟩⟩

end MemoryTools

/-! ## One grant -/

/-- A member of one team. -/
def teamMember : Identity where
  grants := FinMap.empty.insert (str "team") ⟨str "t1", str "member", by decide, by decide⟩
  scopes_valid scope grant h := by
    rw [FinMap.get?_insert] at h
    split at h
    next hscope =>
      rw [hscope]
      decide
    next => cases h

/-- Its session, under a policy that restricts nothing. -/
def teamSession : MemoryTools where
  identity := teamMember
  policy := ⟨.empty, nofun, nofun⟩
  source := str "chat"
  source_ne := by decide

/-- A team member owns what is below the team. -/
theorem teamMember_owns {key : Str} : teamMember.Owns key ↔ str "team/t1/" <+: key := by
  constructor
  · rintro ⟨scope, grant, hgrant, hunder⟩
    rw [teamMember, FinMap.get?_insert] at hgrant
    split at hgrant
    next hscope =>
      cases hgrant
      rw [hscope] at hunder
      exact hunder
    next => cases hgrant
  · intro h
    exact ⟨str "team", _, FinMap.get?_insert_self _ _ _, h⟩

/-- The team's session over two storages that differ in a file of a team whose id extends its own, and
in one of another scope. -/
theorem tenant_isolation_team : let _ := Interpreter.ascii
    let st := InMemoryStorage.single (str "team/t11/notes/plan.md") []
    let st' := InMemoryStorage.single (str "user/t1/notes/plan.md") []
    let calls := [ToolCall.getMemoryIndex, .listPrefix (.text (str "team")) none (some (.text (str "x")))]
    st ≠ st' ∧ AgreeOn teamMember.Owns st st' ∧
      (teamSession.session MemoryStore.default.cacheless 2 calls ⟨st, fun _ => noon⟩).1 =
          (teamSession.session MemoryStore.default.cacheless 2 calls ⟨st', fun _ => noon⟩).1 ∧
        SameOutside teamMember.Owns st
          (teamSession.session MemoryStore.default.cacheless 2 calls ⟨st, fun _ => noon⟩).2.storage ∧
        SameOutside teamMember.Owns st'
          (teamSession.session MemoryStore.default.cacheless 2 calls ⟨st', fun _ => noon⟩).2.storage := by
  intro _ st st' calls
  have hagree : AgreeOn teamMember.Owns st st' := by
    refine ⟨fun key hkey => ?_, rfl⟩
    rw [teamMember_owns] at hkey
    simp only [st, st', InMemoryStorage.single, InMemoryStorage.get_putLocked]
    rw [if_neg, if_neg]
    · rintro rfl
      exact absurd hkey (by decide)
    · rintro rfl
      exact absurd hkey (by decide)
  refine ⟨?_, hagree, teamSession.tenant_isolation MemoryStore.default 2 calls (fun _ => noon) hagree⟩
  decide +kernel

end Wenchang
