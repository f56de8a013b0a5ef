import Wenchang.Laws.StoreRenders
import Wenchang.Laws.ToolStore
import Wenchang.Tools.Mcp

/-!
# What a server answers

A request comes to a store call with its outcome rendered (`exists_comes`), so a run of requests, interleaved
as they may be, is a run of store calls, and what is known of those holds of it: storage stays as the core
leaves it, and every answer is one that the published schemas describe (`served_conforms`).
-/

namespace Wenchang

open Py Ordered Interaction

/-- What is a write of a key writes it. -/
theorem StoreOp.writes_of_write? {o : StoreOp} {key : Str} {data : Bytes} {metadata : Metadata}
    (h : o.write? = some (key, data, metadata)) : o.Writes key := by
  cases o with
  | storage o =>
    cases o with
    | put => exact congrArg Prod.fst (Option.some.inj h)
    | putIfVersion => exact congrArg Prod.fst (Option.some.inj h)
    | _ => cases h
  | _ => cases h

/-- The payload is one that the schemas of the call describe. -/
def CallToolResult.Conforms (c : ToolCall) (answer : CallToolResult) : Prop :=
  (if answer.isError = true then errorSchema else c.outputSchema).accepts (.obj answer.payload) = true

/-- What is read of a store's result shows the metadata that it returned. -/
theorem ClientOp.readResult_metadata {o : ClientOp} {stored : StoreResult} {r : o.Result}
    (h : o.readResult stored = .ok r) : (o.toResult r).metadata = stored.metadata := by
  cases o with
  | getMemoryIndex scopeMap =>
    cases stored with
    | index index => exact Except.ok.inj h ▸ rfl
    | _ => cases h
  | listPrefix pre cursor =>
    cases stored with
    | page page => exact Except.ok.inj h ▸ rfl
    | _ => cases h
  | deleteFile path expected =>
    cases stored with
    | file file =>
      cases file with
      | none => rfl
      | some file => cases h
    | _ => cases h
  | _ =>
    cases stored with
    | file file =>
      cases file with
      | none => cases h
      | some file => exact Except.ok.inj h ▸ rfl
    | _ => cases h

section

variable [Interpreter]

/-- What a tool sent is answered with a result of the tool's own kind. -/
theorem MemoryTools.Confined.schema {t : MemoryTools} {c : ToolCall} {o : ClientOp} (h : t.Confined c o)
    (r : o.Result) : (o.toResult r).schema = c.outputSchema := by
  cases c with
  | getMemoryIndex =>
    obtain rfl : o = .getMemoryIndex t.identity.scopeMap := h
    rfl
  | readFile scope area name =>
    obtain ⟨path, parts, grant, rfl, -⟩ := h
    rfl
  | listPrefix scope area cursor =>
    obtain ⟨pre, cursor', rfl, -⟩ := h
    rfl
  | mutate w =>
    obtain ⟨path, parts, grant, hsends, -⟩ := h
    cases w with
    | writeFile =>
      obtain ⟨content, metadata, version, rfl⟩ := hsends
      rfl
    | appendLine =>
      obtain ⟨line, version, aliases, description, rfl⟩ := hsends
      rfl
    | replaceFact =>
      obtain ⟨oldString, newString, version, aliases, description, rfl⟩ := hsends
      rfl
    | deleteFile =>
      obtain ⟨version, rfl⟩ := hsends
      rfl

variable {C : Type} {i : Invocation (McpRequest C)} {j : Invocation StoreCall}
  {g : Except Exc StoreResult → Except Exc CallToolResult}

/-- The store call that a request comes to, and how the request ends with it; a request that is refused
comes to a read that is refused. -/
inductive Comes (i : Invocation (McpRequest C)) :
    Invocation StoreCall → (Except Exc StoreResult → Except Exc CallToolResult) → Prop
  | refused (failure : Failure) :
    Comes i ⟨i.store, i.fuel, .readFile []⟩ fun _ => .ok ⟨renderError failure, true⟩
  | sent (t : MemoryTools) (o : ClientOp) (cursor : Bool) (tools : i.call.tools = .ok t)
      (sends : t.Sends i.call.call o) :
    Comes i ⟨i.store, i.fuel, o.storeCall⟩ fun r => .ok (renderOutcome (o.finish cursor (r.bind o.readResult)))

/-- Every request comes to a body. -/
theorem exists_comes (i : Invocation (McpRequest C)) : ∃ j g, Comes i j g ∧ serve i = j.body.mapOutcome g := by
  have hrefused : ∀ failure, ∃ j g, Comes i j g ∧
      (Prog.ret ⟨renderError failure, true⟩ : Store CallToolResult) = j.body.mapOutcome g := fun failure =>
    ⟨_, _, .refused failure, rfl⟩
  unfold serve
  cases htools : i.call.tools with
  | error failure => exact hrefused failure
  | ok t =>
    rcases t.program_cases i.store i.fuel i.call.call with ⟨e, he⟩ | ⟨o, cursor, hsends, hprogram⟩
    · simp only [he]
      exact hrefused (.exc e)
    · refine ⟨_, _, .sent t o cursor htools hsends, ?_⟩
      simp only [hprogram]
      rw [← Prog.mapOutcome_mapOutcome (fun r => .ok (renderOutcome r)),
        ← Prog.attempt_bind_ofExcept _ fun r => .ok (renderOutcome r)]
      rfl

/-- **A request whose store call returned what renders** is answered as the schemas say. -/
theorem Comes.conforms (h : Comes i j g) {r : Except Exc StoreResult}
    (hr : ∀ result, r = .ok result → result.Renders) :
    ∃ answer, g r = .ok answer ∧ answer.Conforms i.call.call := by
  cases h with
  | refused failure => exact ⟨_, rfl, accepts_renderError failure⟩
  | sent t o cursor tools sends =>
    refine ⟨_, rfl, ?_⟩
    cases hread : r.bind o.readResult with
    | error e => exact accepts_renderError _
    | ok result =>
      cases r with
      | error e => cases hread
      | ok stored =>
        have hrenders := hr stored rfl
        rw [StoreResult.Renders, ← ClientOp.readResult_metadata hread] at hrenders
        show i.call.call.outputSchema.accepts (.obj (renderResult (o.toResult result))) = true
        rw [← sends.confined.schema result]
        exact (accepts_renderResult_iff _).mpr hrenders

/-- The texts that a server adds to a call, an entity and a source, have no surrogates. -/
def McpRequest.Plain (request : McpRequest C) : Prop := ∀ t, request.tools = .ok t →
  Scalar t.source ∧ ∀ scope grant, t.identity.grants.get? scope = some grant → Scalar grant.entityId

/-- A request whose server adds no surrogates is admitted. -/
theorem Comes.admitted {bytes : Nat} (h : Comes i j g) (hsize : i.store.maxFileBytes ≤ bytes)
    (hplain : i.call.Plain) : Admitted bytes j := by
  cases h with
  | refused failure => exact ⟨hsize, nofun, nofun⟩
  | sent t o cursor tools sends =>
    obtain ⟨hsource, hentity⟩ := hplain t tools
    have hscalar : ∀ m, o.storeCall = .mutate m → Scalar m.path ∧ ∀ a ∈ m.names, Scalar a := by
      intro m hm
      cases hcall : i.call.call with
      | mutate w => exact MemoryTools.writeArgs_scalar (sends.args w hcall) hsource hentity hm
      | getMemoryIndex =>
        have hconfined := hcall ▸ sends.confined
        obtain rfl : o = .getMemoryIndex t.identity.scopeMap := hconfined
        cases hm
      | readFile scope area name =>
        obtain ⟨path, parts, grant, rfl, -⟩ := hcall ▸ sends.confined
        cases hm
      | listPrefix scope area cursor' =>
        obtain ⟨pre, cursor', rfl, -⟩ := hcall ▸ sends.confined
        cases hm
    exact ⟨hsize, fun m hm => (hscalar m hm).1, fun m hm => (hscalar m hm).2⟩

/-! ## Runs -/

/-- A pool of requests. -/
abbrev ServerPool (C : Type) := Pool StoreSig Exc CallToolResult (Invocation (McpRequest C)) InMemoryStorage

variable {lossy : Prop} {bytes : Nat} {p : ServerPool C}

/-- **Every answer is one that the schemas describe**, whatever is asked by whom, in any interleaving; and
storage stays as the core leaves it. -/
theorem served_conforms (h : Pool.Run (inMemory lossy) serve (fun _ => True) .empty p)
    (hcalls : ∀ th ∈ p.threads, th.call.store.maxFileBytes ≤ bytes ∧ th.call.call.Plain) :
    Kept bytes p.world ∧ ∀ (t : Nat) th (r : Except Exc CallToolResult), p.threads[t]? = some th →
      th.prog.outcome? = some r → ∃ answer, r = .ok answer ∧ answer.Conforms th.call.call.call := by
  choose f g hcomes hbody using fun i : Invocation (McpRequest C) => exists_comes i
  obtain ⟨q, hrun, hwraps⟩ := Pool.Run.unwrap hbody h
  have hadmitted : ∀ th ∈ q.threads, Admitted bytes th.call := by
    intro th hth
    obtain ⟨th', hth', hcall⟩ := hwraps.exists_call hth
    obtain ⟨hsize, hplain⟩ := hcalls th' hth'
    exact hcall ▸ (hcomes th'.call).admitted hsize hplain
  have hkept := kept_of_run hrun hadmitted
  refine ⟨hwraps.world ▸ hkept.1, fun t th r ht hend => ?_⟩
  obtain ⟨th₀, r₀, ht₀, hcall, hend₀, rfl⟩ := hwraps.outcome ht hend
  have hmeets : Meets (Kept bytes) (ownTrace t q.log) := fun ev hev => hkept.2 _ (mem_ownTrace.mp hev)
  have hrenders := hrun.post (fun i : Invocation StoreCall => sat_renders i) ht₀ hend₀ hmeets
  exact (hcomes th.call).conforms hrenders

/-- A request is bound to tools whose identity may write a path, under the policy of its server. -/
def McpRequest.MayChange (request : McpRequest C) (key : Str) : Prop :=
  ∃ t parts grant, request.tools = .ok t ∧ parsePath key = .ok parts ∧ MayWrite t.identity t.policy parts grant

/-- What a tool sends to write it may write. -/
theorem MemoryTools.Sends.mayWrite {t : MemoryTools} {c : ToolCall} {o : ClientOp} (h : t.Sends c o) {m : Mutator}
    (hm : o.storeCall = .mutate m) : ∃ parts grant, parsePath m.path = .ok parts ∧
      MayWrite t.identity t.policy parts grant := by
  have hconfined := h.confined
  cases c with
  | getMemoryIndex =>
    obtain rfl : o = .getMemoryIndex t.identity.scopeMap := hconfined
    cases hm
  | readFile scope area name =>
    obtain ⟨path, parts, grant, rfl, -⟩ := hconfined
    cases hm
  | listPrefix scope area cursor =>
    obtain ⟨pre, cursor', rfl, -⟩ := hconfined
    cases hm
  | mutate w =>
    obtain ⟨path, parts, grant, hsends, hown, hmay, -⟩ := hconfined
    have hpath : m.path = path := by
      cases w with
      | writeFile =>
        obtain ⟨content, metadata, version, rfl⟩ := hsends
        exact StoreCall.mutate.inj hm ▸ rfl
      | appendLine =>
        obtain ⟨line, version, aliases, description, rfl⟩ := hsends
        exact StoreCall.mutate.inj hm ▸ rfl
      | replaceFact =>
        obtain ⟨oldString, newString, version, aliases, description, rfl⟩ := hsends
        exact StoreCall.mutate.inj hm ▸ rfl
      | deleteFile =>
        obtain ⟨version, rfl⟩ := hsends
        exact StoreCall.mutate.inj hm ▸ rfl
    exact ⟨parts, grant, hpath ▸ hown.parses, hmay⟩

/-- **A request writes only where it may.** -/
theorem serve_issues (i : Invocation (McpRequest C)) :
    (serve i).Issues fun op : StoreOp => ∀ key, op.Writes key → i.call.MayChange key := by
  obtain ⟨j, g, hcomes, hserve⟩ := exists_comes i
  rw [hserve]
  refine Prog.Issues.mapOutcome ((j.call.issues j.store j.fuel).mono fun op hreaches key hwrites => ?_)
  cases op with
  | storage op =>
    cases hcomes with
    | refused failure =>
      obtain rfl : op = .get [] := hreaches
      exact hwrites.elim
    | sent t o cursor tools sends =>
      cases hcall : o.storeCall with
      | mutate m =>
        obtain ⟨parts, grant, hparse, hmay⟩ := sends.mayWrite hcall
        have hkey : key = m.path := by
          rw [hcall] at hreaches
          cases op with
          | put k data metadata => exact hreaches.elim
          | putIfVersion k data metadata expected => exact hwrites.symm.trans hreaches
          | deleteIfVersion k expected => exact hwrites.symm.trans hreaches
          | _ => exact hwrites.elim
        exact ⟨t, parts, grant, tools, hkey ▸ hparse, hmay⟩
      | readFile path =>
        rw [hcall] at hreaches
        obtain rfl : op = .get path := hreaches
        exact hwrites.elim
      | listPrefix pre cursor' =>
        rw [hcall] at hreaches
        obtain ⟨_, _, rfl⟩ := hreaches
        exact hwrites.elim
      | getMemoryIndex scopeMap =>
        rw [hcall] at hreaches
        obtain ⟨_, _, _, _, rfl⟩ := hreaches
        exact hwrites.elim
      | purge => cases o <;> cases hcall
      | invalidateIndex => cases o <;> cases hcall
  | _ => exact hwrites.elim

/-- **What requests change, they may change.** In any run of any requests, from any storage, an object at a
key that is not what it was is at a path that one of them may write: under an entity that its credentials
resolve to, by a role that its server's policy permits, outside the system area. -/
theorem served_changes {w : InMemoryStorage} (h : Pool.Run (inMemory lossy) serve (fun _ => True) w p) {key : Str}
    (hkey : p.world.get key ≠ w.get key) : ∃ th ∈ p.threads, th.call.call.MayChange key := by
  have hsat : ∀ i : Invocation (McpRequest C), (serve i).Sat (inMemory lossy)
      (fun _ op => ∀ key, op.Writes key → i.call.MayChange key) (fun _ _ => True) [] := fun i =>
    (serve_issues i).sat (fun _ _ ho => ho) fun _ _ _ => trivial
  let I : InMemoryStorage → Prop := fun v => ∀ k, v.get k ≠ w.get k → ∃ th ∈ p.threads, th.call.call.MayChange k
  have hstep : ∀ l t (e : Event StoreSig InMemoryStorage) l', p.log = l ++ (t, e) :: l' →
      (inMemory lossy).handles e.pre e.op e.ans e.post → I e.pre → I e.post := by
    intro l t e l' hl hh hpre k hk
    obtain ⟨th, ht, -, hwrites, -⟩ := h.guarantee hsat hl
    have hmem := List.mem_of_getElem? ht
    by_cases hsame : e.post.get k = e.pre.get k
    · exact hpre k (hsame ▸ hk)
    refine ⟨th, hmem, hwrites k ?_⟩
    rcases handles_cases hh with ⟨k', data, metadata, hwrite, hput⟩ | ⟨k', expected, hop, hremove⟩ | hpost
    · rw [hput, InMemoryStorage.get_putLocked] at hsame
      obtain rfl : k = k' := by_contra fun hne => hsame (if_neg hne)
      exact StoreOp.writes_of_write? hwrite
    · rw [hremove, InMemoryStorage.get_remove] at hsame
      obtain rfl : k = k' := by_contra fun hne => hsame (if_neg hne)
      rw [hop]
      rfl
    · exact absurd (congrArg (·.get k) hpost) hsame
  have hI : I w := fun k hk => absurd rfl hk
  exact (h.chain.keeps hI hstep).1 key hkey

end

/-! ## Two requests -/

/-- A server of the team. -/
def teamServer : McpServer Unit where
  resolver := sandboxResolver Unit teamMember
  policy := teamSession.policy
  source := teamSession.source
  source_ne := teamSession.source_ne

/-- A request of its member. -/
def memberRequest (c : ToolCall) : Invocation (McpRequest Unit) := ⟨.default, 2, teamServer, .ok (), c⟩

/-- A member's request is plain. -/
theorem memberRequest_plain (c : ToolCall) : (memberRequest c).call.Plain := by
  intro t ht
  obtain rfl := Except.ok.inj ht
  refine ⟨scalar_str _, fun scope grant hgrant => ?_⟩
  change teamMember.grants.get? scope = some grant at hgrant
  rw [teamMember, FinMap.get?_insert] at hgrant
  split at hgrant
  · cases hgrant
    exact scalar_str _
  · cases hgrant

/-- A member writes a plan, of which the response is lost, and loads the index while a request comes in whose
credentials cannot be read. -/
def planSchedule : List (Choice (Invocation (McpRequest Unit)) Reply) :=
  [.invoke (memberRequest (.mutate (.writeFile (.text (str "team")) (.text (str "notes")) (.text (str "plan"))
      (.text (str "go")) (.text (str "a plan")) (.items [.text (str "p")]) none))),
    .invoke (memberRequest .getMemoryIndex),
    .invoke ⟨.default, 2, teamServer, .error (str "KeyError"), .getMemoryIndex⟩,
    .act 0 ⟨noon, false⟩, .act 0 ⟨noon, false⟩, .act 0 ⟨noon, true⟩, .act 1 ⟨noon, false⟩, .act 0 ⟨noon, false⟩]

/-- The plan is there, its writer is told of a conflict, the index is answered, and the third request refused. -/
theorem served_conforms_plan : let _ := Interpreter.ascii
    ∃ p, Pool.exec Reply.answer serve planSchedule (Pool.init .empty) = some p ∧
      (List.range 3).map (fun t => (p.returned t).map fun r => r.toOption.map (·.isError)) =
        [some (some true), some (some false), some (some true)] ∧
      p.world.objects.keys = [str "team/t1/notes/plan.md"] ∧
      Kept 16384 p.world ∧ ∀ (t : Nat) th (r : Except Exc CallToolResult), p.threads[t]? = some th →
        th.prog.outcome? = some r → ∃ answer, r = .ok answer ∧ answer.Conforms th.call.call.call := by
  intro _
  have hends : ((Pool.exec Reply.answer serve planSchedule (Pool.init .empty)).any fun p =>
      (List.range 3).map (fun t => (p.returned t).map fun r => r.toOption.map (·.isError)) =
        [some (some true), some (some false), some (some true)] ∧
      p.world.objects.keys = [str "team/t1/notes/plan.md"]) = true := by
    decide +kernel
  obtain ⟨p, hp, h⟩ := (Option.any_eq_true _ _).mp hends
  obtain ⟨hanswers, hkeys⟩ := of_decide_eq_true h
  have hrun : Pool.Run (inMemory True) serve (fun _ => True) .empty p :=
    Pool.Run.exec Reply.answer Reply.handles_lossy (.init trivial) hp
  refine ⟨p, hp, hanswers, hkeys, served_conforms hrun fun th hth => ?_⟩
  rcases Pool.exec_calls Reply.answer hp hth with ⟨th', hth', -⟩ | hmem
  · cases hth'
  simp only [planSchedule, List.mem_cons, Choice.invoke.injEq, List.not_mem_nil, or_false, reduceCtorEq] at hmem
  rcases hmem with hcall | hcall | hcall
  · rw [hcall]
    exact ⟨Nat.le_refl _, memberRequest_plain _⟩
  · rw [hcall]
    exact ⟨Nat.le_refl _, memberRequest_plain _⟩
  · rw [hcall]
    exact ⟨Nat.le_refl _, nofun⟩

/-- A member deletes the team's file. -/
def deleteSchedule : List (Choice (Invocation (McpRequest Unit)) Reply) :=
  [.invoke (memberRequest (.mutate (.deleteFile (.text (str "team")) (.text (str "notes")) (.text (str "plan"))
    (.text (str "1"))))), .act 0 ⟨noon, false⟩, .act 0 ⟨noon, false⟩]

/-- A member deletes a file of the team. -/
theorem served_changes_delete : let _ := Interpreter.ascii
    let path := str "team/t1/notes/plan.md"
    let w := InMemoryStorage.single path []
    ∃ p, Pool.exec Reply.answer serve deleteSchedule (Pool.init w) = some p ∧ p.world.get path ≠ w.get path ∧
      ∃ th ∈ p.threads, th.call.call.MayChange path := by
  intro _ path w
  have hends : ((Pool.exec Reply.answer serve deleteSchedule (Pool.init w)).map fun p =>
      ((p.world.get path).isSome, (w.get path).isSome)) = some (false, true) := by decide +kernel
  obtain ⟨p, hp, hgone⟩ := Option.map_eq_some_iff.mp hends
  obtain ⟨hafter, hbefore⟩ := Prod.mk.inj hgone
  have hchanged : p.world.get path ≠ w.get path := by
    intro hsame
    rw [hsame, hbefore] at hafter
    cases hafter
  have hrun : Pool.Run (inMemory True) serve (fun _ => True) w p :=
    Pool.Run.exec Reply.answer Reply.handles_lossy (.init trivial) hp
  exact ⟨p, hp, hchanged, served_changes hrun hchanged⟩

end Wenchang
