import Wenchang.Laws.Blocks
import Wenchang.Laws.Rules

/-!
# What a call can reach

`StoreCall.Reaches` bounds the operations a call can issue, whatever it is answered: a mutator reads
and steps at its own path and lists its own entity, a listing lists its own prefix, the index lists
the entities of its scope map, and only a purge deletes what a listing told it. `StoreCall.issues`
proves the bound for every method, so a law that only needs it unfolds no method again.
-/

namespace Wenchang

open Py Ordered Interaction

/-- The prefix of an entity, as `build_prefix` writes it. -/
def entityPrefix (scope entityId : Str) : Str := joinSegments [scope, entityId]

/-- The operations a mutator can issue. -/
def Mutator.Reaches [Interpreter] (m : Mutator) : StoreOp → Prop
  | .storage (.get key) => key = m.path
  | .storage (.put _ _ _) => False
  | .storage (.putIfVersion key _ _ _) => key = m.path
  | .storage (.deleteIfVersion key _) => key = m.path
  | .storage (.listPage pre _ _) =>
    ∃ parts, parsePath m.path = .ok parts ∧ pre = entityPrefix parts.scope parts.entityId
  | _ => True

/-- The operations a call can issue. -/
def StoreCall.Reaches [Interpreter] : StoreCall → StoreOp → Prop
  | .mutate m, o => m.Reaches o
  | .readFile path, .storage o => o = .get path
  | .listPrefix pre _, .storage o => ∃ startAfter limit, o = .listPage pre startAfter limit
  | .getMemoryIndex scopeMap, .storage o => ∃ pair ∈ scopeMap, ∃ startAfter limit,
    o = .listPage (entityPrefix pair.1 pair.2) startAfter limit
  | .purge scope entityId _, .storage (.listPage pre _ _) => pre = entityPrefix scope entityId
  | .purge _ _ _, .storage (.deleteIfVersion _ _) => True
  | .purge _ _ _, .storage _ => False
  | .invalidateIndex _ _, .storage _ => False
  | _, _ => True

section

variable {P : StoreOp → Prop}

/-- One operation asks for itself. -/
theorem issues_ask {o : StoreOp} (hP : P o) : (ask o).Issues P := ⟨hP, fun _ => trivial⟩

/-- A refused argument asks for nothing. -/
theorem issues_orValueError {α : Type} (r : Except Str α) : (orValueError r).Issues P :=
  Prog.issues_ofExcept _

/-- A get of the cache asks for that get, whatever it answers. -/
theorem issues_cacheGet {key : Str} (hP : P (.cacheGet key)) : (cacheGet key).Issues P := by
  refine (issues_ask hP).bind fun a => ?_
  split
  · exact trivial
  · exact trivial

/-- A set of the cache asks for that set, whatever it answers. -/
theorem issues_cacheSet {key value : Str} (hP : P (.cacheSet key value)) :
    (cacheSet key value).Issues P :=
  (issues_ask hP).bind fun _ => trivial

/-- What is raised at the end asks for nothing. -/
theorem issues_raiseResult {α : Type} (r : Except Exc Exc) :
    (MemoryStore.raiseResult r : Store α).Issues P := by
  cases r
  · exact trivial
  · exact trivial

/-- A caught part and what follows it ask for what the two ask for. -/
theorem issues_attempt_bind {α β : Type} {p : Store α} {f : Except Exc α → Store β}
    (hp : p.Issues P) (hf : ∀ r, (f r).Issues P) : (Prog.attempt p >>= f).Issues P :=
  hp.attempt.bind hf

/-- Sorting a scope map keeps its pairs. -/
theorem mem_sortedPairs {scopeMap : List (Str × Str)} {pair : Str × Str} :
    pair ∈ sortedPairs scopeMap ↔ pair ∈ scopeMap :=
  (List.perm_insertionSort _ scopeMap).mem_iff

/-- A page of a purge asks for deletes. -/
theorem issues_purgePage (hdelete : ∀ key v, P (.storage (.deleteIfVersion key v)))
    (page : List ListedObject) (deleted : Nat) : (MemoryStore.purgePage page deleted).Issues P := by
  induction page generalizing deleted with
  | nil => exact trivial
  | cons obj rest ih =>
    apply (issues_ask (hdelete _ _)).bind
    intro r
    split
    · exact ih _
    · exact ih _
    · exact trivial

variable (s : MemoryStore)

/-- A pass of a purge asks for pages of its prefix and for deletes. -/
theorem issues_purgePass {pre : Str} (hP : ∀ a n, P (.storage (.listPage pre a n)))
    (hdelete : ∀ key v, P (.storage (.deleteIfVersion key v))) (fuel : Nat)
    (startAfter : Option Str) (found : Bool) (deleted : Nat) :
    (s.purgePass pre fuel startAfter found deleted).Issues P := by
  induction fuel generalizing startAfter found deleted with
  | zero => exact trivial
  | succ fuel ih =>
    apply (issues_storageListPage (hP _ _)).bind
    intro page
    apply (issues_purgePage hdelete page deleted).bind
    intro deleted
    dsimp only
    split
    · exact trivial
    · exact ih _ _ _

/-- So do all its passes. -/
theorem issues_purgePasses {pre : Str} (hP : ∀ a n, P (.storage (.listPage pre a n)))
    (hdelete : ∀ key v, P (.storage (.deleteIfVersion key v))) (fuel : Nat) (scope entityId : Str)
    (maxPasses passes deleted : Nat) :
    (s.purgePasses fuel pre scope entityId maxPasses passes deleted).Issues P := by
  induction passes generalizing deleted with
  | zero =>
    apply (issues_storageListPage (hP _ _)).bind
    intro left
    split
    · exact trivial
    · exact trivial
  | succ passes ih =>
    apply (issues_purgePass s hP hdelete fuel none false deleted).bind
    intro pass
    split
    · exact trivial
    · exact ih _

variable [Interpreter]

/-- The prefix that is built for an entity is the entity's. -/
theorem entityPrefix_of_buildPrefix {scope entityId pre : Str}
    (h : buildPrefix scope (some entityId) none = .ok pre) : pre = entityPrefix scope entityId :=
  (buildPrefix_eq_ok.mp h).2.2

/-! ## Invalidation -/

/-- An invalidation asks for nothing of storage. -/
theorem issues_invalidatePath (hP : ∀ o : StoreOp, o.Quiet → P o) (path : Str) (tombstone : Bool) :
    (s.invalidatePath path tombstone).Issues P := by
  unfold MemoryStore.invalidatePath
  cases s.indexCache with
  | none => exact trivial
  | some cache =>
    refine (issues_orValueError _).bind fun parts => ?_
    refine (issues_ask (o := .uuid4) (hP _ trivial)).bind fun token => ?_
    refine (issues_cacheSet (hP _ trivial)).bind fun _ => ?_
    split
    · exact issues_cacheSet (hP _ trivial)
    · exact trivial

/-- A conditional put asks for the put and for an invalidation. -/
theorem issues_putIfVersion {path : Str} {data : Bytes} {metadata : Metadata} {expected : Option Str}
    (hput : P (.storage (.putIfVersion path data metadata expected)))
    (hP : ∀ o : StoreOp, o.Quiet → P o) : (s.putIfVersion path data metadata expected).Issues P := by
  apply (issues_ask hput).bind
  intro result
  exact (issues_invalidatePath s hP path false).bind fun _ => Prog.issues_ofExcept _

/-- A conditional delete asks for the delete and for an invalidation. -/
theorem issues_deleteIfVersion {path expected : Str}
    (hdelete : P (.storage (.deleteIfVersion path expected))) (hP : ∀ o : StoreOp, o.Quiet → P o) :
    (s.deleteIfVersion path expected).Issues P := by
  apply (issues_ask hdelete).bind
  intro result
  exact (issues_invalidatePath s hP path true).bind fun _ => Prog.issues_ofExcept _

/-- An invalidation that is called asks for nothing of storage. -/
theorem issues_invalidateIndex (hP : ∀ o : StoreOp, o.Quiet → P o) (scope entityId : Str) :
    (s.invalidateIndex scope entityId).Issues P := by
  apply (Prog.issues_ofExcept _).bind
  intro _
  cases s.indexCache with
  | none => exact trivial
  | some cache =>
    apply (issues_ask (o := .uuid4) (hP _ trivial)).bind
    intro token
    have hset : ∀ key value, P (.cacheSet key value) := fun _ _ => hP _ trivial
    refine (issues_ask (hset _ _)).bind fun r => ?_
    apply (Prog.issues_ofExcept r).bind
    intro _
    exact (issues_ask (hset _ _)).bind fun r => Prog.issues_ofExcept r

/-! ## Listings -/

/-- A page asks for one page of its prefix. -/
theorem issues_listPrefix {pre : Str} (hP : ∀ a n, P (.storage (.listPage pre a n)))
    (cursor : Option Str) : (s.listPrefix pre cursor).Issues P := by
  apply (Prog.issues_raiseIf _ _).bind
  intro _
  apply (Prog.issues_ofExcept _).bind
  intro startAfter
  exact (issues_storageListPage (hP _ _)).bind fun _ => Prog.issues_ofExcept _

/-- A drain asks for pages of its prefix. -/
theorem issues_drain {pre : Str} (hP : ∀ a n, P (.storage (.listPage pre a n))) (fuel : Nat)
    (cursor : Option Str) : (s.drain pre fuel cursor).Issues P := by
  induction fuel generalizing cursor with
  | zero => exact trivial
  | succ fuel ih =>
    apply (issues_listPrefix s hP cursor).bind
    intro page
    cases page.nextCursor with
    | none => exact trivial
    | some next => exact (ih (some next)).bind fun _ => trivial

/-- A refill asks for pages of the entity and for the cache. -/
theorem issues_refill {pre : Str} (hP : ∀ a n, P (.storage (.listPage pre a n)))
    (hquiet : ∀ o : StoreOp, o.Quiet → P o) (fuel : Nat) (cache : IndexCache)
    (scope entityId token : Str) : (s.refill fuel cache scope entityId pre token).Issues P :=
  (issues_drain s hP fuel none).bind fun _ =>
    (issues_cacheSet (hquiet _ trivial)).bind fun _ => trivial

/-- A cached read asks for pages of the entity and for the cache. -/
theorem issues_cachedEntityEntries {scope entityId : Str}
    (hP : ∀ a n, P (.storage (.listPage (entityPrefix scope entityId) a n)))
    (hquiet : ∀ o : StoreOp, o.Quiet → P o) (fuel : Nat) (cache : IndexCache) :
    (s.cachedEntityEntries fuel cache scope entityId).Issues P := by
  unfold MemoryStore.cachedEntityEntries orValueError
  cases hpre : buildPrefix scope (some entityId) none with
  | error e => exact trivial
  | ok pre =>
    have hprefix : pre = entityPrefix scope entityId := entityPrefix_of_buildPrefix hpre
    subst hprefix
    apply (issues_cacheGet (hquiet _ trivial)).bind
    intro token
    cases token with
    | none =>
      apply (issues_ask (o := .uuid4) (hquiet _ trivial)).bind
      intro token
      exact (issues_cacheSet (hquiet _ trivial)).bind fun _ =>
        issues_refill s hP hquiet fuel cache scope entityId token
    | some token =>
      apply (issues_cacheGet (hquiet _ trivial)).bind
      intro raw
      split
      · exact trivial
      · exact issues_refill s hP hquiet fuel cache scope entityId token

/-- Collecting asks for pages of the mapped entities and for the cache. -/
theorem issues_collect {pairs : List (Str × Str)}
    (hP : ∀ pair ∈ pairs, ∀ a n, P (.storage (.listPage (entityPrefix pair.1 pair.2) a n)))
    (hquiet : ∀ o : StoreOp, o.Quiet → P o) (fuel : Nat) : (s.collect fuel pairs).Issues P := by
  induction pairs with
  | nil => exact trivial
  | cons pair rest ih =>
    obtain ⟨scope, entityId⟩ := pair
    have hentity := hP (scope, entityId) List.mem_cons_self
    have hrest := (ih fun q hq => hP q (List.mem_cons_of_mem _ hq))
    have hthen : ∀ entries : List FileEntry,
        (do
          let collected ← s.collect fuel rest
          return entries ++ collected : Store (List FileEntry)).Issues P :=
      fun entries => hrest.bind fun _ => trivial
    unfold MemoryStore.collect
    cases s.indexCache with
    | some cache => exact (issues_cachedEntityEntries s hentity hquiet fuel cache).bind hthen
    | none =>
      unfold orValueError
      cases hpre : buildPrefix scope (some entityId) none with
      | error e => exact trivial
      | ok pre =>
        have hprefix : pre = entityPrefix scope entityId := entityPrefix_of_buildPrefix hpre
        subst hprefix
        exact (issues_drain s hentity fuel none).bind hthen

/-- **An index asks for pages of the mapped entities** and for the cache. -/
theorem issues_getMemoryIndex {scopeMap : List (Str × Str)}
    (hP : ∀ pair ∈ scopeMap, ∀ a n, P (.storage (.listPage (entityPrefix pair.1 pair.2) a n)))
    (hquiet : ∀ o : StoreOp, o.Quiet → P o) (fuel : Nat) :
    (s.getMemoryIndex fuel scopeMap).Issues P := by
  apply (Prog.issues_ofExcept _).bind
  intro _
  have hsorted : ∀ pair ∈ sortedPairs scopeMap, ∀ a n,
      P (.storage (.listPage (entityPrefix pair.1 pair.2) a n)) :=
    fun pair hpair => hP pair (mem_sortedPairs.mp hpair)
  exact (issues_collect s hsorted hquiet fuel).bind fun _ => Prog.issues_ofExcept _

/-! ## Purge -/

/-- **A purge asks for pages of its entity**, for deletes and for the cache. -/
theorem issues_purge {scope entityId : Str}
    (hP : ∀ a n, P (.storage (.listPage (entityPrefix scope entityId) a n)))
    (hdelete : ∀ key v, P (.storage (.deleteIfVersion key v)))
    (hquiet : ∀ o : StoreOp, o.Quiet → P o) (fuel : Nat) (maxPasses : Int) :
    (s.purge fuel scope entityId maxPasses).Issues P := by
  have hinvalidate := issues_invalidateIndex s hquiet scope entityId
  apply (Prog.issues_ofExcept _).bind
  intro _
  apply (Prog.issues_raiseIf _ _).bind
  intro _
  unfold orValueError
  cases hpre : buildPrefix scope (some entityId) none with
  | error e => exact trivial
  | ok pre =>
    have hprefix : pre = entityPrefix scope entityId := entityPrefix_of_buildPrefix hpre
    subst hprefix
    refine issues_attempt_bind (issues_purgePasses s hP hdelete fuel _ _ _ _ _) fun r => ?_
    cases r with
    | error e => exact issues_attempt_bind hinvalidate fun _ => trivial
    | ok deleted => exact hinvalidate.bind fun _ => trivial

/-! ## Files -/

/-- A read asks for one get. -/
theorem issues_readFile {path : Str} (hP : P (.storage (.get path))) :
    (MemoryStore.readFile path).Issues P := by
  apply (Prog.issues_raiseIf _ _).bind
  intro _
  apply (issues_storageGet hP).bind
  intro obj
  cases obj with
  | none => exact trivial
  | some obj =>
    exact (Prog.issues_ofExcept _).bind fun _ => (Prog.issues_ofExcept _).bind fun _ => trivial

end

section

variable [Interpreter] (s : MemoryStore) (m : Mutator)

/-- Every mutator may ask the cache. -/
theorem reaches_of_quiet (o : StoreOp) (h : o.Quiet) : m.Reaches o := by
  cases o with
  | storage o => exact absurd h not_false
  | _ => exact trivial

/-- The blocks of a mutator ask for what it may reach. -/
theorem Mutator.blocks : Blocks s m.path fun _ p => p.Issues m.Reaches where
  toComposes := Prog.composes_issues _
  get := issues_storageGet rfl
  cap := issues_createCap s fun parts hparts _ _ => ⟨parts, hparts, rfl⟩
  clock := issues_ask trivial
  put _ _ _ _ := issues_putIfVersion s rfl (reaches_of_quiet m)
  delete _ _ := issues_deleteIfVersion s rfl (reaches_of_quiet m)

/-- **A mutator asks for what it may reach**: its own path, pages of the entity, and the cache. -/
theorem Mutator.issues (fuel : Nat) : (m.body s fuel).Issues m.Reaches := (m.blocks s).mutate m fuel

/-- **What a call can reach.** -/
theorem StoreCall.issues (c : StoreCall) (fuel : Nat) : (c.body s fuel).Issues c.Reaches := by
  have hquiet : ∀ o : StoreOp, o.Quiet → c.Reaches o := by
    intro o ho
    cases o with
    | storage o => exact absurd ho not_false
    | _ => cases c <;> exact trivial
  cases c with
  | mutate m => exact (m.issues s fuel).bind fun _ => trivial
  | readFile path =>
    have hread : (MemoryStore.readFile path).Issues (StoreCall.readFile path).Reaches :=
      issues_readFile rfl
    exact hread.bind fun _ => trivial
  | listPrefix pre cursor =>
    have hlist : (s.listPrefix pre cursor).Issues (StoreCall.listPrefix pre cursor).Reaches :=
      issues_listPrefix s (fun a n => ⟨a, n, rfl⟩) cursor
    exact hlist.bind fun _ => trivial
  | getMemoryIndex scopeMap =>
    have hindex : (s.getMemoryIndex fuel scopeMap).Issues
        (StoreCall.getMemoryIndex scopeMap).Reaches :=
      issues_getMemoryIndex s (fun pair hpair a n => ⟨pair, hpair, a, n, rfl⟩) hquiet fuel
    exact hindex.bind fun _ => trivial
  | purge scope entityId maxPasses =>
    have hpurge : (s.purge fuel scope entityId maxPasses).Issues
        (StoreCall.purge scope entityId maxPasses).Reaches :=
      issues_purge s (fun _ _ => rfl) (fun _ _ => trivial) hquiet fuel maxPasses
    exact hpurge.bind fun _ => trivial
  | invalidateIndex scope entityId =>
    exact (issues_invalidateIndex s hquiet scope entityId).bind fun _ => trivial

end

end Wenchang
