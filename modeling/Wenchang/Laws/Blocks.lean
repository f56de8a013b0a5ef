import Wenchang.Core.MemoryIndex
import Wenchang.Interaction.Sequential

/-!
# Calls put together from blocks

A mutator reads its own file, counts its entity's files, reads the clock, and puts or deletes its own
file; each put and each delete comes with its invalidation. What holds of these blocks and composes
holds of the mutator, and likewise for the other calls. The programs are taken apart here once.
-/

namespace Wenchang

open Py Ordered Interaction

/-- One operation runs as the world answers it. -/
theorem runs_ask {W : Type} {handles : W → (o : StoreOp) → StoreSig.Ans o → W → Prop} {w w' : W}
    {o : StoreOp} {r : Except Exc o.Ans} :
    (ask o).Runs handles w r w' ↔ ∃ a, r = .ok a ∧ handles w o a w' := by
  unfold ask
  rw [Prog.runs_vis]
  constructor
  · rintro ⟨a, w₁, hh, hr⟩
    obtain ⟨rfl, rfl⟩ := Prog.runs_ret.mp hr
    exact ⟨a, rfl, hh⟩
  · rintro ⟨a, rfl, hh⟩
    exact ⟨a, w', hh, Prog.runs_ret.mpr ⟨rfl, rfl⟩⟩

variable [Interpreter]

/-- The blocks of a mutator of one path. -/
structure Blocks (s : MemoryStore) (path : Str) (D : (α : Type) → Store α → Prop) : Prop
    extends Prog.Composes D where
  get : D _ (storageGet path)
  cap : ∀ fuel, D _ (s.createCap fuel path)
  clock : D _ (ask .clock)
  put : ∀ data metadata expected, isValidPath path = true →
    D _ (s.putIfVersion path data metadata expected)
  delete : ∀ expected, isValidPath path = true → D _ (s.deleteIfVersion path expected)

section Mutators

variable {s : MemoryStore} {path : Str} {D : (α : Type) → Store α → Prop} {α : Type}

/-- What is raised at the end is built of the blocks. -/
theorem Blocks.raiseResult (h : Blocks s path D) (r : Except Exc Exc) :
    D α (MemoryStore.raiseResult r) := by
  cases r with
  | ok e => exact h.raise α e
  | error e => exact h.raise α e

/-- Decoding what was read and raising a conflict with it. -/
theorem Blocks.conflict (h : Blocks s path D) (obj : StoredObject) :
    D α (Prog.ofExcept (decodeUtf8 obj.data) >>= fun content =>
      .raise (.versionConflictError path content obj.version)) :=
  h.bind _ _ _ _ (h.ofExcept _) fun _ => h.raise _ _

/-- What a write reads is built of the blocks. -/
theorem Blocks.writeSources (h : Blocks s path D) (fuel : Nat) (metadata : FileMetadata)
    (expected : Option Str) (source : Str) :
    D _ (s.writeSources fuel path metadata expected source) := by
  unfold MemoryStore.writeSources
  cases expected with
  | none =>
    refine h.bind _ _ _ _ (h.cap fuel) fun limit => ?_
    cases limit with
    | none => exact h.ret _ _
    | some limit =>
      refine h.bind _ _ _ _ h.get fun obj => ?_
      cases obj with
      | none => exact h.raise _ _
      | some obj => exact h.raiseResult _
  | some expected =>
    refine h.bind _ _ _ _ h.get fun obj => ?_
    cases obj with
    | none => exact h.raise _ _
    | some obj =>
      dsimp only
      split
      · exact h.bind _ _ _ _ (h.ofExcept _) fun _ => h.conflict obj
      · exact h.bind _ _ _ _ (h.ofExcept _) fun _ => h.ret _ _

/-- So is what it commits. -/
theorem Blocks.commitWrite (h : Blocks s path D) (hpath : isValidPath path = true) (content : Str)
    (data : Bytes) (metadata : FileMetadata) (expected : Option Str) (sources : FinSet Str) :
    D _ (s.commitWrite path content data metadata expected sources) := by
  refine h.bind _ _ _ _ h.clock fun now => ?_
  refine h.bind _ _ _ _ (h.ofExcept _) fun stamped => ?_
  refine h.bind _ _ _ _ (h.ofExcept _) fun map => ?_
  refine h.bind _ _ _ _ (h.attempt _ _ (h.put _ _ _ hpath)) fun r => ?_
  split
  · exact h.ret _ _
  · refine h.bind _ _ _ _ h.get fun obj => ?_
    cases obj with
    | none => exact h.raise _ _
    | some obj => exact h.raiseResult _
  · exact h.raise _ _

/-- A write is built of the blocks. -/
theorem Blocks.writeFile (h : Blocks s path D) (fuel : Nat) (content : Str) (metadata : FileMetadata)
    (expected : Option Str) (source : Str) :
    D _ (s.writeFile fuel path content metadata expected source) := by
  refine h.raiseIf fun hpath => h.raiseIf fun _ => ?_
  refine h.bind _ _ _ _ (h.ofExcept _) fun data => h.raiseIf fun _ => ?_
  refine h.bind _ _ _ _ (h.writeSources fuel metadata expected source) fun sources => ?_
  exact h.commitWrite (Bool.eq_true_of_not_eq_false hpath) content data metadata expected sources

/-- The attempts of a replacement are built of the blocks. -/
theorem Blocks.replaceAttempts (h : Blocks s path D) (hpath : isValidPath path = true)
    (oldString newString expected source : Str) (aliases : Option (List Str))
    (description : Option Str) (attempts : Nat) (content version : Str) :
    D _ (s.replaceAttempts path oldString newString expected source aliases description attempts
      content version) := by
  induction attempts generalizing content version with
  | zero => exact h.raise _ _
  | succ attempts ih =>
    refine h.bind _ _ _ _ h.get fun obj => ?_
    cases obj with
    | none => exact h.raise _ _
    | some obj =>
      refine h.bind _ _ _ _ (h.ofExcept _) fun content => ?_
      refine h.bind _ _ _ _ (h.ofExcept _) fun stored => ?_
      dsimp only
      split
      · split
        · exact h.raise _ _
        · exact h.raise _ _
      · refine h.bind _ _ _ _ (h.ofExcept _) fun data => h.raiseIf fun _ => ?_
        refine h.bind _ _ _ _ h.clock fun now => ?_
        refine h.bind _ _ _ _ (h.ofExcept _) fun stamped => ?_
        refine h.bind _ _ _ _ (h.ofExcept _) fun map => ?_
        refine h.bind _ _ _ _ (h.attempt _ _ (h.put _ _ _ hpath)) fun r => ?_
        split
        · exact h.ret _ _
        · exact ih _ _
        · exact h.raise _ _

/-- A replacement is built of the blocks. -/
theorem Blocks.replaceFact (h : Blocks s path D) (oldString newString expected source : Str)
    (aliases : Option (List Str)) (description : Option Str) :
    D _ (s.replaceFact path oldString newString expected source aliases description) := by
  refine h.raiseIf fun hpath => h.raiseIf fun _ => ?_
  refine h.bind _ _ _ _ (h.ofExcept _) fun newDescription => ?_
  exact h.replaceAttempts (Bool.eq_true_of_not_eq_false hpath) _ _ _ _ _ _ _ _ _

/-- An append is built of the blocks. -/
theorem Blocks.appendLine (h : Blocks s path D) (line expected source : Str)
    (aliases : Option (List Str)) (description : Option Str) :
    D _ (s.appendLine path line expected source aliases description) := by
  refine h.raiseIf fun hpath => h.raiseIf fun _ => ?_
  refine h.bind _ _ _ _ (h.ofExcept _) fun newDescription => ?_
  refine h.bind _ _ _ _ h.get fun obj => ?_
  cases obj with
  | none => exact h.raise _ _
  | some obj =>
    refine h.bind _ _ _ _ (h.ofExcept _) fun content => h.raiseIf fun _ => ?_
    refine h.bind _ _ _ _ (h.ofExcept _) fun stored => ?_
    refine h.bind _ _ _ _ (h.ofExcept _) fun data => h.raiseIf fun _ => ?_
    refine h.bind _ _ _ _ h.clock fun now => ?_
    refine h.bind _ _ _ _ (h.ofExcept _) fun stamped => ?_
    refine h.bind _ _ _ _ (h.ofExcept _) fun map => ?_
    refine h.bind _ _ _ _ (h.attempt _ _ (h.put _ _ _ (Bool.eq_true_of_not_eq_false hpath))) fun r => ?_
    split
    · exact h.ret _ _
    · refine h.bind _ _ _ _ h.get fun cur => ?_
      cases cur with
      | none => exact h.raise _ _
      | some cur =>
        dsimp only
        split
        · exact h.ret _ _
        · exact h.conflict cur
    · exact h.raise _ _

/-- A delete is built of the blocks. -/
theorem Blocks.deleteFile (h : Blocks s path D) (expected : Str) :
    D _ (s.deleteFile path expected) := by
  refine h.raiseIf fun hpath => ?_
  refine h.bind _ _ _ _ h.get fun obj => ?_
  cases obj with
  | none => exact h.raise _ _
  | some obj =>
    dsimp only
    split
    · exact h.conflict obj
    · refine h.bind _ _ _ _ (h.attempt _ _ (h.delete _ (Bool.eq_true_of_not_eq_false hpath))) fun r => ?_
      split
      · exact h.ret _ _
      · refine h.bind _ _ _ _ h.get fun cur => ?_
        cases cur with
        | none => exact h.raise _ _
        | some cur => exact h.conflict cur
      · exact h.raise _ _

end Mutators

/-- **A mutator is put together from its blocks.** -/
theorem Blocks.mutate {s : MemoryStore} {D : (α : Type) → Store α → Prop} (m : Mutator)
    (h : Blocks s m.path D) (fuel : Nat) : D _ (m.body s fuel) := by
  cases m with
  | writeFile path content metadata expected source =>
    exact h.bind _ _ _ _ (h.writeFile fuel content metadata expected source) fun _ => h.ret _ _
  | replaceFact path oldString newString expected source aliases description =>
    exact h.bind _ _ _ _ (h.replaceFact _ _ _ _ _ _) fun _ => h.ret _ _
  | appendLine path line expected source aliases description =>
    exact h.bind _ _ _ _ (h.appendLine _ _ _ _ _) fun _ => h.ret _ _
  | deleteFile path expected =>
    exact h.bind _ _ _ _ (h.deleteFile expected) fun _ => h.ret _ _

/-! ## The other calls -/

/-- The blocks of the calls of a store with an index cache. -/
structure CallBlocks (s : MemoryStore) (cache : IndexCache) (D : (α : Type) → Store α → Prop) : Prop
    extends Prog.Composes D where
  uses : s.indexCache = some cache
  get : ∀ key, D _ (storageGet key)
  list : ∀ pre after limit, D _ (storageListPage pre after limit)
  clock : D _ (ask .clock)
  put : ∀ path data metadata expected, isValidPath path = true →
    D _ (s.putIfVersion path data metadata expected)
  delete : ∀ path expected, isValidPath path = true → D _ (s.deleteIfVersion path expected)
  cached : ∀ fuel scope entityId, isValidSegment scope = true → isValidSegment entityId = true →
    D _ (s.cachedEntityEntries fuel cache scope entityId)
  purge : ∀ fuel scope entityId maxPasses, isValidSegment scope = true →
    isValidSegment entityId = true → D _ (s.purge fuel scope entityId maxPasses)
  invalidate : ∀ scope entityId, isValidSegment scope = true → isValidSegment entityId = true →
    D _ (s.invalidateIndex scope entityId)

section Calls

variable {s : MemoryStore} {cache : IndexCache} {D : (α : Type) → Store α → Prop}

/-- Counting is built of the blocks of a call. -/
theorem CallBlocks.capLoop (h : CallBlocks s cache D) (pre : Str) (limit fuel count : Nat)
    (after : Option Str) : D _ (s.capLoop pre limit fuel count after) := by
  induction fuel generalizing count after with
  | zero => exact h.hang _
  | succ fuel ih =>
    unfold MemoryStore.capLoop
    split
    · exact h.ret _ _
    · refine h.bind _ _ _ _ (h.list _ _ _) fun objs => ?_
      dsimp only
      split
      · exact h.ret _ _
      · exact ih _ _

/-- The check of a create is built of the blocks of a call. -/
theorem CallBlocks.createCap (h : CallBlocks s cache D) (path : Str) (fuel : Nat) :
    D _ (s.createCap fuel path) := by
  refine h.bind _ _ _ _ (h.ofExcept _) fun parts => ?_
  split
  · exact h.ret _ _
  · split
    · exact h.ret _ _
    · refine h.bind _ _ _ _ (h.ofExcept _) fun pre => ?_
      exact h.bind _ _ _ _ (h.capLoop _ _ _ _ _) fun _ => h.ret _ _

/-- The blocks of a call hold those of a mutator. -/
theorem CallBlocks.blocks (h : CallBlocks s cache D) (path : Str) : Blocks s path D where
  toComposes := h.toComposes
  get := h.get path
  cap := h.createCap path
  clock := h.clock
  put := h.put path
  delete := h.delete path

/-- A read is built of the blocks of a call. -/
theorem CallBlocks.readFile (h : CallBlocks s cache D) (path : Str) :
    D _ (MemoryStore.readFile path) := by
  refine h.raiseIf fun _ => h.bind _ _ _ _ (h.get path) fun obj => ?_
  cases obj with
  | none => exact h.raise _ _
  | some obj =>
    refine h.bind _ _ _ _ (h.ofExcept _) fun content => ?_
    exact h.bind _ _ _ _ (h.ofExcept _) fun metadata => h.ret _ _

/-- A page is built of the blocks of a call. -/
theorem CallBlocks.listPrefix (h : CallBlocks s cache D) (pre : Str) (cursor : Option Str) :
    D _ (s.listPrefix pre cursor) := by
  refine h.raiseIf fun _ => h.bind _ _ _ _ (h.ofExcept _) fun after => ?_
  exact h.bind _ _ _ _ (h.list _ _ _) fun objs => h.ofExcept _

/-- Segments that `build_prefix` takes are valid. -/
theorem valid_of_buildPrefix {scope entityId pre : Str}
    (h : buildPrefix scope (some entityId) none = .ok pre) :
    isValidSegment scope = true ∧ isValidSegment entityId = true := by
  have hvalid := (buildPrefix_eq_ok.mp h).2.1
  exact ⟨hvalid scope (by simp), hvalid entityId (by simp)⟩

/-- A cached read is built of the blocks of a call. -/
theorem CallBlocks.cachedEntityEntries (h : CallBlocks s cache D) (fuel : Nat) (scope entityId : Str) :
    D _ (s.cachedEntityEntries fuel cache scope entityId) := by
  cases hpre : buildPrefix scope (some entityId) none with
  | error e =>
    unfold MemoryStore.cachedEntityEntries orValueError
    rw [hpre]
    exact h.raise _ _
  | ok pre =>
    obtain ⟨hscope, hentity⟩ := valid_of_buildPrefix hpre
    exact h.cached fuel scope entityId hscope hentity

/-- Collecting is built of the blocks of a call. -/
theorem CallBlocks.collect (h : CallBlocks s cache D) (fuel : Nat) (pairs : List (Str × Str)) :
    D _ (s.collect fuel pairs) := by
  induction pairs with
  | nil => exact h.ret _ _
  | cons pair rest ih =>
    obtain ⟨scope, entityId⟩ := pair
    unfold MemoryStore.collect
    rw [h.uses]
    refine h.bind _ _ _ _ (h.cachedEntityEntries fuel scope entityId) fun entries => ?_
    exact h.bind _ _ _ _ ih fun _ => h.ret _ _

/-- An index is built of the blocks of a call. -/
theorem CallBlocks.getMemoryIndex (h : CallBlocks s cache D) (fuel : Nat)
    (scopeMap : List (Str × Str)) : D _ (s.getMemoryIndex fuel scopeMap) := by
  refine h.bind _ _ _ _ (h.ofExcept _) fun _ => ?_
  exact h.bind _ _ _ _ (h.collect fuel _) fun _ => h.ofExcept _

/-- What is accepted as an entity is two valid segments. -/
theorem checkEntitySegments_eq_ok {scope entityId : Str}
    (h : MemoryStore.checkEntitySegments scope entityId = .ok ()) :
    isValidSegment scope = true ∧ isValidSegment entityId = true := by
  unfold MemoryStore.checkEntitySegments at h
  split at h
  · cases h
  next hscope =>
    split at h
    · cases h
    next hentity =>
      exact ⟨Bool.eq_true_of_not_eq_false hscope, Bool.eq_true_of_not_eq_false hentity⟩

/-- A call that first checks its segments. -/
theorem CallBlocks.checked (h : CallBlocks s cache D) {α : Type} {scope entityId : Str}
    {p : Store α} {f : Unit → Store α}
    (heq : p = Prog.ofExcept (MemoryStore.checkEntitySegments scope entityId) >>= f)
    (hp : isValidSegment scope = true → isValidSegment entityId = true → D α p) : D α p := by
  cases hcheck : MemoryStore.checkEntitySegments scope entityId with
  | error e =>
    rw [heq, hcheck]
    exact h.raise _ _
  | ok u =>
    obtain ⟨hscope, hentity⟩ := checkEntitySegments_eq_ok hcheck
    exact hp hscope hentity

/-- **A call is put together from its blocks.** -/
theorem CallBlocks.call (h : CallBlocks s cache D) (c : StoreCall) (fuel : Nat) :
    D _ (c.body s fuel) := by
  cases c with
  | mutate m => exact h.bind _ _ _ _ ((h.blocks m.path).mutate m fuel) fun _ => h.ret _ _
  | readFile path => exact h.bind _ _ _ _ (h.readFile path) fun _ => h.ret _ _
  | listPrefix pre cursor => exact h.bind _ _ _ _ (h.listPrefix pre cursor) fun _ => h.ret _ _
  | getMemoryIndex scopeMap =>
    exact h.bind _ _ _ _ (h.getMemoryIndex fuel scopeMap) fun _ => h.ret _ _
  | purge scope entityId maxPasses =>
    have hpurge := h.checked rfl (h.purge fuel scope entityId maxPasses)
    exact h.bind _ _ _ _ hpurge fun _ => h.ret _ _
  | invalidateIndex scope entityId =>
    have hinvalidate := h.checked rfl (h.invalidate scope entityId)
    exact h.bind _ _ _ _ hinvalidate fun _ => h.ret _ _

end Calls

end Wenchang
