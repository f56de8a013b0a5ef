import Wenchang.Interaction.Alone
import Wenchang.Laws.Reach

/-!
# Mutators and the cache

A mutator uses the index cache only to invalidate it, and looks at no answer. So it does what the same
store without a cache does, whatever the cache makes of it.
-/

namespace Wenchang

open Py Ordered Interaction

/-- The same store without an index cache. -/
def MemoryStore.cacheless (s : MemoryStore) : MemoryStore := { s with indexCache := none }

/-- `q` is `p` without its cache operations. -/
abbrev SkipsCache {α : Type} (p q : Store α) : Prop := Prog.Skips StoreOp.OfCache p q

section

variable {α β : Type}

/-- Storage is asked alike. -/
theorem skipsCache_storage (o : StorageOp) : SkipsCache (ask (.storage o)) (ask (.storage o)) :=
  .vis not_false fun a => .ret a

/-- The clock is read alike. -/
theorem skipsCache_clock : SkipsCache (ask .clock) (ask .clock) := .vis not_false fun a => .ret a

/-- A get is made alike. -/
theorem skipsCache_storageGet (key : Str) : SkipsCache (storageGet key) (storageGet key) :=
  (issues_storageGet not_false).skips

/-- A result at hand is the same. -/
theorem skipsCache_ofExcept (r : Except Exc α) :
    SkipsCache (Prog.ofExcept r) (Prog.ofExcept r) := (Prog.issues_ofExcept r).skips

/-- What is raised at the end is the same. -/
theorem skipsCache_raiseResult (r : Except Exc Exc) :
    SkipsCache (MemoryStore.raiseResult r : Store α) (MemoryStore.raiseResult r) :=
  (issues_raiseResult r).skips

/-- A check in front of both programs. -/
theorem skipsCache_raiseIf {c : Prop} [Decidable c] {e : Exc} {f g : Unit → Store β}
    (h : ¬ c → SkipsCache (f ()) (g ())) :
    SkipsCache (Prog.raiseIf c e >>= f) (Prog.raiseIf c e >>= g) := by
  by_cases hc : c
  · rw [Prog.raiseIf_pos hc]
    exact .raise e
  · rw [Prog.raiseIf_neg hc]
    exact h hc

/-- A get returns what is stored. -/
@[simp] theorem run_storageGet (now : DateTime) (st : InMemoryStorage) (key : Str) :
    (storageGet key).run (answerAt now) st = (some (.ok (st.get key)), st) := rfl

/-- The clock returns its reading. -/
theorem run_clock (now : DateTime) (st : InMemoryStorage) :
    (ask .clock).run (answerAt now) st = (some (.ok now), st) := rfl

/-- Setting the cache is all that a store without one leaves out. -/
theorem skipsCache_cacheSet (key value : Str) : SkipsCache (cacheSet key value) (.ret ()) :=
  .skip trivial fun _ => .ret ()

end

variable [Interpreter] (s : MemoryStore)

/-- An invalidation leaves no trace outside the cache. -/
theorem skipsCache_invalidatePath {path : Str} (hpath : isValidPath path = true) (tombstone : Bool) :
    SkipsCache (s.invalidatePath path tombstone) (.ret ()) := by
  unfold MemoryStore.invalidatePath
  cases s.indexCache with
  | none => exact .ret ()
  | some cache =>
    obtain ⟨p, hp, rfl⟩ := exists_parts hpath
    simp only [orValueError, parsePath_path hp, Except.mapError, Prog.ofExcept_ok, Prog.ret_bind]
    refine .skip trivial fun token => ?_
    have htoken := skipsCache_cacheSet (tokenKey cache p.scope p.entityId) token
    refine htoken.bind (g := fun _ => .ret ()) fun _ => ?_
    cases tombstone with
    | false => exact .ret ()
    | true => exact skipsCache_cacheSet _ _

/-- A conditional put without its invalidation. -/
theorem skipsCache_putIfVersion {path : Str} (hpath : isValidPath path = true) (data : Bytes)
    (metadata : Metadata) (expected : Option Str) :
    SkipsCache (s.putIfVersion path data metadata expected)
      (s.cacheless.putIfVersion path data metadata expected) :=
  (skipsCache_storage _).bind fun result =>
    (skipsCache_invalidatePath s hpath false).bind fun _ => skipsCache_ofExcept result

/-- A conditional delete without its invalidation. -/
theorem skipsCache_deleteIfVersion {path : Str} (hpath : isValidPath path = true) (expected : Str) :
    SkipsCache (s.deleteIfVersion path expected) (s.cacheless.deleteIfVersion path expected) :=
  (skipsCache_storage _).bind fun result =>
    (skipsCache_invalidatePath s hpath true).bind fun _ => skipsCache_ofExcept result

/-- Counting asks no cache. -/
theorem capLoop_cacheless (pre : Str) (limit fuel count : Nat) (startAfter : Option Str) :
    s.cacheless.capLoop pre limit fuel count startAfter = s.capLoop pre limit fuel count startAfter := by
  induction fuel generalizing count startAfter with
  | zero => rfl
  | succ fuel ih =>
    unfold MemoryStore.capLoop
    simp only [ih]
    rfl

/-- What a write reads asks no cache. -/
theorem writeSources_cacheless (fuel : Nat) (path : Str) (metadata : FileMetadata)
    (expected : Option Str) (source : Str) :
    s.cacheless.writeSources fuel path metadata expected source =
      s.writeSources fuel path metadata expected source := by
  unfold MemoryStore.writeSources MemoryStore.createCap MemoryStore.atFileCap
  simp only [capLoop_cacheless]
  rfl

/-- So it is read alike. -/
theorem skipsCache_writeSources (fuel : Nat) (path : Str) (metadata : FileMetadata)
    (expected : Option Str) (source : Str) :
    SkipsCache (s.writeSources fuel path metadata expected source)
      (s.cacheless.writeSources fuel path metadata expected source) := by
  rw [writeSources_cacheless]
  refine Prog.Issues.skips ?_
  unfold MemoryStore.writeSources
  cases expected with
  | none =>
    refine (issues_createCap s (fun _ _ _ _ => not_false) fuel).bind fun limit => ?_
    cases limit with
    | none => exact trivial
    | some limit =>
      refine (issues_storageGet not_false).bind fun obj => ?_
      cases obj with
      | none => exact trivial
      | some obj => exact issues_raiseResult _
  | some expected =>
    refine (issues_storageGet not_false).bind fun obj => ?_
    cases obj with
    | none => exact trivial
    | some obj =>
      dsimp only
      split
      · exact (Prog.issues_ofExcept _).bind fun _ => (Prog.issues_ofExcept _).bind fun _ => trivial
      · exact (Prog.issues_ofExcept _).bind fun _ => trivial

/-- A write without the cache. -/
theorem skipsCache_writeFile (fuel : Nat) (path content : Str) (metadata : FileMetadata)
    (expected : Option Str) (source : Str) :
    SkipsCache (s.writeFile fuel path content metadata expected source)
      (s.cacheless.writeFile fuel path content metadata expected source) := by
  refine skipsCache_raiseIf fun hpath => skipsCache_raiseIf fun _ => ?_
  refine (skipsCache_ofExcept _).bind fun data => skipsCache_raiseIf fun _ => ?_
  refine (skipsCache_writeSources s fuel path metadata expected source).bind fun sources => ?_
  refine skipsCache_clock.bind fun now => ?_
  refine (skipsCache_ofExcept _).bind fun stamped => (skipsCache_ofExcept _).bind fun map => ?_
  have hput := skipsCache_putIfVersion s (Bool.eq_true_of_not_eq_false hpath) data map expected
  refine hput.attempt.bind fun result => ?_
  split
  · exact .ret _
  · refine (skipsCache_storageGet path).bind fun obj => ?_
    cases obj with
    | none => exact .raise _
    | some obj => exact skipsCache_raiseResult _
  · exact .raise _

/-- The attempts of a replacement without the cache. -/
theorem skipsCache_replaceAttempts {path : Str} (hpath : isValidPath path = true)
    (oldString newString expected source : Str) (aliases : Option (List Str))
    (description : Option Str) (attempts : Nat) (content version : Str) :
    SkipsCache
      (s.replaceAttempts path oldString newString expected source aliases description attempts content
        version)
      (s.cacheless.replaceAttempts path oldString newString expected source aliases description attempts
        content version) := by
  induction attempts generalizing content version with
  | zero => exact .raise _
  | succ attempts ih =>
    refine (skipsCache_storageGet path).bind fun obj => ?_
    cases obj with
    | none => exact .raise _
    | some obj =>
      refine (skipsCache_ofExcept _).bind fun content => (skipsCache_ofExcept _).bind fun stored => ?_
      dsimp only
      split
      · split
        · exact .raise _
        · exact .raise _
      · refine (skipsCache_ofExcept _).bind fun data => skipsCache_raiseIf fun _ => ?_
        refine skipsCache_clock.bind fun now => ?_
        refine (skipsCache_ofExcept _).bind fun stamped => (skipsCache_ofExcept _).bind fun map => ?_
        refine (skipsCache_putIfVersion s hpath data map _).attempt.bind fun result => ?_
        split
        · exact .ret _
        · exact ih _ _
        · exact .raise _

/-- A replacement without the cache. -/
theorem skipsCache_replaceFact (path oldString newString expected source : Str)
    (aliases : Option (List Str)) (description : Option Str) :
    SkipsCache (s.replaceFact path oldString newString expected source aliases description)
      (s.cacheless.replaceFact path oldString newString expected source aliases description) := by
  refine skipsCache_raiseIf fun hpath => skipsCache_raiseIf fun _ => ?_
  refine (skipsCache_ofExcept _).bind fun newDescription => ?_
  exact skipsCache_replaceAttempts s (Bool.eq_true_of_not_eq_false hpath) _ _ _ _ _ _ _ _ _

/-- An append without the cache. -/
theorem skipsCache_appendLine (path line expected source : Str) (aliases : Option (List Str))
    (description : Option Str) :
    SkipsCache (s.appendLine path line expected source aliases description)
      (s.cacheless.appendLine path line expected source aliases description) := by
  refine skipsCache_raiseIf fun hpath => skipsCache_raiseIf fun _ => ?_
  refine (skipsCache_ofExcept _).bind fun newDescription => ?_
  refine (skipsCache_storageGet path).bind fun obj => ?_
  cases obj with
  | none => exact .raise _
  | some obj =>
    refine (skipsCache_ofExcept _).bind fun content => skipsCache_raiseIf fun _ => ?_
    refine (skipsCache_ofExcept _).bind fun stored => (skipsCache_ofExcept _).bind fun data => ?_
    refine skipsCache_raiseIf fun _ => skipsCache_clock.bind fun now => ?_
    refine (skipsCache_ofExcept _).bind fun stamped => (skipsCache_ofExcept _).bind fun map => ?_
    have hput := skipsCache_putIfVersion s (Bool.eq_true_of_not_eq_false hpath) data map expected
    refine hput.attempt.bind fun result => ?_
    split
    · exact .ret _
    · refine (skipsCache_storageGet path).bind fun cur => ?_
      cases cur with
      | none => exact .raise _
      | some cur =>
        dsimp only
        split
        · exact .ret _
        · exact (skipsCache_ofExcept _).bind fun _ => .raise _
    · exact .raise _

/-- A delete without the cache. -/
theorem skipsCache_deleteFile (path expected : Str) :
    SkipsCache (s.deleteFile path expected) (s.cacheless.deleteFile path expected) := by
  refine skipsCache_raiseIf fun hpath => (skipsCache_storageGet path).bind fun obj => ?_
  cases obj with
  | none => exact .raise _
  | some obj =>
    dsimp only
    split
    · exact (skipsCache_ofExcept _).bind fun _ => .raise _
    · have hdelete := skipsCache_deleteIfVersion s (Bool.eq_true_of_not_eq_false hpath) expected
      refine hdelete.attempt.bind fun result => ?_
      split
      · exact .ret _
      · refine (skipsCache_storageGet path).bind fun cur => ?_
        cases cur with
        | none => exact .raise _
        | some cur => exact (skipsCache_ofExcept _).bind fun _ => .raise _
      · exact .raise _

/-- **A mutator does not depend on the cache.** -/
theorem Mutator.skipsCache (m : Mutator) (fuel : Nat) :
    SkipsCache (m.body s fuel) (m.body s.cacheless fuel) := by
  cases m with
  | writeFile path content metadata expected source =>
    exact (skipsCache_writeFile s fuel path content metadata expected source).bind fun _ => .ret _
  | replaceFact path oldString newString expected source aliases description =>
    exact (skipsCache_replaceFact s path oldString newString expected source aliases description).bind
      fun _ => .ret _
  | appendLine path line expected source aliases description =>
    exact (skipsCache_appendLine s path line expected source aliases description).bind fun _ => .ret _
  | deleteFile path expected => exact (skipsCache_deleteFile s path expected).bind fun _ => .ret _

/-- A mutator that runs alone ends as it does without a cache. -/
theorem Mutator.ends_cacheless (m : Mutator) (fuel : Nat) (now : DateTime) {st : InMemoryStorage}
    (hends : ((m.body s.cacheless fuel).run (answerAt now) st).1 ≠ none) :
    (m.body s fuel).Ends (handlesAlone now)
      (fun r st' => (m.body s.cacheless fuel).run (answerAt now) st = (some r, st')) st :=
  (m.skipsCache s fuel).ends (fun _ _ _ _ => handlesAlone_ofCache)
    (fun _ _ _ _ => handlesAlone_answerAt) hends

/-! ## Running without a cache -/

section

variable (now : DateTime) (st : InMemoryStorage)

/-- A conditional put of a store without a cache is storage's. -/
@[simp] theorem run_putIfVersion (path : Str) (data : Bytes) (metadata : Metadata)
    (expected : Option Str) :
    (s.cacheless.putIfVersion path data metadata expected).run (answerAt now) st =
      (some (st.putIfVersion path data metadata expected).1,
        (st.putIfVersion path data metadata expected).2) := by
  have hanswer : answerAt now (.storage (.putIfVersion path data metadata expected)) st =
      st.putIfVersion path data metadata expected := by simp [answerAt, Reply.answer]
  unfold MemoryStore.putIfVersion
  rw [Prog.run_bind]
  unfold ask
  rw [Prog.run_vis, hanswer]
  exact Prog.run_ofExcept _ _ _

/-- A conditional delete of a store without a cache is storage's. -/
@[simp] theorem run_deleteIfVersion (path expected : Str) :
    (s.cacheless.deleteIfVersion path expected).run (answerAt now) st =
      (some (st.deleteIfVersion path expected).1, (st.deleteIfVersion path expected).2) :=
  Prog.run_ofExcept _ _ _

end

end Wenchang
