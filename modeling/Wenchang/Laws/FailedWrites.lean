import Wenchang.Laws.FilePuts

/-!
# A write that fails

An object is two files that are replaced one after the other. A write that fails before the second
replace has changed nothing that is read. One whose second replace fails leaves the new body beside the
old sidecar, and the cleanup does not put the old body back.
-/

namespace Wenchang

open Py Ordered Files Interaction

section

variable [Interpreter] {fs : FilesystemStorage} {d d' : Disk} {key : Str} {directory : FilePath} {leaf : Str}
  {data : Bytes} {metadata : Metadata} {old : Option StoredObject}

/-- What a write that fails should do: raise `BackendUnavailableError`, and leave the old object or the
new one, with a token that this call drew, and every other key as it was. -/
structure FailsAtomically (fs : FilesystemStorage) (d d' : Disk) (key : Str) (data : Bytes)
    (metadata : Metadata) (old : Option StoredObject) (r : Except Exc Str) : Prop where
  raises : ∃ detail, r = .error (.backendUnavailableError .unavailable detail)
  object : fs.Returns d' key old ∨ ∃ token, token ∉ d.drawn ∧ token ∈ d'.drawn ∧
    fs.Returns d' key (some ⟨data, metadata, token⟩)
  others : ∀ k, k ≠ key → ∀ x, fs.Returns d' k x ↔ fs.Returns d k x

/-- The files of another key. -/
theorem read_of_ne {k : Str} {directory' : FilePath} {leaf' : Str} (hne : k ≠ key)
    (hkey : FilesystemStorage.locate key = .ok (directory, leaf))
    (hk : FilesystemStorage.locate k = .ok (directory', leaf')) {suffix : Str}
    (hsuffix : suffix = bodySuffix ∨ suffix = sidecarSuffix) (reads : FilePath → Except Errno Bytes)
    (x : Except Errno Bytes) : Function.update reads ((leaf ++ bodySuffix) :: directory) x
      ((leaf' ++ suffix) :: directory') = reads ((leaf' ++ suffix) :: directory') := by
  refine Function.update_of_ne (fun heq => ?_) _ _
  obtain ⟨hname, rfl⟩ := List.cons.inj heq
  rcases hsuffix with rfl | rfl
  · obtain rfl := List.append_cancel_right hname
    exact hne (locate_injective hk hkey)
  · exact sidecarName_ne_bodyName leaf' leaf hname

/-- The new body changes no other key. -/
theorem others_of_bodyOnly {faults : Prop} (hkey : FilesystemStorage.locate key = .ok (directory, leaf))
    (hlock : d.tree.node [lockName] ≠ some .dir) (h : BodyOnly faults directory leaf data d d') {k : Str}
    (hne : k ≠ key) (x : Option StoredObject) : fs.Returns d' k x ↔ fs.Returns d k x := by
  cases hk : FilesystemStorage.locate k with
  | error e => exact iff_of_false (not_returns hk) (not_returns hk)
  | ok place =>
    obtain ⟨directory', leaf'⟩ := place
    refine returns_congr hk hlock (h.lock hlock) (fun suffix hsuffix => ?_) x
    rw [h.reads _ (objectPath_of_locate hk hsuffix), read_of_ne hne hkey hk hsuffix]

/-- A quiet step leaves what a get returns. -/
theorem returns_of_quiet {faults : Prop} (hlock : d.tree.node [lockName] ≠ some .dir)
    (h : Quiet faults d d') (k : Str) (x : Option StoredObject) : fs.Returns d' k x ↔ fs.Returns d k x := by
  cases hk : FilesystemStorage.locate k with
  | error e => exact iff_of_false (not_returns hk) (not_returns hk)
  | ok place =>
    obtain ⟨directory', leaf'⟩ := place
    exact returns_congr hk hlock (h.lock hlock)
      (fun suffix hsuffix => h.reads _ (objectPath_of_locate hk hsuffix)) x

/-- The new body beside the old sidecar is read as the old object with other data. -/
theorem returns_of_bodyOnly {faults : Prop} (hkey : FilesystemStorage.locate key = .ok (directory, leaf))
    (hold : fs.Returns d key old) (h : BodyOnly faults directory leaf data d d') :
    fs.Returns d' key (old.map fun obj => { obj with data := data }) := by
  obtain ⟨hlock, hobject⟩ := (returns_iff hkey).mp hold
  have hne : (leaf ++ sidecarSuffix) :: directory ≠ (leaf ++ bodySuffix) :: directory := fun heq =>
    sidecarName_ne_bodyName leaf leaf (List.cons.inj heq).1
  refine (returns_iff hkey).mpr ⟨h.lock hlock, ?_⟩
  unfold objectAt at hobject ⊢
  rw [h.reads _ (objectPath_of_locate hkey (.inr rfl)), h.reads _ (objectPath_of_locate hkey (.inl rfl)),
    Function.update_self, Function.update_of_ne hne]
  split at hobject
  · split at hobject
    · next hnoent =>
      rw [if_pos hnoent, ← Option.some.inj hobject]
      rfl
    · cases hobject
  · split at hobject
    · cases hobject
    · simp only
      split at hobject
      · cases hobject
      · rw [← Option.some.inj hobject]
        rfl

/-- **A failed write is atomic unless an object was overwritten and the second replace failed.** -/
theorem failed_write_atomic_iff (checked : Option (Option Str)) {r : Except Exc Str}
    (hkey : FilesystemStorage.locate key = .ok (directory, leaf)) (hold : fs.Returns d key old)
    (hdrawn : ∀ obj, old = some obj → obj.version ∈ d.drawn)
    (hrun : (fs.writing key data metadata checked).Runs (onDisk True).handles d r d') {steps : List FsOp}
    (hsteps : d'.failed = d.failed ++ steps) (hfailed : steps ≠ []) :
    FailsAtomically fs d d' key data metadata old r ↔
      ¬ ∃ obj src, old = some obj ∧ obj.data ≠ data ∧
        .replace src ((leaf ++ sidecarSuffix) :: directory) ∈ steps := by
  have hlock := ((returns_iff hkey).mp hold).1
  have hnone : ∀ {failed : List FsOp}, d'.failed = failed → failed = d.failed → False := fun h h' =>
    hfailed (List.append_right_eq_self.mp (hsteps.symm.trans (h.trans h')))
  cases (passes_writing hkey checked).of_runs hrun with
  | refused e _ _ hsame => exact (hnone rfl hsame).elim
  | mismatch found expected _ _ _ hsame => exact (hnone rfl hsame).elim
  | write r _ _ hends =>
    rcases hends with ⟨token, rfl, hsame, -⟩ | ⟨e, steps', rfl, hsteps', -, hends⟩
    · exact (hnone rfl hsame).elim
    · obtain rfl : steps = steps' := List.append_cancel_left (hsteps.symm.trans hsteps')
      rcases hends with ⟨hquiet, hnot⟩ | ⟨hbody, hreplace⟩
      · -- Nothing that is read has changed.
        refine iff_of_true ⟨⟨_, rfl⟩, .inl ((returns_of_quiet hlock hquiet key old).mpr hold),
          fun k _ x => returns_of_quiet hlock hquiet k x⟩ ?_
        rintro ⟨_, src, -, -, hmem⟩
        exact hnot src hmem
      · have hnow := returns_of_bodyOnly hkey hold hbody
        have hothers : ∀ k, k ≠ key → ∀ x, fs.Returns d' k x ↔ fs.Returns d k x :=
          fun k hne => others_of_bodyOnly hkey hlock hbody hne
        obtain ⟨src, hmem⟩ : ∃ src, .replace src ((leaf ++ sidecarSuffix) :: directory) ∈ steps := by
          refine hreplace.resolve_right fun hdir => ?_
          have hobject := ((returns_iff hkey).mp hold).2
          rw [objectAt, hdir] at hobject
          cases hobject
        cases old with
        | none => exact iff_of_true ⟨⟨_, rfl⟩, .inl hnow, hothers⟩ (by simp)
        | some obj =>
          by_cases hdata : obj.data = data
          · subst hdata
            exact iff_of_true ⟨⟨_, rfl⟩, .inl hnow, hothers⟩ (by simp)
          · refine iff_of_false (fun hatomic => ?_) (not_not.mpr ⟨obj, src, rfl, hdata, hmem⟩)
            rcases hatomic.object with hsame | ⟨token, hfresh, -, hnew⟩
            · have heq := Option.some.inj (returns_unique hkey hnow hsame)
              exact hdata (congrArg StoredObject.data heq).symm
            · have heq := Option.some.inj (returns_unique hkey hnow hnew)
              have hversion : obj.version = token := congrArg StoredObject.version heq
              exact hfresh (hversion ▸ hdrawn obj rfl)

end

/-! ## Two writes that fail -/

/-- A storage. -/
def someRoot : FilesystemStorage := ⟨str "/root", 100⟩

/-- A put of a key, from a disk, where nothing can be moved onto a broken path. -/
def putOn [Interpreter] (broken : FilePath → Bool) (data : Bytes) (d : Disk) :
    Option (Except Exc Str) × (Disk × Bool) :=
  (someRoot.writing (str "k") data .empty none).run (guarded (Disk.answer broken) Disk.drawsNew) (d, true)

/-- What is executed on a broken disk is a run. -/
theorem runs_putOn [Interpreter] {broken : FilePath → Bool} {data : Bytes} {d : Disk} {r : Except Exc Str}
    (hr : (putOn broken data d).1 = some r) (hnew : (putOn broken data d).2.2 = true) :
    (someRoot.writing (str "k") data .empty none).Runs (onDisk True).handles d r (putOn broken data d).2.1 := by
  have hrun : putOn broken data d = (some r, (putOn broken data d).2.1, true) := by
    rw [← hr, ← hnew]
  exact (Prog.runs_of_guarded (fun d o h => Disk.handles_answer broken d o h) hrun).2

/-- Creating a key whose sidecar cannot be moved into place fails atomically. -/
theorem failed_write_atomic_create : let _ := Interpreter.ascii
    ∃ r, (putOn (· = [str "k%meta"]) [1] Disk.empty).1 = some r ∧
      FailsAtomically someRoot Disk.empty (putOn (· = [str "k%meta"]) [1] Disk.empty).2.1 (str "k") [1] .empty
        none r := by
  intro _
  have hends : (putOn (· = [str "k%meta"]) [1] Disk.empty).1.isSome = true := by decide +kernel
  obtain ⟨r, hr⟩ := Option.isSome_iff_exists.mp hends
  have hrun := runs_putOn hr (by decide +kernel)
  have hkey : FilesystemStorage.locate (str "k") = .ok ([], str "k") := by decide +kernel
  have hlock : Disk.empty.tree.node [lockName] ≠ some .dir := by
    have h : Disk.empty.tree.isDir [lockName] = false := by decide +kernel
    exact fun hdir => by simp [Tree.isDir_iff.mpr hdir] at h
  have hold : someRoot.Returns Disk.empty (str "k") none :=
    (returns_iff hkey).mpr ⟨hlock, by decide +kernel⟩
  have hfailed : (putOn (· = [str "k%meta"]) [1] Disk.empty).2.1.failed ≠ [] := by decide +kernel
  refine ⟨r, hr, (failed_write_atomic_iff none hkey hold (by simp) hrun (List.nil_append _).symm hfailed).mpr ?_⟩
  simp

/-- The disk after a first put. -/
def afterPut [Interpreter] : Disk := (putOn (fun _ => false) [1] Disk.empty).2.1

/-- **An overwrite whose second replace fails** leaves the new body under the old version. -/
theorem failed_overwrite_mixes : let _ := Interpreter.ascii
    ∃ old d' r, someRoot.Returns afterPut (str "k") (some old) ∧
      (someRoot.writing (str "k") [2] .empty none).Runs (onDisk True).handles afterPut r d' ∧
      afterPut.failed = [] ∧ d'.failed.length = 1 ∧
      someRoot.Returns d' (str "k") (some { old with data := [2] }) ∧
      ¬ FailsAtomically someRoot afterPut d' (str "k") [2] .empty (some old) r := by
  intro _
  have hkey : FilesystemStorage.locate (str "k") = .ok ([], str "k") := by decide +kernel
  have hlock : ∀ {d : Disk}, d.tree.isDir [lockName] = false → d.tree.node [lockName] ≠ some .dir :=
    fun h hdir => by simp [Tree.isDir_iff.mpr hdir] at h
  have hends : (putOn (· = [str "k%meta"]) [2] afterPut).1.isSome = true := by decide +kernel
  obtain ⟨r, hr⟩ := Option.isSome_iff_exists.mp hends
  have hold : someRoot.Returns afterPut (str "k") (some ⟨[1], .empty, hex 32 0⟩) :=
    (returns_iff hkey).mpr ⟨hlock (by decide +kernel), by decide +kernel⟩
  have hmixed : someRoot.Returns (putOn (· = [str "k%meta"]) [2] afterPut).2.1 (str "k")
      (some ⟨[2], .empty, hex 32 0⟩) :=
    (returns_iff hkey).mpr ⟨hlock (by decide +kernel), by decide +kernel⟩
  refine ⟨_, _, r, hold, runs_putOn hr (by decide +kernel), by decide +kernel, by decide +kernel, hmixed,
    fun hatomic => ?_⟩
  rcases hatomic.object with hsame | ⟨token, hfresh, -, hnew⟩
  · exact absurd (returns_unique hkey hmixed hsame) (by simp)
  · obtain rfl : hex 32 0 = token :=
      congrArg StoredObject.version (Option.some.inj (returns_unique hkey hmixed hnew))
    exact hfresh (by decide +kernel)

end Wenchang
