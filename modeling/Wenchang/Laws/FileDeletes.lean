import Wenchang.Laws.FileReads

/-!
# `FilesystemStorage.delete_if_version`

A delete unlinks the sidecar, then the body, then the directories that are left empty. Once the sidecar
is gone nothing is read of the object, and pruning is quiet.
-/

namespace Wenchang

open Py Ordered Files Interaction

section

variable {faults : Prop} {d d' d₁ : Disk}

/-! ## One call -/

/-- Unlinking the file of an object. -/
theorem handles_unlink_object {path : FilePath} {data : Bytes} {a : Except OsError Unit}
    (hpath : ObjectPath path) (hfile : d.tree.node path = some (.file data))
    (h : (onDisk faults).handles d (.unlink path) a d') : a = .ok () ∧ d'.failed = d.failed ∧
      Leaves faults d d' (Function.update d.tree.read path (.error .enoent)) := by
  rcases h with h | ⟨-, h⟩
  swap
  · exact h.elim
  rcases does_cases h with ⟨t, ht, rfl, rfl⟩ | ⟨e, he, rfl, rfl⟩
  swap
  · obtain ⟨t, ht⟩ := Tree.exists_unlink hfile
    rw [ht] at he
    cases he
  obtain ⟨-, hnode⟩ := Tree.node_of_unlink ht
  have hdir : ∀ {q : FilePath}, DirPath q → q ≠ path := by
    rintro q hq rfl
    exact hq.not_object hpath
  refine ⟨rfl, rfl, fun q hq => ?_, fun _ hu => hu, List.prefix_rfl, fun _ => rfl,
    fun hl => lock_of_change hnode (by simp) hl, fun ht' => ?_⟩
  · by_cases hqp : q = path
    · subst hqp
      rw [Function.update_self, Tree.read, hnode, if_pos rfl]
      -- What is above the path are still directories.
      have hmissing : t.missing q = .enoent := by
        obtain ⟨name, directory, rfl, -⟩ := hpath
        have hparent := Tree.node_parent hfile
        have hne : directory ≠ name :: directory := fun heq => by simpa using congrArg List.length heq
        rw [Tree.missing, hnode, if_neg hne, hparent]
      simp only [hmissing]
    · rw [Function.update_of_ne hqp]
      refine Tree.read_congr (by rw [hnode, if_neg hqp]) fun r hr hne => ?_
      have hr' := hdir (hq.above hr hne)
      rw [Tree.file?, Tree.file?, hnode, if_neg hr']
  · exact ht'.change hnode (fun _ hu => hu) (fun hq => absurd rfl (hdir hq)) (by simp) (by simp)

/-- Removing a directory, which was empty. -/
theorem handles_rmdir {path : FilePath} {a : Except OsError Unit} (hpath : DirPath path)
    (h : (onDisk faults).handles d (.rmdir path) a d') : Quiet faults d d' ∧ d'.failed = d.failed := by
  rcases h with h | ⟨-, h⟩
  swap
  · exact h.elim
  rcases does_cases h with ⟨t, ht, rfl, rfl⟩ | ⟨e, -, rfl, rfl⟩
  swap
  · exact ⟨Quiet.refl faults _, rfl⟩
  obtain ⟨-, hdir, hnode⟩ := Tree.node_of_rmdir ht
  have hfile : d.tree.file? path = none := by rw [Tree.file?, hdir]
  exact ⟨quiet_of_change List.prefix_rfl (fun _ => rfl) rfl hnode (.inr ⟨hpath, hfile, .inl rfl⟩), rfl⟩

/-! ## Pruning -/

/-- **Pruning is quiet**, and never raises. -/
theorem passes_pruneEmpty {path : FilePath} (hpath : DirPath path) :
    (FilesystemStorage.pruneEmpty path).Passes (onDisk faults) (Quiet faults d)
      (fun r d' => r = .ok () ∧ d'.failed = d.failed) d := by
  induction path generalizing d with
  | nil => exact ⟨Quiet.refl faults d, rfl, rfl⟩
  | cons name parent ih =>
    refine ⟨Quiet.refl faults d, fun _ hcut => hcut.elim, fun a d₁ hh => ?_⟩
    obtain ⟨hquiet, hfailed⟩ := handles_rmdir hpath hh
    cases a with
    | error e => exact ⟨hquiet, rfl, hfailed⟩
    | ok u =>
      refine (ih fun n hn => hpath n (List.mem_cons_of_mem _ hn)).mono (fun _ h => hquiet.quiet h) ?_
      exact fun r d₂ _ hr => ⟨hr.1, hr.2.trans hfailed⟩

end

/-! ## A delete -/

section

variable (faults : Prop) (directory : FilePath) (leaf : Str)

/-- The sidecar is gone, and the body may be there. -/
abbrev SidecarGone (d d' : Disk) : Prop :=
  Leaves faults d d' (Function.update d.tree.read ((leaf ++ sidecarSuffix) :: directory) (.error .enoent))

/-- Both files are gone. -/
abbrev BothGone (d d' : Disk) : Prop :=
  Leaves faults d d' (Function.update
    (Function.update d.tree.read ((leaf ++ sidecarSuffix) :: directory) (.error .enoent))
    ((leaf ++ bodySuffix) :: directory) (.error .enoent))

end

section

variable {faults : Prop} {directory : FilePath} {leaf : Str} {d d₁ : Disk}

/-- The body, once the sidecar is gone. -/
theorem passes_unlinkBody (hbody : ObjectPath ((leaf ++ bodySuffix) :: directory))
    (hparent : d₁.tree.node directory = some .dir) (hgone : SidecarGone faults directory leaf d d₁) :
    (unlinkMissingOk ((leaf ++ bodySuffix) :: directory)).Passes (onDisk faults)
      (fun d' => SidecarGone faults directory leaf d d' ∨ BothGone faults directory leaf d d')
      (fun r d' => d'.failed = d₁.failed ∧ ((r = .ok () ∧ BothGone faults directory leaf d d') ∨
        ∃ e, r = .error (.os e) ∧ SidecarGone faults directory leaf d d' ∧
          d.tree.read ((leaf ++ bodySuffix) :: directory) = .error .eisdir)) d₁ := by
  have hpaths : (leaf ++ bodySuffix) :: directory ≠ (leaf ++ sidecarSuffix) :: directory := fun heq =>
    sidecarName_ne_bodyName leaf leaf (List.cons.inj heq).1.symm
  have hread : d₁.tree.read ((leaf ++ bodySuffix) :: directory) =
      d.tree.read ((leaf ++ bodySuffix) :: directory) := by
    rw [hgone.reads _ hbody, Function.update_of_ne hpaths]
  refine ⟨.inl hgone, fun _ hcut => hcut.elim, fun a d₂ hh => ?_⟩
  cases hnode : d₁.tree.node ((leaf ++ bodySuffix) :: directory) with
  | some n =>
    cases n with
    | file data =>
      obtain ⟨rfl, hfailed, hleaves⟩ := handles_unlink_object hbody hnode hh
      exact ⟨.inr (hgone.then hleaves), hfailed, .inl ⟨rfl, hgone.then hleaves⟩⟩
    | dir =>
      rcases hh with hh | ⟨-, hh⟩
      swap
      · exact hh.elim
      rcases does_cases hh with ⟨t, ht, rfl, rfl⟩ | ⟨e, he, rfl, rfl⟩
      · obtain ⟨⟨data, hfile⟩, -⟩ := Tree.node_of_unlink ht
        rw [hnode] at hfile
        cases hfile
      · have hisdir : d₂.tree.read ((leaf ++ bodySuffix) :: directory) = .error .eisdir := by
          rw [Tree.read, hnode]
        have herrno : e.errno = .eisdir := by
          rw [Tree.unlink] at he
          split at he
          · cases he
          · exact (Except.error.inj he).symm
          · next hnone =>
            rw [hnode] at hnone
            cases hnone
        show Prog.Passes _ _ _ (if e.errno = .enoent then _ else _) _
        rw [if_neg (by simp [herrno])]
        exact ⟨.inl hgone, rfl, .inr ⟨e, rfl, hgone, hread ▸ hisdir⟩⟩
  | none =>
    have hmissing : d₁.tree.missing ((leaf ++ bodySuffix) :: directory) = .enoent := by
      rw [Tree.missing, hparent]
    have habsent : d₁.tree.read ((leaf ++ bodySuffix) :: directory) = .error .enoent := by
      rw [Tree.read, hnode]
      simp only [hmissing]
    rcases hh with hh | ⟨-, hh⟩
    swap
    · exact hh.elim
    rcases does_cases hh with ⟨t, ht, rfl, rfl⟩ | ⟨e, he, rfl, rfl⟩
    · obtain ⟨⟨data, hfile⟩, -⟩ := Tree.node_of_unlink ht
      rw [hnode] at hfile
      cases hfile
    · have herrno : e.errno = .enoent := by
        rw [Tree.unlink] at he
        split at he
        · cases he
        · next hdir =>
          rw [hnode] at hdir
          cases hdir
        · rw [← hmissing]
          exact (Except.error.inj he).symm
      have hboth : BothGone faults directory leaf d d₂ := hgone.congr fun q hq => by
        by_cases hqb : q = (leaf ++ bodySuffix) :: directory
        · subst hqb
          rw [Function.update_self, Function.update_of_ne hpaths, ← hread, habsent]
        · rw [Function.update_of_ne hqb]
      show Prog.Passes _ _ _ (if e.errno = .enoent then _ else _) _
      rw [if_pos herrno]
      exact ⟨.inr hboth, rfl, .inl ⟨rfl, hboth⟩⟩

end

section

variable [Interpreter] {fs : FilesystemStorage} {faults : Prop} {d : Disk} {key : Str} {directory : FilePath}
  {leaf : Str} {expected : Str}

/-- How `delete_if_version` ends. -/
inductive DeleteEnds (fs : FilesystemStorage) (faults : Prop) (key : Str) (directory : FilePath) (leaf : Str)
    (expected : Str) (d : Disk) : Except Exc Unit → Disk → Prop
  | refused (e : Exc) (d' : Disk) (quiet : Quiet faults d d') (failed : d'.failed = d.failed)
      (why : d.tree.node [lockName] = some .dir ∨ ∃ e', SidecarRead fs ((leaf ++ sidecarSuffix) :: directory)
        (d.tree.read ((leaf ++ sidecarSuffix) :: directory)) (.error e')) :
      DeleteEnds fs faults key directory leaf expected d (.error e) d'
  | mismatch (found : Option Sidecar) (d' : Disk) (quiet : Quiet faults d d') (failed : d'.failed = d.failed)
      (read : SidecarRead fs ((leaf ++ sidecarSuffix) :: directory)
        (d.tree.read ((leaf ++ sidecarSuffix) :: directory)) (.ok found))
      (ne : found.map (·.version) ≠ some expected) :
      DeleteEnds fs faults key directory leaf expected d (.error (.preconditionFailedError key)) d'
  /-- A directory stands in the body's place. -/
  | halfway (e : Exc) (d' : Disk) (gone : SidecarGone faults directory leaf d d') (failed : d'.failed = d.failed)
      (why : d.tree.read ((leaf ++ bodySuffix) :: directory) = .error .eisdir) :
      DeleteEnds fs faults key directory leaf expected d (.error e) d'
  | deleted (sidecar : Sidecar) (d' : Disk) (gone : BothGone faults directory leaf d d')
      (failed : d'.failed = d.failed)
      (read : SidecarRead fs ((leaf ++ sidecarSuffix) :: directory)
        (d.tree.read ((leaf ++ sidecarSuffix) :: directory)) (.ok (some sidecar)))
      (matched : sidecar.version = expected) :
      DeleteEnds fs faults key directory leaf expected d (.ok ()) d'

/-- The disks that a delete passes. -/
def DeletePasses (fs : FilesystemStorage) (faults : Prop) (directory : FilePath) (leaf expected : Str)
    (d d' : Disk) : Prop :=
  Quiet faults d d' ∨ (∃ sidecar, SidecarRead fs ((leaf ++ sidecarSuffix) :: directory)
      (d.tree.read ((leaf ++ sidecarSuffix) :: directory)) (.ok (some sidecar)) ∧ sidecar.version = expected) ∧
    (SidecarGone faults directory leaf d d' ∨ BothGone faults directory leaf d d')

/-- What is found when a read of the sidecar finds a version. -/
theorem SidecarRead.file_of_version {path : FilePath} {found : Option Sidecar}
    (h : SidecarRead fs path (d.tree.read path) (.ok found)) (hfound : found.map (·.version) = some expected) :
    ∃ sidecar raw, found = some sidecar ∧ sidecar.version = expected ∧ d.tree.node path = some (.file raw) := by
  generalize hread : d.tree.read path = result at h
  cases h with
  | absent => cases hfound
  | read raw sidecar hparsed =>
    refine ⟨sidecar, raw, rfl, Option.some.inj hfound, ?_⟩
    unfold Tree.read at hread
    split at hread
    · next data hfile =>
      obtain rfl : data = raw := Except.ok.inj hread
      exact hfile
    · cases hread
    · cases hread

/-- **A delete**, whatever fails and wherever it is cut short. -/
theorem passes_delete (hkey : FilesystemStorage.locate key = .ok (directory, leaf)) :
    (fs.deleteIfVersion key expected).Passes (onDisk faults) (DeletePasses fs faults directory leaf expected d)
      (DeleteEnds fs faults key directory leaf expected d) d := by
  have hsidecar := objectPath_of_locate hkey (.inr rfl)
  have hbody := objectPath_of_locate hkey (.inl rfl)
  rw [FilesystemStorage.deleteIfVersion, hkey, Prog.ofExcept_ok, Prog.ret_bind]
  refine passes_unavailable.mpr (Prog.Passes.bind ((passes_locked true).mono (fun _ h => .inl h)
    fun r w h hr => And.intro h hr) ?_ ?_)
  swap
  · rintro e d₁ - ⟨hquiet, hfailed, ⟨hr, -⟩ | ⟨e', hr, hdir⟩⟩
    · cases hr
    · obtain rfl := Except.error.inj hr
      exact .refused _ _ hquiet hfailed (.inl hdir)
  rintro u d₁ - ⟨hquiet₁, hfailed₁, -⟩
  refine Prog.Passes.bind ((passes_readSidecar _).mono (fun w h => h ▸ .inl hquiet₁)
    fun r w h hr => And.intro h hr) ?_ ?_
  swap
  · rintro e _ - ⟨rfl, hread⟩
    rw [hquiet₁.reads _ hsidecar] at hread
    rcases e with e | e <;> exact .refused _ _ hquiet₁ hfailed₁ (.inr ⟨_, hread⟩)
  rintro found _ - ⟨rfl, hread⟩
  by_cases hversion : found.map (·.version) = some expected
  swap
  · rw [hquiet₁.reads _ hsidecar] at hread
    rw [Prog.raiseIf_bind_pos hversion]
    exact ⟨.inl hquiet₁, .mismatch found _ hquiet₁ hfailed₁ hread hversion⟩
  rw [Prog.raiseIf_neg (not_not.mpr hversion), Prog.ret_bind]
  obtain ⟨sidecar, raw, rfl, hmatched, hfile⟩ := hread.file_of_version hversion
  rw [hquiet₁.reads _ hsidecar] at hread
  have hparent := Tree.node_parent hfile
  -- The sidecar is unlinked first.
  refine ⟨.inl hquiet₁, fun _ hcut => hcut.elim, fun a d₂ hh => ?_⟩
  have hdir : d₂.tree.node directory = some .dir := by
    rcases hh with hh | ⟨-, hh⟩
    · rcases does_cases hh with ⟨t, ht, rfl, rfl⟩ | ⟨e, -, rfl, rfl⟩
      · rw [(Tree.node_of_unlink ht).2, if_neg]
        · exact hparent
        · exact fun heq => by simpa using congrArg List.length heq
      · exact hparent
    · exact hh.elim
  obtain ⟨rfl, hfailed₂, hleaves₂⟩ := handles_unlink_object hsidecar hfile hh
  have hgone : SidecarGone faults directory leaf d d₂ :=
    (hquiet₁.leaves hleaves₂).congr fun q hq => by
      by_cases hqs : q = (leaf ++ sidecarSuffix) :: directory
      · rw [hqs, Function.update_self, Function.update_self]
      · rw [Function.update_of_ne hqs, Function.update_of_ne hqs, hquiet₁.reads q hq]
  have hfailed₂ := hfailed₂.trans hfailed₁
  show Prog.Passes _ _ _ (unlinkMissingOk ((leaf ++ bodySuffix) :: directory) >>= fun _ =>
    FilesystemStorage.pruneEmpty directory) _
  refine Prog.Passes.bind ((passes_unlinkBody hbody hdir hgone).mono
    (fun w h => .inr ⟨⟨sidecar, hread, hmatched⟩, h⟩) fun r w h hr => hr) ?_ ?_
  · rintro u₃ d₃ - ⟨hfailed₃, ⟨-, hboth⟩ | ⟨e, hr, -⟩⟩
    · refine (passes_pruneEmpty (dirPath_of_locate hkey)).mono (fun w h =>
        .inr ⟨⟨sidecar, hread, hmatched⟩, .inr (hboth.quiet h)⟩) ?_
      rintro r d₄ h ⟨rfl, hfailed₄⟩
      exact .deleted sidecar _ (hboth.quiet h) (hfailed₄.trans (hfailed₃.trans hfailed₂)) hread hmatched
    · cases hr
  · rintro e d₃ - ⟨hfailed₃, ⟨hr, -⟩ | ⟨e', hr, hgone₃, hisdir⟩⟩
    · cases hr
    · obtain rfl := Except.error.inj hr
      exact .halfway _ _ hgone₃ (hfailed₃.trans hfailed₂) hisdir

end

end Wenchang
