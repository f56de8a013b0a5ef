import Wenchang.Laws.FileSteps

/-!
# `FilesystemStorage._write`, step by step

What each part of a write does, whatever fails on the way and wherever it is cut short. A directory is
made or a temp file is written quietly. Then the body is replaced and then the sidecar, so that there
are three disks that a write passes: the old one, one with the new body and the old sidecar, and the new
one (`passes_write`). On a tidy disk every step succeeds that is not a fault.
-/

namespace Wenchang

open Py Ordered Files Interaction

section

variable {faults : Prop} {d d' d₁ : Disk}

/-! ## The lock -/

/-- Taking the lock is not seen. -/
theorem passes_locked (exclusive : Bool) : (FilesystemStorage.locked exclusive).Passes (onDisk faults)
    (Quiet faults d) (fun r d' => d'.failed = d.failed ∧
      ((r = .ok () ∧ d.tree.node [lockName] ≠ some .dir) ∨
        ∃ e, r = .error (.os e) ∧ d.tree.node [lockName] = some .dir)) d := by
  refine ⟨Quiet.refl faults d, fun _ hcut => hcut.elim, fun a d₁ hh => ?_⟩
  obtain ⟨hquiet, hfailed, hlock⟩ := handles_lock hh
  cases a with
  | ok u => exact ⟨hquiet, hfailed, .inl ⟨rfl, hlock.mp rfl⟩⟩
  | error e => exact ⟨hquiet, hfailed, .inr ⟨e, rfl, by_contra fun h => by cases hlock.mpr h⟩⟩

/-! ## Directories -/

/-- How making a directory ends: it is there, or an `OSError`. -/
def MadeDir (d : Disk) (path : FilePath) (room : Prop) (r : Except FsExc Unit) (d' : Disk) : Prop :=
  (r = .ok () ∧ d'.failed = d.failed ∧ d'.tree.node path = some .dir) ∨
    ∃ e steps, r = .error (.os e) ∧ Faults d d' steps ∧ (∀ o ∈ steps, ∃ p, o = .mkdir p) ∧
      (d.Tidy → room → steps ≠ [])

/-- Why a tidy disk refuses to make a directory. -/
theorem mkdir_refused (ht : d.Tidy) {path : FilePath} (hpath : DirPath path) {errno : Errno}
    (h : d.tree.mkdir path = .error errno) : (errno ≠ .enoent ∧ d.tree.node path = some .dir) ∨
      errno = .enoent ∧ ∃ name parent, path = name :: parent ∧ d.tree.node parent ≠ some .dir := by
  have hdir : ∀ {p : FilePath}, DirPath p → (d.tree.node p).isSome = true → d.tree.node p = some .dir :=
    fun {p} hp hsome => by
      have hfile := ht.dirs p hp
      obtain ⟨n, hn⟩ := Option.isSome_iff_exists.mp hsome
      cases n with
      | dir => exact hn
      | file data =>
        rw [Tree.file?_eq_some.mpr hn] at hfile
        cases hfile
  cases path with
  | nil =>
    obtain rfl : Errno.eexist = errno := Except.error.inj h
    exact .inl ⟨by simp, Tree.node_nil _⟩
  | cons name parent =>
    rw [Tree.mkdir, Tree.make] at h
    split at h
    · next hsome =>
      obtain rfl := Except.error.inj h
      exact .inl ⟨by simp, hdir hpath hsome⟩
    · split at h
      · cases h
      · next hparent =>
        obtain rfl := Except.error.inj h
        rcases d.tree.missing_cases (name :: parent) with ⟨herr, -⟩ | ⟨-, q, hq, -, hfile⟩
        · exact .inr ⟨herr, name, parent, rfl, fun hn => hparent (Tree.isDir_iff.mpr hn)⟩
        · have hq' : DirPath q := fun n hn => hpath n (hq.subset hn)
          rw [ht.dirs q hq'] at hfile
          cases hfile

/-- What is made of an error that is not `ENOENT`: is the directory there? -/
theorem passes_isDir {path : FilePath} {room : Prop} {e : OsError} {steps : List FsOp}
    (hquiet : Quiet faults d d₁) (hfaults : Faults d d₁ steps) (hsteps : ∀ o ∈ steps, ∃ p, o = .mkdir p)
    (hthere : d.Tidy → steps = [] → d₁.tree.isDir path = true)
    (hgone : steps ≠ [] → d₁.tree.isDir path = false) :
    (sys (.isDir path) >>= fun there => match there with
      | true => (return ())
      | false => .raise (.os e) : Fs Unit).Passes (onDisk faults) (Quiet faults d) (MadeDir d path room) d₁ := by
  refine ⟨hquiet, fun _ hcut => hcut.elim, fun there d₂ hh => ?_⟩
  obtain ⟨rfl, rfl⟩ := handles_isDir hh
  cases hdir : d₂.tree.isDir path with
  | true =>
    obtain rfl : steps = [] := by
      by_contra hne
      rw [hgone hne] at hdir
      cases hdir
    exact ⟨hquiet, .inl ⟨rfl, faults_nil.mp hfaults, Tree.isDir_iff.mp hdir⟩⟩
  | false =>
    refine ⟨hquiet, .inr ⟨e, steps, rfl, hfaults, hsteps, fun ht _ hnil => ?_⟩⟩
    rw [hthere ht hnil] at hdir
    cases hdir

/-- A directory is made, or was there, and no object is touched. -/
theorem passes_mkdirExistOk {name : Str} {parent : FilePath} (hpath : DirPath (name :: parent)) :
    (mkdirExistOk (name :: parent)).Passes (onDisk faults) (Quiet faults d)
      (MadeDir d (name :: parent) (d.tree.node parent = some .dir)) d := by
  refine ⟨Quiet.refl faults d, fun _ hcut => hcut.elim, fun a d₁ hh => ?_⟩
  obtain ⟨hquiet, ⟨rfl, hfailed, hnode⟩ | ⟨e, rfl, ⟨rfl, herr⟩ | ⟨hfaults, hne, hgone⟩⟩⟩ :=
    handles_mkdir hpath hh
  · exact ⟨hquiet, .inl ⟨rfl, hfailed, hnode⟩⟩
  · show Prog.Passes _ _ _ (if e.errno = .enoent then _ else _) _
    split
    · next hnoent =>
      refine ⟨hquiet, .inr ⟨e, [], rfl, faults_nil.mpr rfl, by simp, fun ht hroom => ?_⟩⟩
      rcases mkdir_refused ht hpath herr with ⟨hne, -⟩ | ⟨-, _, _, heq, hmissing⟩
      · exact absurd hnoent hne
      · obtain ⟨rfl, rfl⟩ := List.cons.inj heq
        exact absurd hroom hmissing
    · next hnoent =>
      refine passes_isDir hquiet (faults_nil.mpr rfl) (by simp) (fun ht _ => ?_) (by simp)
      rcases mkdir_refused ht hpath herr with ⟨-, hdir⟩ | ⟨hnoent', -⟩
      · exact Tree.isDir_iff.mpr hdir
      · exact absurd hnoent' hnoent
  · show Prog.Passes _ _ _ (if e.errno = .enoent then _ else _) _
    rw [if_neg hne]
    exact passes_isDir hquiet hfaults (by simp) (by simp) fun _ => hgone

/-- **`path.mkdir(parents=True, exist_ok=True)`.** -/
theorem passes_mkdirParents {path : FilePath} (hpath : DirPath path) :
    (mkdirParents path).Passes (onDisk faults) (Quiet faults d) (MadeDir d path True) d := by
  induction path generalizing d with
  | nil =>
    rw [mkdirParents]
    refine ⟨Quiet.refl faults d, fun _ hcut => hcut.elim, fun a d₁ hh => ?_⟩
    obtain ⟨hquiet, ⟨rfl, hfailed, hnode⟩ | ⟨e, rfl, ⟨rfl, herr⟩ | ⟨hfaults, hne, hgone⟩⟩⟩ :=
      handles_mkdir hpath hh
    · exact ⟨hquiet, .inl ⟨rfl, hfailed, hnode⟩⟩
    · obtain herr : Errno.eexist = e.errno := Except.error.inj herr
      show Prog.Passes _ _ _ (if e.errno = .enoent then _ else _) _
      rw [if_neg (by rw [← herr]; simp)]
      exact passes_isDir hquiet (faults_nil.mpr rfl) (by simp)
        (fun _ _ => Tree.isDir_iff.mpr (Tree.node_nil _)) (by simp)
    · rw [Tree.isDir_iff.mpr (Tree.node_nil _)] at hgone
      cases hgone
  | cons name parent ih =>
    rw [mkdirParents]
    refine ⟨Quiet.refl faults d, fun _ hcut => hcut.elim, fun a d₁ hh => ?_⟩
    obtain ⟨hquiet, ⟨rfl, hfailed, hnode⟩ | ⟨e, rfl, ⟨rfl, herr⟩ | ⟨hfaults, hne, hgone⟩⟩⟩ :=
      handles_mkdir hpath hh
    · exact ⟨hquiet, .inl ⟨rfl, hfailed, hnode⟩⟩
    · show Prog.Passes _ _ _ (if e.errno = .enoent then _ else _) _
      split
      · -- The parents are made first.
        refine (ih fun n hn => hpath n (List.mem_cons_of_mem _ hn)).bind ?_ ?_
        · rintro ⟨⟩ d₂ hquiet₂ (⟨-, hfailed, hparent⟩ | ⟨e', steps, hr, -⟩)
          · refine (passes_mkdirExistOk hpath).mono (fun d₃ h => hquiet₂.quiet h) fun r d₃ _ hr => ?_
            rcases hr with ⟨rfl, hfailed', hnode⟩ | ⟨e', steps, rfl, hfaults, hsteps, hne⟩
            · exact .inl ⟨rfl, hfailed'.trans hfailed, hnode⟩
            · refine .inr ⟨e', steps, rfl, ?_, hsteps, fun ht _ => hne (hquiet₂.tidy ht) hparent⟩
              rw [Faults, hfaults, hfailed]
          · cases hr
        · rintro e' d₂ hquiet₂ (⟨hr, -⟩ | ⟨e'', steps, hr, hfaults, hsteps, hne⟩)
          · cases hr
          · exact .inr ⟨e'', steps, by rw [Except.error.inj hr], hfaults, hsteps, hne⟩
      · next hnoent =>
        refine passes_isDir hquiet (faults_nil.mpr rfl) (by simp) (fun ht _ => ?_) (by simp)
        rcases mkdir_refused ht hpath herr with ⟨-, hdir⟩ | ⟨hnoent', -⟩
        · exact Tree.isDir_iff.mpr hdir
        · exact absurd hnoent' hnoent
    · show Prog.Passes _ _ _ (if e.errno = .enoent then _ else _) _
      rw [if_neg hne]
      exact passes_isDir hquiet hfaults (by simp) (by simp) fun _ => hgone

/-! ## Temp files -/

/-- How a temp file is written: under a new name, and nothing else is touched, or an `OSError`. -/
def MadeTemp (d : Disk) (directory : FilePath) (data : Bytes) (r : Except FsExc FilePath) (d' : Disk) :
    Prop :=
  (∃ name, name ∉ d.drawn ∧ name ∈ d'.drawn ∧ r = .ok ((tempPrefix ++ name) :: directory) ∧
    d'.failed = d.failed ∧
    ∀ q, d'.tree.node q = if q = (tempPrefix ++ name) :: directory then some (.file data) else d.tree.node q) ∨
  ∃ e steps, r = .error (.os e) ∧ Faults d d' steps ∧ (∀ src dst, .replace src dst ∉ steps) ∧
    (d.Tidy → d.tree.node directory = some .dir → steps ≠ [])

/-- A temporary file is written, and no object is touched. -/
theorem passes_writeTemp {directory : FilePath} {data : Bytes} :
    (FilesystemStorage.writeTemp directory data).Passes (onDisk faults) (Quiet faults d)
      (MadeTemp d directory data) d := by
  refine ⟨Quiet.refl faults d, fun _ hcut => hcut.elim, fun name d₁ hh => ?_⟩
  have hquiet₁ := quiet_uuid4 hh
  obtain ⟨-, hfresh, rfl⟩ := handles_uuid4 hh
  have hdrawn : name ∈ d.drawn.insert name := FinSet.mem_insert.mpr (.inl rfl)
  refine ⟨hquiet₁, fun _ hcut => hcut.elim, fun a d₂ hh₂ => ?_⟩
  obtain ⟨hquiet₂, ⟨rfl, hfailed₂, hdrawn₂, hnode₂⟩ | ⟨e, rfl, hrefused⟩⟩ := handles_create hdrawn hh₂
  · refine ⟨hquiet₁.quiet hquiet₂, fun d' hcut =>
      (hquiet₁.quiet hquiet₂).quiet (quiet_cut (hiddenPath_temp name directory) hcut), fun a d₃ hh₃ => ?_⟩
    obtain ⟨hquiet₃, hdrawn₃, ⟨rfl, hfailed₃, hnode₃⟩ | ⟨e, rfl, hrefused⟩⟩ :=
      handles_write (hiddenPath_temp name directory) hh₃
    · refine ⟨(hquiet₁.quiet hquiet₂).quiet hquiet₃, .inl ⟨name, hfresh, ?_, rfl, hfailed₃.trans hfailed₂,
        fun q => ?_⟩⟩
      · rw [hdrawn₃, hdrawn₂]
        exact hdrawn
      · rw [hnode₃, hnode₂]
        split <;> rfl
    · refine ⟨(hquiet₁.quiet hquiet₂).quiet hquiet₃, .inr ?_⟩
      rcases hrefused with ⟨rfl, herr⟩ | hfaults
      · -- A file that was just created is there to be written.
        obtain ⟨t, ht⟩ := Tree.exists_write data (by rw [hnode₂, if_pos rfl])
        rw [ht] at herr
        cases herr
      · exact ⟨e, [.write ((tempPrefix ++ name) :: directory) data], rfl,
          hfaults.trans (congrArg (· ++ _) hfailed₂), by simp, by simp⟩
  · refine ⟨hquiet₁.quiet hquiet₂, .inr ?_⟩
    rcases hrefused with ⟨rfl, herr⟩ | hfaults
    · refine ⟨e, [], rfl, faults_nil.mpr rfl, by simp, fun ht hdir => ?_⟩
      obtain ⟨t, hmake⟩ := Tree.exists_make (.file []) (ht.temps name directory hfresh) hdir
      rw [Tree.create, hmake] at herr
      cases herr
    · exact ⟨e, [.create ((tempPrefix ++ name) :: directory)], rfl, hfaults, by simp, by simp⟩

/-! ## Cleaning up -/

/-- A hidden file is unlinked, or was missing. -/
theorem passes_unlinkMissingOk {path : FilePath} (hpath : HiddenPath path) :
    (unlinkMissingOk path).Passes (onDisk faults) (Quiet faults d)
      (fun r d' => d'.failed = d.failed ∧ (r = .ok () ∨ ∃ e, r = .error (.os e))) d := by
  refine ⟨Quiet.refl faults d, fun _ hcut => hcut.elim, fun a d₁ hh => ?_⟩
  obtain ⟨hquiet, hfailed⟩ := handles_unlink hpath hh
  cases a with
  | ok u => exact ⟨hquiet, hfailed, .inl rfl⟩
  | error e =>
    show Prog.Passes _ _ _ (if e.errno = .enoent then _ else _) _
    split
    · exact ⟨hquiet, hfailed, .inl rfl⟩
    · exact ⟨hquiet, hfailed, .inr ⟨e, rfl⟩⟩

/-- **The cleanup of a write** is quiet, and ends as an `OSError`. -/
theorem passes_cleanup {α : Type} {temps : List FilePath} (htemps : ∀ p ∈ temps, HiddenPath p) (e : OsError) :
    (FilesystemStorage.cleanup temps (.os e) : Fs α).Passes (onDisk faults) (Quiet faults d)
      (fun r d' => d'.failed = d.failed ∧ ∃ e, r = .error (.os e)) d := by
  induction temps generalizing d with
  | nil => exact ⟨Quiet.refl faults d, rfl, e, rfl⟩
  | cons path temps ih =>
    obtain ⟨hpath, htemps⟩ := List.forall_mem_cons.mp htemps
    have hcons : (FilesystemStorage.cleanup (path :: temps) (.os e) : Fs α) =
        (unlinkMissingOk path >>= fun _ => FilesystemStorage.cleanup temps (.os e)) :=
      Prog.bind_assoc (unlinkMissingOk path) _ _
    rw [hcons]
    refine (passes_unlinkMissingOk hpath).bind ?_ ?_
    · rintro u d₁ hquiet ⟨hfailed, -⟩
      refine (ih htemps).mono (fun d₂ h => hquiet.quiet h) fun r d₂ _ hr => ?_
      exact ⟨hr.1.trans hfailed, hr.2⟩
    · rintro e' d₁ - ⟨hfailed, hr | ⟨e'', hr⟩⟩
      · cases hr
      · exact ⟨hfailed, e'', by rw [Except.error.inj hr]⟩

end

/-! ## A write -/

section

variable (faults : Prop) (directory : FilePath) (leaf : Str) (data : Bytes) (metadata : Metadata)

/-- The new body is there, beside the old sidecar. -/
abbrev BodyOnly (d d' : Disk) : Prop :=
  Leaves faults d d' (Function.update d.tree.read ((leaf ++ bodySuffix) :: directory) (.ok data))

/-- The new object is there, under a token that was drawn on the way. -/
structure FullyWritten (d d' : Disk) (token : Str) : Prop where
  uuid : isUuidHex token = true
  fresh : token ∉ d.drawn
  drawn : token ∈ d'.drawn
  leaves : Leaves faults d d' (Function.update
    (Function.update d.tree.read ((leaf ++ bodySuffix) :: directory) (.ok data))
    ((leaf ++ sidecarSuffix) :: directory) (.ok (sidecarBytes ⟨token, metadata⟩)))

/-- The disks that a write passes. -/
def WritePasses (d d' : Disk) : Prop :=
  Quiet faults d d' ∨ BodyOnly faults directory leaf data d d' ∨
    ∃ token, FullyWritten faults directory leaf data metadata d d' token

/-- How a write ends. It raises an `OSError` with the old object in place, unless it is the second
replace that failed. -/
def WriteEnds (d : Disk) (r : Except FsExc Str) (d' : Disk) : Prop :=
  (∃ token, r = .ok token ∧ d'.failed = d.failed ∧ FullyWritten faults directory leaf data metadata d d' token) ∨
    ∃ e steps, r = .error (.os e) ∧ Faults d d' steps ∧ (d.Tidy → steps ≠ []) ∧
      ((Quiet faults d d' ∧ ∀ src, .replace src ((leaf ++ sidecarSuffix) :: directory) ∉ steps) ∨
        BodyOnly faults directory leaf data d d' ∧
          ((∃ src, .replace src ((leaf ++ sidecarSuffix) :: directory) ∈ steps) ∨
            d.tree.read ((leaf ++ sidecarSuffix) :: directory) = .error .eisdir))

end

section

variable {faults : Prop} {directory : FilePath} {leaf : Str} {data : Bytes} {metadata : Metadata} {d : Disk}

/-- The cleanup after a quiet part. -/
theorem passes_abort {d₁ : Disk} {temps : List FilePath} (htemps : ∀ p ∈ temps, HiddenPath p) {e : OsError}
    {steps : List FsOp} (hquiet : Quiet faults d d₁) (hfaults : Faults d d₁ steps)
    (hne : d.Tidy → steps ≠ []) (hsteps : ∀ src, .replace src ((leaf ++ sidecarSuffix) :: directory) ∉ steps) :
    (FilesystemStorage.cleanup temps (.os e) : Fs Str).Passes (onDisk faults)
      (WritePasses faults directory leaf data metadata d) (WriteEnds faults directory leaf data metadata d) d₁ :=
  (passes_cleanup htemps e).mono (fun _ h => .inl (hquiet.quiet h)) fun _ _ h hend => by
    obtain ⟨hfailed, e', hr⟩ := hend
    exact .inr ⟨e', steps, hr, hfailed.trans hfaults, hne, .inl ⟨hquiet.quiet h, hsteps⟩⟩

/-- **A write**, whatever fails and wherever it is cut short. -/
theorem passes_write (hdir : DirPath directory) (hbody : ObjectPath ((leaf ++ bodySuffix) :: directory))
    (hsidecar : ObjectPath ((leaf ++ sidecarSuffix) :: directory)) :
    (FilesystemStorage.write directory leaf data metadata).Passes (onDisk faults)
      (WritePasses faults directory leaf data metadata d) (WriteEnds faults directory leaf data metadata d) d := by
  have hpaths : (leaf ++ sidecarSuffix) :: directory ≠ (leaf ++ bodySuffix) :: directory := fun heq =>
    sidecarName_ne_bodyName leaf leaf (List.cons.inj heq).1
  refine ⟨.inl (Quiet.refl faults d), fun _ hcut => hcut.elim, fun token d₁ hh => ?_⟩
  have hquiet₁ := quiet_uuid4 hh
  obtain ⟨huuid, hfresh, hd₁⟩ := handles_uuid4 hh
  have htoken : token ∈ d₁.drawn := by
    rw [hd₁]
    exact FinSet.mem_insert.mpr (.inl rfl)
  have hfailed₁ : d₁.failed = d.failed := by rw [hd₁]
  refine Prog.Passes.bind_attempt ((passes_mkdirParents hdir).mono (fun w h => .inl (hquiet₁.quiet h))
    fun r w h hr => And.intro h hr) ?_
  rintro _ d₂ - ⟨hquiet₂, ⟨rfl, hfailed₂, hnode₂⟩ | ⟨e, steps, rfl, hfaults, hsteps, hne⟩⟩
  swap
  · refine passes_abort (by simp) (hquiet₁.quiet hquiet₂) ?_ (fun ht => hne (hquiet₁.tidy ht) trivial) ?_
    · rw [Faults, hfaults, hfailed₁]
    · intro src hmem
      obtain ⟨p, hp⟩ := hsteps _ hmem
      cases hp
  have htoken := hquiet₂.drawn token htoken
  have hquiet₂ := hquiet₁.quiet hquiet₂
  have hfailed₂ := hfailed₂.trans hfailed₁
  refine Prog.Passes.bind_attempt (passes_writeTemp.mono (fun w h => .inl (hquiet₂.quiet h))
    fun r w h hr => And.intro h hr) ?_
  rintro _ d₃ - ⟨hquiet₃, ⟨name, hname, hname₃, rfl, hfailed₃, hnode₃⟩ | ⟨e, steps, rfl, hfaults, hsteps, hne⟩⟩
  swap
  · refine passes_abort (by simp) (hquiet₂.quiet hquiet₃) ?_ (fun ht => hne (hquiet₂.tidy ht) hnode₂)
      fun src => hsteps src _
    rw [Faults, hfaults, hfailed₂]
  have hdir₃ : d₃.tree.node directory = some .dir := by
    rw [hnode₃]
    split
    · next heq => exact absurd (hiddenPath_temp name directory) (heq ▸ hdir).not_hidden
    · exact hnode₂
  have htoken := hquiet₃.drawn token htoken
  have hquiet₃ := hquiet₂.quiet hquiet₃
  have hfailed₃ := hfailed₃.trans hfailed₂
  have hbodyTmp := hiddenPath_temp name directory
  refine Prog.Passes.bind_attempt (passes_writeTemp.mono (fun w h => .inl (hquiet₃.quiet h))
    fun r w h hr => And.intro h hr) ?_
  rintro _ d₄ - ⟨hquiet₄, ⟨name', hname', -, rfl, hfailed₄, hnode₄⟩ | ⟨e, steps, rfl, hfaults, hsteps, hne⟩⟩
  swap
  · refine passes_abort (by simpa using hbodyTmp) (hquiet₃.quiet hquiet₄) ?_
      (fun ht => hne (hquiet₃.tidy ht) hdir₃) fun src => hsteps src _
    rw [Faults, hfaults, hfailed₃]
  have htoken := hquiet₄.drawn token htoken
  have hquiet₄ := hquiet₃.quiet hquiet₄
  have hfailed₄ := hfailed₄.trans hfailed₃
  have hsidecarTmp := hiddenPath_temp name' directory
  have htemps : ∀ p ∈ [(tempPrefix ++ name) :: directory, (tempPrefix ++ name') :: directory], HiddenPath p := by
    simpa using ⟨hbodyTmp, hsidecarTmp⟩
  -- The two temp files are there under different names.
  have htemps_ne : (tempPrefix ++ name') :: directory ≠ (tempPrefix ++ name) :: directory := fun heq =>
    hname' (List.append_cancel_left (List.cons.inj heq).1 ▸ hname₃)
  have hsrc : d₄.tree.node ((tempPrefix ++ name) :: directory) = some (.file data) := by
    rw [hnode₄, if_neg htemps_ne.symm, hnode₃, if_pos rfl]
  refine ⟨.inl hquiet₄, fun _ hcut => hcut.elim, fun a d₅ hh => ?_⟩
  rcases handles_replace hsrc hbody hh with ⟨rfl, hleaves₅, hfailed₅, -, hhidden₅⟩ | ⟨e, rfl, hquiet₅, hrefused⟩
  swap
  · rcases hrefused with ⟨rfl, hisdir⟩ | hfaults
    · exact passes_abort htemps hquiet₄ (faults_nil.mpr hfailed₄)
        (fun ht => absurd hisdir ((hquiet₄.tidy ht).read_ne hbody)) (by simp)
    · refine passes_abort htemps (hquiet₄.quiet hquiet₅) (hfaults.trans (congrArg (· ++ _) hfailed₄)) (by simp) ?_
      simp only [List.mem_singleton, FsOp.replace.injEq, not_and]
      exact fun src _ heq => hpaths heq
  have hbodyOnly : BodyOnly faults directory leaf data d d₅ := hquiet₄.then hleaves₅
  have hfailed₅ := hfailed₅.trans hfailed₄
  have hsrc' : d₅.tree.node ((tempPrefix ++ name') :: directory) =
      some (.file (sidecarBytes ⟨token, metadata⟩)) := by
    rw [hhidden₅ _ hsidecarTmp htemps_ne, hnode₄, if_pos rfl]
  refine ⟨.inr (.inl hbodyOnly), fun _ hcut => hcut.elim, fun a d₆ hh => ?_⟩
  rcases handles_replace hsrc' hsidecar hh with ⟨rfl, hleaves₆, hfailed₆, -⟩ | ⟨e, rfl, hquiet₆, hrefused⟩
  · -- The sidecar is there: the write has committed.
    have hcommitted : FullyWritten faults directory leaf data metadata d d₆ token :=
      ⟨huuid, hfresh, hleaves₆.drawn token (hleaves₅.drawn token htoken),
        hbodyOnly.then hleaves₆⟩
    exact ⟨.inr (.inr ⟨token, hcommitted⟩), .inl ⟨token, rfl, hfailed₆.trans hfailed₅, hcommitted⟩⟩
  · have hread : d₅.tree.read ((leaf ++ sidecarSuffix) :: directory) =
        d.tree.read ((leaf ++ sidecarSuffix) :: directory) := by
      rw [hbodyOnly.reads _ hsidecar, Function.update_of_ne hpaths]
    refine (passes_cleanup htemps e).mono (fun w h => .inr (.inl (hbodyOnly.quiet (hquiet₆.quiet h)))) ?_
    rintro r d₇ h ⟨hfailed₇, e', hr⟩
    refine .inr ?_
    have hbody₇ := hbodyOnly.quiet (hquiet₆.quiet h)
    rcases hrefused with ⟨rfl, hisdir⟩ | hfaults
    · refine ⟨e', [], hr, faults_nil.mpr (hfailed₇.trans hfailed₅), fun ht => ?_, .inr ⟨hbody₇, .inr ?_⟩⟩
      · exact absurd hisdir ((hbodyOnly.tidy ht).read_ne hsidecar)
      · rw [← hread, hisdir]
    · refine ⟨e', _, hr, hfailed₇.trans (hfaults.trans (congrArg (· ++ _) hfailed₅)), by simp,
        .inr ⟨hbody₇, .inl ⟨_, List.mem_singleton_self _⟩⟩⟩

/-! ## The methods that write -/

/-- An update is read alike where the rest is. -/
theorem update_congr {f g : FilePath → Except Errno Bytes} {p q : FilePath} (x : Except Errno Bytes)
    (h : f q = g q) : Function.update f p x q = Function.update g p x q := by
  by_cases hq : q = p
  · rw [hq, Function.update_self, Function.update_self]
  · rw [Function.update_of_ne hq, Function.update_of_ne hq, h]

variable {d₁ d' : Disk}

/-- A quiet step may go before a write of the body. -/
theorem BodyOnly.of_quiet (hquiet : Quiet faults d d₁) (h : BodyOnly faults directory leaf data d₁ d') :
    BodyOnly faults directory leaf data d d' :=
  (hquiet.leaves h).congr fun p hp => update_congr _ (hquiet.reads p hp)

/-- A quiet step may go before a write. -/
theorem FullyWritten.of_quiet {token : Str} (hquiet : Quiet faults d d₁)
    (h : FullyWritten faults directory leaf data metadata d₁ d' token) :
    FullyWritten faults directory leaf data metadata d d' token where
  uuid := h.uuid
  fresh hmem := h.fresh (hquiet.drawn token hmem)
  drawn := h.drawn
  leaves := (hquiet.leaves h.leaves).congr fun p hp =>
    update_congr _ (update_congr _ (hquiet.reads p hp))

/-- A quiet step may go before what a write passes through. -/
theorem WritePasses.of_quiet (hquiet : Quiet faults d d₁)
    (h : WritePasses faults directory leaf data metadata d₁ d') :
    WritePasses faults directory leaf data metadata d d' := by
  rcases h with h | h | ⟨token, h⟩
  · exact .inl (hquiet.quiet h)
  · exact .inr (.inl (h.of_quiet hquiet))
  · exact .inr (.inr ⟨token, h.of_quiet hquiet⟩)

/-- A quiet step may go before how a write ends. -/
theorem WriteEnds.of_quiet (hsidecar : ObjectPath ((leaf ++ sidecarSuffix) :: directory))
    (hquiet : Quiet faults d d₁) (hfailed : d₁.failed = d.failed) {r : Except FsExc Str}
    (h : WriteEnds faults directory leaf data metadata d₁ r d') :
    WriteEnds faults directory leaf data metadata d r d' := by
  rcases h with ⟨token, rfl, hfailed', h⟩ | ⟨e, steps, rfl, hfaults, hne, h⟩
  · exact .inl ⟨token, rfl, hfailed'.trans hfailed, h.of_quiet hquiet⟩
  · refine .inr ⟨e, steps, rfl, hfaults.trans (congrArg (· ++ steps) hfailed), fun ht => hne (hquiet.tidy ht), ?_⟩
    rcases h with ⟨h, hsteps⟩ | ⟨h, hsteps⟩
    · exact .inl ⟨hquiet.quiet h, hsteps⟩
    · exact .inr ⟨h.of_quiet hquiet, hsteps.imp_right fun hdir => hquiet.reads _ hsidecar ▸ hdir⟩

/-- What the caller sees of how a program inside a method ended. -/
def seen {α : Type} : Except FsExc α → Except Exc α
  | .ok a => .ok a
  | .error (.os e) => .error (.backendUnavailableError .unavailable e.text)
  | .error (.exc e) => .error e

/-- Renaming its error changes nothing of what a program passes through. -/
theorem passes_unavailable {α : Type} {p : Fs α} {M : Mortal FsSig Disk} {I : Disk → Prop}
    {Q : Except Exc α → Disk → Prop} :
    (FilesystemStorage.unavailable p).Passes M I Q d ↔ p.Passes M I (fun r d' => Q (seen r) d') d := by
  rw [FilesystemStorage.unavailable, Prog.passes_bind, Prog.passes_attempt]
  constructor <;> intro h <;> refine h.mono (fun _ hI => hI) fun r d' hI hr => ?_
  · rcases r with (e | e) | a
    · exact hr.2
    · exact hr.2
    · exact hr.2
  · rcases r with (e | e) | a
    · exact ⟨hI, hr⟩
    · exact ⟨hI, hr⟩
    · exact ⟨hI, hr⟩

end

end Wenchang
