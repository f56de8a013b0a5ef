import Wenchang.Laws.FileWrites

/-!
# `FilesystemStorage.get`

What a read returns is a function of the files of objects (`objectAt`, `returns_iff`), so a quiet step
changes no read, and after a write the reads are known of every key.
-/

namespace Wenchang

open Py Ordered Files Interaction

/-- A call that `get` makes. -/
def ReadOp (o : FsOp) : Prop := (∃ exclusive, o = .lock exclusive) ∨ ∃ path, o = .readBytes path

/-- A disk without faults answers each call of a read. -/
theorem exists_answer {o : FsOp} (ho : ReadOp o) (d : Disk) : ∃ a d', (onDisk False).handles d o a d' := by
  rcases ho with ⟨exclusive, rfl⟩ | ⟨path, rfl⟩
  · have hdoes : ∃ a d', d.Does (Disk.openLock d.tree) a d' := by
      cases Disk.openLock d.tree with
      | ok t => exact ⟨_, _, .done t⟩
      | error errno => exact ⟨_, _, .refused errno []⟩
    obtain ⟨a, d', hdoes⟩ := hdoes
    exact ⟨a, d', .inl hdoes⟩
  · cases h : d.tree.read path with
    | ok data => exact ⟨.ok data, d, .inl ⟨rfl, h.symm⟩⟩
    | error errno => exact ⟨.error ⟨errno, []⟩, d, .inl ⟨rfl, h.symm⟩⟩

section

variable [Interpreter] {fs : FilesystemStorage} {faults : Prop} {d : Disk}

/-! ## Sidecars -/

/-- How `_read_sidecar` ends, by what is found at the path. -/
inductive SidecarRead (fs : FilesystemStorage) (path : FilePath) :
    Except Errno Bytes → Except FsExc (Option Sidecar) → Prop
  | absent : SidecarRead fs path (.error .enoent) (.ok none)
  | refused (e : OsError) (other : e.errno ≠ .enoent) : SidecarRead fs path (.error e.errno) (.error (.os e))
  | read (raw : Bytes) (sidecar : Sidecar) (parsed : fs.parseSidecar path raw = .ok sidecar) :
    SidecarRead fs path (.ok raw) (.ok (some sidecar))
  | corrupt (raw : Bytes) (e : Exc) (parsed : fs.parseSidecar path raw = .error e) :
    SidecarRead fs path (.ok raw) (.error (.exc e))

/-- A sidecar is read as the disk has it. -/
theorem passes_readSidecar (path : FilePath) : (fs.readSidecar path).Passes (onDisk faults) (fun d' => d' = d)
    (fun r _ => SidecarRead fs path (d.tree.read path) r) d := by
  refine ⟨rfl, fun _ hcut => hcut.elim, fun a d₁ hh => ?_⟩
  obtain ⟨rfl, hread⟩ := handles_readBytes hh
  cases a with
  | error e =>
    obtain hread : d₁.tree.read path = .error e.errno := hread.symm
    show Prog.Passes _ _ _ (if e.errno = .enoent then _ else _) _
    split
    · next hnoent =>
      refine ⟨rfl, ?_⟩
      rw [hread, hnoent]
      exact .absent
    · next hother =>
      refine ⟨rfl, ?_⟩
      rw [hread]
      exact .refused e hother
  | ok raw =>
    obtain hread : d₁.tree.read path = .ok raw := hread.symm
    show Prog.Passes _ _ _ (Prog.ofExcept ((fs.parseSidecar path raw).mapError FsExc.exc) >>=
      fun sidecar => .ret (some sidecar)) _
    rw [hread]
    cases hparsed : fs.parseSidecar path raw with
    | error e => exact ⟨rfl, .corrupt raw e hparsed⟩
    | ok sidecar => exact ⟨rfl, .read raw sidecar hparsed⟩

/-! ## Objects -/

/-- The object under a key, by what is read; `none` where a read raises. -/
def objectAt (fs : FilesystemStorage) (directory : FilePath) (leaf : Str)
    (reads : FilePath → Except Errno Bytes) : Option (Option StoredObject) :=
  match reads ((leaf ++ sidecarSuffix) :: directory) with
  | .error errno => if errno = .enoent then some none else none
  | .ok raw =>
    match fs.parseSidecar ((leaf ++ sidecarSuffix) :: directory) raw with
    | .error _ => none
    | .ok sidecar =>
      match reads ((leaf ++ bodySuffix) :: directory) with
      | .error _ => none
      | .ok data => some (some ⟨data, sidecar.metadata, sidecar.version⟩)

variable {key : Str} {directory : FilePath} {leaf : Str}

/-- **A read returns what the files hold.** -/
theorem passes_get (hkey : FilesystemStorage.locate key = .ok (directory, leaf)) :
    (fs.get key).Passes (onDisk faults) (Quiet faults d) (fun r d' => d'.failed = d.failed ∧
      ∀ x, r = .ok x ↔ d.tree.node [lockName] ≠ some .dir ∧ objectAt fs directory leaf d.tree.read = some x)
      d := by
  have hsidecar := objectPath_of_locate hkey (.inr rfl)
  have hbody := objectPath_of_locate hkey (.inl rfl)
  rw [FilesystemStorage.get, hkey, Prog.ofExcept_ok, Prog.ret_bind]
  -- What the program inside comes to.
  refine Prog.Passes.bind_attempt (Q := fun r d' => d'.failed = d.failed ∧ ∀ x, r = .ok x ↔
    d.tree.node [lockName] ≠ some .dir ∧ objectAt fs directory leaf d.tree.read = some x) ?_ ?_
  · refine (passes_locked false).bind ?_ ?_
    · rintro u d₁ hquiet ⟨hfailed, ⟨-, hlocked⟩ | ⟨e, hr, -⟩⟩
      swap
      · cases hr
      refine Prog.Passes.bind ((passes_readSidecar _).mono (fun w h => h ▸ hquiet)
        fun r w h hr => And.intro h hr) ?_ ?_
      · rintro found _ - ⟨rfl, hr⟩
        rw [hquiet.reads _ hsidecar] at hr
        generalize hread : d.tree.read ((leaf ++ sidecarSuffix) :: directory) = result at hr
        cases hr with
        | absent =>
          refine ⟨hquiet, hfailed, fun x => ?_⟩
          simp [objectAt, hread, hlocked]
        | read raw sidecar hparsed =>
          refine ⟨hquiet, fun _ hcut => hcut.elim, fun a d₂ hh₂ => ?_⟩
          obtain ⟨rfl, hdata⟩ := handles_readBytes hh₂
          rw [hquiet.reads _ hbody] at hdata
          cases a with
          | ok data =>
            obtain hdata : d.tree.read ((leaf ++ bodySuffix) :: directory) = .ok data := hdata.symm
            refine ⟨hquiet, hfailed, fun x => ?_⟩
            simp [objectAt, hread, hparsed, hdata, hlocked]
          | error e =>
            obtain hdata : d.tree.read ((leaf ++ bodySuffix) :: directory) = .error e.errno := hdata.symm
            show Prog.Passes _ _ _ (if e.errno = .enoent then _ else _) _
            split <;>
              exact ⟨hquiet, hfailed, fun x => by simp [objectAt, hread, hparsed, hdata]⟩
      · rintro e _ - ⟨rfl, hr⟩
        rw [hquiet.reads _ hsidecar] at hr
        generalize hread : d.tree.read ((leaf ++ sidecarSuffix) :: directory) = result at hr
        cases hr with
        | refused e hother => exact ⟨hfailed, fun x => by simp [objectAt, hread, hother]⟩
        | corrupt raw e hparsed => exact ⟨hfailed, fun x => by simp [objectAt, hread, hparsed]⟩
    · rintro e d₁ - ⟨hfailed, ⟨hr, -⟩ | ⟨e', -, hdir⟩⟩
      · cases hr
      · exact ⟨hfailed, fun x => by simp [hdir]⟩
  · rintro r d' hquiet ⟨hfailed, hr⟩
    rcases r with (e | e) | found
    · refine ⟨hquiet, hfailed, fun x => ?_⟩
      rw [← hr]
      simp
    · refine ⟨hquiet, hfailed, fun x => ?_⟩
      rw [← hr]
      simp
    · exact ⟨hquiet, hfailed, fun x => by simpa using hr x⟩

/-! ## What a caller reads -/

/-- On a disk without faults, `get` may return this. -/
def FilesystemStorage.Returns (fs : FilesystemStorage) (d : Disk) (key : Str) (x : Option StoredObject) : Prop :=
  ∃ d', (fs.get key).Runs (onDisk False).handles d (.ok x) d'

/-- A get only reads. -/
theorem issues_get (key : Str) : (fs.get key).Issues ReadOp := by
  have hsys : ∀ {path : FilePath}, (sys (.readBytes path)).Issues ReadOp := fun {path} =>
    ⟨.inr ⟨path, rfl⟩, fun _ => trivial⟩
  have hsidecar : ∀ path, (fs.readSidecar path).Issues ReadOp := fun path => by
    refine hsys.bind fun a => ?_
    cases a with
    | error e =>
      show Prog.Issues _ (if e.errno = .enoent then _ else _)
      split <;> trivial
    | ok raw => exact (Prog.issues_ofExcept _).bind fun _ => trivial
  rw [FilesystemStorage.get]
  refine (Prog.issues_ofExcept _).bind fun place => ?_
  refine Prog.Issues.bind (Prog.Issues.attempt ?_) fun r => ?_
  · refine Prog.Issues.bind ⟨.inl ⟨false, rfl⟩, fun a => Prog.issues_ofExcept _⟩ fun _ => ?_
    refine (hsidecar _).bind fun found => ?_
    cases found with
    | none => trivial
    | some sidecar =>
      refine hsys.bind fun a => ?_
      cases a with
      | ok data => trivial
      | error e =>
        show Prog.Issues _ (if e.errno = .enoent then _ else _)
        split <;> trivial
  · rcases r with (e | e) | found <;> trivial

/-- **What `get` returns.** -/
theorem returns_iff (hkey : FilesystemStorage.locate key = .ok (directory, leaf)) {x : Option StoredObject} :
    fs.Returns d key x ↔
      d.tree.node [lockName] ≠ some .dir ∧ objectAt fs directory leaf d.tree.read = some x := by
  have hpasses := @passes_get _ fs False d key directory leaf hkey
  constructor
  · rintro ⟨d', hrun⟩
    exact ((hpasses.of_runs hrun).2 x).mp rfl
  · intro h
    obtain ⟨r, d', hrun, -, hr⟩ :=
      hpasses.ends.exists_run (issues_get key) fun o ho d => exists_answer ho d
    obtain rfl := (hr x).mpr h
    exact ⟨d', hrun⟩

/-- A get returns one object. -/
theorem returns_unique (hkey : FilesystemStorage.locate key = .ok (directory, leaf))
    {x y : Option StoredObject} (hx : fs.Returns d key x) (hy : fs.Returns d key y) : x = y :=
  Option.some.inj (((returns_iff hkey).mp hx).2.symm.trans ((returns_iff hkey).mp hy).2)

/-- A key without files is not read. -/
theorem not_returns {e : Exc} (hkey : FilesystemStorage.locate key = .error e) {x : Option StoredObject} :
    ¬ fs.Returns d key x := by
  rintro ⟨d', hrun⟩
  rw [FilesystemStorage.get, hkey, Prog.ofExcept_error, Prog.raise_bind] at hrun
  cases (Prog.runs_raise.mp hrun).1

/-- A key is read alike where its two files are. -/
theorem returns_congr {d' : Disk} (hkey : FilesystemStorage.locate key = .ok (directory, leaf))
    (hlock : d.tree.node [lockName] ≠ some .dir) (hlock' : d'.tree.node [lockName] ≠ some .dir)
    (hreads : ∀ suffix, suffix = bodySuffix ∨ suffix = sidecarSuffix →
      d'.tree.read ((leaf ++ suffix) :: directory) = d.tree.read ((leaf ++ suffix) :: directory))
    (x : Option StoredObject) : fs.Returns d' key x ↔ fs.Returns d key x := by
  have hsame : objectAt fs directory leaf d'.tree.read = objectAt fs directory leaf d.tree.read := by
    unfold objectAt
    rw [hreads _ (.inl rfl), hreads _ (.inr rfl)]
  rw [returns_iff hkey, returns_iff hkey, hsame]
  exact and_congr_left' (iff_of_true hlock' hlock)

end

end Wenchang
