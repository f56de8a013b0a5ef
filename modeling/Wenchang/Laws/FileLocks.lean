import Wenchang.Interaction.Locked
import Wenchang.Laws.FileSteps

/-!
# The lock of `FilesystemStorage`

Every method opens the lock file and waits for a lock on it, shared to read and exclusive to write, before it
looks at any other file (`sectioned_perform`). The lock file is made once, and nothing removes it, so opening it
again changes nothing (`lawful_fileLock`): the lock file is a lock as `Interaction.Locked` has it.
-/

namespace Wenchang

open Py Ordered Files Interaction FilesystemStorage

/-! ## What a method does behind the lock -/

/-- A call that only reads. -/
def FsOp.Reads : FsOp → Prop
  | .readBytes _ => True
  | .isDir _ => True
  | .scandir _ => True
  | _ => False

/-- A call that asks for no lock, leaves the lock file where it is, and makes no directory as deep as `depth`. -/
def FsOp.Within (depth : Nat) : FsOp → Prop
  | .lock _ => False
  | .mkdir path => path.length < depth
  | .replace src _ => src ≠ [lockName]
  | .unlink path => path ≠ [lockName]
  | _ => True

/-- The lock that a call now waits for. -/
def FsOp.takes : (o : FsOp) → o.Ans → Option Bool
  | .lock exclusive, .ok _ => some exclusive
  | _, _ => none

/-- What only reads is done within any depth. -/
theorem FsOp.Reads.within {o : FsOp} (h : o.Reads) (depth : Nat) : o.Within depth := by
  cases o <;> trivial

/-- What is done under the lock takes none. -/
theorem FsOp.Within.takes {depth : Nat} {o : FsOp} (h : o.Within depth) (a : o.Ans) : o.takes a = none := by
  cases o <;> first | rfl | exact h.elim

section

variable {depth : Nat}

/-- One operation asks for itself. -/
theorem issues_sys {P : FsOp → Prop} (o : FsOp) (h : P o) : (sys o).Issues P := ⟨h, fun _ => trivial⟩

/-- What is raised asks for nothing. -/
theorem issues_orRaise {α : Type} {P : FsOp → Prop} (answer : Except OsError α) : (orRaise answer).Issues P :=
  Prog.issues_ofExcept _

/-- A file that is not the lock may be unlinked under it. -/
theorem issues_unlinkMissingOk {path : FilePath} (h : path ≠ [lockName]) :
    (unlinkMissingOk path).Issues (FsOp.Within depth) := by
  refine ⟨h, fun a => ?_⟩
  cases a with
  | ok u => trivial
  | error e =>
    show Prog.Issues _ (if e.errno = .enoent then _ else _)
    split <;> trivial

/-- Whether what could not be made is a directory. -/
theorem issues_isDir (path : FilePath) (e : OsError) : (do
    match ← sys (.isDir path) with
    | true => return ()
    | false => .raise (.os e) : Fs Unit).Issues (FsOp.Within depth) := by
  refine ⟨trivial, fun a => ?_⟩
  cases a <;> trivial

/-- A directory is made within the depth of its path. -/
theorem issues_mkdirExistOk {path : FilePath} (h : path.length < depth) :
    (mkdirExistOk path).Issues (FsOp.Within depth) := by
  refine ⟨h, fun a => ?_⟩
  cases a with
  | ok u => trivial
  | error e =>
    show Prog.Issues _ (if e.errno = .enoent then _ else _)
    split
    next => trivial
    next => exact issues_isDir path e

/-- So are its parents. -/
theorem issues_mkdirParents {path : FilePath} (h : path.length < depth) :
    (mkdirParents path).Issues (FsOp.Within depth) := by
  induction path with
  | nil =>
    rw [mkdirParents]
    refine (issues_sys (.mkdir _) h).bind fun a => ?_
    cases a with
    | ok u => trivial
    | error e =>
      show Prog.Issues _ (if e.errno = .enoent then _ else _)
      split
      next => trivial
      next => exact issues_isDir [] e
  | cons name path ih =>
    rw [mkdirParents]
    refine (issues_sys (.mkdir _) h).bind fun a => ?_
    cases a with
    | ok u => trivial
    | error e =>
      show Prog.Issues _ (if e.errno = .enoent then _ else _)
      split
      next => exact (ih (Nat.lt_of_succ_lt h)).bind fun _ => issues_mkdirExistOk h
      next => exact issues_isDir (name :: path) e

/-- No file with a temporary name is the lock file. -/
theorem temp_ne_lock (name : Str) (directory : FilePath) : (tempPrefix ++ name) :: directory ≠ [lockName] := by
  intro h
  have htake := congrArg (List.take 2) (List.cons.inj h).1
  revert htake
  simp [tempPrefix, lockName, str]
  decide

/-- No file of an object is the lock file. -/
theorem object_ne_lock {suffix : Str} (h : suffix = sidecarSuffix ∨ suffix = bodySuffix) (leaf : Str)
    (directory : FilePath) : (leaf ++ suffix) :: directory ≠ [lockName] := by
  intro heq
  have hlast := congrArg List.getLast? (List.cons.inj heq).1
  rw [List.getLast?_append] at hlast
  have hends : sidecarSuffix.getLast? = some 97 ∧ bodySuffix.getLast? = some 106 := by decide
  rcases h with rfl | rfl
  · rw [hends.1, Option.some_or] at hlast
    exact absurd hlast (by decide)
  · rw [hends.2, Option.some_or] at hlast
    exact absurd hlast (by decide)

/-- What goes on from a temporary file goes on from one that is not the lock file. -/
theorem issues_writeTemp {α : Type} {f : Except FsExc FilePath → Fs α} (directory : FilePath) (data : Bytes)
    (hf : ∀ r, (∀ path, r = .ok path → path ≠ [lockName]) → (f r).Issues (FsOp.Within depth)) :
    ((writeTemp directory data).attempt >>= f).Issues (FsOp.Within depth) := by
  refine ⟨trivial, fun name => ⟨trivial, fun created => ?_⟩⟩
  cases created with
  | error e => exact hf (.error (.os e)) fun _ h => by cases h
  | ok u =>
    refine ⟨trivial, fun written => ?_⟩
    cases written with
    | error e => exact hf (.error (.os e)) fun _ h => by cases h
    | ok u => exact hf (.ok _) fun path hpath => Except.ok.inj hpath ▸ temp_ne_lock name directory

/-- A cleanup stays under the lock. -/
theorem issues_cleanup {α : Type} {temps : List FilePath} (h : ∀ path ∈ temps, path ≠ [lockName]) (e : FsExc) :
    (cleanup temps e : Fs α).Issues (FsOp.Within depth) := by
  have htemps : (temps.forM unlinkMissingOk).Issues (FsOp.Within depth) := by
    induction temps with
    | nil => trivial
    | cons path temps ih =>
      obtain ⟨hpath, hrest⟩ := List.forall_mem_cons.mp h
      exact (issues_unlinkMissingOk hpath).bind fun _ => ih hrest
  exact htemps.bind fun _ => trivial

/-- A write stays under the lock, and within the depth of its directory. -/
theorem issues_write {directory : FilePath} (h : directory.length < depth) (leaf : Str) (data : Bytes)
    (metadata : Metadata) : (write directory leaf data metadata).Issues (FsOp.Within depth) := by
  refine ⟨trivial, fun token => ?_⟩
  refine (issues_mkdirParents h).attempt.bind fun made => ?_
  cases made with
  | error e => exact issues_cleanup (List.forall_mem_nil _) e
  | ok u =>
    refine issues_writeTemp directory data fun body hbody => ?_
    cases body with
    | error e => exact issues_cleanup (List.forall_mem_nil _) e
    | ok bodyTmp =>
      have hbodyTmp := hbody bodyTmp rfl
      refine issues_writeTemp directory _ fun sidecar hsidecar => ?_
      cases sidecar with
      | error e => exact issues_cleanup (List.forall_mem_singleton.mpr hbodyTmp) e
      | ok sidecarTmp =>
        have hsidecarTmp := hsidecar sidecarTmp rfl
        have htemps : ∀ path ∈ [bodyTmp, sidecarTmp], path ≠ [lockName] :=
          List.forall_mem_cons.mpr ⟨hbodyTmp, List.forall_mem_singleton.mpr hsidecarTmp⟩
        refine ⟨hbodyTmp, fun moved => ?_⟩
        cases moved with
        | error e => exact issues_cleanup htemps (.os e)
        | ok u =>
          refine ⟨hsidecarTmp, fun moved => ?_⟩
          cases moved with
          | error e => exact issues_cleanup htemps (.os e)
          | ok u => trivial

/-- Pruning stays under the lock. -/
theorem issues_pruneEmpty (path : FilePath) : (pruneEmpty path).Issues (FsOp.Within depth) := by
  induction path with
  | nil => trivial
  | cons name path ih =>
    refine ⟨trivial, fun a => ?_⟩
    cases a with
    | ok u => exact ih
    | error e => trivial

/-- A walk over entries only reads where each visit does. -/
theorem issues_collectAll {visit : Str × Bool → Fs (List (Str × FilePath))}
    (h : ∀ e, (visit e).Issues FsOp.Reads) (entries : List (Str × Bool)) :
    (collectAll visit entries).Issues FsOp.Reads := by
  induction entries with
  | nil => trivial
  | cons e entries ih => exact (h e).bind fun _ => ih.bind fun _ => trivial

end

section

variable [Interpreter] {fs : FilesystemStorage} {depth : Nat}

/-- A sidecar is only read. -/
theorem issues_readSidecar (path : FilePath) : (fs.readSidecar path).Issues FsOp.Reads := by
  refine ⟨trivial, fun a => ?_⟩
  cases a with
  | error e =>
    show Prog.Issues _ (if e.errno = .enoent then _ else _)
    split <;> trivial
  | ok raw => exact (Prog.issues_ofExcept _).bind fun _ => trivial

/-- A walk only reads. -/
theorem issues_collectWithin (n : Nat) (directory : FilePath) (keyPrefix part : Str) :
    (collect n directory keyPrefix part).Issues FsOp.Reads := by
  induction n generalizing directory keyPrefix part with
  | zero => trivial
  | succ n ih =>
    refine ⟨trivial, fun a => ?_⟩
    cases a with
    | error e =>
      show Prog.Issues _ (if e.errno = .enoent ∨ e.errno = .enotdir then _ else _)
      split <;> trivial
    | ok entries =>
      refine issues_collectAll (fun e => ?_) entries
      unfold collectEntry
      simp only
      split
      next => trivial
      next =>
        split
        next => split <;> trivial
        next =>
          split
          next => trivial
          next =>
            split
            next =>
              split
              next => exact ih _ _ _
              next => trivial
            next => trivial

/-- A page is only read. -/
theorem issues_readPage (keys : List (Str × FilePath)) : (fs.readPage keys).Issues FsOp.Reads := by
  induction keys with
  | nil => trivial
  | cons e keys ih =>
    refine (issues_readSidecar e.2).bind fun found => ?_
    cases found with
    | none => trivial
    | some sidecar => exact ih.bind fun _ => trivial

end

/-! ## The lock -/

/-- The lock file of a root, behind which some calls are allowed to one who holds it exclusively. -/
def fileLock (allowed : FsOp → Prop) : Lock FsSig Disk where
  asks o := ∃ exclusive, o = .lock exclusive
  takes := FsOp.takes
  opened d := (d.tree.file? [lockName]).isSome = true
  inside exclusive o := if exclusive = true then allowed o else o.Reads

section

variable {depth : Nat} {allowed : FsOp → Prop}

/-- What renames an error takes the lock as before. -/
theorem sectioned_unavailable {α : Type} {p : Fs α} (h : p.Sectioned (fileLock allowed)) :
    (unavailable p).Sectioned (fileLock allowed) := by
  refine h.attempt.bind fun r => ?_
  rcases r with (e | e) | a <;> nofun

/-- A method that holds the lock shared. -/
theorem sectioned_shared {α : Type} {f : Unit → Fs α} (h : (f ()).Issues FsOp.Reads) :
    (locked false >>= f).Sectioned (fileLock allowed) := by
  refine ⟨⟨false, rfl⟩, fun a => ?_⟩
  cases a with
  | error e => nofun
  | ok u => exact h.mono fun o ho => ⟨(ho.within 0).takes, ho⟩

/-- A method that holds the lock exclusively. -/
theorem sectioned_exclusive {α : Type} {f : Unit → Fs α} (h : (f ()).Issues (FsOp.Within depth)) :
    (locked true >>= f).Sectioned (fileLock (FsOp.Within depth)) := by
  refine ⟨⟨true, rfl⟩, fun a => ?_⟩
  cases a with
  | error e => nofun
  | ok u => exact h.mono fun o ho => ⟨ho.takes, ho⟩

/-- The directories of the keys that an operation puts are not as deep as `depth`. -/
def StorageOp.Makes [Interpreter] (depth : Nat) (o : StorageOp) : Prop :=
  ∀ key data metadata place, o.write? = some (key, data, metadata) → locate key = .ok place → place.1.length < depth

section

variable [Interpreter] {fs : FilesystemStorage}

/-- **Every method takes the lock first**, and reads behind a shared one. -/
theorem sectioned_perform {o : StorageOp} (ho : o.Makes depth) :
    (fs.perform o).Sectioned (fileLock (FsOp.Within depth)) := by
  cases o with
  | get key =>
    refine (Prog.sectioned_ofExcept_bind fun place => sectioned_unavailable (sectioned_shared ?_)).attempt
    refine (issues_readSidecar _).bind fun found => ?_
    cases found with
    | none => trivial
    | some sidecar =>
      refine (issues_sys (.readBytes _) trivial).bind fun a => ?_
      cases a with
      | ok data => trivial
      | error e =>
        show Prog.Issues _ (if e.errno = .enoent then _ else _)
        split <;> trivial
  | put key data metadata =>
    refine Prog.Sectioned.attempt ?_
    rw [FilesystemStorage.put]
    cases hkey : locate key with
    | error e => trivial
    | ok place =>
      have hdepth := ho key data metadata place rfl hkey
      exact sectioned_unavailable (sectioned_exclusive (issues_write hdepth place.2 data metadata))
  | putIfVersion key data metadata expected =>
    refine Prog.Sectioned.attempt ?_
    rw [FilesystemStorage.putIfVersion]
    cases hkey : locate key with
    | error e => trivial
    | ok place =>
      have hdepth := ho key data metadata place rfl hkey
      refine sectioned_unavailable (sectioned_exclusive ?_)
      refine ((issues_readSidecar _).mono fun o ho => ho.within depth).bind fun found => ?_
      exact (Prog.issues_raiseIf _ _).bind fun _ => issues_write hdepth place.2 data metadata
  | deleteIfVersion key expected =>
    refine (Prog.sectioned_ofExcept_bind fun place => sectioned_unavailable (sectioned_exclusive ?_)).attempt
    refine ((issues_readSidecar _).mono fun o ho => ho.within depth).bind fun found => ?_
    refine (Prog.issues_raiseIf _ _).bind fun _ => ?_
    refine (issues_sys (.unlink _) ?_).bind fun a => (issues_orRaise a).bind fun _ => ?_
    · exact object_ne_lock (.inl rfl) _ _
    · exact (issues_unlinkMissingOk (object_ne_lock (.inr rfl) _ _)).bind fun _ => issues_pruneEmpty _
  | listPage pre startAfter limit =>
    refine Prog.Sectioned.attempt ?_
    rw [FilesystemStorage.listPage]
    simp only
    split
    next => trivial
    next =>
      refine sectioned_unavailable (sectioned_shared ?_)
      exact (issues_collectWithin _ _ _ _).bind fun _ => issues_readPage _

/-- What a method may do at all. -/
theorem issues_perform {o : StorageOp} (ho : o.Makes depth) :
    (fs.perform o).Issues fun o : FsOp => o.Within depth ∨ ∃ exclusive, o = .lock exclusive := by
  refine (sectioned_perform ho).issues_all.mono fun o ho => ?_
  rcases ho with hlock | ⟨exclusive, hinside⟩
  · exact .inr hlock
  · cases exclusive with
    | true => exact .inl hinside
    | false => exact .inl (FsOp.Reads.within hinside depth)

/-- What a method may do behind the lock. -/
abbrev lockOfRoot : Lock FsSig Disk := fileLock fun o => ∃ depth, o.Within depth

/-- Whatever is asked of it, a method may do no more than that. -/
theorem sectioned_rooted (o : StorageOp) : (fs.perform o).Sectioned lockOfRoot := by
  have hdepth : ∃ depth, o.Makes depth := by
    cases hwrite : o.write? with
    | none => exact ⟨0, fun key data metadata place h => by rw [hwrite] at h; cases h⟩
    | some w =>
      cases hplace : locate w.1 with
      | error e =>
        refine ⟨0, fun key data metadata place h hkey => ?_⟩
        obtain rfl := Option.some.inj (hwrite.symm.trans h)
        cases hplace.symm.trans hkey
      | ok place =>
        refine ⟨place.1.length + 1, fun key data metadata place' h hkey => ?_⟩
        obtain rfl := Option.some.inj (hwrite.symm.trans h)
        obtain rfl := Except.ok.inj (hplace.symm.trans hkey)
        exact Nat.lt_succ_self _
  obtain ⟨depth, hdepth⟩ := hdepth
  refine (sectioned_perform hdepth).mono rfl rfl fun exclusive o ho => ?_
  cases exclusive with
  | true => exact ⟨depth, ho⟩
  | false => exact ho

end

/-! ## Opening the lock file -/

variable {faults : Prop} {d d' : Disk}

/-- A lock file that is there is opened as it is. -/
theorem openLock_of_file {t : Tree Str Bytes} (h : (t.file? [lockName]).isSome = true) :
    Disk.openLock t = .ok t := by
  obtain ⟨data, hdata⟩ := Option.isSome_iff_exists.mp h
  have hdir : ¬ t.isDir [lockName] = true := by
    rw [Tree.isDir_iff, Tree.file?_eq_some.mp hdata]
    nofun
  rw [Disk.openLock, if_neg hdir, if_pos h]

/-- The lock file is there once it was opened. -/
theorem file_of_openLock {t t' : Tree Str Bytes} (h : Disk.openLock t = .ok t') :
    (t'.file? [lockName]).isSome = true := by
  unfold Disk.openLock at h
  split at h
  next => cases h
  next =>
    split at h
    next hfile => exact Except.ok.inj h ▸ hfile
    next =>
      have hnode := (Tree.node_of_make h).2 [lockName]
      rw [if_pos rfl] at hnode
      rw [Tree.file?_eq_some.mpr hnode]
      rfl

/-- A lock that is taken opens its file. -/
theorem handles_lock_ok {exclusive : Bool} {u : Unit} :
    (onDisk faults).handles d (.lock exclusive) (.ok u) d' ↔
      ∃ t, Disk.openLock d.tree = .ok t ∧ d' = { d with tree := t } := by
  constructor
  · rintro (h | ⟨-, h⟩)
    · rcases does_cases h with ⟨t, ht, -, rfl⟩ | ⟨e, -, he, -⟩
      · exact ⟨t, ht, rfl⟩
      · cases he
    · exact h.elim
  · rintro ⟨t, ht, rfl⟩
    refine .inl ?_
    show d.Does (Disk.openLock d.tree) (.ok ()) _
    rw [ht]
    exact .done t

/-- A lock that cannot be opened leaves the disk. -/
theorem handles_lock_error {exclusive : Bool} {e : OsError}
    (h : (onDisk faults).handles d (.lock exclusive) (.error e) d') :
    Disk.openLock d.tree = .error e.errno ∧ d' = d := by
  rcases h with h | ⟨-, h⟩
  · rcases does_cases h with ⟨t, -, ha, -⟩ | ⟨e, he, ha, rfl⟩
    · cases ha
    · obtain rfl := Except.error.inj ha
      exact ⟨he, rfl⟩
  · exact h.elim

/-- A change elsewhere leaves the lock file. -/
theorem lockFile_of_change {t t' : Tree Str Bytes} {p : FilePath} {n : Option (Node Bytes)}
    (h : (t.file? [lockName]).isSome = true) (hnode : ∀ q, t'.node q = if q = p then n else t.node q)
    (hn : p = [lockName] → ∃ data, n = some (.file data)) : (t'.file? [lockName]).isSome = true := by
  obtain ⟨data, hdata⟩ := Option.isSome_iff_exists.mp h
  have hafter := hnode [lockName]
  split at hafter
  next heq =>
    obtain ⟨data', rfl⟩ := hn heq.symm
    rw [Tree.file?_eq_some.mpr hafter]
    rfl
  next =>
    rw [Tree.file?_eq_some.mpr (hafter.trans (Tree.file?_eq_some.mp hdata))]
    rfl

/-- What is done leaves the lock file. -/
theorem lockFile_does {result : Except Errno (Tree Str Bytes)} {a : Except OsError Unit}
    (h : (d.tree.file? [lockName]).isSome = true) (hdoes : d.Does result a d')
    (hresult : ∀ t, result = .ok t → (t.file? [lockName]).isSome = true) :
    (d'.tree.file? [lockName]).isSome = true := by
  rcases does_cases hdoes with ⟨t, ht, -, rfl⟩ | ⟨e, -, -, rfl⟩
  · exact hresult t ht
  · exact h

/-- **Nothing removes the lock file.** -/
theorem lockFile_handles {depth : Nat} {o : FsOp} {a : o.Ans} (ho : o.Within depth)
    (hh : (onDisk faults).handles d o a d') (h : (d.tree.file? [lockName]).isSome = true) :
    (d'.tree.file? [lockName]).isSome = true := by
  obtain ⟨data, hdata⟩ := Option.isSome_iff_exists.mp h
  have hnode := Tree.file?_eq_some.mp hdata
  have hmade : ∀ {n : Node Bytes} {p : FilePath} {t : Tree Str Bytes}, d.tree.make n p = .ok t →
      (t.file? [lockName]).isSome = true := fun {n p t} ht => by
    obtain ⟨habsent, hafter⟩ := Tree.node_of_make ht
    refine lockFile_of_change h hafter fun heq => ?_
    rw [heq, hnode] at habsent
    cases habsent
  rcases hh with hh | ⟨-, hh⟩
  · cases o with
    | uuid4 =>
      obtain ⟨-, -, rfl⟩ := hh
      exact h
    | lock exclusive => exact ho.elim
    | readBytes path => exact hh.1 ▸ h
    | isDir path => exact hh.1 ▸ h
    | mkdir path => exact lockFile_does h hh fun t ht => hmade ht
    | create path => exact lockFile_does h hh fun t ht => hmade ht
    | write path data =>
      exact lockFile_does h hh fun t ht => lockFile_of_change h (Tree.node_of_write ht).2 fun _ => ⟨data, rfl⟩
    | replace src dst =>
      refine lockFile_does h hh fun t ht => ?_
      obtain ⟨moved, -, hafter⟩ := Tree.node_of_replace ht
      have hlock := hafter [lockName]
      rw [if_neg (Ne.symm ho)] at hlock
      split at hlock
      next =>
        rw [Tree.file?_eq_some.mpr hlock]
        rfl
      next =>
        rw [Tree.file?_eq_some.mpr (hlock.trans hnode)]
        rfl
    | unlink path =>
      exact lockFile_does h hh fun t ht => lockFile_of_change h (Tree.node_of_unlink ht).2 fun heq => absurd heq ho
    | rmdir path =>
      refine lockFile_does h hh fun t ht => ?_
      obtain ⟨-, hdir, hafter⟩ := Tree.node_of_rmdir ht
      refine lockFile_of_change h hafter fun heq => ?_
      rw [heq, hnode] at hdir
      cases hdir
    | scandir path => exact hh.1 ▸ h
  · cases o with
    | mkdir path =>
      obtain ⟨-, -, rfl⟩ := hh
      exact h
    | create path =>
      obtain ⟨-, rfl⟩ := hh
      exact h
    | write path data =>
      obtain ⟨-, part, t, -, ht, rfl⟩ := hh
      exact lockFile_of_change h (Tree.node_of_write ht).2 fun _ => ⟨part, rfl⟩
    | replace src dst =>
      obtain ⟨-, rfl⟩ := hh
      exact h
    | _ => exact hh.elim

/-- Opening the lock file is the change that nobody sees. -/
theorem opens_of_openLock {t : Tree Str Bytes} (h : Disk.openLock d.tree = .ok t) :
    lockOfRoot.Opens (onDisk faults) d { d with tree := t } := by
  refine ⟨file_of_openLock h, fun o a htakes => ?_⟩
  cases o with
  | lock exclusive =>
    cases a with
    | error e => exact absurd rfl htakes
    | ok u => exact handles_lock_ok.mpr ⟨t, h, rfl⟩
  | _ => exact absurd rfl htakes

/-- **The lock file is a lock.** -/
theorem lawful_fileLock : lockOfRoot.Lawful (onDisk faults) where
  opens d o a d' htakes hh := by
    cases o with
    | lock exclusive =>
      cases a with
      | error e => exact absurd rfl htakes
      | ok u =>
        obtain ⟨t, ht, rfl⟩ := handles_lock_ok.mp hh
        exact opens_of_openLock ht
    | _ => exact absurd rfl htakes
  again d hopened := opens_of_openLock (openLock_of_file hopened)
  asked d o a d' hasks hopened hh := by
    obtain ⟨exclusive, rfl⟩ := hasks
    have hopen := openLock_of_file hopened
    cases a with
    | error e => cases hopen.symm.trans (handles_lock_error hh).1
    | ok u =>
      obtain ⟨t, ht, rfl⟩ := handles_lock_ok.mp hh
      obtain rfl := Except.ok.inj (hopen.symm.trans ht)
      exact ⟨rfl, nofun⟩
  refused d o a d' hasks htakes hh := by
    obtain ⟨exclusive, rfl⟩ := hasks
    cases a with
    | error e => exact (handles_lock_error hh).2
    | ok u => cases htakes
  cut_ask d o d' hasks hcut := by
    obtain ⟨exclusive, rfl⟩ := hasks
    exact hcut.elim
  keeps d o a d' hinside hh hopened := by
    obtain ⟨depth, ho⟩ := hinside
    exact lockFile_handles ho hh hopened
  cut_keeps d o d' _ hcut hopened := by
    cases o with
    | write path data =>
      obtain ⟨part, t, -, ht, rfl⟩ := hcut
      exact lockFile_of_change hopened (Tree.node_of_write ht).2 fun _ => ⟨part, rfl⟩
    | _ => exact hcut.elim
  reads d o a d' hinside hh := by
    cases o with
    | readBytes path => exact (handles_readBytes hh).1
    | isDir path => exact (handles_isDir hh).1
    | scandir path =>
      rcases hh with hh | ⟨-, hh⟩
      · exact hh.1
      · exact hh.elim
    | _ => exact hinside.elim
  cut_reads d o d' hinside hcut := by
    cases o with
    | write path data => exact hinside.elim
    | _ => exact hcut.elim

end

end Wenchang
