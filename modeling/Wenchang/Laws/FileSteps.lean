import Wenchang.Laws.FileNames

/-!
# What the system calls leave

The methods read nothing but the files of objects. `Leaves` says what they then read, and that a tidy
disk stays tidy: one where no path of directories is a file and no path of an object a directory, so
that no step of a write is refused. A step that only makes directories or hidden files leaves everything
as it was (`Quiet`). There is one lemma for each call, and one for each part of a method that is made of
quiet steps.
-/

namespace Wenchang

open Py Ordered Files Interaction

/-! ## Disks before and after -/

/-- A disk on which no step of a write is refused. -/
structure Disk.Tidy (d : Disk) : Prop where
  dirs : ∀ p, DirPath p → d.tree.file? p = none
  objects : ∀ p, ObjectPath p → d.tree.node p ≠ some .dir
  temps : ∀ name p, name ∉ d.drawn → d.tree.node ((tempPrefix ++ name) :: p) = none
  lock : d.tree.node [lockName] ≠ some .dir

/-- From `d` to `d'`: the files of objects are then read so, and faults are recorded. -/
structure Leaves (faults : Prop) (d d' : Disk) (reads : FilePath → Except Errno Bytes) : Prop where
  reads : ∀ p, ObjectPath p → d'.tree.read p = reads p
  drawn : ∀ u, u ∈ d.drawn → u ∈ d'.drawn
  failed : d.failed <+: d'.failed
  calm : ¬ faults → d'.failed = d.failed
  lock : d.tree.node [lockName] ≠ some .dir → d'.tree.node [lockName] ≠ some .dir
  tidy : d.Tidy → d'.Tidy

/-- The files of objects are as they were. -/
abbrev Quiet (faults : Prop) (d d' : Disk) : Prop := Leaves faults d d' d.tree.read

section

variable {faults : Prop} {d d' d₁ : Disk} {reads : FilePath → Except Errno Bytes}

/-- Nothing was seen to change. -/
theorem Quiet.refl (faults : Prop) (d : Disk) : Quiet faults d d where
  reads _ _ := rfl
  drawn _ h := h
  failed := List.prefix_rfl
  calm _ := rfl
  lock h := h
  tidy h := h

/-- A quiet step may go first. -/
theorem Quiet.leaves (h : Quiet faults d d₁) (h' : Leaves faults d₁ d' reads) : Leaves faults d d' reads where
  reads := h'.reads
  drawn u hu := h'.drawn u (h.drawn u hu)
  failed := h.failed.trans h'.failed
  calm hf := (h'.calm hf).trans (h.calm hf)
  lock hl := h'.lock (h.lock hl)
  tidy ht := h'.tidy (h.tidy ht)

/-- A quiet step may go last. -/
theorem Leaves.quiet (h : Leaves faults d d₁ reads) (h' : Quiet faults d₁ d') : Leaves faults d d' reads where
  reads p hp := (h'.reads p hp).trans (h.reads p hp)
  drawn u hu := h'.drawn u (h.drawn u hu)
  failed := h.failed.trans h'.failed
  calm hf := (h'.calm hf).trans (h.calm hf)
  lock hl := h'.lock (h.lock hl)
  tidy ht := h'.tidy (h.tidy ht)

/-- What is left may be said of the objects' files alone. -/
theorem Leaves.congr {reads' : FilePath → Except Errno Bytes} (h : Leaves faults d d' reads)
    (heq : ∀ p, ObjectPath p → reads p = reads' p) : Leaves faults d d' reads' where
  reads p hp := (h.reads p hp).trans (heq p hp)
  drawn := h.drawn
  failed := h.failed
  calm := h.calm
  lock := h.lock
  tidy := h.tidy

/-- Another step on top, by what it does to what was read. -/
theorem Leaves.then {p : FilePath} {x : Except Errno Bytes} (h : Leaves faults d d₁ reads)
    (h' : Leaves faults d₁ d' (Function.update d₁.tree.read p x)) :
    Leaves faults d d' (Function.update reads p x) where
  reads q hq := by
    rw [h'.reads q hq]
    by_cases hqp : q = p
    · subst hqp
      rw [Function.update_self, Function.update_self]
    · rw [Function.update_of_ne hqp, Function.update_of_ne hqp, h.reads q hq]
  drawn u hu := h'.drawn u (h.drawn u hu)
  failed := h.failed.trans h'.failed
  calm hf := (h'.calm hf).trans (h.calm hf)
  lock hl := h'.lock (h.lock hl)
  tidy ht := h'.tidy (h.tidy ht)

/-- No object of a tidy disk is a directory. -/
theorem Disk.Tidy.read_ne (h : d.Tidy) {p : FilePath} (hp : ObjectPath p) : d.tree.read p ≠ .error .eisdir := by
  have hnode := h.objects p hp
  unfold Tree.read
  split
  · simp
  · next hdir => exact absurd hdir hnode
  · rcases d.tree.missing_cases p with ⟨herr, -⟩ | ⟨herr, -⟩ <;> simp [herr]

/-- A change at one path that is not an object's. -/
theorem reads_of_change {t t' : Tree Str Bytes} {p : FilePath} {n : Option (Node Bytes)}
    (hnode : ∀ q, t'.node q = if q = p then n else t.node q) (hp : ¬ ObjectPath p)
    (hfile : DirPath p → ((t'.file? p).isSome = true ↔ (t.file? p).isSome = true)) {q : FilePath}
    (hq : ObjectPath q) : t'.read q = t.read q := by
  refine Tree.read_congr ?_ fun r hr hne => ?_
  · rw [hnode, if_neg]
    rintro rfl
    exact hp hq
  · by_cases hrp : r = p
    · subst hrp
      exact hfile (hq.above hr hne)
    · rw [Tree.file?, Tree.file?, hnode, if_neg hrp]

/-- A change makes no directory of the lock file. -/
theorem lock_of_change {t t' : Tree Str Bytes} {p : FilePath} {n : Option (Node Bytes)}
    (hnode : ∀ q, t'.node q = if q = p then n else t.node q) (hn : HiddenPath p → n ≠ some .dir)
    (h : t.node [lockName] ≠ some .dir) : t'.node [lockName] ≠ some .dir := by
  rw [hnode]
  split
  · next heq => exact hn (heq ▸ ⟨_, _, rfl, _, rfl⟩)
  · exact h

/-- A change at one path that a tidy disk allows. -/
theorem Disk.Tidy.change (h : d.Tidy) {p : FilePath} {n : Option (Node Bytes)}
    (hnode : ∀ q, d'.tree.node q = if q = p then n else d.tree.node q)
    (hdrawn : ∀ u, u ∈ d.drawn → u ∈ d'.drawn)
    (hdir : DirPath p → n = none ∨ n = some .dir)
    (hobject : ObjectPath p ∨ HiddenPath p → n ≠ some .dir)
    (htemp : ∀ name q, name ∉ d'.drawn → p = (tempPrefix ++ name) :: q → n = none) : d'.Tidy where
  dirs q hq := by
    by_cases heq : q = p
    · subst heq
      rw [Tree.file?, hnode, if_pos rfl]
      rcases hdir hq with rfl | rfl <;> rfl
    · rw [Tree.file?, hnode, if_neg heq]
      exact h.dirs q hq
  objects q hq := by
    rw [hnode]
    split
    · next heq => exact hobject (.inl (heq ▸ hq))
    · exact h.objects q hq
  temps name q hname := by
    rw [hnode]
    split
    · next heq => exact htemp name q hname heq.symm
    · exact h.temps name q fun hu => hname (hdrawn name hu)
  lock := lock_of_change hnode (fun hp => hobject (.inr hp)) h.lock

/-- A change at a path that is hidden or of directories. -/
theorem quiet_of_change {p : FilePath} {n : Option (Node Bytes)} (hfailed : d.failed <+: d'.failed)
    (hcalm : ¬ faults → d'.failed = d.failed) (hdrawn : d'.drawn = d.drawn)
    (hnode : ∀ q, d'.tree.node q = if q = p then n else d.tree.node q)
    (hp : (HiddenPath p ∧ n ≠ some .dir ∧ ∀ name q, name ∉ d.drawn → p = (tempPrefix ++ name) :: q → n = none) ∨
      DirPath p ∧ d.tree.file? p = none ∧ (n = none ∨ n = some .dir)) : Quiet faults d d' where
  reads q hq := by
    rcases hp with ⟨hhidden, -⟩ | ⟨hdir, hfile, hn⟩
    · exact reads_of_change hnode hhidden.not_object (fun h => absurd hhidden h.not_hidden) hq
    · refine reads_of_change hnode hdir.not_object (fun _ => ?_) hq
      have hfile' : d'.tree.file? p = none := by
        rw [Tree.file?, hnode, if_pos rfl]
        rcases hn with rfl | rfl <;> rfl
      rw [hfile, hfile']
  drawn u hu := hdrawn ▸ hu
  failed := hfailed
  calm := hcalm
  lock hl := by
    refine lock_of_change hnode (fun hhidden => ?_) hl
    rcases hp with ⟨-, hn, -⟩ | ⟨hdir, -⟩
    · exact hn
    · exact absurd hhidden hdir.not_hidden
  tidy ht := by
    refine ht.change hnode (fun u hu => hdrawn ▸ hu) ?_ ?_ ?_
    · rintro hdir
      rcases hp with ⟨hhidden, -⟩ | ⟨-, -, hn⟩
      · exact absurd hhidden hdir.not_hidden
      · exact hn
    · rintro hobject
      rcases hp with ⟨-, hn, -⟩ | ⟨hdir, -⟩
      · exact hn
      · rcases hobject with hobject | hhidden
        · exact absurd hobject hdir.not_object
        · exact absurd hhidden hdir.not_hidden
    · rintro name q hname rfl
      rcases hp with ⟨-, -, htemp⟩ | ⟨hdir, -⟩
      · exact htemp name q (hdrawn ▸ hname) rfl
      · exact absurd (hiddenPath_temp name q) hdir.not_hidden

/-- Only the record of faults differs. -/
theorem quiet_of_tree (htree : d'.tree = d.tree) (hdrawn : ∀ u, u ∈ d.drawn → u ∈ d'.drawn)
    (hfailed : d.failed <+: d'.failed) (hcalm : ¬ faults → d'.failed = d.failed) : Quiet faults d d' where
  reads q _ := by rw [htree]
  drawn := hdrawn
  failed := hfailed
  calm := hcalm
  lock hl := by
    rw [htree]
    exact hl
  tidy ht := by
    refine ⟨?_, ?_, fun name p hname => ?_, ?_⟩
    · rw [htree]
      exact ht.dirs
    · rw [htree]
      exact ht.objects
    · rw [htree]
      exact ht.temps name p fun hu => hname (hdrawn name hu)
    · rw [htree]
      exact ht.lock

/-! ## One call -/

/-- What an action does: it changes the tree, or it is refused. -/
theorem does_cases {result : Except Errno (Tree Str Bytes)} {a : Except OsError Unit}
    (h : d.Does result a d') : (∃ t, result = .ok t ∧ a = .ok () ∧ d' = { d with tree := t }) ∨
      ∃ e, result = .error e.errno ∧ a = .error e ∧ d' = d := by
  cases h with
  | done t => exact .inl ⟨t, rfl, rfl, rfl⟩
  | refused errno text => exact .inr ⟨⟨errno, text⟩, rfl, rfl, rfl⟩

/-- The faults from `d` to `d'`. -/
def Faults (d d' : Disk) (steps : List FsOp) : Prop := d'.failed = d.failed ++ steps

/-- No fault was added. -/
theorem faults_nil : Faults d d' [] ↔ d'.failed = d.failed := by rw [Faults, List.append_nil]

/-- A token is drawn that was not drawn before. -/
theorem handles_uuid4 {a : Str} (h : (onDisk faults).handles d .uuid4 a d') :
    isUuidHex a = true ∧ a ∉ d.drawn ∧ d' = { d with drawn := d.drawn.insert a } := by
  rcases h with h | ⟨-, h⟩
  · exact h
  · exact h.elim

/-- Drawing a token is not seen. -/
theorem quiet_uuid4 {a : Str} (h : (onDisk faults).handles d .uuid4 a d') : Quiet faults d d' := by
  obtain ⟨-, -, rfl⟩ := handles_uuid4 h
  exact quiet_of_tree rfl (fun u hu => FinSet.mem_insert.mpr (.inr hu)) List.prefix_rfl fun _ => rfl

/-- The lock file is hidden, and it is locked unless a directory is in its place. -/
theorem handles_lock {exclusive : Bool} {a : Except OsError Unit}
    (h : (onDisk faults).handles d (.lock exclusive) a d') :
    Quiet faults d d' ∧ d'.failed = d.failed ∧ (a = .ok () ↔ d.tree.node [lockName] ≠ some .dir) := by
  have hhidden : HiddenPath [lockName] := ⟨_, _, rfl, _, rfl⟩
  have hlock : ∀ name q, [lockName] ≠ (tempPrefix ++ name) :: q := fun name q he =>
    absurd (congrArg (·.take 2) (List.cons.inj he).1) (by simp [tempPrefix, lockName, str]; decide)
  rcases h with h | ⟨-, h⟩
  · rcases does_cases h with ⟨t, ht, rfl, rfl⟩ | ⟨e, he, rfl, rfl⟩
    · rw [Disk.openLock] at ht
      split at ht
      · cases ht
      · next hdir =>
        refine ⟨?_, rfl, fun _ he => hdir (Tree.isDir_iff.mpr he), fun _ => rfl⟩
        split at ht
        · obtain rfl := Except.ok.inj ht
          exact Quiet.refl faults d
        · exact quiet_of_change List.prefix_rfl (fun _ => rfl) rfl (Tree.node_of_make ht).2
            (.inl ⟨hhidden, by simp, fun name q _ heq => absurd heq (hlock name q)⟩)
    · refine ⟨Quiet.refl faults _, rfl, by simp, fun hnot => absurd he ?_⟩
      rw [Disk.openLock, if_neg fun hdir => hnot (Tree.isDir_iff.mp hdir)]
      split
      · simp
      · next hfile =>
        have habsent : d'.tree.node [lockName] = none := by
          cases hnode : d'.tree.node [lockName] with
          | none => rfl
          | some n =>
            cases n with
            | file data => simp [Tree.file?_eq_some.mpr hnode] at hfile
            | dir => exact absurd hnode hnot
        obtain ⟨t, ht⟩ := Tree.exists_make (.file []) habsent (Tree.node_nil _)
        rw [Tree.create, ht]
        simp
  · exact h.elim

/-- Making a directory: it is there, or a fault, or it was refused. -/
theorem handles_mkdir {path : FilePath} {a : Except OsError Unit} (hpath : DirPath path)
    (h : (onDisk faults).handles d (.mkdir path) a d') : Quiet faults d d' ∧
      ((a = .ok () ∧ d'.failed = d.failed ∧ d'.tree.node path = some .dir) ∨
        ∃ e, a = .error e ∧ ((d' = d ∧ d.tree.mkdir path = .error e.errno) ∨
          Faults d d' [.mkdir path] ∧ e.errno ≠ .enoent ∧ d'.tree.isDir path = false)) := by
  rcases h with h | ⟨hfaults, h⟩
  · rcases does_cases h with ⟨t, ht, rfl, rfl⟩ | ⟨e, he, rfl, rfl⟩
    · obtain ⟨habsent, hnode⟩ := Tree.node_of_make ht
      refine ⟨?_, .inl ⟨rfl, rfl, by rw [hnode, if_pos rfl]⟩⟩
      refine quiet_of_change List.prefix_rfl (fun _ => rfl) rfl hnode (.inr ⟨hpath, ?_, .inr rfl⟩)
      rw [Tree.file?, habsent]
    · exact ⟨Quiet.refl faults _, .inr ⟨e, rfl, .inl ⟨rfl, he⟩⟩⟩
  · obtain ⟨hdir, ⟨e, rfl, hne⟩, rfl⟩ := h
    refine ⟨?_, .inr ⟨e, rfl, .inr ⟨rfl, hne, hdir⟩⟩⟩
    exact quiet_of_tree rfl (fun _ hu => hu) (List.prefix_append _ _) fun hf => absurd hfaults hf

/-- A look at a directory leaves the disk. -/
theorem handles_isDir {path : FilePath} {a : Bool} (h : (onDisk faults).handles d (.isDir path) a d') :
    d' = d ∧ a = d.tree.isDir path := by
  rcases h with h | ⟨-, h⟩
  · exact h
  · exact h.elim

/-- A read leaves the disk. -/
theorem handles_readBytes {path : FilePath} {a : Except OsError Bytes}
    (h : (onDisk faults).handles d (.readBytes path) a d') :
    d' = d ∧ a.mapError (·.errno) = d.tree.read path := by
  rcases h with h | ⟨-, h⟩
  · exact h
  · exact h.elim

/-- Creating a hidden file under a name that has been drawn. -/
theorem handles_create {name : Str} {directory : FilePath} {a : Except OsError Unit}
    (hname : name ∈ d.drawn)
    (h : (onDisk faults).handles d (.create ((tempPrefix ++ name) :: directory)) a d') :
    Quiet faults d d' ∧
      ((a = .ok () ∧ d'.failed = d.failed ∧ d'.drawn = d.drawn ∧ ∀ q, d'.tree.node q =
          if q = (tempPrefix ++ name) :: directory then some (.file []) else d.tree.node q) ∨
        ∃ e, a = .error e ∧
          ((d' = d ∧ d.tree.create ((tempPrefix ++ name) :: directory) [] = .error e.errno) ∨
            Faults d d' [.create ((tempPrefix ++ name) :: directory)])) := by
  rcases h with h | ⟨hfaults, h⟩
  · rcases does_cases h with ⟨t, ht, rfl, rfl⟩ | ⟨e, he, rfl, rfl⟩
    · have hnode := (Tree.node_of_make ht).2
      refine ⟨?_, .inl ⟨rfl, rfl, rfl, hnode⟩⟩
      refine quiet_of_change List.prefix_rfl (fun _ => rfl) rfl hnode
        (.inl ⟨hiddenPath_temp name directory, by simp, fun u q hu heq => ?_⟩)
      rw [List.append_cancel_left (List.cons.inj heq).1] at hname
      exact absurd hname hu
    · exact ⟨Quiet.refl faults _, .inr ⟨e, rfl, .inl ⟨rfl, he⟩⟩⟩
  · obtain ⟨⟨e, rfl⟩, rfl⟩ := h
    refine ⟨?_, .inr ⟨e, rfl, .inr rfl⟩⟩
    exact quiet_of_tree rfl (fun _ hu => hu) (List.prefix_append _ _) fun hf => absurd hfaults hf

/-- A hidden file changed or removed that was there. -/
theorem quiet_of_file {path : FilePath} {n : Option (Node Bytes)} (hpath : HiddenPath path)
    (hfile : (d.tree.file? path).isSome = true) (hn : n ≠ some .dir) (hdrawn : d'.drawn = d.drawn)
    (hfailed : d.failed <+: d'.failed) (hcalm : ¬ faults → d'.failed = d.failed)
    (hnode : ∀ q, d'.tree.node q = if q = path then n else d.tree.node q) : Quiet faults d d' where
  reads q hq := reads_of_change hnode hpath.not_object (fun h => absurd hpath h.not_hidden) hq
  drawn u hu := hdrawn ▸ hu
  failed := hfailed
  calm := hcalm
  lock hl := lock_of_change hnode (fun _ => hn) hl
  tidy ht := by
    refine ht.change hnode (fun u hu => hdrawn ▸ hu) (fun h => absurd hpath h.not_hidden) (fun _ => hn) ?_
    rintro name q hname rfl
    obtain ⟨data, hdata⟩ := Option.isSome_iff_exists.mp hfile
    have habsent := ht.temps name q (hdrawn ▸ hname)
    rw [Tree.file?_eq_some, habsent] at hdata
    cases hdata

/-- Writing to a hidden file. -/
theorem handles_write {path : FilePath} {data : Bytes} {a : Except OsError Unit} (hpath : HiddenPath path)
    (h : (onDisk faults).handles d (.write path data) a d') : Quiet faults d d' ∧ d'.drawn = d.drawn ∧
      ((a = .ok () ∧ d'.failed = d.failed ∧
          ∀ q, d'.tree.node q = if q = path then some (.file data) else d.tree.node q) ∨
        ∃ e, a = .error e ∧ ((d' = d ∧ d.tree.write path data = .error e.errno) ∨
          Faults d d' [.write path data])) := by
  rcases h with h | ⟨hfaults, h⟩
  · rcases does_cases h with ⟨t, ht, rfl, rfl⟩ | ⟨e, he, rfl, rfl⟩
    · obtain ⟨hfile, hnode⟩ := Tree.node_of_write ht
      exact ⟨quiet_of_file hpath hfile (by simp) rfl List.prefix_rfl (fun _ => rfl) hnode, rfl,
        .inl ⟨rfl, rfl, hnode⟩⟩
    · exact ⟨Quiet.refl faults _, rfl, .inr ⟨e, rfl, .inl ⟨rfl, he⟩⟩⟩
  · obtain ⟨⟨e, rfl⟩, part, t, -, ht, rfl⟩ := h
    obtain ⟨hfile, hnode⟩ := Tree.node_of_write ht
    exact ⟨quiet_of_file hpath hfile (by simp) rfl (List.prefix_append _ _)
      (fun hf => absurd hfaults hf) hnode, rfl, .inr ⟨e, rfl, .inr rfl⟩⟩

/-- A write to a hidden file that is cut is not seen. -/
theorem quiet_cut {path : FilePath} {data : Bytes} (hpath : HiddenPath path)
    (h : (onDisk faults).cut d (.write path data) d') : Quiet faults d d' := by
  obtain ⟨part, t, -, ht, rfl⟩ := h
  obtain ⟨hfile, hnode⟩ := Tree.node_of_write ht
  exact quiet_of_file hpath hfile (by simp) rfl List.prefix_rfl (fun _ => rfl) hnode

/-- Unlinking a hidden file. -/
theorem handles_unlink {path : FilePath} {a : Except OsError Unit} (hpath : HiddenPath path)
    (h : (onDisk faults).handles d (.unlink path) a d') : Quiet faults d d' ∧ d'.failed = d.failed := by
  rcases h with h | ⟨-, h⟩
  · rcases does_cases h with ⟨t, ht, rfl, rfl⟩ | ⟨e, -, rfl, rfl⟩
    · obtain ⟨⟨data, hfile⟩, hnode⟩ := Tree.node_of_unlink ht
      refine ⟨quiet_of_file hpath ?_ (by simp) rfl List.prefix_rfl (fun _ => rfl) hnode, rfl⟩
      rw [Tree.file?_eq_some.mpr hfile]
      rfl
    · exact ⟨Quiet.refl faults _, rfl⟩
  · exact h.elim

/-- Moving a hidden file onto the path of an object, in the directory where it is. -/
theorem handles_replace {temp name : Str} {directory : FilePath} {data : Bytes} {a : Except OsError Unit}
    (hsrc : d.tree.node ((tempPrefix ++ temp) :: directory) = some (.file data))
    (hdst : ObjectPath (name :: directory))
    (h : (onDisk faults).handles d
      (.replace ((tempPrefix ++ temp) :: directory) (name :: directory)) a d') :
    (a = .ok () ∧ Leaves faults d d' (Function.update d.tree.read (name :: directory) (.ok data)) ∧
      d'.failed = d.failed ∧ d'.drawn = d.drawn ∧
      ∀ q, HiddenPath q → q ≠ (tempPrefix ++ temp) :: directory → d'.tree.node q = d.tree.node q) ∨
    ∃ e, a = .error e ∧ Quiet faults d d' ∧
      ((d' = d ∧ d.tree.read (name :: directory) = .error .eisdir) ∨
        Faults d d' [.replace ((tempPrefix ++ temp) :: directory) (name :: directory)]) := by
  have hhidden : HiddenPath ((tempPrefix ++ temp) :: directory) := hiddenPath_temp temp directory
  -- The two paths that change are neither hidden, but for the first, nor of directories.
  have hdst_hidden : ∀ q, HiddenPath q → q ≠ name :: directory := by
    rintro q hq rfl
    exact hq.not_object hdst
  have hdst_dir : ∀ q, DirPath q → q ≠ name :: directory := by
    rintro q hq rfl
    exact hq.not_object hdst
  have hsrc_dir : ∀ q, DirPath q → q ≠ (tempPrefix ++ temp) :: directory := by
    rintro q hq rfl
    exact hq.not_hidden hhidden
  have hparent : d.tree.node directory = some .dir := Tree.node_parent hsrc
  rcases h with h | ⟨hfaults, h⟩
  · rcases does_cases h with ⟨t, ht, rfl, rfl⟩ | ⟨e, he, rfl, rfl⟩
    · obtain ⟨data', hsrc', hnode⟩ := Tree.node_of_replace ht
      obtain rfl : data = data' := by simpa [hsrc] using hsrc'
      -- A path that is no directory before is none after.
      have hnot_dir : ∀ {q : FilePath}, d.tree.node q ≠ some .dir → t.node q ≠ some .dir := fun {q} hq => by
        rw [hnode]
        split_ifs
        · simp
        · simp
        · exact hq
      refine .inl ⟨rfl, ⟨fun q hq => ?_, fun _ hu => hu, List.prefix_rfl, fun _ => rfl, fun hl => hnot_dir hl,
        fun ht' => ?_⟩, rfl, rfl, fun q hq hqs => ?_⟩
      · by_cases hqd : q = name :: directory
        · subst hqd
          rw [Function.update_self, Tree.read, hnode, if_pos rfl]
        · rw [Function.update_of_ne hqd]
          refine Tree.read_congr ?_ fun r hr hrne => ?_
          · rw [hnode, if_neg hqd, if_neg]
            rintro rfl
            exact hhidden.not_object hq
          · have hdir := hq.above hr hrne
            rw [Tree.file?, hnode, if_neg (hdst_dir r hdir), if_neg (hsrc_dir r hdir), Tree.file?]
      · refine ⟨fun q hq => ?_, fun q hq => hnot_dir (ht'.objects q hq), fun u q hu => ?_, hnot_dir ht'.lock⟩
        · rw [Tree.file?, hnode, if_neg (hdst_dir q hq), if_neg (hsrc_dir q hq)]
          exact ht'.dirs q hq
        · rw [hnode, if_neg (hdst_hidden _ (hiddenPath_temp u q))]
          split_ifs
          · rfl
          · exact ht'.temps u q hu
      · rw [hnode, if_neg (hdst_hidden q hq), if_neg hqs]
    · refine .inr ⟨e, rfl, Quiet.refl faults _, .inl ⟨rfl, ?_⟩⟩
      by_cases hdir : d'.tree.node (name :: directory) = some .dir
      · rw [Tree.read, hdir]
      · obtain ⟨t, ht⟩ := Tree.exists_replace hsrc hdir hparent
        rw [ht] at he
        cases he
  · obtain ⟨⟨e, rfl⟩, rfl⟩ := h
    refine .inr ⟨e, rfl, ?_, .inr rfl⟩
    exact quiet_of_tree rfl (fun _ hu => hu) (List.prefix_append _ _) fun hf => absurd hfaults hf

end

end Wenchang
