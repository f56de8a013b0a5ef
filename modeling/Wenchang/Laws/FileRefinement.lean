import Wenchang.Laws.FileLocks
import Wenchang.Laws.FilePages

/-!
# `FilesystemStorage` refines the protocol

A disk that holds objects, and whose directories nest no deeper than the walk can go, answers every call as
these objects do (`passes_call`), and a call that dies on the way leaves what a torn write may. So what a
history of calls returns and raises, some of which die, is what a store does of which only writes can be torn
(`disk_refines`).
-/

namespace Wenchang

open Py Ordered Files Interaction FilesystemStorage

/-! ## A new root -/

/-- Nothing is on a new disk. -/
theorem node_empty (name : Str) (p : FilePath) : Disk.empty.tree.node (name :: p) = none :=
  FinMap.get?_insert_of_ne _ _ (List.cons_ne_nil name p)

/-- No file is on a new disk. -/
theorem file?_empty (p : FilePath) : Disk.empty.tree.file? p = none := by
  cases p with
  | nil => rw [Tree.file?, Tree.node_nil]
  | cons name p => rw [Tree.file?, node_empty]

/-- What is read on a new disk is missing. -/
theorem read_empty (name : Str) (p : FilePath) : Disk.empty.tree.read (name :: p) = .error .enoent := by
  rw [Tree.read, node_empty]
  rcases Disk.empty.tree.missing_cases (name :: p) with ⟨herr, -⟩ | ⟨-, q, -, -, hfile⟩
  · exact congrArg Except.error herr
  · rw [file?_empty] at hfile
    cases hfile

/-- A new disk is tidy. -/
theorem tidy_empty : Disk.empty.Tidy where
  dirs p _ := file?_empty p
  objects p hp := by
    obtain ⟨name, directory, rfl, -⟩ := hp
    rw [node_empty]
    nofun
  temps name p _ := node_empty _ p
  lock := by
    rw [node_empty]
    nofun

/-! ## Depth -/

section

variable {frames : Nat} {faults : Prop} {d d' : Disk}

/-- A tree with one more node that is a directory only if it is shallow. -/
theorem shallow_of_change {t : Tree Str Bytes} {path : FilePath} {n : Option (Node Bytes)} (h : d.Shallow frames)
    (htree : d'.tree = t) (hnode : ∀ q, t.node q = if q = path then n else d.tree.node q)
    (hn : n = some .dir → path.length < frames) : d'.Shallow frames := by
  intro p hp
  rw [htree, hnode] at hp
  split at hp
  next heq => exact heq ▸ hn hp
  next => exact h p hp

/-- A tree that stays shallow keeps the disk shallow. -/
theorem shallow_does {result : Except Errno (Tree Str Bytes)} {a : Except OsError Unit} (h : d.Shallow frames)
    (hdoes : d.Does result a d') (hresult : ∀ t, result = .ok t → Disk.Shallow { d with tree := t } frames) :
    d'.Shallow frames := by
  rcases does_cases hdoes with ⟨t, ht, -, rfl⟩ | ⟨e, -, -, rfl⟩
  · exact hresult t ht
  · exact h

/-- **A call keeps the depth** that makes no deep directory. -/
theorem shallow_handles {o : FsOp} {a : o.Ans} (ho : o.Within frames ∨ ∃ exclusive, o = .lock exclusive)
    (hh : (onDisk faults).handles d o a d') (h : d.Shallow frames) : d'.Shallow frames := by
  rcases ho with ho | ⟨exclusive, rfl⟩
  swap
  · exact shallow_lock hh h
  rcases hh with hh | ⟨-, hh⟩
  · cases o with
    | uuid4 =>
      obtain ⟨-, -, rfl⟩ := hh
      exact h
    | lock exclusive => exact ho.elim
    | readBytes path => exact hh.1 ▸ h
    | isDir path => exact hh.1 ▸ h
    | mkdir path =>
      exact shallow_does h hh fun t ht => shallow_of_change h rfl (Tree.node_of_make ht).2 fun _ => ho
    | create path =>
      exact shallow_does h hh fun t ht => shallow_of_change h rfl (Tree.node_of_make ht).2 nofun
    | write path data =>
      exact shallow_does h hh fun t ht => shallow_of_change h rfl (Tree.node_of_write ht).2 nofun
    | replace src dst =>
      refine shallow_does h hh fun t ht p hp => ?_
      obtain ⟨data, -, hnode⟩ := Tree.node_of_replace ht
      obtain hp : t.node p = some .dir := hp
      rw [hnode] at hp
      split at hp
      next => cases hp
      next =>
        split at hp
        next => cases hp
        next => exact h p hp
    | unlink path =>
      exact shallow_does h hh fun t ht => shallow_of_change h rfl (Tree.node_of_unlink ht).2 nofun
    | rmdir path =>
      exact shallow_does h hh fun t ht => shallow_of_change h rfl (Tree.node_of_rmdir ht).2.2 nofun
    | scandir path => exact hh.1 ▸ h
  · cases o with
    | mkdir path =>
      obtain ⟨-, -, rfl⟩ := hh
      exact h
    | create path =>
      obtain ⟨-, rfl⟩ := hh
      exact h
    | write path data =>
      obtain ⟨-, part, t, -, ht, rfl⟩ := hh
      exact shallow_of_change h rfl (Tree.node_of_write ht).2 nofun
    | replace src dst =>
      obtain ⟨-, rfl⟩ := hh
      exact h
    | _ => exact hh.elim

/-- A cut keeps the disk shallow. -/
theorem shallow_cut {o : FsOp} (hc : (onDisk faults).cut d o d') (h : d.Shallow frames) : d'.Shallow frames := by
  cases o with
  | write path data =>
    obtain ⟨part, t, -, ht, rfl⟩ := hc
    exact shallow_of_change h rfl (Tree.node_of_write ht).2 nofun
  | _ => exact hc.elim

end

section

variable [Interpreter] {fs : FilesystemStorage}

/-- A call that the storage can make: its key has files, and a key that is put is not too deep. -/
def FilesystemStorage.Accepts (fs : FilesystemStorage) : StorageOp → Prop
  | .get key => ∃ place, locate key = .ok place
  | .put key _ _ => ∃ place, locate key = .ok place ∧ place.1.length < fs.frames
  | .putIfVersion key _ _ _ => ∃ place, locate key = .ok place ∧ place.1.length < fs.frames
  | .deleteIfVersion key _ => ∃ place, locate key = .ok place
  | .listPage _ _ _ => True

/-- **Only a put makes directories**, and only those of its key. -/
theorem FilesystemStorage.Accepts.makes {o : StorageOp} (ho : fs.Accepts o) : o.Makes fs.frames := by
  intro key data metadata place hwrite hplace
  have hdepth : ∃ place, locate key = .ok place ∧ place.1.length < fs.frames := by
    cases o with
    | put k data metadata =>
      obtain ⟨rfl, -⟩ := Prod.mk.inj (Option.some.inj hwrite)
      exact ho
    | putIfVersion k data metadata expected =>
      obtain ⟨rfl, -⟩ := Prod.mk.inj (Option.some.inj hwrite)
      exact ho
    | _ => cases hwrite
  obtain ⟨place', hplace', hdepth⟩ := hdepth
  exact Except.ok.inj (hplace'.symm.trans hplace) ▸ hdepth

/-! ## One call -/

/-- A caller's call of one operation. -/
def FilesystemStorage.call (fs : FilesystemStorage) (o : StorageOp) : Prog FsSig Exc Answered := do
  return ⟨o, ← fs.perform o⟩

/-- A token from `uuid4` that has not been issued. -/
def FreshUuid (issued : List Str) (t : Str) : Prop := isUuidHex t = true ∧ t ∉ issued

/-- A disk that holds the objects of a store, and on which the walk ends. -/
structure FilesystemStorage.Refines (fs : FilesystemStorage) (d : Disk) (s : Issuing) : Prop where
  holds : fs.Holds d s.objects
  shallow : d.Shallow fs.frames
  issued : ∀ t ∈ s.issued, t ∈ d.drawn

variable {d d' : Disk} {s : Issuing} {o : StorageOp}

/-- **One operation**, wherever it is cut short. -/
theorem FilesystemStorage.Refines.passes_perform (h : fs.Refines d s) (ho : fs.Accepts o) :
    (fs.perform o).Passes (onDisk False) (fun d' => fs.Passing d s.objects o d' ∧ d'.Shallow fs.frames)
      (fun r d' => fs.Performed d s.objects o r d' ∧ d'.Shallow fs.frames) d := by
  have hpasses : (fs.perform o).Passes (onDisk False) (fs.Passing d s.objects o) (fs.Performed d s.objects o) d := by
    cases o with
    | get key =>
      obtain ⟨_, hkey⟩ := ho
      exact passes_perform_get h.holds hkey
    | put key data metadata =>
      obtain ⟨_, hkey, -⟩ := ho
      exact passes_perform_put h.holds hkey
    | putIfVersion key data metadata expected =>
      obtain ⟨_, hkey, -⟩ := ho
      exact passes_perform_putIfVersion h.holds hkey
    | deleteIfVersion key expected =>
      obtain ⟨_, hkey⟩ := ho
      exact passes_perform_deleteIfVersion h.holds hkey
    | listPage pre startAfter limit => exact passes_perform_listPage h.holds h.shallow
  exact hpasses.keeps (issues_perform ho.makes) (fun _ _ _ _ ho hh hd => shallow_handles ho hh hd)
    (fun _ _ _ _ hc hd => shallow_cut hc hd) h.shallow

/-- **Every call performs its operation** on the store that the disk holds. -/
theorem FilesystemStorage.Refines.passes_call (h : fs.Refines d s) (ho : fs.Accepts o) :
    (fs.call o).Passes (onDisk False) (fun d' => fs.Passing d s.objects o d' ∧ d'.Shallow fs.frames)
      (fun r d' => ∃ a s', r = .ok ⟨o, a⟩ ∧ fs.Performs d s.objects o a d' s' ∧ d'.Shallow fs.frames) d := by
  refine (h.passes_perform ho).bind ?_ ?_
  · rintro a d' hI ⟨⟨a', s', hr, hperforms⟩, hshallow⟩
    obtain rfl := Except.ok.inj hr
    exact ⟨hI, a, s', rfl, hperforms, hshallow⟩
  · rintro e d' - ⟨⟨_, _, hr, -⟩, -⟩
    cases hr

/-- What an operation has made of a disk, a store can make of the objects. -/
theorem FilesystemStorage.Refines.performs (h : fs.Refines d s) {a : o.Ans} {s' : Objects}
    (hperforms : fs.Performs d s.objects o a d' s') (hshallow : d'.Shallow fs.frames) :
    ∃ t, issuing joinedMap FreshUuid s o a t ∧ fs.Refines d' t := by
  obtain ⟨token, hstep⟩ := hperforms.step
  refine ⟨⟨s', (o.token? a).toList ++ s.issued⟩, ⟨token, hstep, fun t ht => ?_, rfl⟩, hperforms.holds, hshallow,
    fun t ht => ?_⟩
  · obtain ⟨huuid, hfresh, -⟩ := hperforms.token t ht
    exact ⟨huuid, fun hissued => hfresh (h.issued t hissued)⟩
  · rcases List.mem_append.mp ht with hnew | hold
    · exact (hperforms.token t (Option.mem_toList.mp hnew)).2.2
    · exact hperforms.drawn t (h.issued t hold)

/-- What an operation that dies leaves on a disk, one leaves that dies in a store where writes can be torn. -/
theorem FilesystemStorage.Refines.dies (h : fs.Refines d s) (hpassing : fs.Passing d s.objects o d')
    (hshallow : d'.Shallow fs.frames) :
    ∃ t, (o.call).Dies (tearing joinedMap FreshUuid) s t ∧ fs.Refines d' t := by
  obtain ⟨hdrawn, objects, hcut, hholds⟩ := hpassing
  have hissued : ∀ t ∈ s.issued, t ∈ d'.drawn := fun t ht => hdrawn t (h.issued t ht)
  cases hcut with
  | before => exact ⟨s, StorageOp.dies_call.mpr (.inl rfl), hholds, hshallow, hissued⟩
  | torn key data metadata hwrite hcommits =>
    exact ⟨⟨s.objects.tear key data, s.issued⟩,
      StorageOp.dies_call.mpr (.inr (.inl ⟨key, data, metadata, hwrite, hcommits, rfl⟩)), hholds, hshallow, hissued⟩
  | after token a _ hstep hcommits hnew =>
    refine ⟨⟨objects, (o.token? a).toList ++ s.issued⟩, ?_, hholds, hshallow, fun t ht => ?_⟩
    · refine StorageOp.dies_call.mpr (.inr (.inr ⟨a, token, hstep, fun t ht => ?_, rfl⟩))
      obtain ⟨huuid, hfresh⟩ := hnew t ht
      exact ⟨huuid, fun hmem => hfresh (h.issued t hmem)⟩
    · rcases List.mem_append.mp ht with hnewest | hold
      · obtain ⟨key, obj, hget, rfl⟩ := Objects.step_token hstep (Option.mem_toList.mp hnewest)
        exact hholds.drawn key obj hget
      · exact hissued t hold

/-! ## Histories -/

/-- A new root holds nothing. -/
theorem refines_empty (h : 0 < fs.frames) : fs.Refines Disk.empty Issuing.empty where
  holds :=
    { tidy := tidy_empty
      objects := fun key directory leaf _ => objectAt_eq_none.mpr (read_empty _ _)
      storable := nofun
      sidecars := fun directory name raw _ hread => by
        rw [read_empty] at hread
        cases hread
      drawn := nofun }
  shallow p hp := by
    cases p with
    | nil => exact h
    | cons name p =>
      rw [node_empty] at hp
      cases hp
  issued := nofun

/-- A history of calls that die at any of their steps is one of a store. -/
theorem exists_refined {calls : List (StorageOp × Option (Except Exc Answered))} {d : Disk} (hframes : 0 < fs.frames)
    (hist : MortalHistory (onDisk False) fs.call Disk.empty calls d) (hcalls : ∀ o ∈ calls.map (·.1), fs.Accepts o) :
    ∃ s, MortalHistory (tearing joinedMap FreshUuid) StorageOp.call Issuing.empty calls s ∧ fs.Refines d s :=
  hist.sim (N := tearing joinedMap FreshUuid)
    (fun o ho d₁ s r d₂ hs hrun => by
      obtain ⟨a, objects, rfl, hperforms, hshallow⟩ := (hs.passes_call (hcalls o ho)).of_runs hrun
      obtain ⟨t, hstep, ht⟩ := hs.performs hperforms hshallow
      exact ⟨t, StorageOp.runs_call.mpr ⟨a, hstep, rfl⟩, ht⟩)
    (fun o ho d₁ s d₂ hs hdies => by
      obtain ⟨hpassing, hshallow⟩ := (hs.passes_call (hcalls o ho)).dies hdies
      exact hs.dies hpassing hshallow)
    (refines_empty hframes)

/-- **`FilesystemStorage` refines the protocol, whenever it dies.** What a history of calls returned and
raised, any of which died at any of its steps, a store returns and raises of which only a write can be torn:
one that dies in the middle leaves the new bytes beside the old metadata and the old token. The disk holds the
objects of this store, so nothing else that was left behind is seen, and every further call ends. -/
theorem disk_refines {calls : List (StorageOp × Option (Except Exc Answered))} {d : Disk} (hframes : 0 < fs.frames)
    (hist : MortalHistory (onDisk False) fs.call Disk.empty calls d) (hcalls : ∀ o ∈ calls.map (·.1), fs.Accepts o) :
    (∃ s, MortalHistory (tearing joinedMap FreshUuid) StorageOp.call Issuing.empty calls s ∧ fs.Holds d s.objects) ∧
      ∀ o, fs.Accepts o → (fs.call o).Ends (onDisk False).handles (fun r _ => ∃ a, r = .ok ⟨o, a⟩) d := by
  obtain ⟨s, hrun, hs⟩ := exists_refined hframes hist hcalls
  refine ⟨⟨s, hrun, hs.holds⟩, fun o ho => (hs.passes_call ho).ends.mono ?_⟩
  rintro r d' ⟨a, -, rfl, -⟩
  exact ⟨a, rfl⟩

end

/-! ## A torn write -/

/-- A fault is recorded. -/
theorem Disk.failed_of_fails {d d' : Disk} {o : FsOp} {a : o.Ans} (h : d.fails o a d') :
    d'.failed = d.failed ++ [o] := by
  cases o with
  | mkdir path =>
    obtain ⟨-, -, rfl⟩ := h
    rfl
  | create path =>
    obtain ⟨-, rfl⟩ := h
    rfl
  | write path data =>
    obtain ⟨-, part, t, -, -, rfl⟩ := h
    rfl
  | replace src dst =>
    obtain ⟨-, rfl⟩ := h
    rfl
  | _ => exact h.elim

/-- A disk without faults records none. -/
theorem Disk.failed_answer (d : Disk) (o : FsOp) : (Disk.answer (fun _ => false) o d).2.failed = d.failed := by
  have hperform : ∀ result, (d.perform result).2.failed = d.failed := by
    intro result
    cases result <;> rfl
  cases o with
  | uuid4 => rfl
  | readBytes path => rfl
  | isDir path => rfl
  | scandir path => rfl
  | replace src dst => exact hperform (d.tree.replace src dst)
  | lock exclusive => exact hperform (openLock d.tree)
  | mkdir path => exact hperform (d.tree.mkdir path)
  | create path => exact hperform (d.tree.create path [])
  | write path data => exact hperform (d.tree.write path data)
  | unlink path => exact hperform (d.tree.unlink path)
  | rmdir path => exact hperform (d.tree.rmdir path)

/-- A disk that counts its draws, without faults. -/
theorem handles_answer_calm {d : Disk} {o : FsOp} (h : d.drawsNew o = true) :
    (onDisk False).handles d o (Disk.answer (fun _ => false) o d).1 (Disk.answer (fun _ => false) o d).2 := by
  refine .inl ?_
  rcases Disk.handles_answer (fun _ => false) d o h with hans | ⟨-, hfails⟩
  · exact hans
  · have hfailed := Disk.failed_of_fails hfails
    rw [Disk.failed_answer] at hfailed
    exact absurd hfailed (by simp)

/-- A put, one that dies between its two renames, and a get. -/
def tornCalls : List (StorageOp × Option Nat) :=
  [(.put (str "a/b") [1] .empty, none), (.put (str "a/b") [2] .empty, some 11), (.get (str "a/b"), none)]

/-- A put that dies between its two renames leaves a torn object. -/
theorem disk_refines_torn : let _ := Interpreter.ascii
    let fs : FilesystemStorage := ⟨str "/data", 2⟩
    ∃ calls d, calls.map (·.1) = tornCalls.map (·.1) ∧
      MortalHistory (onDisk False) fs.call Disk.empty calls d ∧
      (calls.map fun c => c.2.isSome) = [true, false, true] ∧
      ∃ s, MortalHistory (tearing joinedMap FreshUuid) StorageOp.call Issuing.empty calls s ∧
        fs.Holds d s.objects := by
  intro _ fs
  have hexec : ((MortalHistory.exec (Disk.answer fun _ => false) Disk.drawsNew fs.call tornCalls
      (Disk.empty, true)).map fun out => (out.2.2, out.1.map fun c => c.2.isSome)) =
        some (true, [true, false, true]) := by
    decide +kernel
  obtain ⟨⟨calls, d, flag⟩, hexec, hout⟩ := Option.map_eq_some_iff.mp hexec
  obtain ⟨rfl, hends⟩ := Prod.mk.inj hout
  obtain ⟨-, hist, hcalls⟩ := MortalHistory.of_exec (M := onDisk False) (fun d o h => handles_answer_calm h) hexec
  have hplace : locate (str "a/b") = .ok ([str "a"], str "b") := by decide +kernel
  have haccepts : ∀ o ∈ calls.map (·.1), fs.Accepts o := by
    rw [hcalls]
    intro o ho
    simp only [tornCalls, List.map_cons, List.map_nil, List.mem_cons, List.not_mem_nil, or_false] at ho
    rcases ho with rfl | rfl | rfl
    · exact ⟨_, hplace, by decide⟩
    · exact ⟨_, hplace, by decide⟩
    · exact ⟨_, hplace⟩
  exact ⟨calls, d, hcalls, hist, hends, (disk_refines (by decide) hist haccepts).1⟩

end Wenchang
