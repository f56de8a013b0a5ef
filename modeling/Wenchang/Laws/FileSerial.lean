import Wenchang.Laws.FileRefinement

/-!
# `FilesystemStorage` is linearizable

Calls from any number of threads and processes, in flight at the same time, each of which may die at any of its
steps: behind the lock file they come to a sequence of calls, in the order in which they ended, and so to one of
the store (`disk_serial`).
-/

namespace Wenchang

open Py Ordered Files Interaction FilesystemStorage

section

variable [Interpreter] {fs : FilesystemStorage}

/-- Every call takes the lock of its root once. -/
theorem sectioned_call (o : StorageOp) : (fs.call o).Sectioned lockOfRoot :=
  (sectioned_rooted o).bind fun _ => nofun

/-- That the lock file is opened is not seen. -/
theorem FilesystemStorage.Holds.near {v d : Disk} {s : Objects} (h : fs.Holds v s)
    (hnear : lockOfRoot.Near (onDisk False) v d) : fs.Holds d s := by
  rcases hnear with rfl | hopens
  · exact h
  · have hh := hopens.2 (.lock false) (.ok ()) nofun
    exact h.quiet (handles_lock hh).1

/-- **`FilesystemStorage` is linearizable, whenever its callers die.** However calls in any number of threads
and processes interleave, and wherever any of them dies, what they returned and raised, in the order in which they
ended, one store returns and raises to a single caller, of which only a write can be torn. While nobody writes,
the disk holds the objects of this store. -/
theorem disk_serial {p : LockPool FsSig Exc Answered StorageOp Disk} (hframes : 0 < fs.frames)
    (h : LockPool.Run (onDisk False) lockOfRoot fs.call Disk.empty p)
    (hcalls : ∀ o ∈ p.done.map (·.1), fs.Accepts o) :
    ∃ s, MortalHistory (tearing joinedMap FreshUuid) StorageOp.call Issuing.empty p.done s ∧
      ((∀ th ∈ p.calls, th.hold ≠ .holding true) → fs.Holds p.world s.objects) := by
  obtain ⟨v, hist, hnear⟩ := h.serializes lawful_fileLock sectioned_call
  obtain ⟨s, hrun, hs⟩ := exists_refined hframes hist hcalls
  exact ⟨s, hrun, fun hidle => hs.holds.near (hnear hidle)⟩

end

/-! ## Two processes -/

/-- A put, then one that dies between its two renames while a get waits for the lock. -/
def serialSchedule : List (LockPool.Turn StorageOp) := List.flatten
  [[.invoke (.put (str "a/b") [1] .empty), .ask 0, .grant 0], List.replicate 10 (.act 0),
    [.invoke (.put (str "a/b") [2] .empty), .invoke (.get (str "a/b")), .ask 0, .ask 1, .grant 0],
    List.replicate 10 (.act 0), [.die 0, .grant 0, .act 0, .act 0]]

/-- Two calls wait for each other, and the first dies in between. -/
theorem disk_serial_two : let _ := Interpreter.ascii
    let fs : FilesystemStorage := ⟨str "/data", 2⟩
    ∃ p, LockPool.exec lockOfRoot fs.call (Disk.answer fun _ => false) Disk.drawsNew serialSchedule
        ⟨Disk.empty, [], []⟩ = some p ∧ (p.done.map fun c => c.2.isSome) = [true, false, true] ∧
      ∃ s, MortalHistory (tearing joinedMap FreshUuid) StorageOp.call Issuing.empty p.done s ∧
        ((∀ th ∈ p.calls, th.hold ≠ .holding true) → fs.Holds p.world s.objects) := by
  intro _ fs
  have hexec : ((LockPool.exec lockOfRoot fs.call (Disk.answer fun _ => false) Disk.drawsNew serialSchedule
      ⟨Disk.empty, [], []⟩).map fun p => (p.done.map fun c => c.2.isSome, p.done.map (·.1))) =
        some ([true, false, true],
          [.put (str "a/b") [1] .empty, .put (str "a/b") [2] .empty, .get (str "a/b")]) := by
    decide +kernel
  obtain ⟨p, hp, hout⟩ := Option.map_eq_some_iff.mp hexec
  obtain ⟨hends, hcalls⟩ := Prod.mk.inj hout
  have hrun : LockPool.Run (onDisk False) lockOfRoot fs.call Disk.empty p :=
    LockPool.Run.exec (fun d o h => handles_answer_calm h) .init hp
  have hplace : locate (str "a/b") = .ok ([str "a"], str "b") := by decide +kernel
  refine ⟨p, hp, hends, disk_serial (by decide) hrun ?_⟩
  rw [hcalls]
  intro o ho
  simp only [List.mem_cons, List.not_mem_nil, or_false] at ho
  rcases ho with rfl | rfl | rfl
  · exact ⟨_, hplace, by decide⟩
  · exact ⟨_, hplace, by decide⟩
  · exact ⟨_, hplace⟩

end Wenchang
