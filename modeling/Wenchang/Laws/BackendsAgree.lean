import Wenchang.Laws.FileRefinement
import Wenchang.Laws.GcsRefinement
import Wenchang.Laws.Renaming

/-!
# The backends agree

Both backends issue tokens that are new, so a history of either is one of an `InMemoryStorage`, but for the
names of the tokens (`disk_in_memory`, `gcs_in_memory`): a caller that does not look into tokens cannot tell
the three apart.
-/

namespace Wenchang

open Py Ordered Interaction

/-- Operations that keep the metadata they write. -/
def StorageOp.KeptBy (keep : Metadata → Metadata) (o : StorageOp) : Prop :=
  ∀ key data metadata, o.write? = some (key, data, metadata) → keep metadata = metadata

/-- What is kept as it is given is kept as in memory. -/
theorem Objects.step_kept {keep : Metadata → Metadata} {o : StorageOp} (h : o.KeptBy keep) (token : Str)
    (s : Objects) : Objects.step keep token o s = Objects.step id token o s := by
  cases o with
  | put key data metadata =>
    simp only [Objects.step]
    rw [h key data metadata rfl]
    rfl
  | putIfVersion key data metadata expected =>
    simp only [Objects.step]
    rw [h key data metadata rfl]
    rfl
  | get key => rfl
  | deleteIfVersion key expected => rfl
  | listPage pre startAfter limit => rfl

/-- A history that keeps its metadata is one that keeps all metadata. -/
theorem history_kept {keep : Metadata → Metadata} {allowed : List Str → Str → Prop} {s s' : Issuing}
    {calls : List (StorageOp × Except Exc Answered)}
    (hist : History (issuing keep allowed) StorageOp.call s calls s') (h : ∀ o ∈ calls.map (·.1), o.KeptBy keep) :
    History (issuing id allowed) StorageOp.call s calls s' := by
  induction hist with
  | nil s => exact .nil s
  | cons o r rest s s₁ s' run _ ih =>
    obtain ⟨a, ⟨token, hstep, hallowed, hissued⟩, rfl⟩ := StorageOp.runs_call.mp run
    rw [Objects.step_kept (h o List.mem_cons_self)] at hstep
    refine .cons o _ rest s s₁ s' ?_ (ih fun o' ho' => h o' (List.mem_cons_of_mem _ ho'))
    exact StorageOp.runs_call.mpr ⟨a, ⟨token, hstep, hallowed, hissued⟩, rfl⟩

/-- A history that is one of an `InMemoryStorage`, but for the names of its tokens: a permutation of all texts
takes the one to the other, and leaves a text as it is that neither issues. -/
def InMemoryRenamed (calls : List (StorageOp × Except Exc Answered)) : Prop :=
  ∃ ρ : Equiv.Perm Str, (∀ t, t ∉ tokensOf calls → (∀ n, n < (tokensOf calls).length → t ≠ Py.ofNat (n + 1)) →
      ρ t = t) ∧
    ∃ m, History handlesInMemory StorageOp.call InMemoryStorage.empty (calls.map (renamedCall ρ)) m

section

variable [Interpreter]

/-- **`FilesystemStorage` is `InMemoryStorage`**, for metadata whose strings survive JSON: every call returns
or raises what the in-memory one does, but for the names of the tokens. -/
theorem disk_in_memory {fs : FilesystemStorage} {calls : List (StorageOp × Except Exc Answered)} {d : Disk}
    (hframes : 0 < fs.frames) (hist : History (onDisk False).handles fs.call Disk.empty calls d)
    (haccepts : ∀ o ∈ calls.map (·.1), fs.Accepts o) (hkept : ∀ o ∈ calls.map (·.1), o.KeptBy joinedMap) :
    InMemoryRenamed calls := by
  have hstore : ∃ s, History (issuing joinedMap FreshUuid) StorageOp.call Issuing.empty calls s ∧ fs.Refines d s :=
    hist.sim (fun o ho d₁ s r d₂ hs hrun => by
      obtain ⟨a, objects, rfl, hperforms, hshallow⟩ := (hs.passes_call (haccepts o ho)).of_runs hrun
      obtain ⟨t, hstep, ht⟩ := hs.performs hperforms hshallow
      exact ⟨t, StorageOp.runs_call.mpr ⟨a, hstep, rfl⟩, ht⟩)
      (refines_empty hframes)
  obtain ⟨s, hrun, -⟩ := hstore
  exact exists_renamed (fun _ _ hfresh => hfresh.2) (history_kept hrun hkept)

/-- **`GcsStorage` is `InMemoryStorage`**, for expected tokens that are short enough to be read as numbers. -/
theorem gcs_in_memory {calls : List (StorageOp × Except Exc Answered)} {b : Bucket}
    (hist : History handlesGcs GcsStorage.call Bucket.empty calls b) (hshort : ∀ o ∈ calls.map (·.1), o.Short) :
    InMemoryRenamed calls := by
  have hempty : Bucket.empty.Refines Issuing.empty := ⟨rfl, fun g hg => absurd hg List.not_mem_nil⟩
  have hstore : ∃ s, History (issuing id NextGeneration) StorageOp.call Issuing.empty calls s ∧ b.Refines s :=
    hist.sim (fun o ho b₁ s r b₂ hs hrun => by
      obtain ⟨a, rfl, hperforms⟩ := (ends_call b₁ (hshort o ho)).of_runs hrun
      obtain ⟨t, hstep, ht⟩ := hperforms.refines hs
      exact ⟨t, StorageOp.runs_call.mpr ⟨a, hstep, rfl⟩, ht⟩) hempty
  obtain ⟨s, hrun, -⟩ := hstore
  refine exists_renamed (fun issued t hnext hissued => ?_) hrun
  obtain ⟨g, -, rfl, hlast⟩ := hnext
  exact absurd (hlast g hissued) (lt_irrefl g)

end

/-- A create, a write over what it wrote, a delete that comes late, and a page. -/
def diskCalls : List StorageOp :=
  [.putIfVersion (str "a/b") [1] .empty none, .putIfVersion (str "a/b") [2] .empty (some (hex 32 0)),
    .deleteIfVersion (str "a/b") (hex 32 0), .listPage (str "a/") none 5]

/-- A create, a write over it, a late delete and a page. -/
theorem disk_in_memory_four : let _ := Interpreter.ascii
    let fs : FilesystemStorage := ⟨str "/data", 2⟩
    ∃ calls d, calls.map (·.1) = diskCalls ∧ History (onDisk False).handles fs.call Disk.empty calls d ∧
      (tokensOf calls).length = 2 ∧ InMemoryRenamed calls := by
  intro _ fs
  have hexec : ((History.exec (Disk.answer fun _ => false) Disk.drawsNew fs.call diskCalls
      (Disk.empty, true)).map fun out => (out.2.2, (tokensOf out.1).length)) = some (true, 2) := by
    decide +kernel
  obtain ⟨⟨calls, d, flag⟩, hexec, hout⟩ := Option.map_eq_some_iff.mp hexec
  obtain ⟨rfl, htokens⟩ := Prod.mk.inj hout
  obtain ⟨-, hist, hcalls⟩ := History.of_exec (fun d o h => handles_answer_calm h) hexec
  have hplace : FilesystemStorage.locate (str "a/b") = .ok ([str "a"], str "b") := by decide +kernel
  have hempty : joinedMap .empty = .empty := by decide
  have hall : ∀ o ∈ calls.map (·.1), fs.Accepts o ∧ o.KeptBy joinedMap := by
    rw [hcalls]
    intro o ho
    simp only [diskCalls, List.mem_cons, List.not_mem_nil, or_false] at ho
    rcases ho with rfl | rfl | rfl | rfl
    · exact ⟨⟨_, hplace, by decide⟩, fun _ _ _ h => by obtain ⟨-, -, rfl⟩ := Option.some.inj h; exact hempty⟩
    · exact ⟨⟨_, hplace, by decide⟩, fun _ _ _ h => by obtain ⟨-, -, rfl⟩ := Option.some.inj h; exact hempty⟩
    · exact ⟨⟨_, hplace⟩, nofun⟩
    · exact ⟨trivial, nofun⟩
  exact ⟨calls, d, hcalls, hist, htokens,
    disk_in_memory (by decide) hist (fun o ho => (hall o ho).1) fun o ho => (hall o ho).2⟩

/-- A create, a write over what it wrote, and a page. -/
def bucketCalls : List StorageOp :=
  [.putIfVersion (str "notes/a.md") [1] .empty none,
    .putIfVersion (str "notes/a.md") [2] .empty (some (str "1")), .listPage (str "not") none 1]

/-- A create, a write that expects its text with a zero before it, and a page. -/
theorem gcs_in_memory_three : let _ := Interpreter.ascii
    ∃ calls b, calls.map (·.1) = bucketCalls ∧ History handlesGcs GcsStorage.call Bucket.empty calls b ∧
      InMemoryRenamed calls := by
  intro _
  have hexec : ((History.exec answerGcs (fun _ _ => true) GcsStorage.call bucketCalls
      (Bucket.empty, true)).map (·.2.2)) = some true := by
    decide +kernel
  obtain ⟨⟨calls, b, flag⟩, hexec, rfl⟩ := Option.map_eq_some_iff.mp hexec
  obtain ⟨-, hist, hcalls⟩ := History.of_exec (fun b o _ => handlesGcs_answerGcs o b) hexec
  have hshort : ∀ o ∈ calls.map (·.1), o.Short := by
    rw [hcalls]
    decide
  exact ⟨calls, b, hcalls, hist, gcs_in_memory hist hshort⟩

end Wenchang
