import Wenchang.Laws.FileReads

/-!
# `FilesystemStorage.put` and `put_if_version`

The two methods that write, as one specification (`passes_writing`): refused before the write, a version
that does not match, or a write.
-/

namespace Wenchang

open Py Ordered Files Interaction

section

variable [Interpreter] {fs : FilesystemStorage} {faults : Prop} {d : Disk} {key : Str} {directory : FilePath}
  {leaf : Str} {data : Bytes} {metadata : Metadata}

/-- `put`, or `put_if_version` with a version. -/
def FilesystemStorage.writing (fs : FilesystemStorage) (key : Str) (data : Bytes) (metadata : Metadata) :
    Option (Option Str) → Prog FsSig Exc Str
  | none => put key data metadata
  | some expected => fs.putIfVersion key data metadata expected

/-- The version that is expected is the one that is found, where one is. -/
def Matched (fs : FilesystemStorage) (directory : FilePath) (leaf : Str) (checked : Option (Option Str))
    (d : Disk) : Prop :=
  ∀ expected, checked = some expected → ∃ found, SidecarRead fs ((leaf ++ sidecarSuffix) :: directory)
    (d.tree.read ((leaf ++ sidecarSuffix) :: directory)) (.ok found) ∧ found.map (·.version) = expected

/-- How a method that writes ends. -/
inductive PutEnds (fs : FilesystemStorage) (faults : Prop) (key : Str) (directory : FilePath) (leaf : Str)
    (data : Bytes) (metadata : Metadata) (checked : Option (Option Str)) (d : Disk) :
    Except Exc Str → Disk → Prop
  | refused (e : Exc) (d' : Disk) (quiet : Quiet faults d d') (failed : d'.failed = d.failed)
      (why : d.tree.node [lockName] = some .dir ∨ ∃ e', SidecarRead fs ((leaf ++ sidecarSuffix) :: directory)
        (d.tree.read ((leaf ++ sidecarSuffix) :: directory)) (.error e')) :
      PutEnds fs faults key directory leaf data metadata checked d (.error e) d'
  | mismatch (found : Option Sidecar) (expected : Option Str) (d' : Disk) (given : checked = some expected)
      (quiet : Quiet faults d d') (failed : d'.failed = d.failed)
      (read : SidecarRead fs ((leaf ++ sidecarSuffix) :: directory)
        (d.tree.read ((leaf ++ sidecarSuffix) :: directory)) (.ok found))
      (ne : found.map (·.version) ≠ expected) :
      PutEnds fs faults key directory leaf data metadata checked d (.error (.preconditionFailedError key)) d'
  | write (r : Except FsExc Str) (d' : Disk) (matched : Matched fs directory leaf checked d)
      (ends : WriteEnds faults directory leaf data metadata d r d') :
      PutEnds fs faults key directory leaf data metadata checked d (seen r) d'

/-- The disks that a method that writes passes. -/
abbrev PutPasses (fs : FilesystemStorage) (faults : Prop) (directory : FilePath) (leaf : Str) (data : Bytes)
    (metadata : Metadata) (checked : Option (Option Str)) (d d' : Disk) : Prop :=
  Quiet faults d d' ∨ Matched fs directory leaf checked d ∧ WritePasses faults directory leaf data metadata d d'

/-- **A method that writes**, whatever fails and wherever it is cut short. -/
theorem passes_writing (hkey : FilesystemStorage.locate key = .ok (directory, leaf))
    (checked : Option (Option Str)) : (fs.writing key data metadata checked).Passes (onDisk faults)
      (PutPasses fs faults directory leaf data metadata checked d)
      (PutEnds fs faults key directory leaf data metadata checked d) d := by
  have hsidecar := objectPath_of_locate hkey (.inr rfl)
  have hbody := objectPath_of_locate hkey (.inl rfl)
  have hdir := dirPath_of_locate hkey
  -- The write, once the lock is held and the version is checked.
  have hwrite : ∀ {d₁ : Disk}, Quiet faults d d₁ → d₁.failed = d.failed → Matched fs directory leaf checked d →
      (FilesystemStorage.write directory leaf data metadata).Passes (onDisk faults)
        (PutPasses fs faults directory leaf data metadata checked d)
        (fun r d' => PutEnds fs faults key directory leaf data metadata checked d (seen r) d') d₁ :=
    fun hquiet hfailed hmatched => (passes_write hdir hbody hsidecar).mono
      (fun _ h => .inr ⟨hmatched, h.of_quiet hquiet⟩)
      fun _ _ _ h => .write _ _ hmatched (h.of_quiet hsidecar hquiet hfailed)
  have hlock : (FilesystemStorage.locked true).Passes (onDisk faults)
      (PutPasses fs faults directory leaf data metadata checked d) (fun r d' => Quiet faults d d' ∧
        d'.failed = d.failed ∧ ∀ e, r = .error e → d.tree.node [lockName] = some .dir) d := by
    refine (passes_locked true).mono (fun _ h => .inl h) ?_
    rintro r d₁ hquiet ⟨hfailed, ⟨rfl, -⟩ | ⟨e, rfl, hdir⟩⟩
    · exact ⟨hquiet, hfailed, by simp⟩
    · exact ⟨hquiet, hfailed, fun _ _ => hdir⟩
  have hrefused : ∀ e d₁, PutPasses fs faults directory leaf data metadata checked d d₁ →
      (Quiet faults d d₁ ∧ d₁.failed = d.failed ∧
        ∀ e', (.error e : Except FsExc Unit) = .error e' → d.tree.node [lockName] = some .dir) →
      PutEnds fs faults key directory leaf data metadata checked d (seen (.error e)) d₁ := by
    rintro (e | e) d₁ - ⟨hquiet, hfailed, hdir⟩
    · exact .refused _ d₁ hquiet hfailed (.inl (hdir _ rfl))
    · exact .refused _ d₁ hquiet hfailed (.inl (hdir _ rfl))
  cases checked with
  | none =>
    rw [FilesystemStorage.writing, FilesystemStorage.put, hkey, Prog.ofExcept_ok, Prog.ret_bind]
    refine passes_unavailable.mpr (hlock.bind ?_ hrefused)
    rintro u d₁ - ⟨hquiet, hfailed, -⟩
    exact hwrite hquiet hfailed nofun
  | some expected =>
    rw [FilesystemStorage.writing, FilesystemStorage.putIfVersion, hkey, Prog.ofExcept_ok, Prog.ret_bind]
    refine passes_unavailable.mpr (hlock.bind ?_ hrefused)
    rintro u d₁ - ⟨hquiet, hfailed, -⟩
    refine Prog.Passes.bind ((passes_readSidecar _).mono (fun w h => h ▸ .inl hquiet)
      fun r w h hr => And.intro h hr) ?_ ?_
    · rintro found _ - ⟨rfl, hread⟩
      rw [hquiet.reads _ hsidecar] at hread
      by_cases heq : found.map (·.version) = expected
      · rw [Prog.raiseIf_neg (not_not.mpr heq), Prog.ret_bind]
        refine hwrite hquiet hfailed ?_
        rintro _ ⟨⟩
        exact ⟨found, hread, heq⟩
      · rw [Prog.raiseIf_bind_pos heq]
        exact ⟨.inl hquiet, .mismatch found expected _ rfl hquiet hfailed hread heq⟩
    · rintro e _ - ⟨rfl, hread⟩
      rw [hquiet.reads _ hsidecar] at hread
      rcases e with e | e <;> exact .refused _ _ hquiet hfailed (.inr ⟨_, hread⟩)

end

end Wenchang
