import Wenchang.Laws.FileDeletes
import Wenchang.Laws.FilePuts
import Wenchang.Laws.Sidecars
import Wenchang.Objects

/-!
# What a disk holds

`Holds` relates a disk to the objects that are read from it. It asks nothing of a body without a sidecar
and nothing of hidden files, so what a write or a delete leaves behind that was cut short is no part of it.
It depends on the files of objects alone: a change to those of one key changes what is held at this key
(`Holds.change`), and everything a method can make of a disk is such a change.
-/

namespace Wenchang

open Py Ordered Files Interaction FilesystemStorage

/-- What a sidecar says of an object. -/
def StoredObject.sidecar (obj : StoredObject) : Sidecar := ⟨obj.version, obj.metadata⟩

/-- A sidecar has its object's version. -/
theorem version_sidecar (s : Objects) (key : Str) :
    ((s.get? key).map StoredObject.sidecar).map (·.version) = s.version key := by
  rw [Option.map_map]
  rfl

/-- A token that was drawn is one that JSON gives back. -/
theorem joinPairs_uuid {token : Str} (h : isUuidHex token = true) : joinPairs token = token := by
  refine joinPairs_of_scalar fun c hc => ?_
  have hdigit := List.all_eq_true.mp (Bool.and_eq_true_iff.mp h).2 c hc
  simp only [Bool.or_eq_true, Bool.and_eq_true, decide_eq_true_eq] at hdigit
  rw [isSurrogate, decide_eq_false (by omega), Bool.false_and]

variable [Interpreter]

/-- A disk from which these objects are read, and no others. -/
structure FilesystemStorage.Holds (fs : FilesystemStorage) (d : Disk) (s : Objects) : Prop where
  tidy : d.Tidy
  objects : ∀ key directory leaf, locate key = .ok (directory, leaf) →
    objectAt fs directory leaf d.tree.read = some (s.get? key)
  storable : ∀ key obj, s.get? key = some obj → ∃ place, locate key = .ok place
  sidecars : ∀ directory name raw, ObjectPath ((name ++ sidecarSuffix) :: directory) →
    d.tree.read ((name ++ sidecarSuffix) :: directory) = .ok raw → ∃ key, locate key = .ok (directory, name)
  drawn : ∀ key obj, s.get? key = some obj → obj.version ∈ d.drawn

variable {fs : FilesystemStorage} {faults : Prop} {d d' : Disk} {s : Objects} {key : Str}
  {directory : FilePath} {leaf : Str}

/-- Nothing but the files of a key are read otherwise. -/
def OnlyAt (directory : FilePath) (leaf : Str) (d : Disk) (reads : FilePath → Except Errno Bytes) : Prop :=
  ∀ p, p ≠ (leaf ++ bodySuffix) :: directory → p ≠ (leaf ++ sidecarSuffix) :: directory → reads p = d.tree.read p

/-- An object is read off its two files. -/
theorem objectAt_congr {reads reads' : FilePath → Except Errno Bytes}
    (hsidecar : reads ((leaf ++ sidecarSuffix) :: directory) = reads' ((leaf ++ sidecarSuffix) :: directory))
    (hbody : reads ((leaf ++ bodySuffix) :: directory) = reads' ((leaf ++ bodySuffix) :: directory)) :
    objectAt fs directory leaf reads = objectAt fs directory leaf reads' := by
  unfold objectAt
  rw [hsidecar, hbody]

/-- **One key changes.** -/
theorem FilesystemStorage.Holds.change (h : fs.Holds d s) (hkey : locate key = .ok (directory, leaf))
    {reads : FilePath → Except Errno Bytes} (hleaves : Leaves faults d d' reads)
    (honly : OnlyAt directory leaf d reads) {found : Option StoredObject}
    (hfound : objectAt fs directory leaf reads = some found)
    (hdrawn : ∀ obj, found = some obj → obj.version ∈ d'.drawn) : fs.Holds d' (s.set key found) where
  tidy := hleaves.tidy h.tidy
  objects k directory' leaf' hk := by
    have hreads : objectAt fs directory' leaf' d'.tree.read = objectAt fs directory' leaf' reads :=
      objectAt_congr (hleaves.reads _ (objectPath_of_locate hk (.inr rfl)))
        (hleaves.reads _ (objectPath_of_locate hk (.inl rfl)))
    rw [hreads, Objects.get?_set]
    split
    next heq =>
      subst heq
      obtain ⟨rfl, rfl⟩ := Prod.mk.inj (Except.ok.inj (hk.symm.trans hkey))
      exact hfound
    next hne =>
      -- The files of another key are other files.
      have hpath : ∀ suffix suffix', suffix ∈ [bodySuffix, sidecarSuffix] → suffix' ∈ [bodySuffix, sidecarSuffix] →
          (leaf' ++ suffix) :: directory' ≠ (leaf ++ suffix') :: directory := by
        intro suffix suffix' hs hs' heq
        obtain ⟨hname, rfl⟩ := List.cons.inj heq
        have hsuffix : suffix = suffix' := by
          simp only [List.mem_cons, List.not_mem_nil, or_false] at hs hs'
          rcases hs with rfl | rfl <;> rcases hs' with rfl | rfl
          · rfl
          · exact absurd hname.symm (sidecarName_ne_bodyName _ _)
          · exact absurd hname (sidecarName_ne_bodyName _ _)
          · rfl
        subst hsuffix
        obtain rfl := List.append_cancel_right hname
        exact hne (locate_injective hk hkey)
      rw [objectAt_congr (honly _ (hpath _ _ (by simp) (by simp)) (hpath _ _ (by simp) (by simp)))
        (honly _ (hpath _ _ (by simp) (by simp)) (hpath _ _ (by simp) (by simp)))]
      exact h.objects k directory' leaf' hk
  storable k obj hobj := by
    rw [Objects.get?_set] at hobj
    split at hobj
    next heq => exact ⟨_, heq ▸ hkey⟩
    next => exact h.storable k obj hobj
  sidecars directory' name raw hpath hread := by
    rw [hleaves.reads _ hpath] at hread
    by_cases heq : (name ++ sidecarSuffix) :: directory' = (leaf ++ sidecarSuffix) :: directory
    · obtain ⟨hname, rfl⟩ := List.cons.inj heq
      obtain rfl := List.append_cancel_right hname
      exact ⟨key, hkey⟩
    · rw [honly _ (fun hb => sidecarName_ne_bodyName _ _ (List.cons.inj hb).1) heq] at hread
      exact h.sidecars directory' name raw hpath hread
  drawn k obj hobj := by
    rw [Objects.get?_set] at hobj
    split at hobj
    next => exact hdrawn obj hobj
    next => exact hleaves.drawn _ (h.drawn k obj hobj)

/-! ## What is read -/

/-- There is no object where there is no sidecar. -/
theorem objectAt_eq_none {reads : FilePath → Except Errno Bytes} :
    objectAt fs directory leaf reads = some none ↔
      reads ((leaf ++ sidecarSuffix) :: directory) = .error .enoent := by
  unfold objectAt
  split
  next errno hread =>
    rw [hread]
    split
    next h => simp [h]
    next h => simp [h]
  next raw hread =>
    rw [hread]
    split
    · simp
    · split <;> simp

/-- There is an object where its sidecar and its body read. -/
theorem objectAt_eq_some {reads : FilePath → Except Errno Bytes} {obj : StoredObject} :
    objectAt fs directory leaf reads = some (some obj) ↔
      ∃ raw, reads ((leaf ++ sidecarSuffix) :: directory) = .ok raw ∧
        fs.parseSidecar ((leaf ++ sidecarSuffix) :: directory) raw = .ok obj.sidecar ∧
        reads ((leaf ++ bodySuffix) :: directory) = .ok obj.data := by
  unfold objectAt
  constructor
  · intro h
    split at h
    · split at h <;> cases h
    next raw hread =>
      split at h
      · cases h
      next sidecar hparsed =>
        split at h
        · cases h
        next data hdata =>
          obtain rfl := Option.some.inj (Option.some.inj h)
          exact ⟨raw, hread, hparsed, hdata⟩
  · rintro ⟨raw, hread, hparsed, hdata⟩
    simp only [hread, hparsed, hdata]
    rfl

namespace FilesystemStorage.Holds

/-- The sidecar that is found is that of the object, if there is one. -/
theorem sidecarRead (h : fs.Holds d s) (hkey : locate key = .ok (directory, leaf))
    {r : Except FsExc (Option Sidecar)} (hr : SidecarRead fs ((leaf ++ sidecarSuffix) :: directory)
      (d.tree.read ((leaf ++ sidecarSuffix) :: directory)) r) :
    r = .ok ((s.get? key).map StoredObject.sidecar) := by
  have hobject := h.objects key directory leaf hkey
  generalize hread : d.tree.read ((leaf ++ sidecarSuffix) :: directory) = result at hr
  cases hget : s.get? key with
  | none =>
    rw [hget, objectAt_eq_none, hread] at hobject
    cases hr with
    | absent => rfl
    | refused e hother => exact absurd (Except.error.inj hobject) hother
    | read => cases hobject
    | corrupt => cases hobject
  | some obj =>
    rw [hget, objectAt_eq_some] at hobject
    obtain ⟨raw, hraw, hparsed, -⟩ := hobject
    rw [hread] at hraw
    cases hr with
    | absent => cases hraw
    | refused e hother => cases hraw
    | read raw' sidecar hparsed' =>
      obtain rfl := Except.ok.inj hraw
      rw [hparsed, Except.ok.injEq] at hparsed'
      rw [← hparsed']
      rfl
    | corrupt raw' e hparsed' =>
      obtain rfl := Except.ok.inj hraw
      rw [hparsed] at hparsed'
      cases hparsed'

/-- A quiet step. -/
theorem quiet (h : fs.Holds d s) (hquiet : Quiet faults d d') : fs.Holds d' s where
  tidy := hquiet.tidy h.tidy
  objects k directory leaf hk := by
    rw [objectAt_congr (hquiet.reads _ (objectPath_of_locate hk (.inr rfl)))
      (hquiet.reads _ (objectPath_of_locate hk (.inl rfl)))]
    exact h.objects k directory leaf hk
  storable := h.storable
  sidecars directory name raw hpath hread := h.sidecars directory name raw hpath (hquiet.reads _ hpath ▸ hread)
  drawn k obj hobj := hquiet.drawn _ (h.drawn k obj hobj)

variable {data : Bytes} {metadata : Metadata}

/-- **The new body beside the old sidecar.** Without a sidecar it is not seen. -/
theorem bodyOnly (h : fs.Holds d s) (hkey : locate key = .ok (directory, leaf))
    (hbody : BodyOnly faults directory leaf data d d') :
    fs.Holds d' (s.tear key data) := by
  have hpaths : (leaf ++ sidecarSuffix) :: directory ≠ (leaf ++ bodySuffix) :: directory := fun heq =>
    sidecarName_ne_bodyName leaf leaf (List.cons.inj heq).1
  have hobject := h.objects key directory leaf hkey
  refine h.change hkey hbody (fun p hp _ => Function.update_of_ne hp _ _) ?_ fun obj hobj => ?_
  · cases hget : s.get? key with
    | none =>
      rw [hget, objectAt_eq_none] at hobject
      refine objectAt_eq_none.mpr ?_
      rw [Function.update_of_ne hpaths]
      exact hobject
    | some obj =>
      rw [hget, objectAt_eq_some] at hobject
      obtain ⟨raw, hread, hparsed, -⟩ := hobject
      refine objectAt_eq_some.mpr ⟨raw, ?_, hparsed, Function.update_self _ _ _⟩
      rw [Function.update_of_ne hpaths]
      exact hread
  · obtain ⟨old, hold, rfl⟩ := Option.map_eq_some_iff.mp hobj
    exact hbody.drawn _ (h.drawn key old hold)

/-- **Both files.** The strings of the metadata are those that JSON gives back. -/
theorem fullyWritten (h : fs.Holds d s) (hkey : locate key = .ok (directory, leaf)) {token : Str}
    (hwritten : FullyWritten faults directory leaf data metadata d d' token) :
    fs.Holds d' (s.insert key ⟨data, joinedMap metadata, token⟩) := by
  have hpaths : (leaf ++ bodySuffix) :: directory ≠ (leaf ++ sidecarSuffix) :: directory := fun heq =>
    sidecarName_ne_bodyName leaf leaf (List.cons.inj heq).1.symm
  have hfound : objectAt fs directory leaf (Function.update
      (Function.update d.tree.read ((leaf ++ bodySuffix) :: directory) (.ok data))
      ((leaf ++ sidecarSuffix) :: directory) (.ok (sidecarBytes ⟨token, metadata⟩))) =
        some (some ⟨data, joinedMap metadata, token⟩) := by
    refine objectAt_eq_some.mpr ⟨_, Function.update_self _ _ _, ?_, ?_⟩
    · rw [parseSidecar_sidecarBytes, joinPairs_uuid hwritten.uuid]
      rfl
    · rw [Function.update_of_ne hpaths]
      exact Function.update_self _ _ _
  refine h.change hkey hwritten.leaves (fun p hb hs => ?_) hfound fun obj hobj => ?_
  · rw [Function.update_of_ne hs, Function.update_of_ne hb]
  · obtain rfl := Option.some.inj hobj
    exact hwritten.drawn

/-- **The sidecar is gone**, whether the body is or not. -/
theorem gone (h : fs.Holds d s) (hkey : locate key = .ok (directory, leaf))
    (hgone : SidecarGone faults directory leaf d d' ∨ BothGone faults directory leaf d d') :
    fs.Holds d' (s.set key none) := by
  have hpaths : (leaf ++ sidecarSuffix) :: directory ≠ (leaf ++ bodySuffix) :: directory := fun heq =>
    sidecarName_ne_bodyName leaf leaf (List.cons.inj heq).1
  rcases hgone with hgone | hgone
  · refine h.change hkey hgone (fun p _ hs => Function.update_of_ne hs _ _) ?_ nofun
    exact objectAt_eq_none.mpr (Function.update_self _ _ _)
  · refine h.change hkey hgone (fun p hb hs => ?_) ?_ nofun
    · rw [Function.update_of_ne hb, Function.update_of_ne hs]
    · refine objectAt_eq_none.mpr ?_
      rw [Function.update_of_ne hpaths]
      exact Function.update_self _ _ _

end FilesystemStorage.Holds

/-! ## What the methods do -/

/-- What an operation may leave of the objects that dies on the way: the old ones, the new ones, or the new
body beside the old sidecar. -/
inductive CutShort (d : Disk) (s : Objects) (o : StorageOp) : Objects → Prop
  | before : CutShort d s o s
  | torn (key : Str) (data : Bytes) (metadata : Metadata) (write : o.write? = some (key, data, metadata))
      (commits : s.Commits o) : CutShort d s o (s.tear key data)
  | after (token : Str) (a : o.Ans) (s' : Objects) (step : Objects.step joinedMap token o s = (a, s'))
      (commits : s.Commits o) (new : ∀ t, o.token? a = some t → isUuidHex t = true ∧ t ∉ d.drawn) :
    CutShort d s o s'

/-- A disk that an operation passes. -/
def FilesystemStorage.Passing (fs : FilesystemStorage) (d : Disk) (s : Objects) (o : StorageOp) (d' : Disk) :
    Prop :=
  (∀ u, u ∈ d.drawn → u ∈ d'.drawn) ∧ ∃ s', CutShort d s o s' ∧ fs.Holds d' s'

/-- What an operation has made of a disk. -/
structure FilesystemStorage.Performs (fs : FilesystemStorage) (d : Disk) (s : Objects) (o : StorageOp)
    (a : o.Ans) (d' : Disk) (s' : Objects) : Prop where
  step : ∃ token, Objects.step joinedMap token o s = (a, s')
  holds : fs.Holds d' s'
  drawn : ∀ u, u ∈ d.drawn → u ∈ d'.drawn
  token : ∀ t, o.token? a = some t → isUuidHex t = true ∧ t ∉ d.drawn ∧ t ∈ d'.drawn

/-- How a method ends that performs an operation. -/
abbrev FilesystemStorage.Performed (fs : FilesystemStorage) (d : Disk) (s : Objects) (o : StorageOp)
    (r : Except Exc o.Ans) (d' : Disk) : Prop := ∃ a s', r = .ok a ∧ fs.Performs d s o a d' s'

section

variable {data : Bytes} {metadata : Metadata}

/-- An operation that left what is held as it is. -/
theorem performs_quiet {o : StorageOp} {a : o.Ans} {d d' : Disk} (h : fs.Holds d s) (hquiet : Quiet False d d')
    (hstep : ∀ token, Objects.step joinedMap token o s = (a, s)) (htoken : o.token? a = none) :
    fs.Performs d s o a d' s where
  step := ⟨[], hstep []⟩
  holds := h.quiet hquiet
  drawn := hquiet.drawn
  token t ht := by
    rw [htoken] at ht
    cases ht

/-- A quiet step is passed before the operation. -/
theorem passing_quiet {o : StorageOp} {d d' : Disk} (h : fs.Holds d s) (hquiet : Quiet False d d') :
    fs.Passing d s o d' := ⟨hquiet.drawn, s, .before, h.quiet hquiet⟩

/-- A get performs its operation. -/
theorem passes_perform_get (h : fs.Holds d s) (hkey : locate key = .ok (directory, leaf)) :
    (fs.perform (.get key)).Passes (onDisk False) (fs.Passing d s (.get key))
      (fs.Performed d s (.get key)) d := by
  refine Prog.passes_attempt.mpr ((passes_get hkey).mono (fun _ hquiet => passing_quiet h hquiet) ?_)
  rintro r d' hquiet ⟨-, hr⟩
  have hobject := h.objects key directory leaf hkey
  obtain rfl : r = .ok (s.get? key) := (hr _).mpr ⟨h.tidy.lock, hobject⟩
  exact ⟨_, s, rfl, performs_quiet h hquiet (fun _ => rfl) rfl⟩

/-- What is matched is the version of the object. -/
theorem version_of_matched (h : fs.Holds d s) (hkey : locate key = .ok (directory, leaf))
    {checked : Option (Option Str)} (hmatched : Matched fs directory leaf checked d) :
    ∀ expected, checked = some expected → s.version key = expected := by
  intro expected hexpected
  obtain ⟨found, hread, hversion⟩ := hmatched expected hexpected
  obtain rfl := Except.ok.inj (h.sidecarRead hkey hread)
  rw [← hversion, version_sidecar]

/-- How a write ends that is checked first. -/
inductive Wrote (fs : FilesystemStorage) (d : Disk) (s : Objects) (key : Str) (data : Bytes)
    (metadata : Metadata) (checked : Option (Option Str)) : Except Exc Str → Disk → Prop
  | mismatch (expected : Option Str) (d' : Disk) (given : checked = some expected)
      (ne : s.version key ≠ expected) (quiet : Quiet False d d') :
      Wrote fs d s key data metadata checked (.error (.preconditionFailedError key)) d'
  | written (token : Str) (d' : Disk) (matched : ∀ expected, checked = some expected → s.version key = expected)
      (uuid : isUuidHex token = true) (fresh : token ∉ d.drawn) (drawn : token ∈ d'.drawn)
      (mono : ∀ u, u ∈ d.drawn → u ∈ d'.drawn)
      (holds : fs.Holds d' (s.insert key ⟨data, joinedMap metadata, token⟩)) :
      Wrote fs d s key data metadata checked (.ok token) d'

/-- **A write, on a disk that holds the objects.** -/
theorem passes_wrote (h : fs.Holds d s) (hkey : locate key = .ok (directory, leaf))
    (checked : Option (Option Str)) (o : StorageOp) (hwrite : o.write? = some (key, data, metadata))
    (hcommits : (∀ expected, checked = some expected → s.version key = expected) → s.Commits o) :
    (fs.writing key data metadata checked).Passes (onDisk False) (fs.Passing d s o)
      (Wrote fs d s key data metadata checked) d := by
  refine (passes_writing hkey checked).mono ?_ ?_
  · rintro d' (hquiet | ⟨hmatched, hquiet | hbody | ⟨token, hwritten⟩⟩)
    · exact passing_quiet h hquiet
    · exact passing_quiet h hquiet
    · have hcommits := hcommits (version_of_matched h hkey hmatched)
      exact ⟨hbody.drawn, _, .torn key data metadata hwrite hcommits, h.bodyOnly hkey hbody⟩
    · have hcommits := hcommits (version_of_matched h hkey hmatched)
      obtain ⟨a, ha, htoken⟩ := Objects.step_of_commits hwrite hcommits
      refine ⟨hwritten.leaves.drawn, _, .after token a _ ha hcommits fun t ht => ?_,
        h.fullyWritten hkey hwritten⟩
      rw [htoken, Option.some.injEq] at ht
      exact ht ▸ ⟨hwritten.uuid, hwritten.fresh⟩
  · rintro r d' - hends
    cases hends with
    | refused e d' hquiet hfailed hwhy =>
      rcases hwhy with hlock | ⟨e', hread⟩
      · exact absurd hlock h.tidy.lock
      · cases h.sidecarRead hkey hread
    | mismatch found expected d' hgiven hquiet hfailed hread hne =>
      obtain rfl := Except.ok.inj (h.sidecarRead hkey hread)
      rw [version_sidecar] at hne
      exact .mismatch expected d' hgiven hne hquiet
    | write r d' hmatched hends =>
      have hmatched := version_of_matched h hkey hmatched
      rcases hends with ⟨token, rfl, -, hwritten⟩ | ⟨e, steps, rfl, hfaults, hsteps, hends⟩
      · exact .written token d' hmatched hwritten.uuid hwritten.fresh hwritten.drawn hwritten.leaves.drawn
          (h.fullyWritten hkey hwritten)
      · -- No step fails on a disk without faults.
        have hcalm : d'.failed = d.failed := by
          rcases hends with ⟨hquiet, -⟩ | ⟨hbody, -⟩
          · exact hquiet.calm not_false
          · exact hbody.calm not_false
        refine absurd ?_ (hsteps h.tidy)
        rw [Faults, hcalm] at hfaults
        exact List.append_right_eq_self.mp hfaults.symm

/-- A write that was not refused. -/
theorem performs_written {o : StorageOp} {a : o.Ans} {d d' : Disk} {token : Str}
    (hstep : Objects.step joinedMap token o s = (a, s.insert key ⟨data, joinedMap metadata, token⟩))
    (htoken : o.token? a = some token) (huuid : isUuidHex token = true) (hfresh : token ∉ d.drawn)
    (hdrawn : token ∈ d'.drawn) (hmono : ∀ u, u ∈ d.drawn → u ∈ d'.drawn)
    (hholds : fs.Holds d' (s.insert key ⟨data, joinedMap metadata, token⟩)) :
    fs.Performs d s o a d' (s.insert key ⟨data, joinedMap metadata, token⟩) where
  step := ⟨token, hstep⟩
  holds := hholds
  drawn := hmono
  token t ht := by
    rw [htoken, Option.some.injEq] at ht
    exact ht ▸ ⟨huuid, hfresh, hdrawn⟩

/-- A put performs its operation, or was cut between its two renames. -/
theorem passes_perform_put (h : fs.Holds d s) (hkey : locate key = .ok (directory, leaf)) :
    (fs.perform (.put key data metadata)).Passes (onDisk False) (fs.Passing d s (.put key data metadata))
      (fs.Performed d s (.put key data metadata)) d := by
  refine Prog.passes_attempt.mpr ((passes_wrote h hkey none (.put key data metadata) rfl
    fun _ => trivial).mono (fun _ hI => hI) ?_)
  rintro r d' - hwrote
  cases hwrote with
  | mismatch expected d' hgiven => cases hgiven
  | written token d' hmatched huuid hfresh hdrawn hmono hholds =>
    exact ⟨_, _, rfl, performs_written rfl rfl huuid hfresh hdrawn hmono hholds⟩

/-- So does a conditional put that is not refused. -/
theorem passes_perform_putIfVersion {expected : Option Str} (h : fs.Holds d s)
    (hkey : locate key = .ok (directory, leaf)) :
    (fs.perform (.putIfVersion key data metadata expected)).Passes (onDisk False)
      (fs.Passing d s (.putIfVersion key data metadata expected))
      (fs.Performed d s (.putIfVersion key data metadata expected)) d := by
  refine Prog.passes_attempt.mpr ((passes_wrote h hkey (some expected)
    (.putIfVersion key data metadata expected) rfl fun hmatched => hmatched expected rfl).mono (fun _ hI => hI) ?_)
  rintro r d' - hwrote
  cases hwrote with
  | mismatch expected' d' hgiven hne hquiet =>
    obtain rfl := Option.some.inj hgiven
    exact ⟨_, _, rfl, performs_quiet h hquiet (fun _ => Objects.step_putIfVersion_ne hne) rfl⟩
  | written token d' hmatched huuid hfresh hdrawn hmono hholds =>
    exact ⟨_, _, rfl, performs_written (Objects.step_putIfVersion (hmatched expected rfl)) rfl huuid hfresh
      hdrawn hmono hholds⟩

/-- A conditional delete performs its operation. -/
theorem passes_perform_deleteIfVersion {expected : Str} (h : fs.Holds d s)
    (hkey : locate key = .ok (directory, leaf)) :
    (fs.perform (.deleteIfVersion key expected)).Passes (onDisk False)
      (fs.Passing d s (.deleteIfVersion key expected)) (fs.Performed d s (.deleteIfVersion key expected)) d := by
  -- A sidecar that is found has the version of the object.
  have hversion : ∀ {sidecar : Sidecar}, SidecarRead fs ((leaf ++ sidecarSuffix) :: directory)
      (d.tree.read ((leaf ++ sidecarSuffix) :: directory)) (.ok (some sidecar)) →
      sidecar.version = expected → s.version key = some expected := by
    intro sidecar hread hmatched
    rw [← version_sidecar, ← Except.ok.inj (h.sidecarRead hkey hread), Option.map_some, hmatched]
  refine Prog.passes_attempt.mpr ((passes_delete hkey).mono ?_ ?_)
  · rintro d' (hquiet | ⟨⟨sidecar, hread, hmatched⟩, hgone⟩)
    · exact passing_quiet h hquiet
    · refine ⟨fun u hu => ?_, _, .after [] _ _ (Objects.step_deleteIfVersion (hversion hread hmatched))
        (hversion hread hmatched) nofun, h.gone hkey hgone⟩
      rcases hgone with hgone | hgone
      · exact hgone.drawn u hu
      · exact hgone.drawn u hu
  · rintro r d' - hends
    cases hends with
    | refused e d' hquiet hfailed hwhy =>
      rcases hwhy with hlock | ⟨e', hread⟩
      · exact absurd hlock h.tidy.lock
      · cases h.sidecarRead hkey hread
    | mismatch found d' hquiet hfailed hread hne =>
      obtain rfl := Except.ok.inj (h.sidecarRead hkey hread)
      rw [version_sidecar] at hne
      exact ⟨_, _, rfl, performs_quiet h hquiet (fun _ => Objects.step_deleteIfVersion_ne hne) rfl⟩
    | halfway e d' hgone hfailed hwhy =>
      exact absurd hwhy (h.tidy.read_ne (objectPath_of_locate hkey (.inl rfl)))
    | deleted sidecar d' hgone hfailed hread hmatched =>
      exact ⟨_, _, rfl, ⟨[], Objects.step_deleteIfVersion (hversion hread hmatched)⟩,
        h.gone hkey (.inr hgone), hgone.drawn, nofun⟩

end

end Wenchang
