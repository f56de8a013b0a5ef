import Wenchang.Laws.Rules

/-!
# What a mutator does

One specification for the four mutators, in an in-memory world whose puts may be lossy. `Guarantee`
says of every operation a mutator issues what it did before: a conditional put writes what the
mutator computes (`Mutator.Edits`) from the object it read last, against that object's version, and
nothing of it has succeeded before. `Outcome` says how it ends: a return comes from the put or delete
that succeeded last, or, for `append_line`, from finding its own bytes and metadata; a raise means
that nothing succeeded.
-/

namespace Wenchang

open Py Ordered Interaction

/-- What a put writes: a content and its bytes, metadata and its map. -/
structure Written where
  content : Str
  data : Bytes
  metadata : FileMetadata
  map : Metadata
  encoded : encodeUtf8 content = .ok data
  mapped : metadataToMap metadata = .ok map

/-- A put's content fits, and its metadata was stamped from these fields. -/
structure Written.Stamped (w : Written) (s : MemoryStore) (description : Str) (aliases : List Str)
    (sources : FinSet Str) (now : DateTime) : Prop where
  size : w.data.length ≤ s.maxFileBytes
  metadata : replaceMetadata description aliases sources now = .ok w.metadata

/-- The metadata an edit of a stored file is stamped with. -/
def Written.Merged (w : Written) (s : MemoryStore) (stored : FileMetadata) (source : Str)
    (aliases : Option (List Str)) (description : Option Str) (now : DateTime) : Prop :=
  w.Stamped s (description.getD stored.description) (mergeAliases stored.aliases (aliases.getD []))
    (stored.sources.insert source) now

/-- What a mutator writes over the object it read; `none` is a create. -/
def Mutator.Edits [Interpreter] (s : MemoryStore) (now : DateTime) (w : Written) :
    Mutator → Option StoredObject → Prop
  | .writeFile _ content metadata none source, none =>
    w.content = content ∧
      w.Stamped s metadata.description metadata.aliases (metadata.sources.insert source) now
  | .writeFile _ content metadata (some expected) source, some obj =>
    obj.version = expected ∧ w.content = content ∧
      ∃ stored, metadataFromMap obj.metadata = .ok stored ∧
        w.Stamped s metadata.description metadata.aliases
          ((stored.sources.union metadata.sources).insert source) now
  | .replaceFact _ oldString newString _ source aliases description, some obj =>
    ∃ content stored, decodeUtf8 obj.data = .ok content ∧
      metadataFromMap obj.metadata = .ok stored ∧ countOccurrences content oldString = 1 ∧
      w.content = replaceFirst content oldString newString ∧
      w.Merged s stored source aliases description now
  | .appendLine _ line expected source aliases description, some obj =>
    obj.version = expected ∧ ∃ content stored, decodeUtf8 obj.data = .ok content ∧
      metadataFromMap obj.metadata = .ok stored ∧
      w.content = MemoryStore.appendContent content line ∧
      w.Merged s stored source aliases description now
  | _, _ => False

/-- A conditional step that storage reported as done. -/
def Succeeded : Event StoreSig InMemoryStorage → Prop
  | ⟨_, .storage (.putIfVersion _ _ _ _), .ok _, _⟩ => True
  | ⟨_, .storage (.deleteIfVersion _ _), .ok _, _⟩ => True
  | _ => False

/-- Storage reported nothing as done. -/
def NoSuccess (tr : StoreTrace) : Prop := ∀ e ∈ tr, ¬ Succeeded e

/-- The put of what `w` writes at `path`. -/
def putOp (path : Str) (w : Written) (expected : Option Str) : StoreOp :=
  .storage (.putIfVersion path w.data w.map expected)

/-- The mutators that put at most once. -/
def Mutator.Single : Mutator → Prop
  | .replaceFact _ _ _ _ _ _ _ => False
  | _ => True

/-- What mutates nothing did not succeed in it. -/
theorem not_succeeded_of_not_mutates {e : Event StoreSig InMemoryStorage} (h : ¬ e.op.Mutates) :
    ¬ Succeeded e := by
  obtain ⟨st, o, a, st'⟩ := e
  cases o with
  | storage o =>
    cases o with
    | putIfVersion key data metadata expected => exact absurd trivial h
    | deleteIfVersion key expected => exact absurd trivial h
    | _ => exact not_false
  | _ => exact not_false

/-- A trace of reads has no success. -/
theorem ReadOnlyTrace.noSuccess {tr : StoreTrace} (h : ReadOnlyTrace tr) : NoSuccess tr :=
  fun e he => not_succeeded_of_not_mutates (h e he)

/-- Two traces without success in sequence have none. -/
theorem NoSuccess.append {tr tr' : StoreTrace} (h : NoSuccess tr) (h' : NoSuccess tr') :
    NoSuccess (tr ++ tr') := fun e he => (List.mem_append.mp he).elim (h e) (h' e)

/-- An event that did not succeed may go first. -/
theorem NoSuccess.cons {tr : StoreTrace} {e : Event StoreSig InMemoryStorage} (h : ¬ Succeeded e)
    (h' : NoSuccess tr) : NoSuccess (e :: tr) := List.forall_mem_cons.mpr ⟨h, h'⟩

/-- A get reads only. -/
theorem readOnly_readEvent (key : Str) (st : InMemoryStorage) : ReadOnlyTrace [readEvent key st] :=
  fun _ he => List.mem_singleton.mp he ▸ not_false

/-- So does a look at the clock. -/
theorem readOnly_clockEvent (now : DateTime) (st : InMemoryStorage) :
    ReadOnlyTrace [clockEvent now st] := fun _ he => List.mem_singleton.mp he ▸ not_false

/-- What is encoded and stamped is what is written. -/
theorem written_of {content : Str} {data : Bytes} {stamped : FileMetadata} {map : Metadata}
    (he : encodeUtf8 content = .ok data) (hm : metadataToMap stamped = .ok map) :
    ∃ w : Written, w.content = content ∧ w.data = data ∧ w.metadata = stamped ∧ w.map = map :=
  ⟨⟨content, data, stamped, map, he, hm⟩, rfl, rfl, rfl, rfl⟩

/-- A put that failed, and what came of it. -/
theorem NoSuccess.put_failed {tr q : StoreTrace} (h : NoSuccess tr) (hq : ReadOnlyTrace q)
    (path : Str) (w : Written) (expected : Option Str) (st st' : InMemoryStorage) :
    NoSuccess (tr ++
      ⟨st, putOp path w expected, .error (.preconditionFailedError path), st'⟩ :: q) :=
  h.append (.cons not_false hq.noSuccess)

/-- An accepted description is left as it is. -/
theorem normalizeOptional_eq_ok {description d : Option Str} (h : normalizeOptional description = .ok d) :
    d = description := by
  cases description with
  | none => exact (Except.ok.inj h).symm
  | some text =>
    simp only [normalizeOptional, normalizeDescription] at h
    split at h
    next => exact absurd h (by simp only [Except.map, reduceCtorEq, not_false_eq_true])
    next => exact (Except.ok.inj h).symm

variable [Interpreter]

/-- What a mutator did before it put `w`: it read the object it edits and then the clock, or, for a
create, the clock. -/
inductive Mutator.Prepared (s : MemoryStore) (m : Mutator) (w : Written) :
    StoreTrace → Option Str → Prop
  | create (tr : StoreTrace) (now : DateTime) (st : InMemoryStorage) (edits : m.Edits s now w none) :
    Prepared s m w (tr ++ [clockEvent now st]) none
  | edit (tr : StoreTrace) (now : DateTime) (st st' : InMemoryStorage) (obj : StoredObject)
      (read : st.get m.path = some obj) (edits : m.Edits s now w (some obj)) :
    Prepared s m w (tr ++ [readEvent m.path st, clockEvent now st']) (some obj.version)

/-- What a mutator may do after a trace. -/
def Mutator.Guarantee (s : MemoryStore) (m : Mutator) (tr : StoreTrace) : StoreOp → Prop
  | .storage (.put _ _ _) => False
  | .storage (.putIfVersion key data map expected) =>
    key = m.path ∧ NoSuccess tr ∧ (m.Single → ReadOnlyTrace tr) ∧
      ∃ w : Written, w.data = data ∧ w.map = map ∧ m.Prepared s w tr expected
  | .storage (.deleteIfVersion key expected) =>
    m = .deleteFile key expected ∧ ∃ st, tr = [readEvent key st] ∧ st.version key = some expected
  | _ => True

/-- How a mutator returns. -/
inductive Mutator.Returns (m : Mutator) : StoreTrace → Option MemoryFile → Prop
  | put (tr q : StoreTrace) (st st' : InMemoryStorage) (expected : Option Str) (w : Written)
      (version : Str) (before : NoSuccess tr) (quiet : QuietTrace q) :
    Returns m (tr ++ ⟨st, putOp m.path w expected, .ok version, st'⟩ :: q)
      (some ⟨m.path, w.content, w.metadata, version⟩)
  | landed (tr q : StoreTrace) (st st' cur : InMemoryStorage) (expected : Option Str) (w : Written)
      (version : Str) (before : NoSuccess tr) (quiet : QuietTrace q)
      (append : ∃ path line v source aliases description,
        m = .appendLine path line v source aliases description)
      (found : cur.get m.path = some ⟨w.data, w.map, version⟩) :
    Returns m (tr ++ ⟨st, putOp m.path w expected, .error (.preconditionFailedError m.path), st'⟩ ::
      (q ++ [readEvent m.path cur])) (some ⟨m.path, w.content, w.metadata, version⟩)
  | deleted (tr q : StoreTrace) (st st' : InMemoryStorage) (expected : Str) (before : NoSuccess tr)
      (quiet : QuietTrace q) (delete : m = .deleteFile m.path expected) :
    Returns m (tr ++ ⟨st, .storage (.deleteIfVersion m.path expected), .ok (), st'⟩ :: q) none

/-- How a mutator ends. -/
def Mutator.Outcome (m : Mutator) (tr : StoreTrace) : Except Exc (Option MemoryFile) → Prop
  | .ok file => m.Returns tr file
  | .error _ => NoSuccess tr

/-! ## The specification holds -/

section

variable {lossy : Prop} (s : MemoryStore) {m : Mutator}

/-- A mutator may always ask what mutates nothing. -/
theorem Mutator.guarantee_of_not_mutates (m : Mutator) (tr : StoreTrace) {o : StoreOp}
    (h : ¬ o.Mutates) : m.Guarantee s tr o := by
  cases o with
  | storage o =>
    cases o with
    | put key data metadata => exact absurd trivial h
    | putIfVersion key data metadata expected => exact absurd trivial h
    | deleteIfVersion key expected => exact absurd trivial h
    | _ => trivial
  | _ => trivial

/-- The sources of a write come from the read of the object it replaces, or, for a create, from the
arguments; a write that stops here has only read. -/
theorem sat_writeSources {fuel : Nat} {path : Str} {metadata : FileMetadata}
    {expectedVersion : Option Str} {source : Str} {G : StoreTrace → StoreOp → Prop}
    {Q : StoreTrace → Except Exc (FinSet Str) → Prop} {tr : StoreTrace}
    (hG : ∀ tr o, ¬ StoreOp.Mutates o → G tr o)
    (herr : ∀ q e, ReadOnlyTrace q → Q (tr ++ q) (.error e))
    (hcreate : expectedVersion = none → ∀ q, ReadOnlyTrace q →
      Q (tr ++ q) (.ok (metadata.sources.insert source)))
    (hedit : ∀ st obj stored, expectedVersion = some obj.version → st.get path = some obj →
      metadataFromMap obj.metadata = .ok stored →
      Q (tr ++ [readEvent path st])
        (.ok ((stored.sources.union metadata.sources).insert source))) :
    (s.writeSources fuel path metadata expectedVersion source).Sat (inMemory lossy) G Q tr := by
  have hread := readOnly_readEvent path
  cases expectedVersion with
  | none =>
    have hcap : (s.createCap fuel path).Issues fun o : StoreOp => ¬ o.Mutates :=
      issues_createCap s (fun _ _ _ _ => not_false) fuel
    refine (Prog.sat_bind _ _ _ _).mpr (hcap.sat (fun q => hG (tr ++ q)) fun q r hq => ?_)
    cases r with
    | error e => exact herr q e hq
    | ok cap =>
      cases cap with
      | none => exact hcreate rfl q hq
      | some limit =>
        refine (Prog.sat_bind _ _ _ _).mpr (sat_storageGet (hG _ _ not_false) fun st _ => ?_)
        have hq' := ReadOnlyTrace.append hq (hread st)
        rw [List.append_assoc]
        cases st.get path with
        | none => exact herr _ _ hq'
        | some obj =>
          show Prog.Sat _ _ (MemoryStore.raiseResult (MemoryStore.conflictAfterRead path obj)) _ _
          cases MemoryStore.conflictAfterRead path obj <;> exact herr _ _ hq'
  | some expected =>
    refine (Prog.sat_bind _ _ _ _).mpr (sat_storageGet (hG _ _ not_false) fun st _ => ?_)
    cases hobj : st.get path with
    | none => exact herr _ _ (hread st)
    | some obj =>
      show Prog.Sat _ _ (if obj.version ≠ expected then _ else _) _ _
      split
      · refine Prog.sat_ofExcept_bind (fun e _ => herr _ _ (hread st)) fun _ _ => ?_
        exact Prog.sat_ofExcept_bind (fun e _ => herr _ _ (hread st)) fun _ _ => herr _ _ (hread st)
      next hv =>
        refine Prog.sat_ofExcept_bind (fun e _ => herr _ _ (hread st)) fun stored hs => ?_
        exact hedit st obj stored (congrArg some (not_not.mp hv).symm) hobj hs

/-- The put of a mutator and what `try` makes of it. A success returns; a failure goes on with the
trace so far, in which nothing has succeeded. -/
theorem sat_put_bind {β : Type} {w : Written} {expected : Option Str} {tr : StoreTrace}
    {f : Except Exc Str → Store β} {Q : StoreTrace → Except Exc β → Prop}
    (hpath : isValidPath m.path = true) (hno : NoSuccess tr) (hsingle : m.Single → ReadOnlyTrace tr)
    (hprep : m.Prepared s w tr expected)
    (hok : ∀ st st' version q, QuietTrace q →
      (f (.ok version)).Sat (inMemory lossy) (m.Guarantee s) Q
        (tr ++ ⟨st, putOp m.path w expected, .ok version, st'⟩ :: q))
    (hfail : ∀ st st' q, QuietTrace q →
      (f (.error (.preconditionFailedError m.path))).Sat (inMemory lossy) (m.Guarantee s) Q
        (tr ++ ⟨st, putOp m.path w expected, .error (.preconditionFailedError m.path), st'⟩ :: q)) :
    (Prog.attempt (s.putIfVersion m.path w.data w.map expected) >>= f).Sat (inMemory lossy)
      (m.Guarantee s) Q tr := by
  refine (Prog.sat_bind _ _ _ _).mpr (sat_putIfVersion s hpath
    (fun tr o ho => m.guarantee_of_not_mutates s tr ho.not_mutates)
    ⟨rfl, hno, hsingle, w, rfl, rfl, hprep⟩ fun st a st' _ hh q hq => ?_)
  rcases hh with hh | ⟨-, -, rfl, -⟩
  · rcases st.putIfVersion_cases m.path w.data w.map expected with ⟨-, hres⟩ | ⟨-, hres⟩
    · obtain ⟨rfl, -⟩ := Prod.mk.inj (hh.trans hres)
      exact hok st st' st.token q hq
    · obtain ⟨rfl, -⟩ := Prod.mk.inj (hh.trans hres)
      exact hfail st st' q hq
  · exact hfail st st' q hq

/-- The end of a write, once what it read is known to be what it must read. -/
theorem sat_commitWrite {content : Str} {data : Bytes} {metadata : FileMetadata}
    {expected : Option Str} {sources : FinSet Str} {tr : StoreTrace}
    (hpath : isValidPath m.path = true) (htr : ReadOnlyTrace tr) (hdata : encodeUtf8 content = .ok data)
    (hprep : ∀ now st (w : Written), w.content = content → w.data = data →
      replaceMetadata metadata.description metadata.aliases sources now = .ok w.metadata →
      m.Prepared s w (tr ++ [clockEvent now st]) expected) :
    (s.commitWrite m.path content data metadata expected sources).Sat (inMemory lossy)
      (m.Guarantee s) (fun tr r => m.Outcome tr (r.map some)) tr := by
  unfold MemoryStore.commitWrite
  refine (Prog.sat_bind _ _ _ _).mpr (sat_clock trivial fun st now _ => ?_)
  have htr' : ReadOnlyTrace (tr ++ [clockEvent now st]) :=
    htr.append (readOnly_clockEvent now st)
  refine Prog.sat_ofExcept_bind (fun e _ => htr'.noSuccess) fun stamped hstamped => ?_
  refine Prog.sat_ofExcept_bind (fun e _ => htr'.noSuccess) fun map hmap => ?_
  obtain ⟨w, rfl, rfl, rfl, rfl⟩ := written_of hdata hmap
  refine sat_put_bind s hpath htr'.noSuccess (fun _ => htr') (hprep now st w rfl rfl hstamped) ?_ ?_
  · intro st₁ st₂ version q hq
    exact .put _ q st₁ st₂ expected w version htr'.noSuccess hq
  · intro st₁ st₂ q hq
    refine (Prog.sat_bind _ _ _ _).mpr (sat_storageGet trivial fun cur _ => ?_)
    have hno := (htr'.noSuccess.put_failed hq.readOnly m.path w expected st₁ st₂).append
      (readOnly_readEvent m.path cur).noSuccess
    cases cur.get m.path with
    | none => exact hno
    | some obj =>
      show Prog.Sat _ _ (MemoryStore.raiseResult (MemoryStore.conflictAfterRead m.path obj)) _ _
      cases MemoryStore.conflictAfterRead m.path obj <;> exact hno

/-- A write asks and ends as a mutator. -/
theorem sat_writeFile {fuel : Nat} {path content : Str} {metadata : FileMetadata}
    {expected : Option Str} {source : Str} {m : Mutator}
    (hm : m = .writeFile path content metadata expected source) :
    (s.writeFile fuel path content metadata expected source).Sat (inMemory lossy) (m.Guarantee s)
      (fun tr r => m.Outcome tr (r.map some)) [] := by
  have hpathEq : path = m.path := hm ▸ rfl
  have hnil : NoSuccess [] := fun e he => absurd he List.not_mem_nil
  unfold MemoryStore.writeFile
  refine Prog.sat_raiseIf_bind (fun _ => hnil) fun hpath => ?_
  refine Prog.sat_raiseIf_bind (fun _ => hnil) fun _ => ?_
  refine Prog.sat_ofExcept_bind (fun _ _ => hnil) fun data hdata => ?_
  refine Prog.sat_raiseIf_bind (fun _ => hnil) fun hsize => ?_
  rw [Bool.not_eq_false] at hpath
  rw [hpathEq] at hpath ⊢
  refine (Prog.sat_bind _ _ _ _).mpr (sat_writeSources s
    (fun tr o ho => m.guarantee_of_not_mutates s tr ho) (fun q e hq => hq.noSuccess) ?_ ?_)
  · intro hexp q hq
    refine sat_commitWrite s hpath hq hdata fun now st w hc hd hmeta => ?_
    subst hm
    subst hexp
    refine .create _ now st ⟨hc, ⟨?_, hmeta⟩⟩
    rw [hd]
    exact Nat.le_of_not_lt hsize
  · intro st obj stored hexp hobj hstored
    refine sat_commitWrite s hpath (readOnly_readEvent m.path st) hdata fun now st' w hc hd hmeta => ?_
    subst hm
    subst hexp
    refine .edit [] now st st' obj hobj ⟨rfl, hc, stored, hstored, ⟨?_, hmeta⟩⟩
    rw [hd]
    exact Nat.le_of_not_lt hsize

/-- A conflict is raised with the content that was read, if it can be decoded. -/
theorem sat_decoded_conflict {β : Type} {tr : StoreTrace} {data : Bytes} {e : Str → Exc}
    {g : β → Option MemoryFile} (h : NoSuccess tr) :
    (do
      let content ← Prog.ofExcept (decodeUtf8 data)
      .raise (e content) : Store β).Sat (inMemory lossy) (m.Guarantee s)
      (fun tr r => m.Outcome tr (r.map g)) tr :=
  Prog.sat_ofExcept_bind (fun _ _ => h) fun _ _ => h

/-- An append asks and ends as a mutator. -/
theorem sat_appendLine {path line expected source : Str} {aliases : Option (List Str)}
    {description : Option Str} (hm : m = .appendLine path line expected source aliases description) :
    (s.appendLine path line expected source aliases description).Sat (inMemory lossy)
      (m.Guarantee s) (fun tr r => m.Outcome tr (r.map some)) [] := by
  have hpathEq : path = m.path := hm ▸ rfl
  have hnil : NoSuccess [] := fun e he => absurd he List.not_mem_nil
  unfold MemoryStore.appendLine
  refine Prog.sat_raiseIf_bind (fun _ => hnil) fun hpath => ?_
  refine Prog.sat_raiseIf_bind (fun _ => hnil) fun _ => ?_
  refine Prog.sat_ofExcept_bind (fun _ _ => hnil) fun newDescription hdescription => ?_
  rw [Bool.not_eq_false] at hpath
  rw [hpathEq] at hpath ⊢
  refine (Prog.sat_bind _ _ _ _).mpr (sat_storageGet trivial fun st _ => ?_)
  have hread := readOnly_readEvent m.path st
  cases hobj : st.get m.path with
  | none => exact hread.noSuccess
  | some obj =>
    refine Prog.sat_ofExcept_bind (fun _ _ => hread.noSuccess) fun content hcontent => ?_
    refine Prog.sat_raiseIf_bind (fun _ => hread.noSuccess) fun hversion => ?_
    refine Prog.sat_ofExcept_bind (fun _ _ => hread.noSuccess) fun stored hstored => ?_
    refine Prog.sat_ofExcept_bind (fun _ _ => hread.noSuccess) fun data hdata => ?_
    refine Prog.sat_raiseIf_bind (fun _ => hread.noSuccess) fun hsize => ?_
    refine (Prog.sat_bind _ _ _ _).mpr (sat_clock trivial fun st' now _ => ?_)
    have htr := hread.append (readOnly_clockEvent now st')
    refine Prog.sat_ofExcept_bind (fun e _ => htr.noSuccess) fun stamped hstamped => ?_
    refine Prog.sat_ofExcept_bind (fun e _ => htr.noSuccess) fun map hmap => ?_
    obtain ⟨w, hc, rfl, rfl, rfl⟩ := written_of hdata hmap
    rw [not_not] at hversion
    subst hversion
    have hprep : m.Prepared s w [readEvent m.path st, clockEvent now st'] (some obj.version) := by
      refine .edit [] now st st' obj hobj ?_
      subst hm
      refine ⟨rfl, content, stored, hcontent, hstored, hc, Nat.le_of_not_lt hsize, ?_⟩
      rw [← normalizeOptional_eq_ok hdescription]
      exact hstamped
    refine sat_put_bind s hpath htr.noSuccess (fun _ => htr) hprep ?_ ?_
    · intro st₁ st₂ version q hq
      rw [← hc]
      exact .put _ q st₁ st₂ _ w version htr.noSuccess hq
    · intro st₁ st₂ q hq
      refine (Prog.sat_bind _ _ _ _).mpr (sat_storageGet trivial fun cur _ => ?_)
      have hno := (htr.noSuccess.put_failed hq.readOnly m.path w (some obj.version) st₁ st₂).append
        (readOnly_readEvent m.path cur).noSuccess
      cases hcur : cur.get m.path with
      | none => exact hno
      | some found =>
        show Prog.Sat _ _ (if found.data = w.data ∧ found.metadata = w.map then _ else _) _ _
        split
        next hsame =>
          have hfound : cur.get m.path = some ⟨w.data, w.map, found.version⟩ := by
            rw [hcur, ← hsame.1, ← hsame.2]
          rw [List.append_assoc, List.cons_append, ← hc]
          exact .landed _ q st₁ st₂ cur _ w found.version htr.noSuccess hq
            ⟨_, _, _, _, _, _, hm⟩ hfound
        next => exact sat_decoded_conflict s hno

/-- A delete asks and ends as a mutator. -/
theorem sat_deleteFile {path expected : Str} (hm : m = .deleteFile path expected) :
    (s.deleteFile path expected).Sat (inMemory lossy) (m.Guarantee s)
      (fun tr r => m.Outcome tr (r.map fun _ => none)) [] := by
  have hpathEq : path = m.path := hm ▸ rfl
  have hnil : NoSuccess [] := fun e he => absurd he List.not_mem_nil
  unfold MemoryStore.deleteFile
  refine Prog.sat_raiseIf_bind (fun _ => hnil) fun hpath => ?_
  rw [Bool.not_eq_false] at hpath
  rw [hpathEq] at hpath hm ⊢
  refine (Prog.sat_bind _ _ _ _).mpr (sat_storageGet trivial fun st _ => ?_)
  have hread := readOnly_readEvent m.path st
  cases hobj : st.get m.path with
  | none => exact hread.noSuccess
  | some obj =>
    show Prog.Sat _ _ (if obj.version ≠ expected then _ else _) _ _
    split
    next => exact sat_decoded_conflict s hread.noSuccess
    next hversion =>
      rw [not_not] at hversion
      have hdelete : m.Guarantee s [readEvent m.path st]
          (.storage (.deleteIfVersion m.path expected)) :=
        ⟨hm, st, rfl, InMemoryStorage.version_eq_some.mpr ⟨obj, hobj, hversion⟩⟩
      refine (Prog.sat_bind _ _ _ _).mpr (sat_deleteIfVersion s hpath
        (fun tr o ho => m.guarantee_of_not_mutates s tr ho.not_mutates) hdelete
        fun st' _ q hq => ?_)
      rcases st'.deleteIfVersion_cases m.path expected with ⟨-, hres⟩ | ⟨-, hres⟩
      · rw [hres]
        exact .deleted _ q st' _ expected hread.noSuccess hq hm
      · rw [hres]
        refine (Prog.sat_bind _ _ _ _).mpr (sat_storageGet trivial fun cur _ => ?_)
        have hno : NoSuccess (([] ++ [readEvent m.path st] ++ ⟨st',
            .storage (.deleteIfVersion m.path expected),
            .error (.preconditionFailedError m.path), st'⟩ :: q) ++ [readEvent m.path cur]) :=
          (hread.noSuccess.append (.cons id hq.readOnly.noSuccess)).append
            (readOnly_readEvent m.path cur).noSuccess
        cases cur.get m.path with
        | none => exact hno
        | some found => exact sat_decoded_conflict s hno

/-- The attempts of a replacement ask and end as a mutator. -/
theorem sat_replaceAttempts {path oldString newString expected source content version : Str}
    {aliases : Option (List Str)} {description : Option Str}
    (hm : m = .replaceFact path oldString newString expected source aliases description)
    (hpath : isValidPath m.path = true) (attempts : Nat) {tr : StoreTrace} (htr : NoSuccess tr) :
    (s.replaceAttempts m.path oldString newString expected source aliases description attempts
      content version).Sat (inMemory lossy) (m.Guarantee s)
      (fun tr r => m.Outcome tr (r.map some)) tr := by
  induction attempts generalizing content version tr with
  | zero => exact htr
  | succ attempts ih =>
    unfold MemoryStore.replaceAttempts
    refine (Prog.sat_bind _ _ _ _).mpr (sat_storageGet trivial fun st _ => ?_)
    have hread := htr.append (readOnly_readEvent m.path st).noSuccess
    cases hobj : st.get m.path with
    | none => exact hread
    | some obj =>
      refine Prog.sat_ofExcept_bind (fun _ _ => hread) fun content hcontent => ?_
      refine Prog.sat_ofExcept_bind (fun _ _ => hread) fun stored hstored => ?_
      dsimp only
      split
      next => split <;> exact hread
      next hcount =>
        refine Prog.sat_ofExcept_bind (fun _ _ => hread) fun data hdata => ?_
        refine Prog.sat_raiseIf_bind (fun _ => hread) fun hsize => ?_
        refine (Prog.sat_bind _ _ _ _).mpr (sat_clock trivial fun st' now _ => ?_)
        have hclock := hread.append (readOnly_clockEvent now st').noSuccess
        refine Prog.sat_ofExcept_bind (fun e _ => hclock) fun stamped hstamped => ?_
        refine Prog.sat_ofExcept_bind (fun e _ => hclock) fun map hmap => ?_
        obtain ⟨w, hc, rfl, rfl, rfl⟩ := written_of hdata hmap
        have hprep : m.Prepared s w (tr ++ [readEvent m.path st] ++ [clockEvent now st'])
            (some obj.version) := by
          rw [List.append_assoc]
          refine .edit tr now st st' obj hobj ?_
          subst hm
          exact ⟨content, stored, hcontent, hstored, not_not.mp hcount, hc,
            Nat.le_of_not_lt hsize, hstamped⟩
        have hsingle : m.Single → ReadOnlyTrace (tr ++ [readEvent m.path st] ++
            [clockEvent now st']) := fun h => by
          subst hm
          exact absurd h not_false
        refine sat_put_bind s hpath hclock hsingle hprep ?_ ?_
        · intro st₁ st₂ version q hq
          rw [← hc]
          exact .put _ q st₁ st₂ _ w version hclock hq
        · intro st₁ st₂ q hq
          exact ih (hclock.put_failed hq.readOnly m.path w (some obj.version) st₁ st₂)

/-- A replacement asks and ends as a mutator. -/
theorem sat_replaceFact {path oldString newString expected source : Str}
    {aliases : Option (List Str)} {description : Option Str}
    (hm : m = .replaceFact path oldString newString expected source aliases description) :
    (s.replaceFact path oldString newString expected source aliases description).Sat
      (inMemory lossy) (m.Guarantee s) (fun tr r => m.Outcome tr (r.map some)) [] := by
  have hpathEq : path = m.path := hm ▸ rfl
  have hnil : NoSuccess [] := fun e he => absurd he List.not_mem_nil
  unfold MemoryStore.replaceFact
  refine Prog.sat_raiseIf_bind (fun _ => hnil) fun hpath => ?_
  refine Prog.sat_raiseIf_bind (fun _ => hnil) fun _ => ?_
  refine Prog.sat_ofExcept_bind (fun _ _ => hnil) fun newDescription hdescription => ?_
  rw [Bool.not_eq_false] at hpath
  rw [normalizeOptional_eq_ok hdescription]
  rw [hpathEq] at hpath hm ⊢
  exact sat_replaceAttempts s hm hpath _ hnil

/-- **What a mutator does**, whatever happens between its steps. -/
theorem Mutator.sat (m : Mutator) (fuel : Nat) :
    (m.body s fuel).Sat (inMemory lossy) (m.Guarantee s) m.Outcome [] := by
  have hsome : ∀ {p : Store MemoryFile},
      p.Sat (inMemory lossy) (m.Guarantee s) (fun tr r => m.Outcome tr (r.map some)) [] →
      (do return some (← p) : Store (Option MemoryFile)).Sat (inMemory lossy) (m.Guarantee s)
        m.Outcome [] :=
    fun h => h.andThen (fun _ _ hr => hr) fun _ _ hr => hr
  cases m with
  | writeFile path content metadata expected source => exact hsome (sat_writeFile s rfl)
  | replaceFact path oldString newString expected source aliases description =>
    exact hsome (sat_replaceFact s rfl)
  | appendLine path line expected source aliases description =>
    exact hsome (sat_appendLine s rfl)
  | deleteFile path expected =>
    refine (sat_deleteFile s rfl).andThen (fun _ _ hr => ?_) fun _ _ hr => ?_
    · exact hr
    · exact hr

end

end Wenchang
