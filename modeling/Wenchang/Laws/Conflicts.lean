import Wenchang.Laws.NoLostUpdate

/-!
# What a conflict reports

A mutator that is refused shows its caller a content and a version to merge into. `Reports` says of such
an error, in terms of what the mutator did: both belong to one object that it read, and unless the
mutator is a `replace_fact` that object is not the one it expected. It also gives the reason: in some
world the mutator met, the path was not at the expected version. So a repeated call is refused only if
somebody changed the path in between.
-/

namespace Wenchang

open Py Ordered Interaction

/-- The path, content and version that an error reports. -/
def Exc.report : Exc → Option (Str × Str × Str)
  | .versionConflictError path content version => some (path, content, version)
  | .replaceFactMatchError path content version _ => some (path, content, version)
  | _ => none

/-- The version a mutator expects. -/
def Mutator.expected : Mutator → Option Str
  | .writeFile _ _ _ expected _ => expected
  | .replaceFact _ _ _ expected _ _ _ => some expected
  | .appendLine _ _ expected _ _ _ => some expected
  | .deleteFile _ expected => some expected

/-- The same call, with another version expected. -/
def Mutator.repeated (version : Str) : Mutator → Mutator
  | .writeFile path content metadata _ source => .writeFile path content metadata (some version) source
  | .replaceFact path oldString newString _ source aliases description =>
    .replaceFact path oldString newString version source aliases description
  | .appendLine path line _ source aliases description =>
    .appendLine path line version source aliases description
  | .deleteFile path _ => .deleteFile path version

/-- The repeated call is on the same path. -/
@[simp] theorem Mutator.repeated_path (version : Str) (m : Mutator) : (m.repeated version).path = m.path := by
  cases m <;> rfl

/-- The repeated call expects the version that was reported. -/
@[simp] theorem Mutator.repeated_expected (version : Str) (m : Mutator) :
    (m.repeated version).expected = some version := by
  cases m <;> rfl

/-- An object with this content and version was read. -/
def Shows (path : Str) (tr : StoreTrace) (content version : Str) : Prop :=
  ∃ st obj, readEvent path st ∈ tr ∧ st.get path = some obj ∧ obj.version = version ∧
    decodeUtf8 obj.data = .ok content

/-- What an error says of what a mutator did. -/
def Mutator.Reports (m : Mutator) (tr : StoreTrace) : Exc → Prop
  | .versionConflictError path content version =>
    path = m.path ∧ Shows path tr content version ∧ (m.Single → m.expected ≠ some version) ∧
      ∀ v, m.expected = some v → ∃ e ∈ tr, e.pre.version path ≠ some v
  | .replaceFactMatchError path content version _ =>
    path = m.path ∧ Shows path tr content version ∧ m.expected = some version
  | _ => True

/-- The same, of a result. -/
def Mutator.ReportsIn (m : Mutator) {α : Type} (tr : StoreTrace) : Except Exc α → Prop
  | .ok _ => True
  | .error e => m.Reports tr e

/-! ## Errors that report nothing -/

/-- A result that is no error with a report. -/
def NoReport {α : Type} (result : Except Exc α) : Prop := ∀ e, result = .error e → e.report = none

section

variable {α β : Type}

/-- A value reports no conflict. -/
theorem noReport_ok (a : α) : NoReport (.ok a) := fun e h => by cases h

/-- An error that carries no version reports no conflict. -/
theorem noReport_error {e : Exc} (h : e.report = none) : NoReport (.error e : Except Exc α) :=
  fun _ he => Except.error.inj he ▸ h

/-- A sequence reports no conflict where its parts report none. -/
theorem noReport_bind {x : Except Exc α} {f : α → Except Exc β} (hx : NoReport x)
    (hf : ∀ a, NoReport (f a)) : NoReport (x >>= f) := by
  cases x with
  | error e => exact noReport_error (hx e rfl)
  | ok a => exact hf a

/-- An error that is renamed to one without a version reports no conflict. -/
theorem noReport_mapError {ε : Type} {f : ε → Exc} (hf : ∀ e, (f e).report = none) (x : Except ε α) :
    NoReport (x.mapError f) := by
  cases x with
  | error e => exact noReport_error (hf e)
  | ok a => exact noReport_ok a

/-- Encoding reports no conflict. -/
theorem noReport_encodeUtf8 (s : Str) : NoReport (encodeUtf8 s) := noReport_mapError (fun _ => rfl) _

/-- Decoding reports no conflict. -/
theorem noReport_decodeUtf8 (data : Bytes) : NoReport (decodeUtf8 data) :=
  noReport_mapError (fun _ => rfl) _

/-- New metadata reports no conflict. -/
theorem noReport_replaceMetadata (description : Str) (aliases : List Str) (sources : FinSet Str)
    (now : DateTime) : NoReport (replaceMetadata description aliases sources now) :=
  noReport_mapError (fun _ => rfl) _

/-- Metadata that is written reports no conflict. -/
theorem noReport_metadataToMap (metadata : FileMetadata) : NoReport (metadataToMap metadata) := by
  unfold metadataToMap
  split
  · exact noReport_error rfl
  · exact noReport_ok _

/-- A description that is checked reports no conflict. -/
theorem noReport_normalizeOptional (description : Option Str) :
    NoReport (normalizeOptional description) := by
  cases description with
  | none => exact noReport_ok _
  | some text =>
    simp only [normalizeOptional, normalizeDescription]
    split
    · exact @noReport_error _ (.valueError _) rfl
    · exact noReport_ok (some text)

/-- A key that is missing reports no conflict. -/
theorem noReport_requireKey (values : Metadata) (key : Str) : NoReport (requireKey values key) := by
  unfold requireKey
  split
  · exact noReport_ok _
  · exact noReport_error rfl

variable [Interpreter]

/-- A list that does not read reports no conflict. -/
theorem noReport_parseStringList (raw key : Str) : NoReport (parseStringList raw key) := by
  unfold parseStringList
  split
  · exact noReport_error rfl
  · exact noReport_error rfl
  · exact noReport_error rfl
  · split
    · exact noReport_ok _
    · exact noReport_error rfl
  · exact noReport_error rfl

/-- Metadata that does not read reports no conflict. -/
theorem noReport_metadataFromMap (values : Metadata) : NoReport (metadataFromMap values) := by
  unfold metadataFromMap
  refine noReport_bind (noReport_requireKey _ _) fun _ => noReport_bind (noReport_requireKey _ _) fun _ => ?_
  refine noReport_bind (noReport_requireKey _ _) fun _ => noReport_bind (noReport_requireKey _ _) fun _ => ?_
  refine noReport_bind (noReport_parseStringList _ _) fun _ => ?_
  refine noReport_bind (noReport_parseStringList _ _) fun _ => ?_
  split
  · exact noReport_error rfl
  · split
    · exact noReport_error rfl
    · exact noReport_mapError (fun _ => rfl) _

end

/-! ## The specification holds -/

/-- An error that carries no version is reported soundly. -/
theorem Mutator.reports_of_report_none {m : Mutator} {tr : StoreTrace} {e : Exc} (h : e.report = none) :
    m.Reports tr e := by
  cases e with
  | versionConflictError path content version => cases h
  | replaceFactMatchError path content version n => cases h
  | _ => trivial

section

variable {α β : Type} {m : Mutator} {tr : StoreTrace} {G : StoreTrace → StoreOp → Prop}
  {E : Env StoreSig InMemoryStorage}

/-- A pure step whose errors report nothing. -/
theorem sat_noReport_bind {r : Except Exc α} {f : α → Store β} (hr : NoReport r)
    (hok : ∀ a, r = .ok a → (f a).Sat E G m.ReportsIn tr) :
    (Prog.ofExcept r >>= f).Sat E G m.ReportsIn tr :=
  Prog.sat_ofExcept_bind (fun e he => Mutator.reports_of_report_none (hr e he)) hok

/-- A conflict with an object that was read. -/
theorem Mutator.reports_conflict {st : InMemoryStorage} {obj : StoredObject} {content : Str}
    (hread : readEvent m.path st ∈ tr) (hobj : st.get m.path = some obj)
    (hcontent : decodeUtf8 obj.data = .ok content) (hsingle : m.Single → m.expected ≠ some obj.version)
    (hmet : m.expected = some obj.version → ∃ e ∈ tr, e.pre.version m.path ≠ m.expected) :
    m.Reports tr (.versionConflictError m.path content obj.version) := by
  refine ⟨rfl, ⟨st, obj, hread, hobj, rfl, hcontent⟩, hsingle, fun v hv => ?_⟩
  by_cases hsame : obj.version = v
  · obtain ⟨e, he, hne⟩ := hmet (hsame ▸ hv)
    exact ⟨e, he, hv ▸ hne⟩
  · have hversion : st.version m.path = some obj.version :=
      InMemoryStorage.version_eq_some.mpr ⟨obj, hobj, rfl⟩
    refine ⟨_, hread, ?_⟩
    show st.version m.path ≠ some v
    rw [hversion]
    simp [hsame]

/-- A conflict with an object that is not the expected one. -/
theorem sat_conflict {st : InMemoryStorage} {obj : StoredObject} (hread : readEvent m.path st ∈ tr)
    (hobj : st.get m.path = some obj) (hne : m.expected ≠ some obj.version) :
    (do
      let content ← Prog.ofExcept (decodeUtf8 obj.data)
      .raise (.versionConflictError m.path content obj.version) : Store α).Sat E G m.ReportsIn tr :=
  sat_noReport_bind (noReport_decodeUtf8 _) fun _ hcontent =>
    m.reports_conflict hread hobj hcontent (fun _ => hne) fun h => absurd h hne

/-- A conflict raised after a read reports what was read, which is not what was expected. -/
theorem sat_conflictAfterRead [Interpreter] {st : InMemoryStorage} {obj : StoredObject}
    (hread : readEvent m.path st ∈ tr) (hobj : st.get m.path = some obj)
    (hne : m.expected ≠ some obj.version) :
    (MemoryStore.raiseResult (MemoryStore.conflictAfterRead m.path obj) : Store α).Sat E G m.ReportsIn
      tr := by
  unfold MemoryStore.conflictAfterRead
  cases hcontent : decodeUtf8 obj.data with
  | error e => exact Mutator.reports_of_report_none (noReport_decodeUtf8 _ e hcontent)
  | ok content =>
    cases hmetadata : metadataFromMap obj.metadata with
    | error e => exact Mutator.reports_of_report_none (noReport_metadataFromMap _ e hmetadata)
    | ok metadata =>
      simp only [Except.bind, bind, MemoryStore.raiseResult]
      exact m.reports_conflict hread hobj hcontent (fun _ => hne) fun h => absurd h hne

/-- A version that was there and then was not does not come back. -/
theorem version_gone {st st₁ cur : InMemoryStorage} {path v : Str} {obj : StoredObject}
    (hread : st.version path = some v) (h : st.Later st₁) (hgone : st₁.version path ≠ some v)
    (h' : st₁.Later cur) (hobj : cur.get path = some obj) : some v ≠ some obj.version := by
  obtain ⟨o, ho, rfl⟩ := InMemoryStorage.version_eq_some.mp hread
  have hissued := (InMemoryStorage.issued_of_get ho).later h
  have hne := h'.version_ne hissued hgone
  rw [InMemoryStorage.version_eq_some.mpr ⟨obj, hobj, rfl⟩] at hne
  exact Ne.symm hne

/-- The version a mutator expects was there when it read the path. -/
def Mutator.FoundExpected (m : Mutator) (tr : StoreTrace) : Prop :=
  ∀ v, m.expected = some v → ∃ st, readEvent m.path st ∈ tr ∧ st.version m.path = some v

/-- What was found at the start was found. -/
theorem Mutator.FoundExpected.append (h : m.FoundExpected tr) (tr' : StoreTrace) :
    m.FoundExpected (tr ++ tr') := by
  intro v hv
  obtain ⟨st, hmem, hversion⟩ := h v hv
  exact ⟨st, List.mem_append_left _ hmem, hversion⟩

/-- After a put or a delete that failed, the path has another version for good. -/
theorem Mutator.FoundExpected.gone (h : m.FoundExpected tr) {q : StoreTrace} {o : StoreOp}
    {a : StoreSig.Ans o} {st cur : InMemoryStorage} {obj : StoredObject} (hlater : LaterThan tr st)
    (hne : st.version m.path ≠ m.expected) (hcur : LaterThan (tr ++ ⟨st, o, a, st⟩ :: q) cur)
    (hobj : cur.get m.path = some obj) : m.expected ≠ some obj.version := by
  cases hexpected : m.expected with
  | none => simp
  | some v =>
    obtain ⟨st₀, hmem, hv⟩ := h v hexpected
    have hlast := hcur _ (List.mem_append_right _ List.mem_cons_self)
    exact version_gone hv (hlater _ hmem) (hexpected ▸ hne) hlast hobj

end

section

variable [Interpreter] (s : MemoryStore) {β : Type} {m : Mutator} {tr : StoreTrace}

/-- Every operation is allowed. -/
abbrev anyOp : StoreTrace → StoreOp → Prop := fun _ _ => True

/-- The put of a mutator over a storage that loses no response: it fails only where the path is not at
the expected version. -/
theorem sat_attemptPut {path : Str} {data : Bytes} {map : Metadata} {expected : Option Str}
    {f : Except Exc Str → Store β} {Q : StoreTrace → Except Exc β → Prop} (hpath : isValidPath path = true)
    (hok : ∀ version q, (f (.ok version)).Sat (inMemory False) anyOp Q (tr ++ q))
    (hfail : ∀ st q, LaterThan tr st → st.version path ≠ expected →
      (f (.error (.preconditionFailedError path))).Sat (inMemory False) anyOp Q
        (tr ++ ⟨st, .storage (.putIfVersion path data map expected),
          .error (.preconditionFailedError path), st⟩ :: q)) :
    (Prog.attempt (s.putIfVersion path data map expected) >>= f).Sat (inMemory False) anyOp Q tr := by
  refine (Prog.sat_bind _ _ _ _).mpr (sat_putIfVersion s hpath (fun _ _ _ => trivial) trivial
    fun st a st' hlater hh q _ => ?_)
  rcases hh with hh | ⟨hfalse, -⟩
  · rcases st.putIfVersion_cases path data map expected with ⟨-, hres⟩ | ⟨hne, hres⟩
    · obtain ⟨rfl, -⟩ := Prod.mk.inj (hh.trans hres)
      exact hok _ _
    · obtain ⟨rfl, rfl⟩ := Prod.mk.inj (hh.trans hres)
      exact hfail st' q hlater hne
  · exact absurd hfalse not_false

/-- Counting comes to an answer. -/
theorem sat_capLoop_returns {pre : Str} {limit fuel count : Nat} {startAfter : Option Str} :
    (s.capLoop pre limit fuel count startAfter).Sat (inMemory False) anyOp
      (fun _ r => ∃ full, r = .ok full) tr := by
  induction fuel generalizing count startAfter tr with
  | zero => trivial
  | succ fuel ih =>
    unfold MemoryStore.capLoop
    split
    · exact ⟨true, rfl⟩
    · refine (Prog.sat_bind _ _ _ _).mpr (sat_storageListPage trivial fun st _ => ?_)
      rw [Prog.andThen_ok]
      split
      · exact ⟨_, rfl⟩
      · exact ih

/-- The cap check of a create on a path raises nothing. -/
theorem sat_createCap_returns {fuel : Nat} {path : Str} (hpath : isValidPath path = true) :
    (s.createCap fuel path).Sat (inMemory False) anyOp (fun _ r => ∃ cap, r = .ok cap) tr := by
  obtain ⟨p, hp, rfl⟩ := exists_parts hpath
  unfold MemoryStore.createCap orValueError
  simp only [parsePath_path hp, Except.mapError, Prog.ofExcept_ok, Prog.ret_bind,
    buildPrefix_entity hp.scope hp.entityId]
  split
  · exact ⟨none, rfl⟩
  · split
    · exact ⟨none, rfl⟩
    · refine (Prog.sat_bind _ _ _ _).mpr ((sat_capLoop_returns s).post ?_)
      rintro tr' r ⟨full, rfl⟩
      exact ⟨_, rfl⟩

/-- A write that is committed reports what a re-read found. -/
theorem sat_commitWrite_reports {content : Str} {data : Bytes} {metadata : FileMetadata}
    {sources : FinSet Str} (hpath : isValidPath m.path = true) (hread : m.FoundExpected tr) :
    (s.commitWrite m.path content data metadata m.expected sources).Sat (inMemory False) anyOp
      m.ReportsIn tr := by
  unfold MemoryStore.commitWrite
  refine (Prog.sat_bind _ _ _ _).mpr (sat_clock trivial fun st now _ => ?_)
  refine sat_noReport_bind (noReport_replaceMetadata _ _ _ _) fun stamped _ => ?_
  refine sat_noReport_bind (noReport_metadataToMap _) fun map _ => ?_
  refine sat_attemptPut s hpath (fun version q => trivial) fun st₁ q hlater hne => ?_
  refine (Prog.sat_bind _ _ _ _).mpr (sat_storageGet trivial fun cur hcur => ?_)
  cases hobj : cur.get m.path with
  | none => trivial
  | some obj =>
    exact sat_conflictAfterRead (List.mem_concat_self) hobj
      ((hread.append [clockEvent now st]).gone hlater hne hcur hobj)

/-- A write that goes on has read the version it expects. -/
theorem sat_writeSources_reports {fuel : Nat} {metadata : FileMetadata} {source : Str}
    (hpath : isValidPath m.path = true) :
    (s.writeSources fuel m.path metadata m.expected source).Sat (inMemory False) anyOp
      (fun tr r => m.ReportsIn tr r ∧ ∀ a, r = .ok a → m.FoundExpected tr) tr := by
  unfold MemoryStore.writeSources
  cases hexpected : m.expected with
  | none =>
    have hfound : ∀ tr, m.FoundExpected tr := fun tr v hv => by simp [hexpected] at hv
    refine (Prog.sat_bind _ _ _ _).mpr ((sat_createCap_returns s hpath).post ?_)
    rintro tr' r ⟨cap, rfl⟩
    cases cap with
    | none => exact ⟨trivial, fun _ _ => hfound _⟩
    | some limit =>
      refine (Prog.sat_bind _ _ _ _).mpr (sat_storageGet trivial fun st _ => ?_)
      cases hobj : st.get m.path with
      | none => exact ⟨trivial, fun _ _ => hfound _⟩
      | some obj =>
        have hne : m.expected ≠ some obj.version := by simp [hexpected]
        exact (sat_conflictAfterRead List.mem_concat_self hobj hne).post fun tr r hr =>
          ⟨hr, fun _ _ => hfound _⟩
  | some expected =>
    refine (Prog.sat_bind _ _ _ _).mpr (sat_storageGet trivial fun st _ => ?_)
    cases hobj : st.get m.path with
    | none => exact ⟨trivial, by simp⟩
    | some obj =>
      show Prog.Sat _ _ (if obj.version ≠ expected then _ else _) _ _
      split
      next hne =>
        have hne' : m.expected ≠ some obj.version := by simpa [hexpected] using Ne.symm hne
        refine Prog.sat_ofExcept_bind (fun e he => ⟨?_, by simp⟩) fun _ _ => ?_
        · exact Mutator.reports_of_report_none (noReport_metadataFromMap _ e he)
        refine Prog.sat_ofExcept_bind (fun e he => ⟨?_, by simp⟩) fun content hcontent => ⟨?_, by simp⟩
        · exact Mutator.reports_of_report_none (noReport_decodeUtf8 _ e he)
        · exact m.reports_conflict List.mem_concat_self hobj hcontent (fun _ => hne')
            fun h => absurd h hne'
      next hv =>
        refine Prog.sat_ofExcept_bind (fun e he => ⟨?_, by simp⟩) fun stored _ => ⟨trivial, ?_⟩
        · exact Mutator.reports_of_report_none (noReport_metadataFromMap _ e he)
        · intro a _ v hv'
          rw [hexpected] at hv'
          cases hv'
          exact ⟨st, List.mem_concat_self,
            InMemoryStorage.version_eq_some.mpr ⟨obj, hobj, not_not.mp hv⟩⟩

/-- A write reports soundly. -/
theorem sat_writeFile_reports {fuel : Nat} {path content : Str} {metadata : FileMetadata}
    {expected : Option Str} {source : Str} {m : Mutator}
    (hm : m = .writeFile path content metadata expected source) :
    (s.writeFile fuel path content metadata expected source).Sat (inMemory False) anyOp m.ReportsIn [] := by
  have hpathEq : path = m.path := hm ▸ rfl
  have hexpected : expected = m.expected := hm ▸ rfl
  unfold MemoryStore.writeFile
  rw [hpathEq, hexpected]
  refine Prog.sat_raiseIf_bind (fun _ => trivial) fun hpath => ?_
  refine Prog.sat_raiseIf_bind (fun _ => trivial) fun _ => ?_
  refine sat_noReport_bind (noReport_encodeUtf8 _) fun data _ => ?_
  refine Prog.sat_raiseIf_bind (fun _ => trivial) fun _ => ?_
  rw [Bool.not_eq_false] at hpath
  refine (Prog.sat_bind _ _ _ _).mpr ((sat_writeSources_reports s hpath).post ?_)
  rintro tr r ⟨hreports, hfound⟩
  cases r with
  | error e => exact hreports
  | ok sources => exact sat_commitWrite_reports s hpath (hfound sources rfl)

/-- An append reports soundly. -/
theorem sat_appendLine_reports {path line expected source : Str} {aliases : Option (List Str)}
    {description : Option Str} {m : Mutator}
    (hm : m = .appendLine path line expected source aliases description) :
    (s.appendLine path line expected source aliases description).Sat (inMemory False) anyOp
      m.ReportsIn [] := by
  have hpathEq : path = m.path := hm ▸ rfl
  have hexpected : m.expected = some expected := hm ▸ rfl
  unfold MemoryStore.appendLine
  rw [hpathEq]
  refine Prog.sat_raiseIf_bind (fun _ => trivial) fun hpath => ?_
  refine Prog.sat_raiseIf_bind (fun _ => trivial) fun _ => ?_
  refine sat_noReport_bind (noReport_normalizeOptional _) fun newDescription _ => ?_
  rw [Bool.not_eq_false] at hpath
  refine (Prog.sat_bind _ _ _ _).mpr (sat_storageGet trivial fun st _ => ?_)
  cases hobj : st.get m.path with
  | none => trivial
  | some obj =>
    refine sat_noReport_bind (noReport_decodeUtf8 _) fun content hcontent => ?_
    refine Prog.sat_raiseIf_bind (fun hne => ?_) fun hversion => ?_
    · have hne' : m.expected ≠ some obj.version := by simpa [hexpected] using Ne.symm hne
      exact m.reports_conflict List.mem_concat_self hobj hcontent (fun _ => hne') fun h => absurd h hne'
    have hfound : m.FoundExpected [readEvent m.path st] := by
      intro v hv
      rw [hexpected] at hv
      cases hv
      exact ⟨st, List.mem_singleton_self _,
        InMemoryStorage.version_eq_some.mpr ⟨obj, hobj, not_not.mp hversion⟩⟩
    refine sat_noReport_bind (noReport_metadataFromMap _) fun stored _ => ?_
    refine sat_noReport_bind (noReport_encodeUtf8 _) fun data _ => ?_
    refine Prog.sat_raiseIf_bind (fun _ => trivial) fun _ => ?_
    refine (Prog.sat_bind _ _ _ _).mpr (sat_clock trivial fun st' now _ => ?_)
    refine sat_noReport_bind (noReport_replaceMetadata _ _ _ _) fun stamped _ => ?_
    refine sat_noReport_bind (noReport_metadataToMap _) fun map _ => ?_
    refine sat_attemptPut s hpath (fun version q => trivial) fun st₁ q hlater hne => ?_
    refine (Prog.sat_bind _ _ _ _).mpr (sat_storageGet trivial fun cur hcur => ?_)
    cases hobj' : cur.get m.path with
    | none => trivial
    | some found =>
      show Prog.Sat _ _ (if found.data = data ∧ found.metadata = map then _ else _) _ _
      split
      · trivial
      · exact sat_conflict List.mem_concat_self hobj'
          ((hfound.append [clockEvent now st']).gone hlater (hexpected ▸ hne) hcur hobj')

/-- A delete reports soundly. -/
theorem sat_deleteFile_reports {path expected : Str} {m : Mutator} (hm : m = .deleteFile path expected) :
    (s.deleteFile path expected).Sat (inMemory False) anyOp m.ReportsIn [] := by
  have hpathEq : path = m.path := hm ▸ rfl
  have hexpected : m.expected = some expected := hm ▸ rfl
  unfold MemoryStore.deleteFile
  rw [hpathEq]
  refine Prog.sat_raiseIf_bind (fun _ => trivial) fun hpath => ?_
  rw [Bool.not_eq_false] at hpath
  refine (Prog.sat_bind _ _ _ _).mpr (sat_storageGet trivial fun st _ => ?_)
  cases hobj : st.get m.path with
  | none => trivial
  | some obj =>
    show Prog.Sat _ _ (if obj.version ≠ expected then _ else _) _ _
    split
    next hne =>
      exact sat_conflict List.mem_concat_self hobj (by simpa [hexpected] using Ne.symm hne)
    next hversion =>
      have hfound : m.FoundExpected [readEvent m.path st] := by
        intro v hv
        rw [hexpected] at hv
        cases hv
        exact ⟨st, List.mem_singleton_self _,
          InMemoryStorage.version_eq_some.mpr ⟨obj, hobj, not_not.mp hversion⟩⟩
      refine (Prog.sat_bind _ _ _ _).mpr (sat_deleteIfVersion s hpath (fun _ _ _ => trivial) trivial
        fun st₁ hlater q _ => ?_)
      rcases st₁.deleteIfVersion_cases m.path expected with ⟨-, hres⟩ | ⟨hne, hres⟩
      · rw [hres]
        trivial
      · rw [hres]
        refine (Prog.sat_bind _ _ _ _).mpr (sat_storageGet trivial fun cur hcur => ?_)
        cases hobj' : cur.get m.path with
        | none => trivial
        | some found =>
          exact sat_conflict List.mem_concat_self hobj'
            (hfound.gone hlater (hexpected ▸ hne) hcur hobj')

/-- The attempts of `replace_fact`: what is reported when none is left was read by the last, whose put
failed. -/
theorem sat_replaceAttempts_reports {oldString newString expected source content version : Str}
    {aliases : Option (List Str)} {description : Option Str} {m : Mutator}
    (hpath : isValidPath m.path = true) (hexpected : m.expected = some expected) (hsingle : ¬ m.Single)
    (attempts : Nat) {tr : StoreTrace}
    (hlast : attempts = 0 → m.Reports tr (.versionConflictError m.path content version)) :
    (s.replaceAttempts m.path oldString newString expected source aliases description attempts
      content version).Sat (inMemory False) anyOp m.ReportsIn tr := by
  induction attempts generalizing content version tr with
  | zero => exact hlast rfl
  | succ attempts ih =>
    unfold MemoryStore.replaceAttempts
    refine (Prog.sat_bind _ _ _ _).mpr (sat_storageGet trivial fun st _ => ?_)
    cases hobj : st.get m.path with
    | none => trivial
    | some obj =>
      refine sat_noReport_bind (noReport_decodeUtf8 _) fun content hcontent => ?_
      refine sat_noReport_bind (noReport_metadataFromMap _) fun stored _ => ?_
      dsimp only
      split
      · split
        next hv =>
          exact ⟨rfl, ⟨st, obj, List.mem_concat_self, hobj, rfl, hcontent⟩, hv ▸ hexpected⟩
        next hne =>
          have hne' : m.expected ≠ some obj.version := by simpa [hexpected] using Ne.symm hne
          exact m.reports_conflict List.mem_concat_self hobj hcontent (fun _ => hne')
            fun h => absurd h hne'
      · refine sat_noReport_bind (noReport_encodeUtf8 _) fun data _ => ?_
        refine Prog.sat_raiseIf_bind (fun _ => trivial) fun _ => ?_
        refine (Prog.sat_bind _ _ _ _).mpr (sat_clock trivial fun st' now _ => ?_)
        refine sat_noReport_bind (noReport_replaceMetadata _ _ _ _) fun stamped _ => ?_
        refine sat_noReport_bind (noReport_metadataToMap _) fun map _ => ?_
        refine sat_attemptPut s hpath (fun version q => trivial) fun st₁ q _ hne => ih fun _ => ?_
        refine m.reports_conflict (by simp) hobj hcontent (fun h => absurd h hsingle) fun h => ?_
        exact ⟨_, List.mem_append_right _ List.mem_cons_self, h ▸ hne⟩

/-- A replacement reports soundly. -/
theorem sat_replaceFact_reports {path oldString newString expected source : Str}
    {aliases : Option (List Str)} {description : Option Str} {m : Mutator}
    (hm : m = .replaceFact path oldString newString expected source aliases description) :
    (s.replaceFact path oldString newString expected source aliases description).Sat
      (inMemory False) anyOp m.ReportsIn [] := by
  have hpathEq : path = m.path := hm ▸ rfl
  have hexpected : m.expected = some expected := hm ▸ rfl
  have hsingle : ¬ m.Single := hm ▸ not_false
  unfold MemoryStore.replaceFact
  rw [hpathEq]
  refine Prog.sat_raiseIf_bind (fun _ => trivial) fun hpath => ?_
  refine Prog.sat_raiseIf_bind (fun _ => trivial) fun _ => ?_
  refine sat_noReport_bind (noReport_normalizeOptional _) fun newDescription _ => ?_
  rw [Bool.not_eq_false] at hpath
  exact sat_replaceAttempts_reports s hpath hexpected hsingle _ fun h => by simp [maxReplaceAttempts] at h

/-- **What the errors of a mutator report**, whatever happens between its steps. -/
theorem Mutator.sat_reports (m : Mutator) (fuel : Nat) :
    (m.body s fuel).Sat (inMemory False) anyOp m.ReportsIn [] := by
  have hreturns : ∀ {γ : Type} {p : Store γ} {f : γ → Option MemoryFile},
      p.Sat (inMemory False) anyOp m.ReportsIn [] →
      (p >>= fun a => .ret (f a)).Sat (inMemory False) anyOp m.ReportsIn [] :=
    fun h => h.andThen (fun _ _ _ => trivial) fun _ _ hr => hr
  cases m with
  | writeFile path content metadata expected source => exact hreturns (sat_writeFile_reports s rfl)
  | replaceFact path oldString newString expected source aliases description =>
    exact hreturns (sat_replaceFact_reports s rfl)
  | appendLine path line expected source aliases description =>
    exact hreturns (sat_appendLine_reports s rfl)
  | deleteFile path expected => exact hreturns (sat_deleteFile_reports s rfl)

end

/-! ## Over a run -/

section Runs

variable [Interpreter] {P : MutatorPool → Prop} {w : InMemoryStorage} {p : MutatorPool}

/-- What the report of a call that raised is good for. -/
structure SoundReport (p : MutatorPool) (t : Nat) (th : MutatorThread) (e : Exc)
    (path content version : Str) : Prop where
  /-- It is about the path that was asked for. -/
  asked : path = th.call.call.path
  /-- A conflict of a call that puts at most once reports another version than it expected. -/
  differs : e = .versionConflictError path content version → th.call.call.Single →
    th.call.call.expected ≠ some version
  /-- A match error reports the version that the caller passed. -/
  passed : ∀ count, e = .replaceFactMatchError path content version count →
    th.call.call.expected = some version
  /-- Content and version are those of one object that was current when the call read it; and if nobody
  else has changed the path since, the call repeated with that version raises no conflict. -/
  current : ∃ before after st obj, p.log = before ++ (t, readEvent path st) :: after ∧
    th.start ≤ before.length ∧ st.get path = some obj ∧ obj.version = version ∧
    decodeUtf8 obj.data = .ok content ∧
    ∀ t' th', p.threads[t']? = some th' → th'.call.call = th.call.call.repeated version →
      before.length < th'.start →
      (∀ u e', (u, e') ∈ after → u ≠ t' → e'.post.get path = e'.pre.get path) →
      ∀ path' content' version',
        th'.prog.outcome? ≠ some (.error (.versionConflictError path' content' version'))

/-- **Every mutator reports soundly**, in every run beside any others. -/
theorem mutator_reports (h : Pool.Run (inMemory False) Invocation.mutate P w p) {t : Nat}
    {th : MutatorThread} (ht : p.threads[t]? = some th) {r : Except Exc (Option MemoryFile)}
    (hr : th.prog.outcome? = some r) : th.call.call.ReportsIn (ownTrace t p.log) r :=
  h.post (fun c => c.call.sat_reports c.store c.fuel) ht hr

/-- An operation of a call comes after the call's start. -/
theorem mutator_started (h : Pool.Run (inMemory False) Invocation.mutate P w p) {t : Nat}
    {th : MutatorThread} (ht : p.threads[t]? = some th) {l l' : Log StoreSig InMemoryStorage}
    {e : Event StoreSig InMemoryStorage} (hl : p.log = l ++ (t, e) :: l') : th.start ≤ l.length := by
  obtain ⟨th', ht', hstart, -⟩ :=
    h.guarantee (fun c : Invocation Mutator => c.call.sat_reports c.store c.fuel) hl
  cases ht.symm.trans ht'
  exact hstart

/-- A call that raised changed nothing. -/
theorem post_eq_of_raised (h : Pool.Run (inMemory False) Invocation.mutate P w p) {t : Nat}
    {th : MutatorThread} (ht : p.threads[t]? = some th) {e : Exc}
    (hr : th.prog.outcome? = some (.error e)) {e' : Event StoreSig InMemoryStorage}
    (he' : (t, e') ∈ p.log) : e'.post = e'.pre := by
  have hmem := mem_ownTrace.mpr he'
  have hno : NoSuccess (ownTrace t p.log) := mutator_outcome h ht hr
  by_contra hne
  exact hno e' hmem ((committed_iff h hmem).mp hne)

/-- A call is not refused where nobody else changes the path. -/
theorem not_refused (h : Pool.Run (inMemory False) Invocation.mutate P w p) {t t' : Nat}
    {th' : MutatorThread} (ht' : p.threads[t']? = some th') {before after : Log StoreSig InMemoryStorage}
    {path : Str} {st : InMemoryStorage} {obj : StoredObject}
    (hlog : p.log = before ++ (t, readEvent path st) :: after) (hobj : st.get path = some obj)
    (hpath : th'.call.call.path = path) (hexpected : th'.call.call.expected = some obj.version)
    (hstart : before.length < th'.start)
    (hothers : ∀ u e', (u, e') ∈ after → u ≠ t' → e'.post.get path = e'.pre.get path)
    (path' content' version' : Str) :
    th'.prog.outcome? ≠ some (.error (.versionConflictError path' content' version')) := by
  intro hraised
  obtain ⟨rfl, -, -, hmet⟩ := mutator_reports h ht' hraised
  obtain ⟨e, he, hne⟩ := hmet obj.version hexpected
  -- The version has been there ever since it was reported.
  have hchain := h.chain
  rw [hlog] at hchain
  have hkeeps := (hchain.split.2.2.keeps (I := fun st' => st'.get path = some obj) hobj
    fun l₁ u e' l₂ hafter _ hpre => by
      by_cases hu : u = t'
      · subst hu
        have hown : (u, e') ∈ p.log := by simp [hlog, hafter]
        rw [post_eq_of_raised h ht' hraised hown]
        exact hpre
      · rw [hothers u e' (by simp [hafter]) hu]
        exact hpre).2
  obtain ⟨l, l', hl⟩ := List.append_of_mem (mem_ownTrace.mp he)
  have hlater := lt_of_lt_of_le hstart (mutator_started h ht' hl)
  have hmem := mem_of_append_cons_eq (hlog.symm.trans hl) hlater
  rw [hpath] at hne
  exact hne (InMemoryStorage.version_eq_some.mpr ⟨obj, hkeeps _ hmem, rfl⟩)

/-- **Conflicts are sound repair material.** -/
theorem conflict_reports_sound (h : Pool.Run (inMemory False) Invocation.mutate P w p) {t : Nat}
    {th : MutatorThread} (ht : p.threads[t]? = some th) {e : Exc}
    (hr : th.prog.outcome? = some (.error e)) {path content version : Str}
    (hreport : e.report = some (path, content, version)) :
    SoundReport p t th e path content version := by
  have hreports := mutator_reports h ht hr
  have hall : path = th.call.call.path ∧ Shows path (ownTrace t p.log) content version ∧
      (e = .versionConflictError path content version → th.call.call.Single →
        th.call.call.expected ≠ some version) ∧
      ∀ count, e = .replaceFactMatchError path content version count →
        th.call.call.expected = some version := by
    cases e with
    | versionConflictError path content version =>
      cases hreport
      obtain ⟨hpath, hshows, hdiffers, -⟩ := hreports
      exact ⟨hpath, hshows, fun _ => hdiffers, by simp⟩
    | replaceFactMatchError path content version n =>
      cases hreport
      obtain ⟨hpath, hshows, hpassed⟩ := hreports
      exact ⟨hpath, hshows, by simp, fun _ _ => hpassed⟩
    | _ => cases hreport
  obtain ⟨hpath, ⟨st, obj, hread, hobj, rfl, hcontent⟩, hdiffers, hpassed⟩ := hall
  refine ⟨hpath, hdiffers, hpassed, ?_⟩
  obtain ⟨before, after, hlog⟩ := List.append_of_mem (mem_ownTrace.mp hread)
  refine ⟨before, after, st, obj, hlog, mutator_started h ht hlog, hobj, rfl, hcontent, ?_⟩
  intro t' th' ht' hcall hlater hothers
  exact not_refused h ht' hlog hobj (by rw [hcall, Mutator.repeated_path, hpath])
    (by rw [hcall, Mutator.repeated_expected]) hlater hothers

end Runs

/-! ## An append that is refused and repeated -/

/-- Another append to the file stored under the first token. -/
def secondAppend : Mutator :=
  .appendLine (str "user/u1/notes/n.md") (str "- [stated] y") (str "1") (str "s") none none

/-- Two appends read the same version; the second is refused, and repeated with the version it was
shown. -/
def refusedAppend : List (Choice (Invocation Mutator) DateTime) :=
  [.invoke firstAppend, .invoke ⟨.default, 1, secondAppend⟩, .act 0 noon, .act 1 noon, .act 0 noon,
    .act 1 noon, .act 0 noon, .act 1 noon, .act 1 noon,
    .invoke ⟨.default, 1, secondAppend.repeated (str "2")⟩, .act 2 noon, .act 2 noon, .act 2 noon]

/-- The pool they lead to, from a storage that holds the file, empty. -/
def afterRefusedAppend [Interpreter] : Option MutatorPool :=
  Pool.exec answerAt Invocation.mutate refusedAppend
    (Pool.init (.single (str "user/u1/notes/n.md") []))

/-- The refused append reports what the first one wrote, and is accepted when it is repeated. -/
theorem conflict_reports_sound_append : let _ := Interpreter.ascii
    ∃ p th e, afterRefusedAppend = some p ∧ p.threads[1]? = some th ∧
      SoundReport p 1 th e (str "user/u1/notes/n.md") (str "- [stated] x\n") (str "2") ∧
      (p.returned 2).any (·.isOk) = true := by
  intro _
  have hends : (afterRefusedAppend.any fun p => (p.returned 2).any (·.isOk) && p.threads[1]?.any fun th =>
      th.prog.outcome? = some (.error (.versionConflictError (str "user/u1/notes/n.md")
        (str "- [stated] x\n") (str "2")))) = true := by
    decide +kernel
  obtain ⟨p, hp, h₁⟩ := (Option.any_eq_true _ _).mp hends
  obtain ⟨hrepeated, h₂⟩ := Bool.and_eq_true_iff.mp h₁
  obtain ⟨th, hth, h₃⟩ := (Option.any_eq_true _ _).mp h₂
  have hrun : Pool.Run (inMemory False) Invocation.mutate (fun _ => True)
      (.single (str "user/u1/notes/n.md") []) p :=
    Pool.Run.exec answerAt answerAt_handles (.init trivial) hp
  exact ⟨p, th, _, hp, hth, conflict_reports_sound hrun hth (of_decide_eq_true h₃) rfl, hrepeated⟩

end Wenchang
