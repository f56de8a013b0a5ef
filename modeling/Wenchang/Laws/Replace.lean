import Wenchang.Laws.Cacheless
import Wenchang.Laws.Calls
import Wenchang.Laws.Metadata
import Wenchang.Py.Occurrences

/-!
# `replace_fact`

What `replace_fact` does to a stored file when nobody else writes, for every content and every
`old_string`, and how many storage steps it takes when others do.

`countOccurrences` counts overlapping occurrences with `find`, and the edit is made by `replace`. A
count of one says that the content splits around `old_string` in one way only, so the two agree on
what is replaced.
-/

namespace Wenchang

open Py Ordered Interaction

/-! ## The count -/

/-- The loop counts the occurrences from its index on. -/
theorem countLoop_eq (content oldString : Str) (fuel count index : Nat)
    (hfuel : content.length + 2 ≤ fuel + index) :
    countLoop content oldString fuel count index =
      count + ((occurrences content oldString).filter (index ≤ ·)).card := by
  induction fuel generalizing count index with
  | zero =>
    have hnone : (occurrences content oldString).filter (index ≤ ·) = ∅ :=
      Finset.filter_eq_empty_iff.mpr fun i hi => by
        have hle := (mem_occurrences.mp hi).1
        omega
    rw [hnone]
    rfl
  | succ fuel ih =>
    unfold countLoop
    cases hfind : findFrom content oldString index with
    | none =>
      have hnone : (occurrences content oldString).filter (index ≤ ·) = ∅ :=
        Finset.filter_eq_empty_iff.mpr fun i hi => Nat.not_le.mpr (findFrom_eq_none hfind i hi)
      rw [hnone]
      rfl
    | some found =>
      obtain ⟨hle, hmem, hfirst⟩ := findFrom_eq_some hfind
      -- the first occurrence from `index` on, and those behind it
      have hsplit : (occurrences content oldString).filter (index ≤ ·) =
          insert found ((occurrences content oldString).filter (found + 1 ≤ ·)) := by
        ext i
        simp only [Finset.mem_filter, Finset.mem_insert]
        constructor
        · rintro ⟨hi, hindex⟩
          have hfound := hfirst i hi hindex
          by_cases heq : i = found
          · exact .inl heq
          · exact .inr ⟨hi, by omega⟩
        · rintro (rfl | ⟨hi, hbehind⟩)
          · exact ⟨hmem, hle⟩
          · exact ⟨hi, by omega⟩
      have hrest := ih (count + 1) (found + 1) (by omega)
      dsimp only
      rw [hrest, hsplit, Finset.card_insert_of_notMem (by simp)]
      omega

/-- **The scan ends**, after as many rounds as there are occurrences, and it counts them all. -/
theorem countLoop_all (content oldString : Str) {fuel : Nat} (hfuel : content.length + 2 ≤ fuel) :
    countLoop content oldString fuel 0 0 = (occurrences content oldString).card := by
  rw [countLoop_eq _ _ _ _ _ hfuel, Nat.zero_add]
  exact congrArg Finset.card (Finset.filter_true_of_mem fun i _ => Nat.zero_le i)

/-- **The scan counts all occurrences**, overlaps included. -/
theorem countOccurrences_eq (content oldString : Str) :
    countOccurrences content oldString = (occurrences content oldString).card :=
  countLoop_all content oldString (Nat.le_refl _)

/-! ## The call alone -/

/-- A clock reading that a file can be stamped with. -/
def Stampable (now : DateTime) : Prop :=
  now.utcoffset.isSome = true ∧ now.astimezoneUTC.isSome = true

/-- A naive clock is refused. -/
theorem mergeMetadata_error (stored : FileMetadata) (source : Str) (aliases : Option (List Str))
    {description : Option Str} {now : DateTime} (hdescription : ∀ d ∈ description, 10 ∉ d ∧ 13 ∉ d)
    (hnow : now.utcoffset.isSome = false) :
    mergeMetadata stored source aliases description now =
      .error (.valueError (str "last_updated must be timezone-aware")) := by
  have hline : 10 ∉ description.getD stored.description ∧ 13 ∉ description.getD stored.description := by
    cases description with
    | none => exact stored.one_line
    | some d => exact hdescription d rfl
  simp [mergeMetadata, replaceMetadata, FileMetadata.make, hline, hnow, Except.mapError]

/-- At an aware moment a source is merged. -/
theorem mergeMetadata_ok (stored : FileMetadata) (source : Str) (aliases : Option (List Str))
    {description : Option Str} {now : DateTime} (hdescription : ∀ d ∈ description, 10 ∉ d ∧ 13 ∉ d)
    (hnow : now.utcoffset.isSome = true) :
    ∃ stamped, mergeMetadata stored source aliases description now = .ok stamped ∧
      stamped.lastUpdated = now ∧ stamped.description = description.getD stored.description ∧
      stamped.aliases = mergeAliases stored.aliases (aliases.getD []) ∧
      stamped.sources = stored.sources.insert source := by
  have hline : 10 ∉ description.getD stored.description ∧ 13 ∉ description.getD stored.description := by
    cases description with
    | none => exact stored.one_line
    | some d => exact hdescription d rfl
  exact ⟨⟨description.getD stored.description, mergeAliases stored.aliases (aliases.getD []),
    stored.sources.insert source, now, hline, hnow⟩,
    by simp [mergeMetadata, replaceMetadata, FileMetadata.make, hline, hnow, Except.mapError],
    rfl, rfl, rfl, rfl⟩

/-- What stamping fails with, on a reading that no file can be stamped with. -/
theorem stamp_error (stored : FileMetadata) (source : Str) (aliases : Option (List Str))
    {description : Option Str} {now : DateTime} (hdescription : ∀ d ∈ description, 10 ∉ d ∧ 13 ∉ d)
    (hnow : ¬ Stampable now) :
    mergeMetadata stored source aliases description now >>= metadataToMap =
      .error (if now.utcoffset.isSome then .overflowError
        else .valueError (str "last_updated must be timezone-aware")) := by
  cases haware : now.utcoffset.isSome with
  | false => rw [mergeMetadata_error _ _ _ hdescription haware]; rfl
  | true =>
    obtain ⟨stamped, hmerge, hupdated, -⟩ := mergeMetadata_ok stored source aliases hdescription haware
    have hfar : now.astimezoneUTC = none := by
      cases hutc : now.astimezoneUTC with
      | none => rfl
      | some utc => exact absurd ⟨haware, by rw [hutc]; rfl⟩ hnow
    rw [hmerge]
    show metadataToMap stamped = _
    simp [metadataToMap, hupdated, hfar]

/-- What is merged is written, where its moment can be. -/
theorem stamp_ok (stored : FileMetadata) (source : Str) (aliases : Option (List Str))
    {description : Option Str} {now : DateTime} (hdescription : ∀ d ∈ description, 10 ∉ d ∧ 13 ∉ d)
    (hnow : Stampable now) :
    ∃ stamped map, mergeMetadata stored source aliases description now = .ok stamped ∧
      metadataToMap stamped = .ok map ∧ stamped.lastUpdated = now ∧
      stamped.description = description.getD stored.description ∧
      stamped.aliases = mergeAliases stored.aliases (aliases.getD []) ∧
      stamped.sources = stored.sources.insert source := by
  obtain ⟨stamped, hmerge, hupdated, hrest⟩ := mergeMetadata_ok stored source aliases hdescription hnow.1
  have hutc : stamped.lastUpdated.astimezoneUTC.isSome = true := hupdated ▸ hnow.2
  obtain ⟨map, hmap⟩ := exists_metadataToMap hutc
  exact ⟨stamped, map, hmerge, hmap, hupdated, hrest⟩

/-- A file in storage, with what its object decodes to. -/
structure FileAt [Interpreter] (st : InMemoryStorage) (file : MemoryFile) : Prop where
  path : isValidPath file.path = true
  object : ∃ obj, st.get file.path = some obj ∧ obj.version = file.version ∧
    decodeUtf8 obj.data = .ok file.content ∧ metadataFromMap obj.metadata = .ok file.metadata

/-- How `replace_fact` ends when it runs alone on a stored file. -/
structure Replaces (s : MemoryStore) (now : DateTime) (st : InMemoryStorage) (file : MemoryFile)
    (oldString newString expected source : Str) (aliases : Option (List Str))
    (description : Option Str) (r : Except Exc MemoryFile) (st' : InMemoryStorage) : Prop where
  /-- At the current token another count than one is reported as it is. -/
  mismatch : (occurrences file.content oldString).card ≠ 1 → file.version = expected →
    st' = st ∧ r = .error (.replaceFactMatchError file.path file.content file.version
      (occurrences file.content oldString).card)
  stale : (occurrences file.content oldString).card ≠ 1 → file.version ≠ expected →
    st' = st ∧ r = .error (.versionConflictError file.path file.content file.version)
  oversize : ∀ p q, file.content = p ++ oldString ++ q →
    (occurrences file.content oldString).card = 1 →
    s.maxFileBytes < (utf8EncodePass (p ++ newString ++ q)).length →
    st' = st ∧ r = .error (.oversizeWriteError file.path
      (utf8EncodePass (p ++ newString ++ q)).length s.maxFileBytes)
  /-- The only occurrence is replaced, whatever token is expected. -/
  edited : ∀ p q, file.content = p ++ oldString ++ q →
    (occurrences file.content oldString).card = 1 →
    (utf8EncodePass (p ++ newString ++ q)).length ≤ s.maxFileBytes → Stampable now →
    ∃ stamped map, metadataToMap stamped = .ok map ∧ stamped.lastUpdated = now ∧
      stamped.description = description.getD file.metadata.description ∧
      stamped.aliases = mergeAliases file.metadata.aliases (aliases.getD []) ∧
      stamped.sources = file.metadata.sources.insert source ∧
      st' = st.putLocked file.path (utf8EncodePass (p ++ newString ++ q)) map ∧
      r = .ok ⟨file.path, p ++ newString ++ q, stamped, st.token⟩
  /-- A reading that no file can be stamped with stops the edit. -/
  unstamped : ∀ p q, file.content = p ++ oldString ++ q →
    (occurrences file.content oldString).card = 1 →
    (utf8EncodePass (p ++ newString ++ q)).length ≤ s.maxFileBytes → ¬ Stampable now →
    st' = st ∧ r = .error (if now.utcoffset.isSome then .overflowError
      else .valueError (str "last_updated must be timezone-aware"))

section

variable [Interpreter] (s : MemoryStore) (now : DateTime) {st : InMemoryStorage} {file : MemoryFile}
  {oldString newString expected source : Str} {aliases : Option (List Str)}
  {description : Option Str}

/-- The checks that `replace_fact` makes of what it reads. -/
theorem run_mismatch (hfile : FileAt st file)
    (hcount : (occurrences file.content oldString).card ≠ 1) (attempts : Nat) (content version : Str) :
    (s.cacheless.replaceAttempts file.path oldString newString expected source aliases description
      (attempts + 1) content version).run (answerAt now) st =
      (some (.error (if file.version = expected then
          .replaceFactMatchError file.path file.content file.version
            (occurrences file.content oldString).card
        else .versionConflictError file.path file.content file.version)), st) := by
  obtain ⟨obj, hget, hversion, hdata, hmetadata⟩ := hfile.object
  simp only [MemoryStore.replaceAttempts, Prog.run_bind, run_storageGet, hget, Prog.run_ofExcept, hdata,
    hmetadata, countOccurrences_eq]
  rw [if_pos hcount, hversion]
  by_cases hv : file.version = expected
  · rw [if_pos hv, if_pos hv]
    rfl
  · rw [if_neg hv, if_neg hv]
    rfl

section

variable {newContent : Str} {data : Bytes}

/-- A call with a single occurrence, up to the size check. -/
structure Single (s : MemoryStore) (file : MemoryFile) (oldString newString newContent : Str)
    (data : Bytes) : Prop where
  count : (occurrences file.content oldString).card = 1
  content : replaceFirst file.content oldString newString = newContent
  encoded : encodeUtf8 newContent = .ok data

/-- An edit that is too large is refused with its size. -/
theorem run_oversize (hfile : FileAt st file)
    (hone : Single s file oldString newString newContent data) (hsize : s.maxFileBytes < data.length)
    (attempts : Nat) (content version : Str) :
    (s.cacheless.replaceAttempts file.path oldString newString expected source aliases description
      (attempts + 1) content version).run (answerAt now) st =
      (some (.error (.oversizeWriteError file.path data.length s.maxFileBytes)), st) := by
  obtain ⟨obj, hget, hversion, hdata, hmetadata⟩ := hfile.object
  have hsize' : s.cacheless.maxFileBytes < data.length := hsize
  simp only [MemoryStore.replaceAttempts, Prog.run_bind, run_storageGet, hget, Prog.run_ofExcept, hdata,
    hmetadata, countOccurrences_eq, hone.count, ne_eq, not_true_eq_false, if_false, hone.content,
    hone.encoded, Prog.raiseIf_pos hsize', Prog.run_raise]
  rfl

/-- An edit that cannot be stamped is refused. -/
theorem run_unstamped (hfile : FileAt st file)
    (hone : Single s file oldString newString newContent data) (hsize : data.length ≤ s.maxFileBytes)
    {e : Exc} (hstamp : mergeMetadata file.metadata source aliases description now >>= metadataToMap =
      .error e) (attempts : Nat) (content version : Str) :
    (s.cacheless.replaceAttempts file.path oldString newString expected source aliases description
      (attempts + 1) content version).run (answerAt now) st = (some (.error e), st) := by
  obtain ⟨obj, hget, hversion, hdata, hmetadata⟩ := hfile.object
  have hsize' : ¬ s.cacheless.maxFileBytes < data.length := Nat.not_lt.mpr hsize
  simp only [MemoryStore.replaceAttempts, Prog.run_bind, run_storageGet, hget, Prog.run_ofExcept, hdata,
    hmetadata, countOccurrences_eq, hone.count, ne_eq, not_true_eq_false, if_false, hone.content,
    hone.encoded, Prog.raiseIf_neg hsize', Prog.run_ret]
  rw [run_clock]
  dsimp only
  cases hmerge : mergeMetadata file.metadata source aliases description now with
  | error e' =>
    rw [hmerge] at hstamp
    obtain rfl := Except.error.inj hstamp
    rfl
  | ok stamped =>
    rw [hmerge] at hstamp
    have hmap : metadataToMap stamped = .error e := hstamp
    simp only [hmap]

/-- An edit is stored. -/
theorem run_edited (hfile : FileAt st file)
    (hone : Single s file oldString newString newContent data) (hsize : data.length ≤ s.maxFileBytes)
    {stamped : FileMetadata} {map : Metadata}
    (hmerge : mergeMetadata file.metadata source aliases description now = .ok stamped)
    (hmap : metadataToMap stamped = .ok map) (attempts : Nat) (content version : Str) :
    (s.cacheless.replaceAttempts file.path oldString newString expected source aliases description
      (attempts + 1) content version).run (answerAt now) st =
      (some (.ok ⟨file.path, newContent, stamped, st.token⟩), st.putLocked file.path data map) := by
  obtain ⟨obj, hget, hversion, hdata, hmetadata⟩ := hfile.object
  have hsize' : ¬ s.cacheless.maxFileBytes < data.length := Nat.not_lt.mpr hsize
  have hput : st.putIfVersion file.path data map (some obj.version) =
      (.ok st.token, st.putLocked file.path data map) :=
    if_neg (not_not.mpr (InMemoryStorage.version_eq_some.mpr ⟨obj, hget, rfl⟩))
  simp only [MemoryStore.replaceAttempts, Prog.run_bind, run_storageGet, hget, Prog.run_ofExcept, hdata,
    hmetadata, countOccurrences_eq, hone.count, ne_eq, not_true_eq_false, if_false, hone.content,
    hone.encoded, Prog.raiseIf_neg hsize', Prog.run_ret]
  rw [run_clock]
  simp only [hmerge, hmap, Prog.run_attempt, run_putIfVersion, hput, Option.map_some]
  rfl

end

/-- What the first attempt reads, it edits. -/
theorem replaces_of_attempts (oldString expected source : Str) (aliases : Option (List Str))
    (hfile : FileAt st file) (hnew : Scalar newString)
    (hdescription : ∀ d ∈ description, 10 ∉ d ∧ 13 ∉ d) (attempts : Nat) (content version : Str) :
    ∃ r st', (s.cacheless.replaceAttempts file.path oldString newString expected source aliases
        description (attempts + 1) content version).run (answerAt now) st = (some r, st') ∧
      Replaces s now st file oldString newString expected source aliases description r st' := by
  by_cases hone : (occurrences file.content oldString).card = 1
  · obtain ⟨⟨p, q⟩, hsplit, hunique⟩ := card_occurrences_eq_one.mp hone
    have hother : ∀ p' q', file.content = p' ++ oldString ++ q' → p' = p ∧ q' = q := fun p' q' h =>
      Prod.mk.inj (hunique (p', q') h)
    have hscalar : Scalar (p ++ newString ++ q) := by
      obtain ⟨obj, -, -, hdata, -⟩ := hfile.object
      have hcontent := scalar_of_utf8Decode (decodeUtf8_eq_ok.mp hdata)
      rw [hsplit] at hcontent
      obtain ⟨hpo, hq⟩ := scalar_append.mp hcontent
      exact ((scalar_append.mp hpo).1.append hnew).append hq
    have hsingle : Single s file oldString newString (p ++ newString ++ q)
        (utf8EncodePass (p ++ newString ++ q)) := by
      refine ⟨hone, ?_, encodeUtf8_eq_ok.mpr (utf8Encode_of_scalar hscalar)⟩
      rw [hsplit] at hone ⊢
      exact replaceFirst_append hone
    by_cases hsize : s.maxFileBytes < (utf8EncodePass (p ++ newString ++ q)).length
    · refine ⟨_, _, run_oversize s now hfile hsingle hsize attempts content version,
        fun h => absurd hone h, fun h => absurd hone h, fun p' q' h _ _ => ?_,
        fun p' q' h _ hfits => ?_, fun p' q' h _ hfits => ?_⟩
      · obtain ⟨rfl, rfl⟩ := hother p' q' h
        exact ⟨rfl, rfl⟩
      · obtain ⟨rfl, rfl⟩ := hother p' q' h
        exact absurd hsize (Nat.not_lt.mpr hfits)
      · obtain ⟨rfl, rfl⟩ := hother p' q' h
        exact absurd hsize (Nat.not_lt.mpr hfits)
    · have hfits := Nat.not_lt.mp hsize
      by_cases hnow : Stampable now
      · obtain ⟨stamped, map, hmerge, hmap, hstamped⟩ := stamp_ok file.metadata source aliases
          hdescription hnow
        refine ⟨_, _, run_edited s now hfile hsingle hfits hmerge hmap attempts content version,
          fun h => absurd hone h, fun h => absurd hone h, fun p' q' h _ hover => ?_,
          fun p' q' h _ _ _ => ?_, fun p' q' h _ _ hnot => absurd hnow hnot⟩
        · obtain ⟨rfl, rfl⟩ := hother p' q' h
          exact absurd hover hsize
        · obtain ⟨rfl, rfl⟩ := hother p' q' h
          exact ⟨stamped, map, hmap, hstamped.1, hstamped.2.1, hstamped.2.2.1, hstamped.2.2.2, rfl, rfl⟩
      · have herror := stamp_error file.metadata source aliases hdescription hnow
        refine ⟨_, _, run_unstamped s now hfile hsingle hfits herror attempts content version,
          fun h => absurd hone h, fun h => absurd hone h, fun p' q' h _ hover => ?_,
          fun p' q' h _ _ hstamp => absurd hstamp hnow, fun p' q' h _ _ _ => ⟨rfl, rfl⟩⟩
        obtain ⟨rfl, rfl⟩ := hother p' q' h
        exact absurd hover hsize
  · refine ⟨_, _, run_mismatch s now hfile hone attempts content version, fun _ hv => ?_, fun _ hv => ?_,
      fun _ _ _ h => absurd h hone, fun _ _ _ h => absurd h hone, fun _ _ _ h => absurd h hone⟩
    · rw [if_pos hv]
      exact ⟨rfl, rfl⟩
    · rw [if_neg hv]
      exact ⟨rfl, rfl⟩

/-- The arguments that `replace_fact` takes: a source, and a description on one line. -/
def Accepted (source : Str) (description : Option Str) : Prop :=
  source ≠ [] ∧ ∀ d ∈ description, 10 ∉ d ∧ 13 ∉ d

/-- **`replace_fact` alone**, whatever the index cache does. -/
theorem ends_replaceFact (hfile : FileAt st file) (hold : oldString ≠ []) (hnew : Scalar newString)
    (haccepted : Accepted source description) :
    (s.replaceFact file.path oldString newString expected source aliases description).Ends
      (handlesAlone now)
      (Replaces s now st file oldString newString expected source aliases description) st := by
  obtain ⟨hsource, hdescription⟩ := haccepted
  have hnormal : normalizeOptional description = .ok description := by
    cases description with
    | none => rfl
    | some d => simp [normalizeOptional, normalizeDescription, hdescription d rfl, Except.map]
  obtain ⟨r, st', hrun, hreplaces⟩ := replaces_of_attempts s now oldString expected source aliases
    hfile hnew hdescription 2 [] expected
  have hrun' : (s.cacheless.replaceFact file.path oldString newString expected source aliases
      description).run (answerAt now) st = (some r, st') := by
    unfold MemoryStore.replaceFact
    rw [Prog.raiseIf_neg (by simp [hfile.path]), Prog.raiseIf_neg (by simp [hold, hsource]), hnormal]
    exact hrun
  have hends := (skipsCache_replaceFact s file.path oldString newString expected source aliases
    description).ends (fun _ _ _ _ => handlesAlone_ofCache) (fun _ _ _ _ => handlesAlone_answerAt)
    (w := st) (by rw [hrun']; exact Option.some_ne_none r)
  refine hends.mono fun r₁ st₁ h => ?_
  rw [hrun'] at h
  obtain ⟨hr, rfl⟩ := Prod.mk.inj h
  obtain rfl := Option.some.inj hr
  exact hreplaces

/-- Arguments that are not accepted are refused before storage is read. -/
theorem ends_replaceFact_refused {path : Str} (hpath : isValidPath path = true)
    (hrefused : ¬ Accepted source description) :
    (s.replaceFact path oldString newString expected source aliases description).Ends
      (handlesAlone now) (fun r st' => st' = st ∧ ∃ message, r = .error (.valueError message)) st := by
  unfold MemoryStore.replaceFact
  rw [Prog.raiseIf_neg (by simp [hpath])]
  by_cases hempty : oldString = [] ∨ source = []
  · rw [Prog.raiseIf_pos hempty]
    exact ⟨rfl, _, rfl⟩
  · rw [Prog.raiseIf_neg hempty]
    cases description with
    | none => exact absurd ⟨fun h => hempty (.inr h), fun d hd => nomatch hd⟩ hrefused
    | some d =>
      have hline : 10 ∈ d ∨ 13 ∈ d := by
        by_contra hnone
        rw [not_or] at hnone
        exact hrefused ⟨fun h => hempty (.inr h), fun d' hd' => Option.some.inj hd' ▸ hnone⟩
      simp only [normalizeOptional, normalizeDescription, hline, if_true, Except.map]
      exact ⟨rfl, _, rfl⟩

/-! ## The storage steps of a call -/

/-- `storage.get`. -/
def StoreOp.isRead : StoreOp → Bool
  | .storage (.get _) => true
  | _ => false

/-- `storage.put_if_version`. -/
def StoreOp.isConditionalPut : StoreOp → Bool
  | .storage (.putIfVersion _ _ _ _) => true
  | _ => false

section

variable {P : StoreOp → Prop} [DecidablePred P] {reads puts : Nat} {path : Str}

/-- Every attempt reads once and puts once. -/
theorem atMost_replaceAttempts (hclock : ¬ P .clock) (hread : (storageGet path).AtMost P reads)
    (hput : ∀ data metadata expected, (s.putIfVersion path data metadata expected).AtMost P puts)
    (attempts : Nat) (content version : Str) :
    (s.replaceAttempts path oldString newString expected source aliases description attempts content
      version).AtMost P (attempts * (reads + puts)) := by
  induction attempts generalizing content version with
  | zero => trivial
  | succ attempts ih =>
    rw [show (attempts + 1) * (reads + puts) = reads + (puts + attempts * (reads + puts)) by ring]
    refine hread.bind fun obj => ?_
    cases obj with
    | none => trivial
    | some obj =>
      refine (Prog.issues_ofExcept _).atMost_bind fun content => ?_
      refine (Prog.issues_ofExcept _).atMost_bind fun stored => ?_
      dsimp only
      split
      · split
        · trivial
        · trivial
      · refine (Prog.issues_ofExcept _).atMost_bind fun data => ?_
        refine (Prog.issues_raiseIf _ _).atMost_bind fun _ => ?_
        refine (issues_ask hclock).atMost_bind fun now => ?_
        refine (Prog.issues_ofExcept _).atMost_bind fun stamped => ?_
        refine (Prog.issues_ofExcept _).atMost_bind fun map => ?_
        refine (hput data map _).attempt.bind fun result => ?_
        split
        · trivial
        · exact ih _ _
        · trivial

/-- A replacement makes three attempts at most, each of a read and a put. -/
theorem atMost_replaceFact (hclock : ¬ P .clock) (hread : (storageGet path).AtMost P reads)
    (hput : ∀ data metadata expected, (s.putIfVersion path data metadata expected).AtMost P puts) :
    (s.replaceFact path oldString newString expected source aliases description).AtMost P
      (3 * (reads + puts)) := by
  refine (Prog.issues_raiseIf _ _).atMost_bind fun _ => ?_
  refine (Prog.issues_raiseIf _ _).atMost_bind fun _ => ?_
  refine (Prog.issues_ofExcept _).atMost_bind fun newDescription => ?_
  exact atMost_replaceAttempts s hclock hread hput 3 [] expected

end

/-- At most three reads and three conditional puts, whatever happens in between. -/
theorem replaceFact_steps (oldString newString expected source : Str) (aliases : Option (List Str))
    (description : Option Str) (path : Str) :
    (s.replaceFact path oldString newString expected source aliases description).AtMost
        (fun o => StoreOp.isRead o = true) 3 ∧
      (s.replaceFact path oldString newString expected source aliases description).AtMost
        (fun o => StoreOp.isConditionalPut o = true) 3 := by
  have hquiet : ∀ o : StoreOp, o.Quiet → ¬ o.isRead = true ∧ ¬ o.isConditionalPut = true := fun o ho => by
    cases o with
    | storage o => exact absurd ho not_false
    | _ => exact ⟨Bool.false_ne_true, Bool.false_ne_true⟩
  refine ⟨?_, ?_⟩
  · have hread : (storageGet path).AtMost (fun o => StoreOp.isRead o = true) 1 :=
      ⟨Nat.one_pos, fun _ => (Prog.issues_ofExcept _).atMost 0⟩
    have hput : ∀ data metadata expected, (s.putIfVersion path data metadata expected).AtMost
        (fun o => StoreOp.isRead o = true) 0 := fun _ _ _ =>
      (issues_putIfVersion s Bool.false_ne_true fun o ho => (hquiet o ho).1).atMost 0
    exact atMost_replaceFact s Bool.false_ne_true hread hput
  · have hread : (storageGet path).AtMost (fun o => StoreOp.isConditionalPut o = true) 0 :=
      (issues_storageGet Bool.false_ne_true).atMost 0
    have hrest : (s.invalidatePath path false).Issues fun o => ¬ StoreOp.isConditionalPut o = true :=
      issues_invalidatePath s (fun o ho => (hquiet o ho).2) path false
    have hput : ∀ data metadata expected, (s.putIfVersion path data metadata expected).AtMost
        (fun o => StoreOp.isConditionalPut o = true) 1 := fun _ _ _ =>
      ⟨Nat.one_pos, fun result => (hrest.bind fun _ => Prog.issues_ofExcept result).atMost 0⟩
    exact atMost_replaceFact s Bool.false_ne_true hread hput

/-- **The specification of `replace_fact`.** Alone on a stored file it ends as `Replaces` says when its
arguments are accepted, and without effect when they are not; the scan counts every occurrence of
every string; and among other calls it reads and puts at most three times. -/
theorem replaceFact_spec (hfile : FileAt st file) (hold : oldString ≠ []) (hnew : Scalar newString) :
    (Accepted source description →
      (s.replaceFact file.path oldString newString expected source aliases description).Ends
        (handlesAlone now)
        (Replaces s now st file oldString newString expected source aliases description) st) ∧
    (¬ Accepted source description →
      (s.replaceFact file.path oldString newString expected source aliases description).Ends
        (handlesAlone now) (fun r st' => st' = st ∧ ∃ message, r = .error (.valueError message)) st) ∧
    ((occurrences file.content oldString).card = 1 ↔
      ∃! pq : Str × Str, file.content = pq.1 ++ oldString ++ pq.2) ∧
    (∀ (content old : Str) (fuel : Nat), content.length + 2 ≤ fuel →
      countLoop content old fuel 0 0 = (occurrences content old).card) ∧
    (∀ (lossy : Prop) (w : InMemoryStorage) (p : StorePool) (t : Nat) (th : StoreThread) (path : Str),
      Pool.Run (inMemory lossy) Invocation.body (fun _ => True) w p → p.threads[t]? = some th →
      th.call.call = .mutate
        (.replaceFact path oldString newString expected source aliases description) →
      (ownTrace t p.log).countP (fun e => StoreOp.isRead e.op) ≤ 3 ∧
        (ownTrace t p.log).countP (fun e => StoreOp.isConditionalPut e.op) ≤ 3) := by
  refine ⟨ends_replaceFact s now hfile hold hnew, ends_replaceFact_refused s now hfile.path,
    card_occurrences_eq_one, fun content old fuel => countLoop_all content old, ?_⟩
  intro lossy w p t th path hrun ht hcall
  have hbody : th.call.body = (do
      let file ← th.call.store.replaceFact path oldString newString expected source aliases description
      return some file : Store (Option MemoryFile)) >>= fun file => return .file file := by
    rw [Invocation.body, hcall]
    rfl
  obtain ⟨hread, hput⟩ := replaceFact_steps th.call.store oldString newString expected source aliases
    description path
  have hlift : ∀ {P : StoreOp → Prop} [DecidablePred P], (th.call.store.replaceFact path oldString
      newString expected source aliases description).AtMost P 3 → th.call.body.AtMost P 3 :=
    fun {P _} h => by
      have hsome : ∀ file, (Prog.ret (some file) : Store (Option MemoryFile)).AtMost P 0 :=
        fun _ => trivial
      have hfile : ∀ file, (Prog.ret (.file file) : Store StoreResult).AtMost P 0 := fun _ => trivial
      rw [hbody]
      exact (h.bind hsome).bind hfile
  have hreads := hrun.countP_le ht (hlift hread)
  have hputs := hrun.countP_le ht (hlift hput)
  simp only [Bool.decide_eq_true] at hreads hputs
  exact ⟨hreads, hputs⟩

end

/-- A reading of a clock without a time zone. -/
def naiveNoon : DateTime := ⟨2026, 1, 2, 12, 0, 0, 0, none, by decide⟩

/-- The one file of a storage, with any text. -/
theorem fileAt_single {data : Bytes} {content : Str} (hdata : decodeUtf8 data = .ok content) :
    let _ := Interpreter.ascii
    ∃ metadata, FileAt (.single (str "user/u1/notes/n.md") data)
      ⟨str "user/u1/notes/n.md", content, metadata, str "1"⟩ := by
  intro _
  have hpath : isValidPath (str "user/u1/notes/n.md") = true := by decide +kernel
  have htoken : InMemoryStorage.empty.token = str "1" := by decide
  have hmetadata : (metadataFromMap (metadataMap [] (str "[]") (str "[]")
      (str "2026-01-01T00:00:00Z"))).toOption.isSome = true := by decide +kernel
  obtain ⟨metadata, hread⟩ := Option.isSome_iff_exists.mp hmetadata
  refine ⟨metadata, hpath, ⟨data, _, str "1"⟩, ?_, rfl, hdata, eq_ok_of_toOption hread⟩
  rw [InMemoryStorage.single, InMemoryStorage.get_putLocked, if_pos rfl, htoken]
  rfl

/-- With a clock that has no time zone the only occurrence is not replaced: the call raises. -/
theorem replaceFact_naive : let _ := Interpreter.ascii
    ∃ (st : InMemoryStorage) (file : MemoryFile), FileAt st file ∧
      (occurrences file.content (str "a")).card = 1 ∧
      (utf8EncodePass (str "b")).length ≤ MemoryStore.default.maxFileBytes ∧
      (MemoryStore.default.replaceFact file.path (str "a") (str "b") file.version (str "s") none
        none).run (answerAt naiveNoon) st =
        (some (.error (.valueError (str "last_updated must be timezone-aware"))), st) := by
  intro _
  obtain ⟨metadata, hfile⟩ := fileAt_single (show decodeUtf8 [97] = .ok (str "a") by decide +kernel)
  have hone : (occurrences (str "a") (str "a")).card = 1 := by decide +kernel
  have hrun : (MemoryStore.default.replaceFact (str "user/u1/notes/n.md") (str "a") (str "b") (str "1")
      (str "s") none none).run (answerAt naiveNoon) (.single (str "user/u1/notes/n.md") [97]) =
      (some (.error (.valueError (str "last_updated must be timezone-aware"))),
        .single (str "user/u1/notes/n.md") [97]) := by
    decide +kernel
  have hsize : (utf8EncodePass (str "b")).length = 1 := by decide +kernel
  exact ⟨_, _, hfile, hone, hsize ▸ MemoryStore.default.maxFileBytes_pos, hrun⟩

/-- Inside a text the only occurrence is replaced, at a stale token as well, and two that overlap are reported. -/
theorem replaceFact_inside : let _ := Interpreter.ascii
    let st : InMemoryStorage := .single (str "user/u1/notes/n.md") (utf8EncodePass (str "yaaaz"))
    (MemoryStore.default.replaceFact (str "user/u1/notes/n.md") (str "aaa") (str "b") (str "7") (str "s")
      none none).Ends (handlesAlone noon) (fun r st' => ∃ stamped map,
        st' = st.putLocked (str "user/u1/notes/n.md") (utf8EncodePass (str "ybz")) map ∧
        r = .ok ⟨str "user/u1/notes/n.md", str "ybz", stamped, st.token⟩) st ∧
    (MemoryStore.default.replaceFact (str "user/u1/notes/n.md") (str "aa") (str "b") (str "1") (str "s")
      none none).Ends (handlesAlone noon) (fun r st' => st' = st ∧
        r = .error (.replaceFactMatchError (str "user/u1/notes/n.md") (str "yaaaz") (str "1") 2)) st := by
  intro _ st
  obtain ⟨metadata, hfile⟩ :=
    fileAt_single (show decodeUtf8 (utf8EncodePass (str "yaaaz")) = .ok (str "yaaaz") by decide +kernel)
  have hnew : Scalar (str "b") := scalar_str _
  have haccepted : Accepted (str "s") none := ⟨List.cons_ne_nil _ _, fun d hd => nomatch hd⟩
  have hthree : str "aaa" ≠ [] := by decide +kernel
  have htwo : str "aa" ≠ [] := by decide +kernel
  have hone : (occurrences (str "yaaaz") (str "aaa")).card = 1 := by decide +kernel
  have hsplit : str "yaaaz" = str "y" ++ str "aaa" ++ str "z" := by decide +kernel
  have hcount : (occurrences (str "yaaaz") (str "aa")).card = 2 := by decide +kernel
  have hsize : (utf8EncodePass (str "y" ++ str "b" ++ str "z")).length ≤ MemoryStore.default.maxFileBytes := by
    decide +kernel
  have hresult : str "y" ++ str "b" ++ str "z" = str "ybz" := by decide +kernel
  constructor
  · refine ((replaceFact_spec .default noon hfile hthree hnew).1 haccepted).mono fun r st' h => ?_
    obtain ⟨stamped, map, -, -, -, -, -, hst, hr⟩ := h.edited _ _ hsplit hone hsize ⟨noon_aware, by decide⟩
    rw [hresult] at hst hr
    exact ⟨stamped, map, hst, hr⟩
  · refine ((replaceFact_spec .default noon hfile htwo hnew).1 haccepted).mono fun r st' h => ?_
    have hmismatch := h.mismatch (by rw [hcount]; decide) rfl
    rw [hcount] at hmismatch
    exact hmismatch

end Wenchang
