import Wenchang.Laws.Atomic
import Wenchang.Laws.CapCount
import Wenchang.Laws.FileCap
import Wenchang.Laws.Replace

/-!
# Creates alone

`write_file` without a version never overwrites. On a stored object the two ways it can go, the check at
the cap and the failed conditional create below it, end alike (`ends_create_present`): the object decides
which exception is raised, not the cap. On an absent path the cap decides (`ends_create_absent`).
-/

namespace Wenchang

open Py Ordered Interaction

/-! ## What decides -/

/-- The file that a create puts. -/
structure CreatedFile (metadata : FileMetadata) (source : Str) (now : DateTime) (stamped : FileMetadata) :
    Prop where
  description : stamped.description = metadata.description
  aliases : stamped.aliases = metadata.aliases
  sources : stamped.sources = metadata.sources.insert source
  lastUpdated : stamped.lastUpdated = now

/-- Stamping succeeds at a reading that a file can be stamped with. -/
theorem exists_stamped (metadata : FileMetadata) (source : Str) {now : DateTime} (hnow : Stampable now) :
    ∃ stamped map, replaceMetadata metadata.description metadata.aliases (metadata.sources.insert source) now =
      .ok stamped ∧ metadataToMap stamped = .ok map ∧ CreatedFile metadata source now stamped := by
  let stamped : FileMetadata := ⟨metadata.description, metadata.aliases, metadata.sources.insert source, now,
    metadata.one_line, hnow.1⟩
  have hmake : replaceMetadata metadata.description metadata.aliases (metadata.sources.insert source) now =
      .ok stamped := by
    simp [replaceMetadata, FileMetadata.make, metadata.one_line, hnow.1, Except.mapError, stamped]
  have hutc : stamped.lastUpdated.astimezoneUTC.isSome = true := hnow.2
  obtain ⟨map, hmap⟩ := exists_metadataToMap hutc
  exact ⟨stamped, map, hmake, hmap, ⟨rfl, rfl, rfl, rfl⟩⟩

section

variable [Interpreter]

/-- The exception with which `write_file` refuses a call before it looks at storage. -/
def MemoryStore.refusal (s : MemoryStore) (path content source : Str) : Option Exc :=
  if isValidPath path = false then some (.notFoundError path .invalidPath)
  else if source = [] then some (.valueError (str "source must be non-empty"))
  else
    match encodeUtf8 content with
    | .error e => some e
    | .ok data =>
      if s.maxFileBytes < data.length then some (.oversizeWriteError path data.length s.maxFileBytes)
      else none

/-- The exception that a stored object makes of a create at its path: the body is decoded first, then the
metadata. -/
inductive ConflictsWith (path : Str) (obj : StoredObject) : Exc → Prop
  | undecodable {e : UnicodeDecodeError} (body : utf8Decode obj.data = .error e) :
    ConflictsWith path obj (.unicodeDecodeError e)
  | corrupt {content : Str} {e : Exc} (body : utf8Decode obj.data = .ok content)
      (metadata : metadataFromMap obj.metadata = .error e) : ConflictsWith path obj e
  | conflict {content : Str} {stored : FileMetadata} (body : utf8Decode obj.data = .ok content)
      (metadata : metadataFromMap obj.metadata = .ok stored) :
    ConflictsWith path obj (.versionConflictError path content obj.version)

/-- The entity of a path is at its cap. -/
def AtCap (s : MemoryStore) (st : InMemoryStorage) (parts : PathParts) (limit : Nat) : Prop :=
  s.maxFilesPerEntity = some limit ∧ parts.area ≠ indexSystemArea ∧
    limit ≤ (entityFiles parts.scope parts.entityId st).card

variable {path : Str} {obj : StoredObject}

/-- What is raised after a read conflicts with what was read. -/
theorem conflictsWith_of_conflictAfterRead (path : Str) (obj : StoredObject) : ∃ e, ConflictsWith path obj e ∧
    (MemoryStore.conflictAfterRead path obj = .ok e ∨ MemoryStore.conflictAfterRead path obj = .error e) := by
  unfold MemoryStore.conflictAfterRead decodeUtf8
  cases hbody : utf8Decode obj.data with
  | error e => exact ⟨_, .undecodable hbody, .inr rfl⟩
  | ok content =>
    cases hmetadata : metadataFromMap obj.metadata with
    | error e => exact ⟨e, .corrupt hbody hmetadata, .inr (by simp [Except.mapError]; rfl)⟩
    | ok stored => exact ⟨_, .conflict hbody hmetadata, .inl (by simp [Except.mapError]; rfl)⟩

/-- One object, one exception. -/
theorem ConflictsWith.unique {e e' : Exc} (h : ConflictsWith path obj e) (h' : ConflictsWith path obj e') :
    e = e' := by
  cases h <;> cases h' <;> simp_all

/-- As far as the lists of the metadata can be read, the exception is one of three. -/
theorem ConflictsWith.declared {e : Exc} (h : ConflictsWith path obj e) (hlists : ListsReadable obj.metadata) :
    (∃ error, e = .unicodeDecodeError error) ∨ (∃ key detail, e = .metadataFormatError key detail) ∨
      ∃ content, utf8Decode obj.data = .ok content ∧ e = .versionConflictError path content obj.version := by
  cases h with
  | undecodable hbody => exact .inl ⟨_, rfl⟩
  | corrupt hbody hmetadata =>
    obtain ⟨key, -, detail, rfl⟩ := hlists.declared e hmetadata
    exact .inr (.inl ⟨key, detail, rfl⟩)
  | conflict hbody hmetadata => exact .inr (.inr ⟨_, hbody, rfl⟩)

/-! ## The cap check alone -/

/-- The files that `_at_file_cap` counts under the prefix of an entity are its files. -/
theorem capFiles_entity {scope entityId : Str} (hs : isValidSegment scope = true)
    (he : isValidSegment entityId = true) (st : InMemoryStorage) :
    capFiles (entityPrefix scope entityId) st = entityFiles scope entityId st := by
  ext key
  rw [mem_capFiles, mem_entityFiles, isEntityFile_iff]
  refine and_congr_right fun _ => ?_
  constructor
  · rintro ⟨hunder, parts, hparse, harea⟩
    obtain ⟨hvalid, rfl⟩ := parsePath_eq_ok.mp hparse
    have hsegments : ∀ s ∈ [scope, entityId], isValidSegment s = true := by simp [hs, he]
    rw [List.isPrefixOf_iff_prefix, entityPrefix, hvalid.prefix_iff hsegments] at hunder
    simp only [List.cons_prefix_cons, List.nil_prefix, and_true] at hunder
    exact ⟨parts, hparse, hunder.1.symm, hunder.2.symm, harea⟩
  · rintro ⟨parts, hparse, hscope, hentity, harea⟩
    have hcounts : isEntityFile scope entityId key = true :=
      isEntityFile_iff.mpr ⟨parts, hparse, hscope, hentity, harea⟩
    exact ⟨(counts_of_isEntityFile hcounts).1, parts, hparse, harea⟩

section

variable {now : DateTime} {α : Type} {st : InMemoryStorage} {Q : Except Exc α → InMemoryStorage → Prop}
  (s : MemoryStore)

/-- Alone, `_at_file_cap` answers whether the limit is reached. -/
theorem ends_atFileCap {pre : Str} {limit fuel : Nat} (hfuel : (st.listing pre none).length < fuel)
    {f : Bool → Store α}
    (h : (f (decide (limit ≤ (capFiles pre st).card))).Ends (handlesAlone now) Q st) :
    (s.atFileCap fuel pre limit >>= f).Ends (handlesAlone now) Q st := by
  have hcounting := ends_capLoop_counting (counting_start s st pre limit) hfuel
  have hissues : (s.capLoop pre limit fuel 0 none).Issues
      (fun o : StoreOp => ∃ after size, o = .storage (.listPage pre after size)) :=
    issues_capLoop s (fun after size => ⟨after, size, rfl⟩) limit fuel 0 none
  have hstep : ∀ (v : Watched) (w : InMemoryStorage) (o : StoreOp) (a : o.Ans) (w' : InMemoryStorage),
      (∃ after size, o = .storage (.listPage pre after size)) → v.storage = st ∧ w = st →
      handlesAlone now w o a w' → ∃ v', handlesQuiescent pre v o a v' ∧ v'.storage = st ∧ w' = st := by
    rintro v w o a w' ⟨after, size, rfl⟩ ⟨hv, rfl⟩ hh
    obtain ⟨rfl, rfl⟩ : a = .ok (w.listPage pre after size) ∧ w' = w := Prod.mk.inj hh
    refine ⟨⟨w', v.pages ++ [w'.listPage pre after size]⟩, ⟨?_, ?_, ?_⟩, rfl, rfl⟩
    · rw [hv]
    · rw [hv]
    · rw [hv]
      exact Quiescent.refl pre w'
  refine (Prog.ends_bind _ _ _ _).mpr ((hcounting.sim hstep hissues ⟨rfl, rfl⟩).mono ?_)
  rintro r w ⟨v, ⟨-, rfl⟩, hdecided⟩
  rw [hdecided.answer]
  exact h

/-- The limit that a create runs into, if it does. -/
theorem ends_createCap {fuel : Nat} {parts : PathParts} (hparse : parsePath path = .ok parts)
    (hfuel : st.objects.entries.length < fuel) {f : Option Nat → Store α}
    (hcap : ∀ limit, AtCap s st parts limit → (f (some limit)).Ends (handlesAlone now) Q st)
    (hfree : (∀ limit, ¬ AtCap s st parts limit) → (f none).Ends (handlesAlone now) Q st) :
    (s.createCap fuel path >>= f).Ends (handlesAlone now) Q st := by
  have hvalid := (parsePath_eq_ok.mp hparse).1
  unfold MemoryStore.createCap
  simp only [hparse, orValueError, Except.mapError, Prog.ofExcept_ok, Prog.ret_bind,
    buildPrefix_entity hvalid.scope hvalid.entityId]
  cases hlimit : s.maxFilesPerEntity with
  | none =>
    refine hfree fun limit hat => ?_
    cases hlimit.symm.trans hat.1
  | some limit =>
    dsimp only
    split
    next harea => exact hfree fun limit hat => hat.2.1 harea
    next harea =>
      have hkeys : st.objects.keys.length = st.objects.entries.length := List.length_map _
      have hlength := hkeys ▸ length_listing_le st (joinSegments [parts.scope, parts.entityId]) none
      rw [bind_assoc]
      refine ends_atFileCap s (Nat.lt_of_le_of_lt hlength hfuel) ?_
      have hfiles := capFiles_entity hvalid.scope hvalid.entityId st
      rw [entityPrefix] at hfiles
      rw [hfiles]
      by_cases hfull : limit ≤ (entityFiles parts.scope parts.entityId st).card
      · rw [decide_eq_true hfull]
        exact hcap limit ⟨hlimit, harea, hfull⟩
      · rw [decide_eq_false hfull]
        refine hfree fun limit' hat => ?_
        obtain rfl := Option.some.inj (hlimit.symm.trans hat.1)
        exact hfull hat.2.2

/-- Both reports of a stored object raise what it makes of a create. -/
theorem raiseResult_conflict {e : Exc} (h : ConflictsWith path obj e) :
    (MemoryStore.raiseResult (MemoryStore.conflictAfterRead path obj) : Store α) = .raise e := by
  obtain ⟨e', hconflict, hresult⟩ := conflictsWith_of_conflictAfterRead path obj
  obtain rfl := h.unique hconflict
  rcases hresult with hresult | hresult
  · rw [hresult]
    rfl
  · rw [hresult]
    rfl

/-- A call that is not refused goes on with its content encoded. -/
theorem ends_writeFile {fuel : Nat} {content source : Str} {metadata : FileMetadata}
    {Q : Except Exc MemoryFile → InMemoryStorage → Prop}
    (hrefused : ∀ e, s.refusal path content source = some e → Q (.error e) st)
    (h : ∀ data, s.refusal path content source = none → isValidPath path = true →
      encodeUtf8 content = .ok data →
      (s.writeSources fuel path metadata none source >>= fun sources =>
        s.commitWrite path content data metadata none sources).Ends (handlesAlone now) Q st) :
    (s.writeFile fuel path content metadata none source).Ends (handlesAlone now) Q st := by
  unfold MemoryStore.writeFile
  unfold MemoryStore.refusal at hrefused h
  refine Prog.ends_raiseIf_bind (fun hpath => hrefused _ (if_pos hpath)) fun hpath => ?_
  rw [if_neg hpath] at hrefused h
  refine Prog.ends_raiseIf_bind (fun hsource => hrefused _ (if_pos hsource)) fun hsource => ?_
  rw [if_neg hsource] at hrefused h
  refine Prog.ends_ofExcept_bind (fun e hdata => ?_) fun data hdata => ?_
  · rw [hdata] at hrefused
    exact hrefused _ rfl
  · rw [hdata] at hrefused h
    refine Prog.ends_raiseIf_bind (fun hsize => hrefused _ (if_pos hsize)) fun hsize => ?_
    exact h data (if_neg hsize) (Bool.not_eq_false _ ▸ hpath) rfl

/-! ## A create -/

variable {fuel : Nat} {content source : Str} {metadata : FileMetadata}

/-- **On a stored object** a create raises what the object makes of it, at the cap and below it, and
storage stays as it is. -/
theorem ends_create_present {e : Exc} (hobj : st.get path = some obj) (hconflict : ConflictsWith path obj e)
    (hnow : Stampable now) (hfuel : st.objects.entries.length < fuel) :
    (s.writeFile fuel path content metadata none source).Ends (handlesAlone now)
      (fun r st' => st' = st ∧ r = .error ((s.refusal path content source).getD e)) st := by
  refine ends_writeFile s (fun e' hrefused => ⟨rfl, by rw [hrefused]; rfl⟩) fun data hpasses hpath _ => ?_
  rw [hpasses]
  obtain ⟨parts, hvalid, hparts⟩ := exists_parts hpath
  have hparse : parsePath path = .ok parts := parsePath_eq_ok.mpr ⟨hvalid, hparts⟩
  unfold MemoryStore.writeSources
  dsimp only
  rw [bind_assoc]
  refine ends_createCap s hparse hfuel (fun limit _ => ?_) fun _ => ?_
  · -- At the cap the object is read before anything is put.
    rw [bind_assoc]
    refine ends_storageGet ?_
    rw [hobj]
    dsimp only
    rw [raiseResult_conflict hconflict]
    exact ⟨rfl, rfl⟩
  · obtain ⟨stamped, map, hstamped, hmap, -⟩ := exists_stamped metadata source hnow
    unfold MemoryStore.commitWrite
    refine ends_clock ?_
    rw [hstamped]
    show Prog.Ends _ _ (Prog.ofExcept (metadataToMap stamped) >>= _) _
    rw [hmap]
    refine ends_putIfVersion s hpath (fun hversion => ?_) fun _ => ?_
    · rw [InMemoryStorage.version, hobj] at hversion
      cases hversion
    · refine ends_storageGet ?_
      rw [hobj]
      dsimp only
      rw [raiseResult_conflict hconflict]
      exact ⟨rfl, rfl⟩

/-- How a create at an absent path ends. -/
structure CreatesAbsent (s : MemoryStore) (now : DateTime) (st : InMemoryStorage) (path : Str)
    (parts : PathParts) (content : Str) (metadata : FileMetadata) (source : Str) (r : Except Exc MemoryFile)
    (st' : InMemoryStorage) : Prop where
  refused : ∀ e, s.refusal path content source = some e → st' = st ∧ r = .error e
  full : s.refusal path content source = none → ∀ limit, AtCap s st parts limit →
    st' = st ∧ r = .error (.fileQuotaExceededError path limit)
  created : s.refusal path content source = none → (∀ limit, ¬ AtCap s st parts limit) →
    ∃ data stamped map, encodeUtf8 content = .ok data ∧ metadataToMap stamped = .ok map ∧
      CreatedFile metadata source now stamped ∧ r = .ok ⟨path, content, stamped, st.token⟩ ∧
      st' = st.putLocked path data map

/-- **On an absent path** the cap decides: the quota error, or the file. -/
theorem ends_create_absent {parts : PathParts} (hnone : st.get path = none)
    (hparse : parsePath path = .ok parts) (hnow : Stampable now)
    (hfuel : st.objects.entries.length < fuel) :
    (s.writeFile fuel path content metadata none source).Ends (handlesAlone now)
      (CreatesAbsent s now st path parts content metadata source) st := by
  refine ends_writeFile s (fun e hrefused => ?_) fun data hpasses hpath hdata => ?_
  · refine ⟨fun e' he' => ⟨rfl, ?_⟩, fun hpasses => ?_, fun hpasses => ?_⟩
    · rw [Option.some.inj (hrefused.symm.trans he')]
    · cases hrefused.symm.trans hpasses
    · cases hrefused.symm.trans hpasses
  have hunrefused : ∀ (r : Except Exc MemoryFile) (st' : InMemoryStorage) (e : Exc),
      s.refusal path content source = some e → st' = st ∧ r = .error e := fun _ _ _ he => by
    cases hpasses.symm.trans he
  unfold MemoryStore.writeSources
  dsimp only
  rw [bind_assoc]
  refine ends_createCap s hparse hfuel (fun limit hat => ?_) fun hfree => ?_
  · rw [bind_assoc]
    refine ends_storageGet ?_
    rw [hnone]
    refine ⟨hunrefused _ _, fun _ limit' hat' => ⟨rfl, ?_⟩, fun _ hfree => absurd hat (hfree limit)⟩
    rw [Option.some.inj (hat.1.symm.trans hat'.1)]
  · obtain ⟨stamped, map, hstamped, hmap, hcreated⟩ := exists_stamped metadata source hnow
    unfold MemoryStore.commitWrite
    refine ends_clock ?_
    rw [hstamped]
    show Prog.Ends _ _ (Prog.ofExcept (metadataToMap stamped) >>= _) _
    rw [hmap]
    refine ends_putIfVersion s hpath (fun _ => ?_) fun hversion => ?_
    · refine ⟨hunrefused _ _, fun _ limit hat => absurd hat (hfree limit), fun _ _ => ?_⟩
      exact ⟨data, stamped, map, hdata, hmap, hcreated, rfl, rfl⟩
    · rw [InMemoryStorage.version, hnone] at hversion
      exact absurd rfl hversion

/-- **A create never overwrites, and the cap decides only about absent paths.** What a stored object makes
of a create is one exception for all stores, caps, contents and clocks; a call that its own checks refuse
raises that refusal instead. -/
theorem write_create_alone :
    (∀ path obj, ∃ e, ConflictsWith path obj e ∧
      (ListsReadable obj.metadata → (∃ error, e = .unicodeDecodeError error) ∨
        (∃ key detail, e = .metadataFormatError key detail) ∨
        ∃ content, utf8Decode obj.data = .ok content ∧ e = .versionConflictError path content obj.version) ∧
      ∀ (s : MemoryStore) (st : InMemoryStorage) (now : DateTime) (fuel : Nat) (content source : Str)
        (metadata : FileMetadata), st.get path = some obj → Stampable now → st.objects.entries.length < fuel →
        (s.writeFile fuel path content metadata none source).Ends (handlesAlone now)
          (fun r st' => st' = st ∧ r = .error ((s.refusal path content source).getD e)) st) ∧
    ∀ (s : MemoryStore) (st : InMemoryStorage) (now : DateTime) (fuel : Nat) (path : Str) (parts : PathParts)
      (content source : Str) (metadata : FileMetadata), st.get path = none → parsePath path = .ok parts →
      Stampable now → st.objects.entries.length < fuel →
      (s.writeFile fuel path content metadata none source).Ends (handlesAlone now)
        (CreatesAbsent s now st path parts content metadata source) st := by
  refine ⟨fun path obj => ?_, ?_⟩
  · obtain ⟨e, hconflict, -⟩ := conflictsWith_of_conflictAfterRead path obj
    refine ⟨e, hconflict, hconflict.declared, ?_⟩
    intro s st now fuel content source metadata hobj hnow hfuel
    exact ends_create_present s hobj hconflict hnow hfuel
  · intro s st now fuel path parts content source metadata hnone hparse hnow hfuel
    exact ends_create_absent s hnone hparse hnow hfuel

end

end

/-- A store whose entities hold one file. -/
def cappedAtOne : MemoryStore :=
  { MemoryStore.default with maxFilesPerEntity := some 1, maxFilesPerEntity_pos := by simp }

/-- Metadata with nothing in it. -/
def noMetadata : FileMetadata := ⟨[], [], .empty, noon, one_line_nil, noon_aware⟩

/-- At a cap of one, an entity's only file conflicts, and a second one is over the cap. -/
theorem write_create_alone_full : let _ := Interpreter.ascii
    (cappedAtOne.writeFile 2 (str "user/u1/notes/n.md") (str "b") noMetadata none (str "s")).Ends
        (handlesAlone noon) (fun r st' => st' = .single (str "user/u1/notes/n.md") [97] ∧
          r = .error (.versionConflictError (str "user/u1/notes/n.md") (str "a") (str "1")))
        (.single (str "user/u1/notes/n.md") [97]) ∧
      (cappedAtOne.writeFile 2 (str "user/u1/notes/o.md") (str "b") noMetadata none (str "s")).Ends
        (handlesAlone noon) (fun r st' => st' = .single (str "user/u1/notes/n.md") [97] ∧
          r = .error (.fileQuotaExceededError (str "user/u1/notes/o.md") 1))
        (.single (str "user/u1/notes/n.md") [97]) := by
  intro _
  obtain ⟨metadata, -, obj, hobj, hversion, hdata, hmetadata⟩ :=
    fileAt_single (show decodeUtf8 [97] = .ok (str "a") by decide +kernel)
  have hnow : Stampable noon := ⟨noon_aware, by decide⟩
  have hfuel : (InMemoryStorage.single (str "user/u1/notes/n.md") [97]).objects.entries.length < 2 := by decide
  have haccepted : ∀ path, isValidPath path = true →
      cappedAtOne.refusal path (str "b") (str "s") = none := fun path hpath => by
    have hencoded : encodeUtf8 (str "b") = .ok [98] := by decide
    have hsize : ¬ cappedAtOne.maxFileBytes < [(98 : Byte)].length := by decide
    rw [MemoryStore.refusal, if_neg (by simp [hpath]), if_neg (by decide), hencoded]
    exact if_neg hsize
  constructor
  · obtain ⟨e, hconflict, -, hends⟩ := write_create_alone.1 (str "user/u1/notes/n.md") obj
    have hpresent := hends cappedAtOne _ noon 2 (str "b") (str "s") noMetadata hobj hnow hfuel
    have hdirect : ConflictsWith (str "user/u1/notes/n.md") obj
        (.versionConflictError (str "user/u1/notes/n.md") (str "a") obj.version) :=
      .conflict (decodeUtf8_eq_ok.mp hdata) hmetadata
    rw [hconflict.unique hdirect, haccepted _ (by decide +kernel), hversion] at hpresent
    exact hpresent
  · have hparse : parsePath (str "user/u1/notes/o.md") =
        .ok ⟨str "user", str "u1", str "notes", str "o"⟩ := by decide +kernel
    have habsent := write_create_alone.2 cappedAtOne (.single (str "user/u1/notes/n.md") [97]) noon 2
      (str "user/u1/notes/o.md") _ (str "b") (str "s") noMetadata (by decide +kernel) hparse hnow hfuel
    refine habsent.mono fun r st' h => h.full (haccepted _ (by decide +kernel)) 1 ⟨rfl, by decide, ?_⟩
    decide +kernel

/-- A content that is too large is refused as that, although there is an object. -/
theorem write_create_oversize : let _ := Interpreter.ascii
    let s : MemoryStore := { MemoryStore.default with maxFileBytes := 1, maxFileBytes_pos := by decide }
    ∃ e, (s.writeFile 2 (str "user/u1/notes/n.md") (str "ab") noMetadata none (str "s")).run (answerAt noon)
        (.single (str "user/u1/notes/n.md") [97]) =
        (some (.error e), .single (str "user/u1/notes/n.md") [97]) ∧
      (∀ error, e ≠ .unicodeDecodeError error) ∧ (∀ key detail, e ≠ .metadataFormatError key detail) ∧
      ∀ path content version, e ≠ .versionConflictError path content version := by
  intro _ s
  exact ⟨.oversizeWriteError (str "user/u1/notes/n.md") 2 1, rfl, by simp, by simp, by simp⟩

end Wenchang
