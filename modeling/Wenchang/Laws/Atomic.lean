import Wenchang.Laws.Cacheless
import Wenchang.Laws.Edits
import Wenchang.Laws.Paging

/-!
# Mutators alone

A mutator that runs alone either raises and leaves storage as it is, or changes one key, its path, to
exactly the file it returns. `Mutator.Ran` says which file: what the mutator computes from the object
that is stored under its path. The cache is an adversary throughout.
-/

namespace Wenchang

open Py Ordered Interaction

/-! ## Rules for one operation -/

section

variable {now : DateTime} {α : Type} {st : InMemoryStorage} {Q : Except Exc α → InMemoryStorage → Prop}

/-- A get, then the rest, in a world that stands still. -/
theorem ends_storageGet {key : Str} {f : Option StoredObject → Store α}
    (h : (f (st.get key)).Ends (handlesAlone now) Q st) :
    (storageGet key >>= f).Ends (handlesAlone now) Q st := by
  intro a st' hh
  have hanswer : (a, st') = (.ok (st.get key), st) := hh
  obtain ⟨rfl, rfl⟩ := Prod.mk.inj hanswer
  exact h

/-- A look at the clock, then the rest. -/
theorem ends_clock {f : DateTime → Store α} (h : (f now).Ends (handlesAlone now) Q st) :
    (ask .clock >>= f).Ends (handlesAlone now) Q st := by
  intro a st' hh
  have hanswer : a = now ∧ st' = st := hh
  obtain ⟨rfl, rfl⟩ := hanswer
  exact h

/-- A page, then the rest. -/
theorem ends_storageListPage {pre : Str} {startAfter : Option Str} {limit : Nat}
    {f : List ListedObject → Store α}
    (h : (f (st.listPage pre startAfter limit)).Ends (handlesAlone now) Q st) :
    (storageListPage pre startAfter limit >>= f).Ends (handlesAlone now) Q st := by
  intro a st' hh
  have hanswer : (a, st') = (.ok (st.listPage pre startAfter limit), st) := hh
  obtain ⟨rfl, rfl⟩ := Prod.mk.inj hanswer
  exact h

/-- A set of the cache, then the rest. -/
theorem ends_cacheSet {key value : Str} {f : Unit → Store α}
    (h : (f ()).Ends (handlesAlone now) Q st) :
    (cacheSet key value >>= f).Ends (handlesAlone now) Q st := by
  intro a st' hh
  have hsame : st' = st := hh
  subst hsame
  exact h

variable [Interpreter] (s : MemoryStore)

/-- An invalidation, then the rest. -/
theorem ends_invalidatePath {path : Str} (hpath : isValidPath path = true) (tombstone : Bool)
    {f : Unit → Store α} (h : (f ()).Ends (handlesAlone now) Q st) :
    (s.invalidatePath path tombstone >>= f).Ends (handlesAlone now) Q st := by
  unfold MemoryStore.invalidatePath
  cases s.indexCache with
  | none => exact h
  | some cache =>
    obtain ⟨p, hp, rfl⟩ := exists_parts hpath
    simp only [orValueError, parsePath_path hp, Except.mapError, Prog.ofExcept_ok, Prog.ret_bind,
      bind_assoc]
    intro token st' hh
    have hsame : st' = st := hh
    subst hsame
    refine ends_cacheSet ?_
    cases tombstone with
    | false => exact h
    | true => exact ends_cacheSet h

/-- A conditional put and its invalidation, as `try` sees it. -/
theorem ends_putIfVersion {path : Str} (hpath : isValidPath path = true) {data : Bytes}
    {map : Metadata} {expected : Option Str} {f : Except Exc Str → Store α}
    (hok : st.version path = expected →
      (f (.ok st.token)).Ends (handlesAlone now) Q (st.putLocked path data map))
    (hfail : st.version path ≠ expected →
      (f (.error (.preconditionFailedError path))).Ends (handlesAlone now) Q st) :
    (Prog.attempt (s.putIfVersion path data map expected) >>= f).Ends (handlesAlone now) Q st := by
  refine (Prog.ends_bind _ _ _ _).mpr ((Prog.ends_attempt _ _ _).mpr ?_)
  intro a st' hh
  have hanswer : (a, st') = st.putIfVersion path data map expected := hh
  refine ends_invalidatePath s hpath false ((Prog.ends_ofExcept _ _).mpr ?_)
  rcases st.putIfVersion_cases path data map expected with ⟨hv, hres⟩ | ⟨hv, hres⟩
  · obtain ⟨rfl, rfl⟩ := Prod.mk.inj (hanswer.trans hres)
    exact hok hv
  · obtain ⟨rfl, rfl⟩ := Prod.mk.inj (hanswer.trans hres)
    exact hfail hv

/-- A conditional delete that lands or is refused, then the rest. -/
theorem ends_deleteIfVersion {path expected : Str} (hpath : isValidPath path = true)
    {f : Except Exc Unit → Store α}
    (hok : st.version path = some expected →
      (f (.ok ())).Ends (handlesAlone now) Q (st.remove path))
    (hfail : st.version path ≠ some expected →
      (f (.error (.preconditionFailedError path))).Ends (handlesAlone now) Q st) :
    (Prog.attempt (s.deleteIfVersion path expected) >>= f).Ends (handlesAlone now) Q st := by
  refine (Prog.ends_bind _ _ _ _).mpr ((Prog.ends_attempt _ _ _).mpr ?_)
  intro a st' hh
  have hanswer : (a, st') = st.deleteIfVersion path expected := hh
  refine ends_invalidatePath s hpath true ((Prog.ends_ofExcept _ _).mpr ?_)
  rcases st.deleteIfVersion_cases path expected with ⟨hv, hres⟩ | ⟨hv, hres⟩
  · obtain ⟨rfl, rfl⟩ := Prod.mk.inj (hanswer.trans hres)
    exact hok hv
  · obtain ⟨rfl, rfl⟩ := Prod.mk.inj (hanswer.trans hres)
    exact hfail hv

/-! ## The cap check -/

/-- The cap check ends: every further page starts behind the last one. -/
theorem ends_capLoop {pre : Str} {limit fuel count : Nat} {startAfter : Option Str}
    (hfuel : (st.listing pre startAfter).length < fuel) {f : Bool → Store α}
    (h : ∀ full, (f full).Ends (handlesAlone now) Q st) :
    (s.capLoop pre limit fuel count startAfter >>= f).Ends (handlesAlone now) Q st := by
  induction fuel generalizing count startAfter with
  | zero => exact absurd hfuel (Nat.not_lt_zero _)
  | succ fuel ih =>
    unfold MemoryStore.capLoop
    split
    · exact h _
    · rw [bind_assoc]
      refine ends_storageListPage ?_
      dsimp only
      split
      · exact h _
      next hfull =>
        have hpos : 0 < max (limit - count) s.listPageSize :=
          Nat.lt_of_lt_of_le s.listPageSize_pos (Nat.le_max_right _ _)
        cases hlast : (st.listPage pre startAfter (max (limit - count) s.listPageSize)).getLast? with
        | none =>
          rw [List.getLast?_eq_none_iff] at hlast
          rw [hlast] at hfull
          exact absurd hpos hfull
        | some last =>
          have hlt := length_listing_lt hlast
          exact ih (Nat.lt_of_lt_of_le hlt (Nat.le_of_lt_succ hfuel))

/-! ## What a mutator does alone -/

/-- How a mutator ends that runs alone, and the storage it leaves. -/
def Mutator.Ran (m : Mutator) (s : MemoryStore) (now : DateTime) (st : InMemoryStorage) :
    Except Exc (Option MemoryFile) → InMemoryStorage → Prop
  | .ok (some file), st' => isValidPath m.path = true ∧ ∃ w : Written,
      m.Edits s now w (st.get m.path) ∧ file = ⟨m.path, w.content, w.metadata, st.token⟩ ∧
      st' = st.putLocked m.path w.data w.map
  | .ok none, st' => isValidPath m.path = true ∧ (∃ expected, m = .deleteFile m.path expected) ∧
      (st.get m.path).isSome = true ∧ st' = st.remove m.path
  | .error _, st' => st' = st

/-- The sources of a write come from the object it replaces, or, for a create, from its arguments. -/
theorem ends_writeSources {fuel : Nat} {path : Str} {metadata : FileMetadata}
    {expected : Option Str} {source : Str} (hfuel : st.objects.entries.length < fuel)
    {f : FinSet Str → Store α} (herr : ∀ e, Q (.error e) st)
    (hcreate : expected = none → (f (metadata.sources.insert source)).Ends (handlesAlone now) Q st)
    (hedit : ∀ obj stored, expected = some obj.version → st.get path = some obj →
      metadataFromMap obj.metadata = .ok stored →
      (f ((stored.sources.union metadata.sources).insert source)).Ends (handlesAlone now) Q st) :
    (s.writeSources fuel path metadata expected source >>= f).Ends (handlesAlone now) Q st := by
  unfold MemoryStore.writeSources
  cases expected with
  | none =>
    have hcap : ∀ g : Option Nat → Store α, (∀ full, (g full).Ends (handlesAlone now) Q st) →
        (s.createCap fuel path >>= g).Ends (handlesAlone now) Q st := fun g hg => by
      unfold MemoryStore.createCap
      rw [bind_assoc]
      refine Prog.ends_ofExcept_bind (fun e _ => herr e) fun parts _ => ?_
      split
      · exact hg _
      · split
        · exact hg _
        · rw [bind_assoc]
          refine Prog.ends_ofExcept_bind (fun e _ => herr e) fun pre _ => ?_
          rw [bind_assoc]
          have hkeys : st.objects.keys.length = st.objects.entries.length := List.length_map _
          have hlength := hkeys ▸ length_listing_le st pre none
          exact ends_capLoop s (Nat.lt_of_le_of_lt hlength hfuel) fun full => hg _
    dsimp only
    rw [bind_assoc]
    refine hcap _ fun full => ?_
    cases full with
    | none => exact hcreate rfl
    | some limit =>
      rw [bind_assoc]
      refine ends_storageGet ?_
      cases st.get path with
      | none => exact herr _
      | some obj =>
        show Prog.Ends _ _ (MemoryStore.raiseResult (MemoryStore.conflictAfterRead path obj) >>= f) _
        cases MemoryStore.conflictAfterRead path obj <;> exact herr _
  | some expected =>
    dsimp only
    rw [bind_assoc]
    refine ends_storageGet ?_
    cases hobj : st.get path with
    | none => exact herr _
    | some obj =>
      dsimp only
      split
      · rw [bind_assoc]
        refine Prog.ends_ofExcept_bind (fun e _ => herr e) fun _ _ => ?_
        rw [bind_assoc]
        exact Prog.ends_ofExcept_bind (fun e _ => herr e) fun _ _ => herr _
      next hv =>
        rw [bind_assoc]
        refine Prog.ends_ofExcept_bind (fun e _ => herr e) fun stored hstored => ?_
        exact hedit obj stored (congrArg some (not_not.mp hv).symm) hobj hstored

/-- Storage after the put of a mutator that runs alone. -/
theorem Mutator.ran_put {m : Mutator} {w : Written} (hpath : isValidPath m.path = true)
    (hedits : m.Edits s now w (st.get m.path)) :
    m.Ran s now st (.ok (some ⟨m.path, w.content, w.metadata, st.token⟩))
      (st.putLocked m.path w.data w.map) := ⟨hpath, w, hedits, rfl, rfl⟩

/-- The put that ends a write. Nobody else writes, so what was read is what is replaced. -/
theorem ends_commitWrite {m : Mutator} {content : Str} {data : Bytes} {metadata : FileMetadata}
    {expected : Option Str} {sources : FinSet Str} (hpath : isValidPath m.path = true)
    (hdata : encodeUtf8 content = .ok data)
    (hedits : ∀ w : Written, w.content = content → w.data = data →
      replaceMetadata metadata.description metadata.aliases sources now = .ok w.metadata →
      st.version m.path = expected → m.Edits s now w (st.get m.path)) :
    (s.commitWrite m.path content data metadata expected sources).Ends (handlesAlone now)
      (fun r st' => m.Ran s now st (r.map some) st') st := by
  unfold MemoryStore.commitWrite
  refine ends_clock (Prog.ends_ofExcept_bind (fun _ _ => rfl) fun stamped hstamped => ?_)
  refine Prog.ends_ofExcept_bind (fun _ _ => rfl) fun map hmap => ?_
  obtain ⟨w, rfl, rfl, rfl, rfl⟩ := written_of hdata hmap
  refine ends_putIfVersion s hpath (fun hv => ?_) fun _ => ?_
  · exact Mutator.ran_put s hpath (hedits w rfl rfl hstamped hv)
  · refine ends_storageGet ?_
    cases st.get m.path with
    | none => exact rfl
    | some obj =>
      show Prog.Ends _ _ (MemoryStore.raiseResult (MemoryStore.conflictAfterRead m.path obj)) _
      cases MemoryStore.conflictAfterRead m.path obj <;> exact rfl

/-- A write runs as a mutator. -/
theorem ran_writeFile {m : Mutator} {fuel : Nat} {path content : Str} {metadata : FileMetadata}
    {expected : Option Str} {source : Str} (hfuel : st.objects.entries.length < fuel)
    (hm : m = .writeFile path content metadata expected source) :
    (s.writeFile fuel path content metadata expected source).Ends (handlesAlone now)
      (fun r st' => m.Ran s now st (r.map some) st') st := by
  have hpathEq : path = m.path := hm ▸ rfl
  unfold MemoryStore.writeFile
  refine Prog.ends_raiseIf_bind (fun _ => rfl) fun hpath => ?_
  refine Prog.ends_raiseIf_bind (fun _ => rfl) fun _ => ?_
  refine Prog.ends_ofExcept_bind (fun _ _ => rfl) fun data hdata => ?_
  refine Prog.ends_raiseIf_bind (fun _ => rfl) fun hsize => ?_
  rw [Bool.not_eq_false] at hpath
  rw [hpathEq] at hpath ⊢
  refine ends_writeSources s hfuel (fun _ => rfl) (fun hexp => ?_) fun obj stored hexp hobj hstored => ?_
  · refine ends_commitWrite s hpath hdata fun w hc hd hmeta hv => ?_
    have hnone : st.get m.path = none := by
      rw [hexp] at hv
      exact Option.map_eq_none_iff.mp hv
    rw [hnone]
    subst hm
    subst hexp
    exact ⟨hc, ⟨hd ▸ Nat.le_of_not_lt hsize, hmeta⟩⟩
  · refine ends_commitWrite s hpath hdata fun w hc hd hmeta _ => ?_
    rw [hobj]
    subst hm
    subst hexp
    exact ⟨rfl, hc, stored, hstored, ⟨hd ▸ Nat.le_of_not_lt hsize, hmeta⟩⟩

/-- A replacement runs as a mutator. -/
theorem ran_replaceFact {m : Mutator} {path oldString newString expected source : Str}
    {aliases : Option (List Str)} {description : Option Str}
    (hm : m = .replaceFact path oldString newString expected source aliases description) :
    (s.replaceFact path oldString newString expected source aliases description).Ends
      (handlesAlone now) (fun r st' => m.Ran s now st (r.map some) st') st := by
  have hpathEq : path = m.path := hm ▸ rfl
  unfold MemoryStore.replaceFact
  refine Prog.ends_raiseIf_bind (fun _ => rfl) fun hpath => ?_
  refine Prog.ends_raiseIf_bind (fun _ => rfl) fun _ => ?_
  refine Prog.ends_ofExcept_bind (fun _ _ => rfl) fun newDescription hdescription => ?_
  rw [Bool.not_eq_false] at hpath
  rw [hpathEq] at hpath ⊢
  -- the first attempt decides
  unfold maxReplaceAttempts MemoryStore.replaceAttempts
  refine ends_storageGet ?_
  cases hobj : st.get m.path with
  | none => exact rfl
  | some obj =>
    refine Prog.ends_ofExcept_bind (fun _ _ => rfl) fun content hcontent => ?_
    refine Prog.ends_ofExcept_bind (fun _ _ => rfl) fun stored hstored => ?_
    dsimp only
    split
    · split <;> exact rfl
    next hcount =>
      refine Prog.ends_ofExcept_bind (fun _ _ => rfl) fun data hdata => ?_
      refine Prog.ends_raiseIf_bind (fun _ => rfl) fun hsize => ?_
      refine ends_clock (Prog.ends_ofExcept_bind (fun _ _ => rfl) fun stamped hstamped => ?_)
      refine Prog.ends_ofExcept_bind (fun _ _ => rfl) fun map hmap => ?_
      obtain ⟨w, hc, rfl, rfl, rfl⟩ := written_of hdata hmap
      refine ends_putIfVersion s hpath (fun _ => ?_) fun hv => ?_
      · rw [← hc]
        refine Mutator.ran_put s hpath ?_
        rw [hobj]
        subst hm
        rw [normalizeOptional_eq_ok hdescription] at hstamped
        exact ⟨content, stored, hcontent, hstored, not_not.mp hcount, hc, Nat.le_of_not_lt hsize,
          hstamped⟩
      · exact absurd (InMemoryStorage.version_eq_some.mpr ⟨obj, hobj, rfl⟩) hv

/-- An append runs as a mutator. -/
theorem ran_appendLine {m : Mutator} {path line expected source : Str}
    {aliases : Option (List Str)} {description : Option Str}
    (hm : m = .appendLine path line expected source aliases description) :
    (s.appendLine path line expected source aliases description).Ends (handlesAlone now)
      (fun r st' => m.Ran s now st (r.map some) st') st := by
  have hpathEq : path = m.path := hm ▸ rfl
  unfold MemoryStore.appendLine
  refine Prog.ends_raiseIf_bind (fun _ => rfl) fun hpath => ?_
  refine Prog.ends_raiseIf_bind (fun _ => rfl) fun _ => ?_
  refine Prog.ends_ofExcept_bind (fun _ _ => rfl) fun newDescription hdescription => ?_
  rw [Bool.not_eq_false] at hpath
  rw [hpathEq] at hpath ⊢
  refine ends_storageGet ?_
  cases hobj : st.get m.path with
  | none => exact rfl
  | some obj =>
    refine Prog.ends_ofExcept_bind (fun _ _ => rfl) fun content hcontent => ?_
    refine Prog.ends_raiseIf_bind (fun _ => rfl) fun hversion => ?_
    refine Prog.ends_ofExcept_bind (fun _ _ => rfl) fun stored hstored => ?_
    refine Prog.ends_ofExcept_bind (fun _ _ => rfl) fun data hdata => ?_
    refine Prog.ends_raiseIf_bind (fun _ => rfl) fun hsize => ?_
    refine ends_clock (Prog.ends_ofExcept_bind (fun _ _ => rfl) fun stamped hstamped => ?_)
    refine Prog.ends_ofExcept_bind (fun _ _ => rfl) fun map hmap => ?_
    obtain ⟨w, hc, rfl, rfl, rfl⟩ := written_of hdata hmap
    rw [not_not] at hversion
    subst hversion
    refine ends_putIfVersion s hpath (fun _ => ?_) fun hv => ?_
    · rw [← hc]
      refine Mutator.ran_put s hpath ?_
      rw [hobj]
      subst hm
      rw [normalizeOptional_eq_ok hdescription] at hstamped
      exact ⟨rfl, content, stored, hcontent, hstored, hc, Nat.le_of_not_lt hsize, hstamped⟩
    · exact absurd (InMemoryStorage.version_eq_some.mpr ⟨obj, hobj, rfl⟩) hv

/-- A delete runs as a mutator. -/
theorem ran_deleteFile {m : Mutator} {path expected : Str} (hm : m = .deleteFile path expected) :
    (s.deleteFile path expected).Ends (handlesAlone now)
      (fun r st' => m.Ran s now st (r.map fun _ => none) st') st := by
  have hpathEq : path = m.path := hm ▸ rfl
  unfold MemoryStore.deleteFile
  refine Prog.ends_raiseIf_bind (fun _ => rfl) fun hpath => ?_
  rw [Bool.not_eq_false] at hpath
  rw [hpathEq] at hpath hm ⊢
  refine ends_storageGet ?_
  cases hobj : st.get m.path with
  | none => exact rfl
  | some obj =>
    dsimp only
    split
    · exact Prog.ends_ofExcept_bind (fun _ _ => rfl) fun _ _ => rfl
    next hversion =>
      rw [not_not] at hversion
      refine ends_deleteIfVersion s hpath (fun _ => ?_) fun hv => ?_
      · exact ⟨hpath, ⟨expected, hm⟩, by rw [hobj]; rfl, rfl⟩
      · exact absurd (InMemoryStorage.version_eq_some.mpr ⟨obj, hobj, hversion⟩) hv

/-- **What a mutator does alone.** -/
theorem Mutator.ran (m : Mutator) {fuel : Nat} (hfuel : st.objects.entries.length < fuel) :
    (m.body s fuel).Ends (handlesAlone now) (m.Ran s now st) st := by
  have hsome : ∀ {p : Store MemoryFile},
      p.Ends (handlesAlone now) (fun r st' => m.Ran s now st (r.map some) st') st →
      (do return some (← p) : Store (Option MemoryFile)).Ends (handlesAlone now) (m.Ran s now st) st :=
    fun h => (Prog.ends_bind _ _ _ _).mpr (h.mono fun r st' hr => by cases r <;> exact hr)
  cases m with
  | writeFile path content metadata expected source => exact hsome (ran_writeFile s hfuel rfl)
  | replaceFact path oldString newString expected source aliases description =>
    exact hsome (ran_replaceFact s rfl)
  | appendLine path line expected source aliases description => exact hsome (ran_appendLine s rfl)
  | deleteFile path expected =>
    refine (Prog.ends_bind _ _ _ _).mpr ((ran_deleteFile s rfl).mono fun r st' hr => ?_)
    cases r <;> exact hr

/-! ## Error atomicity and frame -/

/-- A read of `path` finds this file, its last-updated perhaps at another UTC offset, or no file. -/
def ReadsBack (path : Str) (st : InMemoryStorage) : Option MemoryFile → Prop
  | some file => file.path = path ∧ ∃ metadata, file.metadata.Same metadata ∧ ∀ now,
      (MemoryStore.readFile path).run (answerAt now) st = (some (.ok { file with metadata }), st)
  | none => ∀ now, (MemoryStore.readFile path).run (answerAt now) st =
      (some (.error (.notFoundError path .fileAbsent)), st)

/-- A call that raises leaves storage as it is; one that returns changes one key, to what it returns. -/
def Mutator.Atomic (m : Mutator) (st : InMemoryStorage) :
    Except Exc (Option MemoryFile) → InMemoryStorage → Prop
  | .error _, st' => st' = st
  | .ok file, st' => (∀ k, k ≠ m.path → st'.get k = st.get k) ∧ st'.get m.path ≠ st.get m.path ∧
      (file = none ↔ ∃ expected, m = .deleteFile m.path expected) ∧ ReadsBack m.path st' file

/-- What was put is read back. -/
theorem readsBack_put {path : Str} (hpath : isValidPath path = true) {w : Written}
    (hw : w.metadata.Storable) :
    ReadsBack path (st.putLocked path w.data w.map) (some ⟨path, w.content, w.metadata, st.token⟩) := by
  obtain ⟨metadata, hread, hsame, -⟩ := metadataFromMap_toMap hw w.mapped
  have hcontent := decodeUtf8_of_encodeUtf8 w.encoded
  refine ⟨rfl, metadata, hsame, fun now => ?_⟩
  have hget : (st.putLocked path w.data w.map).get path = some ⟨w.data, w.map, st.token⟩ := by
    rw [InMemoryStorage.get_putLocked, if_pos rfl]
  unfold MemoryStore.readFile
  simp [Prog.run_bind, Prog.raiseIf, hpath, hget, hcontent, hread]

/-- What was deleted is read as missing. -/
theorem readsBack_remove {path : Str} (hpath : isValidPath path = true) :
    ReadsBack path (st.remove path) none := by
  intro now
  have hget : (st.remove path).get path = none := by
    rw [InMemoryStorage.get_remove, if_pos rfl]
  unfold MemoryStore.readFile
  simp [Prog.run_bind, Prog.raiseIf, hpath, hget]

/-- **What a mutator ran is atomic**: it returned what is stored now, or raised and left storage. -/
theorem Mutator.Ran.atomic {m : Mutator} {r : Except Exc (Option MemoryFile)} {st' : InMemoryStorage}
    (h : m.Ran s now st r st') (hst : ∀ k obj, st.get k = some obj → obj.metadata.Scalar)
    (hnames : ∀ a ∈ m.names, Py.Scalar a) : m.Atomic st r st' := by
  cases r with
  | error e => exact h
  | ok file =>
    cases file with
    | some file =>
      obtain ⟨hpath, w, hedits, rfl, rfl⟩ := h
      refine ⟨fun k hk => ?_, fun hsame => ?_, ⟨fun hnone => (nomatch hnone), ?_⟩, ?_⟩
      · rw [InMemoryStorage.get_putLocked, if_neg hk]
      · rw [InMemoryStorage.get_putLocked, if_pos rfl] at hsame
        exact absurd rfl (InMemoryStorage.version_ne_token hsame.symm)
      · rintro ⟨expected, hm⟩
        rw [hm] at hedits
        exact hedits.elim
      · refine readsBack_put hpath (hedits.storable (fun obj hobj stored hstored => ?_) hnames)
        exact storable_of_metadataFromMap (hst _ _ hobj) hstored
    | none =>
      obtain ⟨hpath, hm, hsome, rfl⟩ := h
      obtain ⟨obj, hobj⟩ := Option.isSome_iff_exists.mp hsome
      refine ⟨fun k hk => ?_, fun hsame => ?_, ⟨fun _ => hm, fun _ => rfl⟩, readsBack_remove hpath⟩
      · rw [InMemoryStorage.get_remove, if_neg hk]
      · rw [InMemoryStorage.get_remove, if_pos rfl, hobj] at hsame
        cases hsame

/-- **A mutator that runs alone is atomic**, and does what it does on a store without a cache, whatever
the cache answers or raises. -/
theorem mutator_atomic (m : Mutator) (now : DateTime) {fuel : Nat}
    (hfuel : st.objects.entries.length < fuel)
    (hst : ∀ k obj, st.get k = some obj → obj.metadata.Scalar)
    (hnames : ∀ a ∈ m.names, Py.Scalar a) :
    (m.body s fuel).Ends (handlesAlone now)
      (fun r st' => m.Atomic st r st' ∧
        (m.body s.cacheless fuel).run (answerAt now) st = (some r, st')) st := by
  have hatomic : (m.body s fuel).Ends (handlesAlone now) (m.Atomic st) st :=
    (m.ran s hfuel).mono fun r st' hr => hr.atomic s hst hnames
  refine hatomic.and (m.ends_cacheless s fuel now ?_)
  obtain ⟨r, st', hrun, -⟩ := (m.ran s.cacheless hfuel).run (answerAt_handlesAlone now)
  rw [hrun]
  exact Option.some_ne_none r

end

/-- A file, and beside it a key whose body and metadata no file has. -/
def twoKeys : InMemoryStorage :=
  let metadata := metadataMap [] (str "[\"n\"]") (str "[\"s\"]") (str "2026-01-01T00:00:00Z")
  (InMemoryStorage.empty.putLocked (str "user/u1/notes/n.md") [97, 10] metadata).putLocked
    (str "user/u1/notes/o.md") [0xFF] .empty

/-- A line for the file. -/
def lineForFile : Mutator :=
  .appendLine (str "user/u1/notes/n.md") (str "- [stated] b") (str "1") (str "t") (some [str "m", str "n"]) none

/-- An edit of a text that the file does not have. -/
def noSuchText : Mutator :=
  .replaceFact (str "user/u1/notes/n.md") (str "x") (str "y") (str "1") (str "t") none none

/-- With a cache that answers or raises anything, the line is appended beside the other key, and the edit
raises. -/
theorem mutator_atomic_beside :
    let _ := Interpreter.ascii
    let s : MemoryStore := { MemoryStore.default with indexCache := some ⟨[]⟩ }
    (lineForFile.body s 3).Ends (handlesAlone noon) (fun r st' =>
      (∃ file, r = .ok (some file) ∧ file.content = str "a\n- [stated] b\n" ∧
        file.metadata.aliases = [str "n", str "m"]) ∧
      lineForFile.Atomic twoKeys r st' ∧
        (lineForFile.body s.cacheless 3).run (answerAt noon) twoKeys = (some r, st')) twoKeys ∧
    (noSuchText.body s 3).Ends (handlesAlone noon) (fun r st' =>
      (∃ e, r = .error e) ∧ noSuchText.Atomic twoKeys r st' ∧
        (noSuchText.body s.cacheless 3).run (answerAt noon) twoKeys = (some r, st')) twoKeys := by
  intro _ s
  have hscalar : ∀ k obj, twoKeys.get k = some obj → obj.metadata.Scalar := by
    have hall : twoKeys.objects.entries.all (fun kv =>
        kv.2.metadata.entries.all (·.2.all (!isSurrogate ·))) = true := by decide +kernel
    exact fun k obj hobj => Metadata.scalar_of_all (FinMap.all_entries.mp hall k obj hobj)
  have hline : ((((lineForFile.body s.cacheless 3).run (answerAt noon) twoKeys).1.bind (·.toOption)).bind id).any
      (fun file => file.content = str "a\n- [stated] b\n" ∧ file.metadata.aliases = [str "n", str "m"]) = true := by
    decide +kernel
  have hedit : ((noSuchText.body s.cacheless 3).run (answerAt noon) twoKeys).1.any (!·.isOk) = true := by
    decide +kernel
  constructor
  · refine (mutator_atomic s lineForFile noon (by decide) hscalar ?_).mono ?_
    · simp [lineForFile, Mutator.names, scalar_str]
    · rintro r st' ⟨hatomic, hrun⟩
      refine ⟨?_, hatomic, hrun⟩
      rw [hrun] at hline
      cases r with
      | error e => cases hline
      | ok result =>
        obtain ⟨file, rfl, h⟩ := (Option.any_eq_true _ _).mp hline
        exact ⟨file, rfl, of_decide_eq_true h⟩
  · refine (mutator_atomic s noSuchText noon (by decide) hscalar ?_).mono ?_
    · simp [noSuchText, Mutator.names, scalar_str]
    · rintro r st' ⟨hatomic, hrun⟩
      refine ⟨?_, hatomic, hrun⟩
      rw [hrun] at hedit
      cases r with
      | ok file => cases hedit
      | error e => exact ⟨e, rfl⟩

end Wenchang
