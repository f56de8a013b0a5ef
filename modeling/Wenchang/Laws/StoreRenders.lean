import Wenchang.Laws.Rendered
import Wenchang.Laws.Stored

/-!
# What a store returns renders

Metadata that was just written has a moment in UTC, since it was written as one; so has what an index shows,
since it was sized; and what is read of a storage as the core leaves it.
-/

namespace Wenchang

open Py Ordered Interaction

/-- The metadata that a call of a store returned. -/
def StoreResult.metadata : StoreResult → List FileMetadata
  | .file (some f) => [f.metadata]
  | .page p => p.entries.map (·.metadata)
  | .index i => i.entries.map (·.metadata)
  | _ => []

/-- All of it has a moment in UTC. -/
def StoreResult.Renders (r : StoreResult) : Prop := ∀ m ∈ r.metadata, m.lastUpdated.astimezoneUTC.isSome = true

/-- Metadata that is written has a moment that can be converted. -/
theorem utc_of_metadataToMap {m : FileMetadata} {map : Metadata} (h : metadataToMap m = .ok map) :
    m.lastUpdated.astimezoneUTC.isSome = true := by
  unfold metadataToMap at h
  cases hutc : m.lastUpdated.astimezoneUTC with
  | none =>
    rw [hutc] at h
    cases h
  | some utc => rfl

/-- What a loop returns one of its steps returned. -/
theorem mem_of_forEach {ε α β : Type} {f : α → Except ε β} {l : List α} {bs : List β} (h : forEach f l = .ok bs)
    {b : β} (hb : b ∈ bs) : ∃ a ∈ l, f a = .ok b := by
  induction l generalizing bs with
  | nil =>
    obtain rfl := Except.ok.inj h
    cases hb
  | cons a l ih =>
    obtain ⟨b', hb', h⟩ := except_bind_eq_ok.mp h
    obtain ⟨bs', hbs', h⟩ := except_bind_eq_ok.mp h
    obtain rfl := Except.ok.inj h
    rcases List.mem_cons.mp hb with rfl | hb
    · exact ⟨a, List.mem_cons_self, hb'⟩
    · obtain ⟨a', ha', hf⟩ := ih hbs' hb
      exact ⟨a', List.mem_cons_of_mem _ ha', hf⟩

/-- What a budget takes was sized. -/
theorem mem_of_takeBudget {budget total : Nat} {sized : List (FileEntry × Nat)} {e : FileEntry}
    (h : e ∈ takeBudget budget total sized) : ∃ size, (e, size) ∈ sized := by
  induction sized generalizing total with
  | nil => cases h
  | cons first rest ih =>
    obtain ⟨entry, size⟩ := first
    unfold takeBudget at h
    split at h
    · cases h
    · rcases List.mem_cons.mp h with rfl | h
      · exact ⟨size, List.mem_cons_self⟩
      · obtain ⟨size', hmem⟩ := ih h
        exact ⟨size', List.mem_cons_of_mem _ hmem⟩

section

variable [Interpreter]

/-- **An index shows what it has sized**, so each of its timestamps has a moment in UTC, wherever its
entries come from. -/
theorem renders_mergeIndex {s : MemoryStore} {collected : List FileEntry} {index : MemoryIndex}
    (h : s.mergeIndex collected = .ok index) : (StoreResult.index index).Renders := by
  unfold MemoryStore.mergeIndex at h
  simp only [except_bind_eq_ok] at h
  obtain ⟨keyed, -, sized, hsized, counts, -, capped, -, h⟩ := h
  have hentries : index.entries = takeBudget s.indexMaxBytes 0 sized := by
    unfold MemoryIndex.make at h
    split at h
    · split at h
      · exact Except.ok.inj h ▸ rfl
      · cases h
    · cases h
  intro m hm
  obtain ⟨e, he, rfl⟩ := List.mem_map.mp hm
  rw [hentries] at he
  obtain ⟨size, hmem⟩ := mem_of_takeBudget he
  obtain ⟨e', -, hsize⟩ := mem_of_forEach hsized hmem
  cases hbytes : indexEntryBytes e' with
  | error err =>
    rw [hbytes] at hsize
    cases hsize
  | ok n =>
    rw [hbytes] at hsize
    obtain ⟨rfl, -⟩ := Prod.mk.inj (Except.ok.inj hsize)
    exact utc_of_indexEntryBytes hbytes

variable {lossy : Prop} {bytes : Nat}

/-- **What a call returns from a sound storage renders**, whoever writes meanwhile. -/
theorem sat_renders (i : Invocation StoreCall) : i.body.Sat (inMemory lossy) (fun _ _ => True)
    (fun tr r => Meets (Kept bytes) tr → ∀ result, r = .ok result → result.Renders) [] := by
  obtain ⟨s, fuel, call⟩ := i
  have hwrap : ∀ {α : Type} {p : Store α} {f : α → StoreResult},
      p.Sat (inMemory lossy) (fun _ _ => True)
        (fun tr r => Meets (Kept bytes) tr → ∀ a, r = .ok a → (f a).Renders) [] →
      (do return f (← p) : Store StoreResult).Sat (inMemory lossy) (fun _ _ => True)
        (fun tr r => Meets (Kept bytes) tr → ∀ result, r = .ok result → result.Renders) [] := by
    intro α p f h
    refine h.andThen (fun tr a h hmeets result hr => ?_) fun tr e _ _ result hr => nomatch hr
    obtain rfl := Except.ok.inj hr
    exact h hmeets a rfl
  cases call with
  | mutate m =>
    refine hwrap ((m.sat s fuel).mono (fun _ _ _ => trivial) fun tr r h _ file hr => ?_)
    rw [hr] at h
    cases h with
    | put tr q st st' expected w version before quiet =>
      exact List.forall_mem_singleton.mpr (utc_of_metadataToMap w.mapped)
    | landed tr q st st' cur expected w version before quiet append found =>
      exact List.forall_mem_singleton.mpr (utc_of_metadataToMap w.mapped)
    | deleted tr q st st' expected before quiet delete => exact nofun
  | readFile path =>
    refine hwrap ?_
    unfold MemoryStore.readFile
    refine Prog.sat_raiseIf_bind (fun _ _ _ => nofun) fun _ => ?_
    refine (Prog.sat_bind _ _ _ _).mpr (sat_storageGet trivial fun st _ => ?_)
    cases hobj : st.get path with
    | none => exact fun _ _ => nofun
    | some obj =>
      have hkept : Meets (Kept bytes) [readEvent path st] → Kept bytes st := fun h =>
        h _ (List.mem_singleton_self _)
      refine Prog.sat_ofExcept_bind (fun _ _ _ _ => nofun) fun content _ => ?_
      refine Prog.sat_ofExcept_bind (fun _ _ _ _ => nofun) fun metadata hmetadata hmeets file hfile => ?_
      obtain rfl := Except.ok.inj hfile
      obtain ⟨metadata', size, hmetadata', -, hbytes, -⟩ := (hkept hmeets).metadata path obj hobj
      obtain rfl := Except.ok.inj (hmetadata.symm.trans hmetadata')
      have hutc := utc_of_indexEntryBytes hbytes
      exact List.forall_mem_singleton.mpr hutc
  | listPrefix pre cursor =>
    refine hwrap ?_
    by_cases hpre : isValidPrefix pre = true
    · cases hcursor : MemoryStore.decodeStart cursor pre with
      | error e =>
        unfold MemoryStore.listPrefix
        rw [Prog.raiseIf_neg (by simp [hpre]), Prog.ret_bind, hcursor]
        exact fun _ _ => nofun
      | ok after =>
        refine sat_listPrefix s hpre hcursor (fun _ _ _ => trivial) fun st hmeets page hpage => ?_
        have hst : Kept bytes st := hmeets _ (List.mem_append_right _ (List.mem_singleton_self _))
        obtain ⟨page', upTo, hpage', hlisted, -⟩ := pageOf_indexable s hpre hcursor hst.indexable
        obtain rfl := Except.ok.inj (hpage.symm.trans hpage')
        exact List.forall_mem_map.mpr hlisted.renderable
    · unfold MemoryStore.listPrefix
      rw [Prog.raiseIf_bind_pos (Bool.eq_false_iff.mpr hpre)]
      exact fun _ _ => nofun
  | getMemoryIndex scopeMap =>
    refine hwrap ?_
    unfold MemoryStore.getMemoryIndex
    refine Prog.sat_ofExcept_bind (fun _ _ _ _ => nofun) fun _ _ => ?_
    have hany : (s.collect fuel (sortedPairs scopeMap)).Sat (inMemory lossy) (fun _ _ => True) (fun _ _ => True) [] :=
      (Prog.issues_true _).sat (fun _ _ _ => trivial) fun _ _ _ => trivial
    refine hany.andThen (fun tr collected _ => ?_) fun _ _ _ _ _ => nofun
    exact (Prog.sat_ofExcept _ _).mpr fun _ index hindex => renders_mergeIndex hindex
  | purge scope entityId maxPasses =>
    exact hwrap ((Prog.issues_true _).sat (fun _ _ _ => trivial) fun _ _ _ _ _ _ => nofun)
  | invalidateIndex scope entityId =>
    have hany : (s.invalidateIndex scope entityId).Sat (inMemory lossy) (fun _ _ => True) (fun _ _ => True) [] :=
      (Prog.issues_true _).sat (fun _ _ _ => trivial) fun _ _ _ => trivial
    refine hany.andThen (fun _ _ _ _ result hr => ?_) fun _ _ _ _ _ => nofun
    obtain rfl := Except.ok.inj hr
    exact nofun

end

end Wenchang
