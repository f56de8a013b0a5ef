import Wenchang.Laws.FileCap
import Wenchang.Laws.Purge

/-!
# Export

Among other calls an export is a scan with a read behind each key it lists, so what was there all the
time is in it, and each object in it is one that was stored. Alone it is the entity's objects. Whoever
purges the entity then and puts them back, in any order, has the entity as it was, but for the
versions: the keys of an export are distinct, so no put undoes another.
-/

namespace Wenchang

open Py Ordered Interaction

/-! ## What an export reads -/

/-- An object as an export shows it. -/
def exported (key : Str) (obj : StoredObject) : ExportedObject :=
  ⟨key, obj.data, obj.metadata, obj.version⟩

/-- The trace reads this object. -/
def SawObject (tr : StoreTrace) (o : ExportedObject) : Prop :=
  ∃ st obj, readEvent o.key st ∈ tr ∧ st.get o.key = some obj ∧ o = exported o.key obj

/-- What was seen stays seen. -/
theorem SawObject.later {tr tr' : StoreTrace} {o : ExportedObject} (h : SawObject tr o)
    (hpre : tr <+: tr') : SawObject tr' o := by
  obtain ⟨st, obj, hmem, hobj, ho⟩ := h
  exact ⟨st, obj, hpre.subset hmem, hobj, ho⟩

/-- What stays to the end stays until then. -/
theorem Stays.earlier {tr tr' : StoreTrace} {key : Str} (h : Stays tr' key) (hpre : tr <+: tr') :
    Stays tr key := fun e he => h e (hpre.subset he)

/-- What an export from a position on returns after a trace. -/
structure Exported (pre : Str) (after : Option Str) (tr : StoreTrace) (out : List ExportedObject) :
    Prop where
  ascending : (out.map (·.key)).Pairwise (· < ·)
  under : ∀ o ∈ out, pre.isPrefixOf o.key = true ∧ Behind after o.key
  stored : ∀ o ∈ out, SawObject tr o
  complete : ∀ k, pre.isPrefixOf k = true → Behind after k → Stays tr k → k ∈ out.map (·.key)

section Parts

variable {pre : Str}

/-- The objects of a page: those of its keys that are still there. -/
theorem sat_exportPage (page : List ListedObject) (tr : StoreTrace) :
    (MemoryStore.exportPage page).Sat failing (fun _ _ => True)
      (fun tr' r => tr <+: tr' ∧ ∀ out, r = .ok out →
        (out.map (·.key)).Sublist (page.map (·.key)) ∧ (∀ o ∈ out, SawObject tr' o) ∧
        ∀ k ∈ page.map (·.key), Stays tr' k → k ∈ out.map (·.key)) tr := by
  induction page generalizing tr with
  | nil =>
    refine ⟨List.prefix_rfl, fun out hout => ?_⟩
    obtain rfl : [] = out := Except.ok.inj hout
    exact ⟨.slnil, by simp, by simp⟩
  | cons obj rest ih =>
    unfold MemoryStore.exportPage
    refine (Prog.sat_bind _ _ _ _).mpr (sat_failing_get trivial (fun st _ => ?_) fun st e _ => ?_)
    · have hgrow : tr <+: tr ++ [readEvent obj.key st] := List.prefix_append _ _
      have hread : readEvent obj.key st ∈ tr ++ [readEvent obj.key st] := by simp
      rw [Prog.andThen_ok]
      cases hobj : st.get obj.key with
      | none =>
        refine (ih _).post fun tr' r hr => ⟨hgrow.trans hr.1, fun out hout => ?_⟩
        obtain ⟨hsub, hsaw, hcomplete⟩ := hr.2 out hout
        refine ⟨hsub.cons _, hsaw, fun k hk hstays => ?_⟩
        rw [List.map_cons, List.mem_cons] at hk
        rcases hk with rfl | hk
        · have hthere : (st.get obj.key).isSome = true := hstays _ (hr.1.subset hread)
          rw [hobj] at hthere
          cases hthere
        · exact hcomplete k hk hstays
      | some stored =>
        refine (ih _).andThen (fun tr' out hr => ?_) fun tr' e hr => ⟨hgrow.trans hr.1, nofun⟩
        obtain ⟨hpre, hout⟩ := hr
        obtain ⟨hsub, hsaw, hcomplete⟩ := hout out rfl
        refine ⟨hgrow.trans hpre, fun out' hout' => ?_⟩
        obtain rfl : exported obj.key stored :: out = out' := Except.ok.inj hout'
        refine ⟨hsub.cons_cons _, fun o ho => ?_, fun k hk hstays => ?_⟩
        · rcases List.mem_cons.mp ho with rfl | ho
          · exact ⟨st, stored, hpre.subset hread, hobj, rfl⟩
          · exact hsaw o ho
        · rw [List.map_cons, List.mem_cons] at hk
          rw [List.map_cons, List.mem_cons]
          exact hk.imp id fun hk => hcomplete k hk hstays
    · exact ⟨List.prefix_append _ _, nofun⟩

variable (s : MemoryStore)

/-- All pages from a position on. -/
theorem sat_exportPages (fuel : Nat) (after : Option Str) (tr : StoreTrace) :
    (s.exportPages pre fuel after).Sat failing (fun _ _ => True)
      (fun tr' r => tr <+: tr' ∧ ∀ out, r = .ok out → Exported pre after tr' out) tr := by
  induction fuel generalizing after tr with
  | zero => exact trivial
  | succ fuel ih =>
    unfold MemoryStore.exportPages
    refine (Prog.sat_bind _ _ _ _).mpr (sat_failing_list trivial (fun st _ => ?_) fun st e _ => ?_)
    · have hgrow : tr <+: tr ++ [listEvent pre after s.listPageSize st] := List.prefix_append _ _
      have hlist : listEvent pre after s.listPageSize st ∈
          tr ++ [listEvent pre after s.listPageSize st] := by simp
      refine (sat_exportPage _ _).andThen ?_ fun tr' e hr => ⟨hgrow.trans hr.1, nofun⟩
      rintro tr' out ⟨hpre, hout⟩
      obtain ⟨hsub, hsaw, hcomplete⟩ := hout out rfl
      have hthere : ∀ {tr'' k}, tr' <+: tr'' → Stays tr'' k → pre.isPrefixOf k = true →
          k ∈ st.under pre := fun hpre' hstays hunder =>
        ⟨hstays _ (hpre'.subset (hpre.subset hlist)), hunder⟩
      split
      next hshort =>
        have hread := read_listPage_short hshort
        refine ⟨hgrow.trans hpre, fun out' hout' => ?_⟩
        obtain rfl : out = out' := Except.ok.inj hout'
        refine ⟨hread.sorted.sublist hsub, fun o ho => ?_, hsaw, fun k hunder hafter hstays => ?_⟩
        · obtain ⟨hmem, hbehind, -⟩ := hread.mem _ (hsub.subset (List.mem_map_of_mem ho))
          exact ⟨hmem.2, hbehind⟩
        · have hk := hthere List.prefix_rfl hstays hunder
          exact hcomplete k (hread.complete k hk hafter (upTo_none k)) hstays
      next hfull =>
        have hne : st.listPage pre after s.listPageSize ≠ [] := by
          intro hnil
          rw [hnil] at hfull
          exact hfull s.listPageSize_pos
        obtain ⟨last, hlast⟩ := Option.isSome_iff_exists.mp (List.getLast?_isSome.mpr hne)
        have hread := read_listPage_full hlast
        have hbehind := (hread.mem last.key (hread.last last.key rfl)).2.1
        rw [hlast, Option.map_some]
        refine (ih _ _).andThen (fun tr'' rest hr => ?_) fun tr'' e hr =>
          ⟨(hgrow.trans hpre).trans hr.1, nofun⟩
        obtain ⟨hpre', hrest⟩ := hr
        have hrest := hrest rest rfl
        refine ⟨(hgrow.trans hpre).trans hpre', fun out' hout' => ?_⟩
        obtain rfl : out ++ rest = out' := Except.ok.inj hout'
        refine ⟨?_, fun o ho => ?_, fun o ho => ?_, fun k hunder hafter hstays => ?_⟩
        · rw [List.map_append]
          refine List.pairwise_append.mpr ⟨hread.sorted.sublist hsub, hrest.ascending,
            fun k hk k' hk' => ?_⟩
          obtain ⟨o, ho, rfl⟩ := List.mem_map.mp hk'
          have hle := (hread.mem k (hsub.subset hk)).2.2 last.key rfl
          exact lt_of_le_of_lt hle ((hrest.under o ho).2 last.key rfl)
        · rcases List.mem_append.mp ho with ho | ho
          · obtain ⟨hmem, hafter, -⟩ := hread.mem _ (hsub.subset (List.mem_map_of_mem ho))
            exact ⟨hmem.2, hafter⟩
          · obtain ⟨hunder, hafter⟩ := hrest.under o ho
            exact ⟨hunder, hbehind.trans (hafter last.key rfl)⟩
        · rcases List.mem_append.mp ho with ho | ho
          · exact (hsaw o ho).later hpre'
          · exact hrest.stored o ho
        · rw [List.map_append, List.mem_append]
          by_cases hlater : Behind (some last.key) k
          · exact .inr (hrest.complete k hunder hlater hstays)
          · have hk := hthere hpre' hstays hunder
            exact .inl (hcomplete k (hread.complete k hk hafter (upTo_of_not_behind hlater))
              (hstays.earlier hpre'))
    · exact ⟨List.prefix_append _ _, nofun⟩

end Parts

/-! ## An export alone, and what can be restored from it -/

/-- The objects under a prefix, as an export shows them. -/
def InMemoryStorage.exportOf (st : InMemoryStorage) (pre : Str) : List ExportedObject :=
  (st.objects.entries.filter fun e => pre.isPrefixOf e.1).map fun e => exported e.1 e.2

/-- An export has the objects below its prefix. -/
theorem mem_exportOf {st : InMemoryStorage} {pre : Str} {o : ExportedObject} :
    o ∈ st.exportOf pre ↔ pre.isPrefixOf o.key = true ∧
      ∃ obj, st.get o.key = some obj ∧ o = exported o.key obj := by
  simp only [InMemoryStorage.exportOf, List.mem_map, List.mem_filter]
  constructor
  · rintro ⟨⟨k, obj⟩, ⟨hmem, hunder⟩, rfl⟩
    exact ⟨hunder, obj, FinMap.get?_eq_some.mpr hmem, rfl⟩
  · rintro ⟨hunder, obj, hobj, ho⟩
    exact ⟨(o.key, obj), ⟨FinMap.get?_eq_some.mp hobj, hunder⟩, ho.symm⟩

/-- An export has the keys below its prefix, in order. -/
theorem keys_exportOf (st : InMemoryStorage) (pre : Str) :
    (st.exportOf pre).map (·.key) = st.keysUnder pre := by
  simp [InMemoryStorage.exportOf, InMemoryStorage.keysUnder, exported, FinMap.keys, List.filter_map,
    Function.comp_def]

/-- No key is listed twice. -/
theorem nodup_keysUnder (st : InMemoryStorage) (pre : Str) : (st.keysUnder pre).Nodup := by
  have hsorted : st.objects.keys.Pairwise (· < ·) := List.pairwise_map.mpr st.objects.sorted
  exact (hsorted.imp ne_of_lt).sublist List.filter_sublist

/-- What a listing of a storage shows of the objects an export reads. -/
def exportedAt (st : InMemoryStorage) (page : List ListedObject) : List ExportedObject :=
  page.filterMap fun o => (st.get o.key).map (exported o.key)

/-- A listing that stands still is exported whole. -/
theorem exportedAt_listing (st : InMemoryStorage) (pre : Str) :
    exportedAt st (st.listing pre none) = st.exportOf pre := by
  have hentries : ∀ l : List (Str × StoredObject), (∀ e ∈ l, e ∈ st.objects.entries) →
      exportedAt st (l.map fun e => ⟨e.1, e.2.metadata, e.2.version⟩) =
        l.map fun e => exported e.1 e.2 := by
    intro l hl
    induction l with
    | nil => rfl
    | cons e rest ih =>
      have hget : st.get e.1 = some e.2 := FinMap.get?_eq_some.mpr (hl e List.mem_cons_self)
      have hrest := ih fun e' he' => hl e' (List.mem_cons_of_mem _ he')
      simp only [exportedAt, List.map_cons, List.filterMap_cons, hget, Option.map_some] at hrest ⊢
      rw [hrest]
  have hlisting := hentries (st.objects.entries.filter fun e => pre.isPrefixOf e.1) fun e he =>
    List.mem_of_mem_filter he
  simpa [InMemoryStorage.listing, InMemoryStorage.exportOf] using hlisting

/-- Put exported objects back. -/
def putAll : List ExportedObject → Store Unit
  | [] => return ()
  | o :: rest => do
    let _ ← Prog.ofExcept (← ask (.storage (.put o.key o.data o.metadata)))
    putAll rest

/-- Export an entity, purge it, and put its objects back in some order. -/
def MemoryStore.exportPurgeRestore [Interpreter] (s : MemoryStore) (fuel : Nat)
    (scope entityId : Str) (maxPasses : Int) (order : List ExportedObject → List ExportedObject) :
    Store (List ExportedObject) := do
  let out ← s.exportObjects fuel scope entityId
  let _ ← s.purge fuel scope entityId maxPasses
  putAll (order out)
  return out

/-- The keys under a prefix have their data and metadata again, under new versions; nothing else has
changed. -/
structure Restored (pre : Str) (st st' : InMemoryStorage) : Prop where
  under : ∀ k, pre.isPrefixOf k = true → (st'.get k).map (fun o => (o.data, o.metadata)) =
    (st.get k).map fun o => (o.data, o.metadata)
  fresh : ∀ k o, pre.isPrefixOf k = true → st'.get k = some o → ¬ st.Issued o.version
  others : ∀ k, pre.isPrefixOf k = false → st'.get k = st.get k

section Alone

variable {now : DateTime} {st : InMemoryStorage}

/-- A page that stands still is exported. -/
theorem ends_exportPage (page : List ListedObject) :
    (MemoryStore.exportPage page).Ends (handlesAlone now)
      (fun r st' => r = .ok (exportedAt st page) ∧ st' = st) st := by
  induction page with
  | nil => exact ⟨rfl, rfl⟩
  | cons obj rest ih =>
    unfold MemoryStore.exportPage
    refine ends_storageGet ?_
    cases hobj : st.get obj.key with
    | none =>
      refine ih.mono fun r st' hr => ⟨hr.1.trans ?_, hr.2⟩
      simp [exportedAt, hobj]
    | some stored =>
      refine (Prog.ends_bind _ _ _ _).mpr (ih.mono ?_)
      rintro r st' ⟨rfl, rfl⟩
      refine ⟨?_, rfl⟩
      simp [exportedAt, hobj, exported]

variable (s : MemoryStore) {pre : Str}

/-- All pages that stand still are exported. -/
theorem ends_exportPages {fuel : Nat} {after : Option Str}
    (hfuel : (st.listing pre after).length < fuel) :
    (s.exportPages pre fuel after).Ends (handlesAlone now)
      (fun r st' => r = .ok (exportedAt st (st.listing pre after)) ∧ st' = st) st := by
  induction fuel generalizing after with
  | zero => exact absurd hfuel (Nat.not_lt_zero _)
  | succ fuel ih =>
    unfold MemoryStore.exportPages
    refine ends_storageListPage ((Prog.ends_bind _ _ _ _).mpr ((ends_exportPage _).mono ?_))
    rintro r st' ⟨rfl, rfl⟩
    rw [Prog.afterEnd_ok]
    split
    next hshort =>
      have hall : st'.listPage pre after s.listPageSize = st'.listing pre after := by
        rw [InMemoryStorage.listPage, List.length_take] at hshort
        exact List.take_of_length_le (by omega)
      rw [hall]
      exact ⟨rfl, rfl⟩
    next hfull =>
      have hne : st'.listPage pre after s.listPageSize ≠ [] := by
        intro hnil
        rw [hnil] at hfull
        exact hfull s.listPageSize_pos
      obtain ⟨last, hlast⟩ := Option.isSome_iff_exists.mp (List.getLast?_isSome.mpr hne)
      have hless := length_listing_lt hlast
      rw [hlast, Option.map_some]
      refine (Prog.ends_bind _ _ _ _).mpr ((ih (by omega)).mono ?_)
      rintro r st'' ⟨rfl, rfl⟩
      refine ⟨?_, rfl⟩
      rw [listing_eq_append hlast]
      simp only [exportedAt, List.filterMap_append]

/-- Puts under distinct keys: each key has what was put, under a new version. -/
theorem ends_putAll {l : List ExportedObject} (hnodup : (l.map (·.key)).Nodup) :
    (putAll l).Ends (handlesAlone now)
      (fun r st' => r = .ok () ∧
        (∀ o ∈ l, ∃ v, st'.get o.key = some ⟨o.data, o.metadata, v⟩ ∧ ¬ st.Issued v) ∧
        ∀ k, k ∉ l.map (·.key) → st'.get k = st.get k) st := by
  induction l generalizing st with
  | nil => exact ⟨rfl, by simp, fun k _ => rfl⟩
  | cons o rest ih =>
    intro a st₁ hh
    have hanswer : (a, st₁) = (.ok st.token, st.putLocked o.key o.data o.metadata) := hh
    obtain ⟨rfl, rfl⟩ := Prod.mk.inj hanswer
    rw [List.map_cons, List.nodup_cons] at hnodup
    refine (ih hnodup.2).mono ?_
    rintro r st' ⟨rfl, hput, hkept⟩
    have hlater := InMemoryStorage.later_putLocked st o.key o.data o.metadata
    refine ⟨rfl, fun o' ho' => ?_, fun k hk => ?_⟩
    · rcases List.mem_cons.mp ho' with rfl | ho'
      · refine ⟨st.token, ?_, st.not_issued_token⟩
        rw [hkept _ hnodup.1, InMemoryStorage.get_putLocked, if_pos rfl]
      · obtain ⟨v, hv, hfresh⟩ := hput o' ho'
        exact ⟨v, hv, fun hissued => hfresh (hissued.later hlater)⟩
    · rw [List.map_cons, List.mem_cons, not_or] at hk
      rw [hkept k hk.2, InMemoryStorage.get_putLocked, if_neg hk.1]

/-- What is put back after everything under the prefix was removed. -/
theorem restored_of_put {pre : Str} {st' st'' : InMemoryStorage} {l : List ExportedObject}
    (hperm : l.Perm (st.exportOf pre)) (hgone : Without (pre.isPrefixOf · = true) st st')
    (hput : ∀ o ∈ l, ∃ v, st''.get o.key = some ⟨o.data, o.metadata, v⟩ ∧ ¬ st'.Issued v)
    (hkept : ∀ k, k ∉ l.map (·.key) → st''.get k = st'.get k) : Restored pre st st'' := by
  have hissued : ∀ {v}, st.Issued v → st'.Issued v := fun {v} h => by
    obtain ⟨n, hn, hv⟩ := h
    exact ⟨n, hgone.nextToken ▸ hn, hv⟩
  have hmem : ∀ o, o ∈ l ↔ o ∈ st.exportOf pre := fun o => hperm.mem_iff
  have hkey : ∀ {k obj}, pre.isPrefixOf k = true → st.get k = some obj → exported k obj ∈ l :=
    fun {k obj} hunder hobj => (hmem _).mpr (mem_exportOf.mpr ⟨hunder, obj, hobj, rfl⟩)
  have hnot : ∀ {k}, (∀ obj, pre.isPrefixOf k = true → st.get k ≠ some obj) →
      st''.get k = st'.get k := fun {k} hnone => by
    refine hkept k fun hk => ?_
    obtain ⟨o, ho, rfl⟩ := List.mem_map.mp hk
    obtain ⟨hunder, obj, hobj, -⟩ := mem_exportOf.mp ((hmem o).mp ho)
    exact hnone obj hunder hobj
  refine ⟨fun k hunder => ?_, fun k o hunder ho => ?_, fun k hout => ?_⟩
  · cases hobj : st.get k with
    | none => rw [hnot (by simp [hobj]), hgone.removed k hunder]
    | some obj =>
      obtain ⟨v, hv, -⟩ := hput _ (hkey hunder hobj)
      have hback : st''.get k = some ⟨obj.data, obj.metadata, v⟩ := hv
      rw [hback]
      rfl
  · cases hobj : st.get k with
    | none =>
      rw [hnot (by simp [hobj]), hgone.removed k hunder] at ho
      cases ho
    | some obj =>
      obtain ⟨v, hv, hfresh⟩ := hput _ (hkey hunder hobj)
      have hback : st''.get k = some ⟨obj.data, obj.metadata, v⟩ := hv
      obtain rfl := Option.some.inj (hback.symm.trans ho)
      exact fun h => hfresh (hissued h)
  · rw [hnot (by simp [hout]), hgone.kept k (by simp [hout])]

variable [Interpreter] {scope entityId : Str} {fuel : Nat}

/-- An export of valid segments is of the entity's pages. -/
theorem exportObjects_eq (hs : isValidSegment scope = true) (he : isValidSegment entityId = true) :
    s.exportObjects fuel scope entityId = s.exportPages (entityPrefix scope entityId) fuel none := by
  unfold MemoryStore.exportObjects
  rw [checkEntitySegments_valid hs he, Prog.ofExcept_ok, Prog.ret_bind, buildPrefix_entity hs he]
  rfl

/-- **An export alone** is the entity's objects. -/
theorem ends_exportObjects (hs : isValidSegment scope = true) (he : isValidSegment entityId = true)
    (hfuel : (st.keysUnder (entityPrefix scope entityId)).length < fuel) :
    (s.exportObjects fuel scope entityId).Ends (handlesAlone now)
      (fun r st' => r = .ok (st.exportOf (entityPrefix scope entityId)) ∧ st' = st) st := by
  rw [exportObjects_eq s hs he, ← exportedAt_listing]
  rw [← length_listing] at hfuel
  exact ends_exportPages s hfuel

end Alone

/-! ## The laws together -/

section

variable [Interpreter]

/-- **Export, purge and restore** alone: the export is the entity's objects, and putting them back in
any order restores them. Only a cache that raises stops the purge. -/
theorem ends_exportPurgeRestore (s : MemoryStore) {now : DateTime} {fails : Exc → Prop}
    {st : InMemoryStorage} {scope entityId : Str} {fuel : Nat} {maxPasses : Int}
    {order : List ExportedObject → List ExportedObject} (horder : ∀ l, (order l).Perm l)
    (hs : isValidSegment scope = true) (he : isValidSegment entityId = true) (hpasses : 1 ≤ maxPasses)
    (hfuel : (st.keysUnder (entityPrefix scope entityId)).length < fuel) :
    (s.exportPurgeRestore fuel scope entityId maxPasses order).Ends (handlesRaising now fails)
      (fun r st' => (∃ e, s.indexCache.isSome = true ∧ fails e ∧ r = .error e) ∨
        r = .ok (st.exportOf (entityPrefix scope entityId)) ∧
        Restored (entityPrefix scope entityId) st st') st := by
  unfold MemoryStore.exportPurgeRestore
  refine (Prog.ends_bind _ _ _ _).mpr ((ends_raising (ends_exportObjects s hs he hfuel)).mono ?_)
  rintro r st₁ ⟨rfl, rfl⟩
  rw [Prog.afterEnd_ok]
  have hless := hfuel
  rw [← length_listing] at hless
  refine (Prog.ends_bind _ _ _ _).mpr ((ends_purge s hs he hpasses hless).mono ?_)
  rintro r st₂ ⟨hgone, hr⟩
  rcases hr with rfl | ⟨e, hcache, hfails, rfl⟩
  · rw [Prog.afterEnd_ok]
    have hperm := horder (st₁.exportOf (entityPrefix scope entityId))
    have hnodup : ((order (st₁.exportOf (entityPrefix scope entityId))).map (·.key)).Nodup := by
      rw [(hperm.map _).nodup_iff, keys_exportOf]
      exact nodup_keysUnder _ _
    refine (Prog.ends_bind _ _ _ _).mpr ((ends_raising (ends_putAll hnodup)).mono ?_)
    rintro r st₃ ⟨rfl, hput, hkept⟩
    exact .inr ⟨rfl, restored_of_put hperm hgone hput hkept⟩
  · exact .inl ⟨e, hcache, hfails, rfl⟩

/-- An export that gets past its checks. -/
structure AnyCall.Exports (c : AnyCall) (scope entityId : Str) : Prop where
  call : c = .exportObjects scope entityId
  scope : isValidSegment scope = true
  entity : isValidSegment entityId = true

/-- How a call ends, as far as it is an export. -/
def Invocation.ExportEnds (i : Invocation AnyCall) (tr : StoreTrace) (r : Except Exc AnyResult) : Prop :=
  ∀ scope entityId, i.call.Exports scope entityId → ∀ a, r = .ok a →
    ∃ out, a = .exported out ∧ Exported (entityPrefix scope entityId) none tr out

/-- Every export ends as it should, in every run. -/
theorem sat_exports (i : Invocation AnyCall) :
    i.anyBody.Sat failing (fun _ _ => True) i.ExportEnds [] := by
  by_cases hexport : ∃ scope entityId, i.call.Exports scope entityId
  · obtain ⟨scope, entityId, h⟩ := hexport
    have honly : ∀ {sc en}, i.call.Exports sc en → sc = scope ∧ en = entityId := by
      intro sc en h'
      have hcall := h.call.symm.trans h'.call
      cases hcall
      exact ⟨rfl, rfl⟩
    rw [Invocation.anyBody, h.call, AnyCall.body, exportObjects_eq i.store h.scope h.entity]
    refine (sat_exportPages i.store i.fuel none []).andThen ?_ ?_
    · intro tr out hr sc en h' a ha
      obtain ⟨rfl, rfl⟩ := honly h'
      cases ha
      exact ⟨out, rfl, hr.2 out rfl⟩
    · intro tr e _ sc en h' a ha
      cases ha
  · exact (Prog.issues_true _).sat (fun _ _ _ => trivial)
      fun _ _ _ sc en h => absurd ⟨sc, en, h⟩ hexport

/-- What an export in a run returned. -/
structure ExportOutcome (scope entityId : Str) (t : Nat) (p : AnyPool) (out : List ExportedObject) :
    Prop where
  ascending : (out.map (·.key)).Pairwise (· < ·)
  /-- Each object was stored when it was read. -/
  stored : ∀ o ∈ out, (entityPrefix scope entityId).isPrefixOf o.key = true ∧
    ∃ l l' st obj, p.log = l ++ (t, readEvent o.key st) :: l' ∧ st.get o.key = some obj ∧
      o = exported o.key obj
  /-- Each key that was there at every step of the export is in it. -/
  complete : ∀ k, (entityPrefix scope entityId).isPrefixOf k = true →
    (∀ e, (t, e) ∈ p.log → (e.pre.get k).isSome = true) → k ∈ out.map (·.key)

/-- **Export is faithful and restores.** -/
theorem export_faithful {scope entityId : Str} :
    (∀ (w : InMemoryStorage) (p : AnyPool) (t : Nat) (th : AnyThread),
      Pool.Run failing Invocation.anyBody (fun _ => True) w p → p.threads[t]? = some th →
      th.call.call.Exports scope entityId → ∀ a, p.returned t = some (.ok a) →
        ∃ out, a = .exported out ∧ ExportOutcome scope entityId t p out) ∧
    (∀ (s : MemoryStore) (fuel : Nat) (now : DateTime) (fails : Exc → Prop) (st : InMemoryStorage)
      (maxPasses : Int) (order : List ExportedObject → List ExportedObject),
      isValidSegment scope = true → isValidSegment entityId = true → 1 ≤ maxPasses →
      (∀ l, (order l).Perm l) → (st.keysUnder (entityPrefix scope entityId)).length < fuel →
      (s.exportObjects fuel scope entityId).Ends (handlesAlone now)
        (fun r st' => r = .ok (st.exportOf (entityPrefix scope entityId)) ∧ st' = st) st ∧
      (s.exportPurgeRestore fuel scope entityId maxPasses order).Ends (handlesRaising now fails)
        (fun r st' => (∃ e, s.indexCache.isSome = true ∧ fails e ∧ r = .error e) ∨
          r = .ok (st.exportOf (entityPrefix scope entityId)) ∧
          Restored (entityPrefix scope entityId) st st') st) := by
  refine ⟨fun w p t th h ht hexport a hr => ?_, ?_⟩
  · obtain ⟨th', ht', hend⟩ := Pool.returned_eq_some.mp hr
    cases ht.symm.trans ht'
    obtain ⟨out, rfl, hout⟩ := h.post sat_exports ht hend scope entityId hexport a rfl
    refine ⟨out, rfl, hout.ascending, fun o ho => ⟨(hout.under o ho).1, ?_⟩, fun k hunder hk => ?_⟩
    · obtain ⟨st, obj, hmem, hobj, hsame⟩ := hout.stored o ho
      obtain ⟨l, l', hl⟩ := List.append_of_mem (mem_ownTrace.mp hmem)
      exact ⟨l, l', st, obj, hl, hobj, hsame⟩
    · exact hout.complete k hunder (behind_none k) fun e he => hk e (mem_ownTrace.mp he)
  · intro s fuel now fails st maxPasses order hs he hpasses horder hfuel
    exact ⟨ends_exportObjects s hs he hfuel,
      ends_exportPurgeRestore s horder hs he hpasses hfuel⟩

/-- The keys of the objects an export returned. -/
def AnyResult.exportedKeys : AnyResult → Option (List Str)
  | .exported out => some (out.map (·.key))
  | _ => none

/-- An export beside a delete of one of two files. -/
def exportBesideDelete : Option AnyPool :=
  Pool.exec answerAt Invocation.anyBody
    [.invoke ⟨.default, 2, .exportObjects (str "user") (str "u1")⟩, .act 0 noon,
      .invoke ⟨.default, 1, .storage (.deleteIfVersion (str "user/u1/b") (str "2"))⟩, .act 1 noon,
      .act 0 noon, .act 0 noon]
    (Pool.init ((InMemoryStorage.single (str "user/u1/a") [7]).putLocked (str "user/u1/b") [8] .empty))

/-- Objects of an entity, one of them no file and one of its system area, and one of an entity whose id extends
its own. -/
def besideExtending : InMemoryStorage :=
  ((((InMemoryStorage.single (str "user/u10/notes/n.md") [1]).putLocked (str "user/u1/junk") [0xFF] .empty).putLocked
    (str "user/u1/notes/n.md") [2] (metadataMap [] (str "[]") (str "[]") (str "2026-01-01T00:00:00Z"))).putLocked
    (str "user/u1/system/s.md") [3] .empty)

end

/-- The file that was there all the time is exported. Alone, with pages of one key, an entity's objects are
restored in reverse, beside an entity whose id extends its own. -/
theorem export_faithful_beside_delete : let _ := Interpreter.ascii
    (∃ p out, exportBesideDelete = some p ∧ p.returned 0 = some (.ok (.exported out)) ∧
      out.map (·.key) = [str "user/u1/a"] ∧ ExportOutcome (str "user") (str "u1") 0 p out) ∧
    (besideExtending.exportOf (entityPrefix (str "user") (str "u1"))).map (·.key) =
      [str "user/u1/junk", str "user/u1/notes/n.md", str "user/u1/system/s.md"] ∧
    (MemoryStore.exportPurgeRestore onePerPage 5 (str "user") (str "u1") 1 List.reverse).Ends
      (handlesRaising noon fun _ => False)
      (fun r st' => r = .ok (besideExtending.exportOf (entityPrefix (str "user") (str "u1"))) ∧
        Restored (entityPrefix (str "user") (str "u1")) besideExtending st') besideExtending := by
  intro _
  have hends : (exportBesideDelete.any fun p =>
      ((p.returned 0).any fun r => r.toOption.bind (·.exportedKeys) = some [str "user/u1/a"]) = true ∧
      (p.threads[0]?.any fun th => th.call.call =
        .exportObjects (str "user") (str "u1")) = true) = true := by
    decide +kernel
  obtain ⟨p, hp, h⟩ := (Option.any_eq_true _ _).mp hends
  rw [decide_eq_true_eq] at h
  obtain ⟨hreturned, hthread⟩ := h
  obtain ⟨r, hr, hkeys⟩ := (Option.any_eq_true _ _).mp hreturned
  obtain ⟨th, ht, hcall⟩ := (Option.any_eq_true _ _).mp hthread
  have hrun : Pool.Run failing Invocation.anyBody (fun _ => True) _ p :=
    Pool.Run.exec answerAt answerAt_failing (.init trivial) hp
  have hscope : isValidSegment (str "user") = true := by decide +kernel
  have hentity : isValidSegment (str "u1") = true := by decide +kernel
  have hexports : th.call.call.Exports (str "user") (str "u1") :=
    ⟨of_decide_eq_true hcall, hscope, hentity⟩
  have hkeys := of_decide_eq_true hkeys
  refine ⟨?_, by decide +kernel, ?_⟩
  · cases r with
    | error e => cases hkeys
    | ok a =>
      obtain ⟨out, rfl, houtcome⟩ := export_faithful.1 _ p 0 th hrun ht hexports a hr
      exact ⟨p, out, hp, hr, Option.some.inj hkeys, houtcome⟩
  · refine (export_faithful.2 onePerPage 5 noon (fun _ => False) besideExtending 1 _ hscope hentity
      (by decide) List.reverse_perm (by decide +kernel)).2.mono ?_
    rintro r st' (⟨e, -, hfails, -⟩ | h)
    · exact hfails.elim
    · exact h

end Wenchang
