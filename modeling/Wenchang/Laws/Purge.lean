import Wenchang.Core.Export
import Wenchang.Laws.Atomic
import Wenchang.Laws.NoLostUpdate

/-!
# Purge

What `purge` does among other calls, over a storage of which any step may fail, and what it does alone.
`PurgeStep` says of each of its operations what it did before; `PurgeEnd` says how it ends. A pass that
found nothing is one empty listing from the start, so at that moment nothing was there, and nothing of
the purge comes after it but the invalidation.
-/

namespace Wenchang

open Py Ordered Interaction

/-! ## Rules for a storage that fails -/

section

variable {α : Type} {G : StoreTrace → StoreOp → Prop} {tr : StoreTrace}

/-- Storage does the operation, or raises and does nothing. -/
theorem failing_storage {o : StorageOp} {st st' : InMemoryStorage} {a : o.Ans}
    (h : failing.handles st (.storage o) a st') : (a, st') = InMemoryStorage.step o st ∨
      ∃ e : Exc, e.Outside ∧ a = o.raised e ∧ st' = st := h

/-- An operation that raised. -/
def raisedEvent (o : StorageOp) (e : Exc) (st : InMemoryStorage) : Event StoreSig InMemoryStorage :=
  ⟨st, .storage o, o.raised e, st⟩

/-- A page that may fail. -/
theorem sat_failing_list {pre : Str} {after : Option Str} {limit : Nat}
    {Q : StoreTrace → Except Exc (List ListedObject) → Prop}
    (hG : G tr (.storage (.listPage pre after limit)))
    (hok : ∀ st, LaterThan tr st →
      Q (tr ++ [listEvent pre after limit st]) (.ok (st.listPage pre after limit)))
    (herr : ∀ st e, e.Outside → Q (tr ++ [raisedEvent (.listPage pre after limit) e st]) (.error e)) :
    (storageListPage pre after limit).Sat failing G Q tr := by
  refine ⟨hG, fun st a st' h => ?_⟩
  have hrely := h.rely
  have hh : failing.handles st _ a st' := h.handles
  rcases failing_storage hh with hstep | ⟨e, he, rfl, rfl⟩
  · obtain ⟨rfl, rfl⟩ := Prod.mk.inj
      (hstep.trans (show _ = (Except.ok (st.listPage pre after limit), st) from rfl))
    exact hok _ hrely
  · exact herr _ e he

/-- A get that may fail. -/
theorem sat_failing_get {key : Str} {Q : StoreTrace → Except Exc (Option StoredObject) → Prop}
    (hG : G tr (.storage (.get key)))
    (hok : ∀ st, LaterThan tr st → Q (tr ++ [readEvent key st]) (.ok (st.get key)))
    (herr : ∀ st e, e.Outside → Q (tr ++ [raisedEvent (.get key) e st]) (.error e)) :
    (storageGet key).Sat failing G Q tr := by
  refine ⟨hG, fun st a st' h => ?_⟩
  have hrely := h.rely
  have hh : failing.handles st _ a st' := h.handles
  rcases failing_storage hh with hstep | ⟨e, he, rfl, rfl⟩
  · obtain ⟨rfl, rfl⟩ := Prod.mk.inj (hstep.trans (show _ = (Except.ok (st.get key), st) from rfl))
    exact hok _ hrely
  · exact herr _ e he

end

/-! ## What a purge does -/

/-- Operations on storage only. -/
def StorageOnly (tr : StoreTrace) : Prop := ∀ e ∈ tr, ¬ e.op.Quiet

/-- A listing of the trace showed this key at this version. -/
def Showed (tr : StoreTrace) (key version : Str) : Prop :=
  ∃ pre after limit st metadata, listEvent pre after limit st ∈ tr ∧
    ⟨key, metadata, version⟩ ∈ st.listPage pre after limit

/-- What a purge of a prefix may do after a trace. -/
def PurgeStep (pre : Str) (tr : StoreTrace) : StoreOp → Prop
  | .storage (.listPage pre' _ _) => pre' = pre ∧ StorageOnly tr
  | .storage (.deleteIfVersion key version) =>
    pre.isPrefixOf key = true ∧ Showed tr key version ∧ StorageOnly tr
  | .storage _ => False
  | _ => True

/-- The operations of one invalidation of an entity's index: it stops at a set that raises. -/
inductive Invalidation (s : MemoryStore) (scope entityId : Str) : StoreTrace → Prop
  | uncached (none : s.indexCache = none) : Invalidation s scope entityId []
  | done (cache : IndexCache) (cached : s.indexCache = some cache) (token : Str)
      (st₁ st₂ st₃ st₁' st₂' st₃' : InMemoryStorage) (a : Except Exc Unit) :
    Invalidation s scope entityId [⟨st₁, .uuid4, token, st₁'⟩,
      ⟨st₂, .cacheSet (tokenKey cache scope entityId) token, .ok (), st₂'⟩,
      ⟨st₃, .cacheSet (listingKey cache scope entityId) tombstone, a, st₃'⟩]
  | stopped (cache : IndexCache) (cached : s.indexCache = some cache) (token : Str)
      (st₁ st₂ st₁' st₂' : InMemoryStorage) (e : Exc) :
    Invalidation s scope entityId [⟨st₁, .uuid4, token, st₁'⟩,
      ⟨st₂, .cacheSet (tokenKey cache scope entityId) token, .error e, st₂'⟩]

/-- How the passes of a purge end. A return comes right after a listing that found nothing under the
prefix, and counts the deletes that committed; a purge that is incomplete has just seen an object. -/
def PassesEnd (pre : Str) (tr : StoreTrace) : Except Exc Nat → Prop
  | .ok n => n = tr.countP (Committed ·) ∧ ∃ tr' st limit, tr = tr' ++ [listEvent pre none limit st] ∧
      ∀ k, (st.get k).isSome = true → pre.isPrefixOf k = false
  | .error (.purgeIncompleteError _ _ _) => ∃ tr' st, tr = tr' ++ [listEvent pre none 1 st] ∧
      ∃ k, (st.get k).isSome = true ∧ pre.isPrefixOf k = true
  | .error _ => True

/-- How a purge ends: its passes, then one invalidation. -/
def PurgeEnd (s : MemoryStore) (scope entityId : Str) (tr : StoreTrace) (r : Except Exc Nat) : Prop :=
  ∃ passes invalidation outcome, tr = passes ++ invalidation ∧ StorageOnly passes ∧
    PassesEnd (entityPrefix scope entityId) passes outcome ∧ Invalidation s scope entityId invalidation ∧
    (r = outcome ∨ ∃ e, r = .error e ∧ e.Outside ∧ ∃ n, outcome = .ok n)

/-- Two traces of storage in sequence are one. -/
theorem StorageOnly.append {tr tr' : StoreTrace} (h : StorageOnly tr) (h' : StorageOnly tr') :
    StorageOnly (tr ++ tr') := fun e he => (List.mem_append.mp he).elim (h e) (h' e)

/-- An event of storage goes on a trace of storage. -/
theorem StorageOnly.concat {tr : StoreTrace} (h : StorageOnly tr) {e : Event StoreSig InMemoryStorage}
    (he : ¬ e.op.Quiet) : StorageOnly (tr ++ [e]) :=
  h.append fun _ hmem => List.mem_singleton.mp hmem ▸ he

/-- What a trace showed it showed. -/
theorem Showed.append {tr : StoreTrace} {key version : Str} (h : Showed tr key version)
    (q : StoreTrace) : Showed (tr ++ q) key version := by
  obtain ⟨pre, after, limit, st, metadata, hmem, hin⟩ := h
  exact ⟨pre, after, limit, st, metadata, List.mem_append_left _ hmem, hin⟩

/-- An operation after which storage is as it was is not counted. -/
theorem countP_committed_same (tr : StoreTrace) (st : InMemoryStorage) (o : StoreOp) (a : o.Ans) :
    (tr ++ [(⟨st, o, a, st⟩ : Event StoreSig InMemoryStorage)]).countP (Committed ·) =
      tr.countP (Committed ·) := by
  simp [List.countP_append]

/-- A delete that lands is counted. -/
theorem countP_committed_delete (tr : StoreTrace) {st : InMemoryStorage} {key v : Str}
    (h : st.version key = some v) (a : Except Exc Unit) :
    (tr ++ [(⟨st, .storage (.deleteIfVersion key v), a, st.remove key⟩ :
      Event StoreSig InMemoryStorage)]).countP (Committed ·) = tr.countP (Committed ·) + 1 := by
  obtain ⟨o, ho, -⟩ := InMemoryStorage.version_eq_some.mp h
  simp [List.countP_append, InMemoryStorage.remove_ne ho]

/-! ## Its parts -/

section Parts

variable {pre : Str}

/-- The deletes of a page: each is of an object that was shown. -/
theorem sat_purgePage {page : List ListedObject} {deleted : Nat} {tr : StoreTrace}
    (htr : StorageOnly tr) (hcount : deleted = tr.countP (Committed ·))
    (hpage : ∀ obj ∈ page, pre.isPrefixOf obj.key = true ∧ Showed tr obj.key obj.version) :
    (MemoryStore.purgePage page deleted).Sat failing (PurgeStep pre)
      (fun tr' r => StorageOnly tr' ∧ match r with
        | .ok n => n = tr'.countP (Committed ·) ∧ (page = [] → tr' = tr)
        | .error e => e.Outside) tr := by
  induction page generalizing deleted tr with
  | nil => exact ⟨htr, hcount, fun _ => rfl⟩
  | cons obj rest ih =>
    obtain ⟨hunder, hshowed⟩ := hpage obj List.mem_cons_self
    refine (Prog.sat_bind _ _ _ _).mpr ⟨⟨hunder, hshowed, htr⟩, fun st a st' h => ?_⟩
    have hnext : ∀ (a : Except Exc Unit) (st'' : InMemoryStorage) (n : Nat),
        n = (tr ++ [(⟨st, .storage (.deleteIfVersion obj.key obj.version), a, st''⟩ :
          Event StoreSig InMemoryStorage)]).countP (Committed ·) →
        (MemoryStore.purgePage rest n).Sat failing (PurgeStep pre)
          (fun tr' r => StorageOnly tr' ∧ match r with
            | .ok n => n = tr'.countP (Committed ·) ∧ (obj :: rest = [] → tr' = tr)
            | .error e => e.Outside)
          (tr ++ [⟨st, .storage (.deleteIfVersion obj.key obj.version), a, st''⟩]) := by
      intro a st'' n hn
      have hstorage : StorageOnly (tr ++
          [⟨st, .storage (.deleteIfVersion obj.key obj.version), a, st''⟩]) := htr.concat not_false
      refine (ih hstorage hn fun o ho => ?_).post fun tr' r hr => ?_
      · obtain ⟨hunder, hshowed⟩ := hpage o (List.mem_cons_of_mem _ ho)
        exact ⟨hunder, hshowed.append _⟩
      · refine ⟨hr.1, ?_⟩
        cases r with
        | ok n => exact ⟨hr.2.1, fun hnil => nomatch hnil⟩
        | error e => exact hr.2
    have hh : failing.handles st _ a st' := h.handles
    rcases failing_storage hh with hstep | ⟨e, he, rfl, hsame⟩
    · have hres : (a, st') = st.deleteIfVersion obj.key obj.version := hstep
      rcases st.deleteIfVersion_cases obj.key obj.version with ⟨hv, hdel⟩ | ⟨hv, hdel⟩
      · obtain ⟨rfl, rfl⟩ := Prod.mk.inj (hres.trans hdel)
        refine hnext (.ok ()) _ (deleted + 1) ?_
        rw [countP_committed_delete tr hv, hcount]
      · obtain ⟨rfl, hsame⟩ := Prod.mk.inj (hres.trans hdel)
        subst hsame
        refine hnext (.error (.preconditionFailedError obj.key)) _ deleted ?_
        rw [countP_committed_same, hcount]
    · subst hsame
      -- A spurious precondition failure goes on, anything else stops.
      cases e with
      | preconditionFailedError key =>
        refine hnext (.error (.preconditionFailedError key)) _ deleted ?_
        rw [countP_committed_same, hcount]
      | _ => exact ⟨htr.concat not_false, he⟩

variable (s : MemoryStore)

/-- One pass. If it found nothing, it was one listing, and that was empty. -/
theorem sat_purgePass {fuel : Nat} {startAfter : Option Str} {found : Bool} {deleted : Nat}
    {tr : StoreTrace} (htr : StorageOnly tr) (hcount : deleted = tr.countP (Committed ·)) :
    (s.purgePass pre fuel startAfter found deleted).Sat failing (PurgeStep pre)
      (fun tr' r => StorageOnly tr' ∧ match r with
        | .ok (found', n) => n = tr'.countP (Committed ·) ∧ (found' = false → found = false ∧
            ∃ st, tr' = tr ++ [listEvent pre startAfter s.listPageSize st] ∧
              st.listPage pre startAfter s.listPageSize = [])
        | .error e => e.Outside) tr := by
  induction fuel generalizing startAfter found deleted tr with
  | zero => exact trivial
  | succ fuel ih =>
    unfold MemoryStore.purgePass
    refine (Prog.sat_bind _ _ _ _).mpr (sat_failing_list ⟨rfl, htr⟩ (fun st _ => ?_) fun st e he => ?_)
    · have hstorage : StorageOnly (tr ++ [listEvent pre startAfter s.listPageSize st]) :=
        htr.concat not_false
      have hshown : ∀ obj ∈ st.listPage pre startAfter s.listPageSize, pre.isPrefixOf obj.key = true ∧
          Showed (tr ++ [listEvent pre startAfter s.listPageSize st]) obj.key obj.version :=
        fun obj hobj => ⟨(mem_listing.mp (List.mem_of_mem_take hobj)).1, pre, startAfter, _, st,
          obj.metadata, List.mem_append_right _ (List.mem_singleton_self _), hobj⟩
      have hcount' : deleted =
          (tr ++ [listEvent pre startAfter s.listPageSize st]).countP (Committed ·) := by
        rw [listEvent, countP_committed_same, hcount]
      refine (sat_purgePage hstorage hcount' hshown).andThen ?_ fun tr' e hr => hr
      rintro tr' n ⟨htr', hn, hnil⟩
      dsimp only
      split
      · refine ⟨htr', hn, fun hfound => ?_⟩
        obtain ⟨hfalse, hempty⟩ := Bool.or_eq_false_iff.mp hfound
        have hpage : st.listPage pre startAfter s.listPageSize = [] := by simpa using hempty
        exact ⟨hfalse, st, hnil hpage, hpage⟩
      next hfull =>
        refine (ih htr' hn).post fun tr'' r hr => ⟨hr.1, ?_⟩
        cases r with
        | error e => exact hr.2
        | ok pass =>
          obtain ⟨-, hn', hfound⟩ := hr
          refine ⟨hn', fun hfalse => ?_⟩
          -- A full page is not empty, so something was found.
          obtain ⟨hnone, -⟩ := hfound hfalse
          obtain ⟨-, hempty⟩ := Bool.or_eq_false_iff.mp hnone
          have hpage : st.listPage pre startAfter s.listPageSize = [] := by simpa using hempty
          rw [hpage] at hfull
          exact absurd s.listPageSize_pos hfull
    · exact ⟨htr.concat not_false, he⟩

/-- An empty listing from the start leaves nothing under the prefix. -/
theorem not_under_of_listPage_eq_nil {st : InMemoryStorage} {limit : Nat} (hlimit : 0 < limit)
    (h : st.listPage pre none limit = []) {k : Str} (hk : (st.get k).isSome = true) :
    pre.isPrefixOf k = false := by
  rw [InMemoryStorage.listPage, List.take_eq_nil_iff] at h
  have hnil : st.listing pre none = [] := h.resolve_left (Nat.ne_of_gt hlimit)
  rw [← Bool.not_eq_true]
  intro hunder
  obtain ⟨obj, hobj⟩ := Option.isSome_iff_exists.mp hk
  have hmem : listed k obj ∈ st.listing pre none :=
    mem_listing.mpr ⟨hunder, behind_none k, obj, hobj, rfl⟩
  rw [hnil] at hmem
  cases hmem

/-- All passes, and the final listing when they run out. -/
theorem sat_purgePasses {fuel : Nat} {scope entityId : Str} {maxPasses passes deleted : Nat}
    {tr : StoreTrace} (htr : StorageOnly tr) (hcount : deleted = tr.countP (Committed ·)) :
    (s.purgePasses fuel pre scope entityId maxPasses passes deleted).Sat failing (PurgeStep pre)
      (fun tr' r => StorageOnly tr' ∧ PassesEnd pre tr' r) tr := by
  have houtside : ∀ {tr : StoreTrace} {e : Exc}, e.Outside → PassesEnd pre tr (.error e) :=
    fun {tr e} he => by
      cases e with
      | purgeIncompleteError _ _ _ => exact he.elim
      | _ => exact trivial
  induction passes generalizing deleted tr with
  | zero =>
    unfold MemoryStore.purgePasses
    refine (Prog.sat_bind _ _ _ _).mpr (sat_failing_list ⟨rfl, htr⟩ (fun st _ => ?_) fun st e he => ?_)
    · have hstorage : StorageOnly (tr ++ [listEvent pre none 1 st]) := htr.concat not_false
      rw [Prog.andThen_ok]
      cases hleft : st.listPage pre none 1 with
      | nil =>
        refine ⟨hstorage, ?_, tr, st, 1, rfl, fun k => not_under_of_listPage_eq_nil Nat.one_pos hleft⟩
        rw [listEvent, countP_committed_same, hcount]
      | cons obj rest =>
        have hmem : obj ∈ st.listPage pre none 1 := hleft ▸ List.mem_cons_self
        obtain ⟨hunder, -, stored, hstored, -⟩ := mem_listing.mp (List.mem_of_mem_take hmem)
        exact ⟨hstorage, tr, st, rfl, obj.key, by rw [hstored]; rfl, hunder⟩
    · exact ⟨htr.concat not_false, houtside he⟩
  | succ passes ih =>
    unfold MemoryStore.purgePasses
    refine (sat_purgePass s htr hcount).andThen ?_ fun tr' e hr => ⟨hr.1, houtside hr.2⟩
    rintro tr' ⟨found, n⟩ ⟨htr', hn, hfound⟩
    dsimp only
    split
    next hfalse =>
      obtain ⟨-, st, htrace, hpage⟩ := hfound hfalse
      exact ⟨htr', hn, tr, st, _, htrace, fun k => not_under_of_listPage_eq_nil s.listPageSize_pos hpage⟩
    next => exact ih htr' hn

end Parts

section

variable [Interpreter] (s : MemoryStore) {scope entityId : Str}

/-- Valid segments are accepted. -/
theorem checkEntitySegments_valid (hs : isValidSegment scope = true)
    (he : isValidSegment entityId = true) :
    MemoryStore.checkEntitySegments scope entityId = .ok () := by
  simp [MemoryStore.checkEntitySegments, hs, he]

/-- One invalidation. A set that raises ends it. -/
theorem sat_invalidateIndex {G : StoreTrace → StoreOp → Prop}
    (hG : ∀ tr o, StoreOp.Quiet o → G tr o) (hs : isValidSegment scope = true)
    (he : isValidSegment entityId = true) (tr : StoreTrace) :
    (s.invalidateIndex scope entityId).Sat failing G
      (fun tr' r => ∃ inv, tr' = tr ++ inv ∧ Invalidation s scope entityId inv ∧
        ∀ e, r = .error e → e.Outside) tr := by
  unfold MemoryStore.invalidateIndex
  rw [checkEntitySegments_valid hs he, Prog.ofExcept_ok, Prog.ret_bind]
  cases hcache : s.indexCache with
  | none => exact ⟨[], (List.append_nil tr).symm, .uncached hcache, fun e he => nomatch he⟩
  | some cache =>
    refine ⟨hG _ _ trivial, fun st₁ token st₁' _ => ⟨hG _ _ trivial, fun st₂ a st₂' h₂ => ?_⟩⟩
    have hset : ∀ e, a = .error e → e.Outside := h₂.handles.2
    cases a with
    | error e =>
      refine ⟨_, List.append_assoc _ _ _, .stopped cache hcache token st₁ st₂ st₁' st₂' e, ?_⟩
      exact fun e' he' => hset e' (congrArg _ (Except.error.inj he'))
    | ok u =>
      refine ⟨hG _ _ trivial, fun st₃ a st₃' h₃ => ?_⟩
      have hset : ∀ e, a = .error e → e.Outside := h₃.handles.2
      refine (Prog.sat_ofExcept _ _).mpr ⟨_, ?_, .done cache hcache token st₁ st₂ st₃ st₁' st₂' st₃' a, hset⟩
      rw [List.append_assoc, List.append_assoc]
      rfl

/-- **What a purge does**, whatever happens between its steps. -/
theorem sat_purge (fuel : Nat) {maxPasses : Int} (hs : isValidSegment scope = true)
    (he : isValidSegment entityId = true) (hpasses : 1 ≤ maxPasses) :
    (s.purge fuel scope entityId maxPasses).Sat failing (PurgeStep (entityPrefix scope entityId))
      (PurgeEnd s scope entityId) [] := by
  have hquiet : ∀ tr (o : StoreOp), o.Quiet → PurgeStep (entityPrefix scope entityId) tr o := by
    intro tr o ho
    cases o with
    | storage o => exact ho.elim
    | _ => exact trivial
  have hstart : StorageOnly [] := fun e he => absurd he List.not_mem_nil
  unfold MemoryStore.purge
  rw [checkEntitySegments_valid hs he, Prog.ofExcept_ok, Prog.ret_bind,
    Prog.raiseIf_neg (Int.not_lt.mpr hpasses), Prog.ret_bind,
    show (orValueError (buildPrefix scope (some entityId) none) : Store Str) =
      .ret (entityPrefix scope entityId) from by rw [buildPrefix_entity hs he]; rfl, Prog.ret_bind]
  refine (Prog.sat_bind _ _ _ _).mpr ((Prog.sat_attempt _ _ _).mpr ?_)
  refine (sat_purgePasses s hstart (Eq.refl 0)).post fun tr r hr => ?_
  obtain ⟨htr, hend⟩ := hr
  rw [Prog.andThen_ok]
  cases r with
  | error e =>
    refine (Prog.sat_bind _ _ _ _).mpr ((Prog.sat_attempt _ _ _).mpr ?_)
    refine (sat_invalidateIndex s hquiet hs he tr).post fun tr' r hr => ?_
    obtain ⟨inv, rfl, hinv, -⟩ := hr
    exact ⟨tr, inv, _, rfl, htr, hend, hinv, .inl rfl⟩
  | ok n =>
    refine (sat_invalidateIndex s hquiet hs he tr).andThen ?_ ?_
    · rintro tr' u ⟨inv, rfl, hinv, -⟩
      exact ⟨tr, inv, _, rfl, htr, hend, hinv, .inl rfl⟩
    · rintro tr' e ⟨inv, rfl, hinv, hout⟩
      exact ⟨tr, inv, _, rfl, htr, hend, hinv, .inr ⟨e, rfl, hout e rfl, n, rfl⟩⟩

end

/-! ## A purge alone -/

/-- `st'` is `st` without these keys. -/
structure Without (gone : Str → Prop) (st st' : InMemoryStorage) : Prop where
  removed : ∀ k, gone k → st'.get k = none
  kept : ∀ k, ¬ gone k → st'.get k = st.get k
  nextToken : st'.nextToken = st.nextToken

/-- What is gone may be said in another way. -/
theorem Without.of_iff {gone gone' : Str → Prop} {st st' : InMemoryStorage} (h : Without gone st st')
    (hiff : ∀ k, gone k ↔ gone' k) : Without gone' st st' where
  removed k hk := h.removed k ((hiff k).mpr hk)
  kept k hk := h.kept k fun hgone => hk ((hiff k).mp hgone)
  nextToken := h.nextToken

/-- What went in two steps is gone. -/
theorem Without.trans {gone gone' : Str → Prop} {st st' st'' : InMemoryStorage}
    (h : Without gone st st') (h' : Without gone' st' st'') :
    Without (fun k => gone k ∨ gone' k) st st'' where
  removed k hk := by
    by_cases hk' : gone' k
    · exact h'.removed k hk'
    · rw [h'.kept k hk', h.removed k (hk.resolve_right hk')]
  kept k hk := by
    rw [not_or] at hk
    rw [h'.kept k hk.2, h.kept k hk.1]
  nextToken := h'.nextToken.trans h.nextToken

/-- Storage is without what it does not hold. -/
theorem without_nothing {gone : Str → Prop} (st : InMemoryStorage) (h : ∀ k, gone k → st.get k = none) :
    Without gone st st := ⟨h, fun _ _ => rfl, rfl⟩

/-- A delete takes its key. -/
theorem without_remove (st : InMemoryStorage) (key : Str) : Without (· = key) st (st.remove key) where
  removed k hk := by rw [InMemoryStorage.get_remove, if_pos hk]
  kept k hk := by rw [InMemoryStorage.get_remove, if_neg hk]
  nextToken := rfl

/-- The keys under a prefix. -/
def InMemoryStorage.keysUnder (st : InMemoryStorage) (pre : Str) : List Str :=
  st.objects.keys.filter (pre.isPrefixOf ·)

/-- A whole listing has one object for each key below its prefix. -/
theorem length_listing (st : InMemoryStorage) (pre : Str) :
    (st.listing pre none).length = (st.keysUnder pre).length := by
  simp [InMemoryStorage.listing, InMemoryStorage.keysUnder, FinMap.keys, List.filter_map,
    Function.comp_def]

section Alone

variable {now : DateTime} {st : InMemoryStorage}

/-- The deletes of a page that shows what is stored. -/
theorem ends_purgePage {page : List ListedObject} {deleted : Nat} (hnodup : (page.map (·.key)).Nodup)
    (hpage : ∀ obj ∈ page, st.version obj.key = some obj.version) :
    (MemoryStore.purgePage page deleted).Ends (handlesAlone now)
      (fun r st' => r = .ok (deleted + page.length) ∧ Without (· ∈ page.map (·.key)) st st') st := by
  induction page generalizing deleted st with
  | nil => exact ⟨rfl, without_nothing st fun k hk => absurd hk List.not_mem_nil⟩
  | cons obj rest ih =>
    intro a st' hh
    have hanswer : (a, st') = st.deleteIfVersion obj.key obj.version := hh
    have hcurrent := hpage obj List.mem_cons_self
    rw [InMemoryStorage.deleteIfVersion, if_neg (not_not.mpr hcurrent)] at hanswer
    obtain ⟨rfl, rfl⟩ := Prod.mk.inj hanswer
    rw [List.map_cons, List.nodup_cons] at hnodup
    have hrest : ∀ o ∈ rest, (st.remove obj.key).version o.key = some o.version := by
      intro o ho
      have hne : o.key ≠ obj.key := fun he => hnodup.1 (he ▸ List.mem_map_of_mem ho)
      rw [InMemoryStorage.version, (without_remove st obj.key).kept o.key hne]
      exact hpage o (List.mem_cons_of_mem _ ho)
    refine (ih hnodup.2 hrest).mono fun r st'' hr => ⟨?_, ?_⟩
    · rw [hr.1, List.length_cons, Nat.add_right_comm, Nat.add_assoc]
    · exact ((without_remove st obj.key).trans hr.2).of_iff fun k => by
        rw [List.map_cons, List.mem_cons]

/-- What is shown is current. -/
theorem version_of_mem_listing {pre : Str} {after : Option Str} {obj : ListedObject}
    (h : obj ∈ st.listing pre after) : st.version obj.key = some obj.version := by
  obtain ⟨-, -, stored, hstored, hlisted⟩ := mem_listing.mp h
  rw [InMemoryStorage.version, hstored, hlisted]
  rfl

/-- The keys of a listing are those below its prefix that come after. -/
theorem mem_keys_listing {pre : Str} {after : Option Str} {k : Str} :
    k ∈ (st.listing pre after).map (·.key) ↔
      (st.get k).isSome = true ∧ pre.isPrefixOf k = true ∧ Behind after k := by
  have hread := read_listing st pre after
  constructor
  · intro hk
    obtain ⟨⟨hsome, hpre⟩, hbehind, -⟩ := hread.mem k hk
    exact ⟨hsome, hpre, hbehind⟩
  · rintro ⟨hsome, hpre, hbehind⟩
    exact hread.complete k ⟨hsome, hpre⟩ hbehind (upTo_none k)

/-- Without the listed keys there is nothing under the prefix behind the position. -/
theorem Without.of_listing {pre : Str} {after : Option Str} {st' : InMemoryStorage}
    (h : Without (· ∈ (st.listing pre after).map (·.key)) st st') :
    Without (fun k => pre.isPrefixOf k = true ∧ Behind after k) st st' where
  removed k hk := by
    by_cases hmem : k ∈ (st.listing pre after).map (·.key)
    · exact h.removed k hmem
    · rw [h.kept k hmem, ← Option.not_isSome_iff_eq_none]
      exact fun hsome => hmem (mem_keys_listing.mpr ⟨hsome, hk⟩)
  kept k hk := h.kept k fun hmem => hk (mem_keys_listing.mp hmem).2
  nextToken := h.nextToken

variable (s : MemoryStore) {pre : Str}

/-- One pass that nobody interrupts deletes all it is to visit: deleting a page changes nothing behind
it. -/
theorem ends_purgePass {fuel : Nat} {startAfter : Option Str} {found : Bool} {deleted : Nat}
    (hfuel : (st.listing pre startAfter).length < fuel) :
    (s.purgePass pre fuel startAfter found deleted).Ends (handlesAlone now)
      (fun r st' => r = .ok (found || !(st.listing pre startAfter).isEmpty,
          deleted + (st.listing pre startAfter).length) ∧
        Without (· ∈ (st.listing pre startAfter).map (·.key)) st st') st := by
  induction fuel generalizing startAfter found deleted st with
  | zero => exact absurd hfuel (Nat.not_lt_zero _)
  | succ fuel ih =>
    unfold MemoryStore.purgePass
    refine ends_storageListPage ?_
    have hnodup : ((st.listPage pre startAfter s.listPageSize).map (·.key)).Nodup := by
      rw [InMemoryStorage.listPage, List.map_take]
      exact ((read_listing st pre startAfter).sorted.imp ne_of_lt).sublist (List.take_sublist _ _)
    have hcurrent : ∀ obj ∈ st.listPage pre startAfter s.listPageSize,
        st.version obj.key = some obj.version := fun obj hobj =>
      version_of_mem_listing (List.mem_of_mem_take hobj)
    refine (Prog.ends_bind _ _ _ _).mpr ((ends_purgePage hnodup hcurrent).mono ?_)
    rintro r st₁ ⟨rfl, hpage⟩
    rw [Prog.afterEnd_ok]
    dsimp only
    split
    next hshort =>
      have hall : st.listPage pre startAfter s.listPageSize = st.listing pre startAfter := by
        rw [InMemoryStorage.listPage, List.length_take] at hshort
        exact List.take_of_length_le (by omega)
      rw [hall] at hpage ⊢
      exact ⟨rfl, hpage⟩
    next hfull =>
      have hne : st.listPage pre startAfter s.listPageSize ≠ [] := by
        intro hnil
        rw [hnil] at hfull
        exact hfull s.listPageSize_pos
      obtain ⟨last, hlast⟩ := Option.isSome_iff_exists.mp (List.getLast?_isSome.mpr hne)
      have hsplit := listing_eq_append hlast
      have hread := read_listPage_full hlast
      have hbehind : st₁.listing pre (some last.key) = st.listing pre (some last.key) := by
        refine listing_congr fun k _ hafter => hpage.kept k fun hmem => ?_
        have hle := (hread.mem k hmem).2.2 last.key rfl
        exact absurd (hafter last.key rfl) (not_lt_of_ge hle)
      have hless := length_listing_lt hlast
      rw [hlast, Option.map_some]
      refine (ih (by rw [hbehind]; omega)).mono ?_
      rintro r st₂ ⟨rfl, hrest⟩
      rw [hbehind] at hrest ⊢
      rw [hsplit, List.length_append, List.map_append]
      refine ⟨?_, (hpage.trans hrest).of_iff fun k => List.mem_append.symm⟩
      have hfound := List.isEmpty_eq_false_iff.mpr hne
      have hall := List.isEmpty_eq_false_iff.mpr (List.append_ne_nil_of_left_ne_nil hne
        (st.listing pre (some last.key)))
      simp only [hfound, hall, Bool.not_false, Bool.or_true, Bool.true_or, Nat.add_assoc]

/-- All passes: the first deletes everything, the second or the final listing finds nothing. -/
theorem ends_purgePasses {fuel : Nat} {scope entityId : Str} {maxPasses passes deleted : Nat}
    (hfuel : (st.listing pre none).length < fuel) (hpasses : passes = 0 → st.listing pre none = []) :
    (s.purgePasses fuel pre scope entityId maxPasses passes deleted).Ends (handlesAlone now)
      (fun r st' => r = .ok (deleted + (st.listing pre none).length) ∧
        Without (pre.isPrefixOf · = true) st st') st := by
  have hnothing : ∀ {st' : InMemoryStorage}, st'.listing pre none = [] →
      Without (pre.isPrefixOf · = true) st' st' := by
    intro st' hnil
    refine without_nothing st' fun k hk => ?_
    rw [← Option.not_isSome_iff_eq_none]
    intro hsome
    have hmem := mem_keys_listing.mpr ⟨hsome, hk, behind_none k⟩
    rw [hnil] at hmem
    exact List.not_mem_nil hmem
  induction passes generalizing deleted st with
  | zero =>
    have hnil := hpasses rfl
    unfold MemoryStore.purgePasses
    refine ends_storageListPage ?_
    rw [InMemoryStorage.listPage, hnil]
    exact ⟨rfl, hnothing hnil⟩
  | succ passes ih =>
    unfold MemoryStore.purgePasses
    refine (Prog.ends_bind _ _ _ _).mpr ((ends_purgePass s hfuel).mono ?_)
    rintro r st' ⟨rfl, hgone⟩
    rw [Prog.afterEnd_ok]
    dsimp only
    have hwithout : Without (pre.isPrefixOf · = true) st st' :=
      hgone.of_listing.of_iff fun k => and_iff_left (behind_none k)
    have hnil : st'.listing pre none = [] := by
      refine List.eq_nil_iff_forall_not_mem.mpr fun o ho => ?_
      obtain ⟨hunder, -, obj, hobj, -⟩ := mem_listing.mp ho
      rw [hwithout.removed o.key hunder] at hobj
      cases hobj
    split
    · exact ⟨rfl, hwithout⟩
    · refine (ih (by rw [hnil]; exact Nat.lt_of_le_of_lt (Nat.zero_le _) hfuel) fun _ => hnil).mono ?_
      rintro r st'' ⟨rfl, hrest⟩
      refine ⟨by rw [hnil, List.length_nil, Nat.add_zero], ?_⟩
      exact (hwithout.trans hrest).of_iff fun k => or_self_iff

end Alone

/-- An answer in which only these exceptions are raised by a cache's `set`. -/
def StoreOp.RaisesOnly (fails : Exc → Prop) : (o : StoreOp) → o.Ans → Prop
  | .cacheSet _ _, a => ∀ e, a = .error e → fails e
  | _, _ => True

/-- What a call meets that runs alone, beside a cache whose `set` raises only these exceptions. -/
def handlesRaising (now : DateTime) (fails : Exc → Prop) (st : InMemoryStorage) (o : StoreOp)
    (a : o.Ans) (st' : InMemoryStorage) : Prop :=
  handlesAlone now st o a st' ∧ o.RaisesOnly fails a

/-- A call that does not depend on the cache. -/
theorem ends_raising {α : Type} {now : DateTime} {fails : Exc → Prop} {p : Store α}
    {Q : Except Exc α → InMemoryStorage → Prop} {st : InMemoryStorage}
    (h : p.Ends (handlesAlone now) Q st) : p.Ends (handlesRaising now fails) Q st :=
  h.anti fun _ _ _ _ hh => hh.1

/-- How a purge ends that runs alone: it is done, or the cache raised. -/
def PurgedOr (s : MemoryStore) (fails : Exc → Prop) (n : Nat) (r : Except Exc Nat) : Prop :=
  r = .ok n ∨ ∃ e, s.indexCache.isSome = true ∧ fails e ∧ r = .error e

section

variable [Interpreter] (s : MemoryStore) {scope entityId : Str} {now : DateTime} {fails : Exc → Prop}
  {st : InMemoryStorage}

/-- An invalidation leaves storage, and raises only what the cache raised. -/
theorem ends_invalidateIndex (hs : isValidSegment scope = true) (he : isValidSegment entityId = true) :
    (s.invalidateIndex scope entityId).Ends (handlesRaising now fails)
      (fun r st' => st' = st ∧ (r = .ok () ∨ ∃ e, s.indexCache.isSome = true ∧ fails e ∧ r = .error e))
      st := by
  unfold MemoryStore.invalidateIndex
  rw [checkEntitySegments_valid hs he, Prog.ofExcept_ok, Prog.ret_bind]
  cases s.indexCache with
  | none => exact ⟨rfl, .inl rfl⟩
  | some cache =>
    intro token st₁ htoken
    have hsame : st₁ = st := htoken.1
    subst hsame
    intro a st₂ hset
    have hsame : st₂ = st₁ := hset.1
    subst hsame
    cases a with
    | error e => exact ⟨rfl, .inr ⟨e, rfl, hset.2 e rfl, rfl⟩⟩
    | ok u =>
      intro a st₃ hset
      have hsame : st₃ = st₂ := hset.1
      subst hsame
      cases a with
      | error e => exact ⟨rfl, .inr ⟨e, rfl, hset.2 e rfl, rfl⟩⟩
      | ok u => exact ⟨rfl, .inl rfl⟩

/-- **A purge that runs alone** removes what is under the prefix and counts it. -/
theorem ends_purge {fuel : Nat} {maxPasses : Int} (hs : isValidSegment scope = true)
    (he : isValidSegment entityId = true) (hpasses : 1 ≤ maxPasses)
    (hfuel : (st.listing (entityPrefix scope entityId) none).length < fuel) :
    (s.purge fuel scope entityId maxPasses).Ends (handlesRaising now fails)
      (fun r st' => Without ((entityPrefix scope entityId).isPrefixOf · = true) st st' ∧
        PurgedOr s fails (st.listing (entityPrefix scope entityId) none).length r) st := by
  unfold MemoryStore.purge
  rw [checkEntitySegments_valid hs he, Prog.ofExcept_ok, Prog.ret_bind,
    Prog.raiseIf_neg (Int.not_lt.mpr hpasses), Prog.ret_bind,
    show (orValueError (buildPrefix scope (some entityId) none) : Store Str) =
      .ret (entityPrefix scope entityId) from by rw [buildPrefix_entity hs he]; rfl, Prog.ret_bind]
  refine (Prog.ends_bind _ _ _ _).mpr ((Prog.ends_attempt _ _ _).mpr ?_)
  have hsome : maxPasses.toNat = 0 → st.listing (entityPrefix scope entityId) none = [] := by omega
  refine (ends_raising (ends_purgePasses s hfuel hsome)).mono ?_
  rintro r st' ⟨rfl, hwithout⟩
  rw [Nat.zero_add, Prog.afterEnd_ok]
  refine (Prog.ends_bind _ _ _ _).mpr ((ends_invalidateIndex s hs he).mono ?_)
  rintro r st'' ⟨rfl, hr⟩
  rcases hr with rfl | ⟨e, hcache, hfails, rfl⟩
  · exact ⟨hwithout, .inl rfl⟩
  · exact ⟨hwithout, .inr ⟨e, hcache, hfails, rfl⟩⟩

end

/-! ## A purge among other calls -/

/-- How a purge came out, read off the log of everything that happened. -/
structure PurgeOutcome (s : MemoryStore) (scope entityId : Str) (t : Nat) (p : AnyPool)
    (r : Except Exc AnyResult) : Prop where
  /-- One invalidation, behind the last call of storage. -/
  invalidated : ∃ passes invalidation, ownTrace t p.log = passes ++ invalidation ∧
    StorageOnly passes ∧ Invalidation s scope entityId invalidation
  /-- It returned: at its last listing nothing was there, so what is there now was put later. It
  counts the deletes that committed. -/
  returned : ∀ a, r = .ok a → a = .store (.count ((ownTrace t p.log).countP (Committed ·))) ∧
    ∃ l l' st limit, p.log = l ++ (t, listEvent (entityPrefix scope entityId) none limit st) :: l' ∧
      (∀ e, (t, e) ∈ l' → e.op.Quiet) ∧
      (∀ k, (st.get k).isSome = true → (entityPrefix scope entityId).isPrefixOf k = false) ∧
      ∀ k o, (entityPrefix scope entityId).isPrefixOf k = true → p.world.get k = some o →
        ¬ st.Issued o.version
  /-- It was incomplete: at its last listing something was there. -/
  incomplete : ∀ sc en n, r = .error (.purgeIncompleteError sc en n) →
    ∃ l l' st, p.log = l ++ (t, listEvent (entityPrefix scope entityId) none 1 st) :: l' ∧
      (∀ e, (t, e) ∈ l' → e.op.Quiet) ∧
      ∃ k, (st.get k).isSome = true ∧ (entityPrefix scope entityId).isPrefixOf k = true

/-- A purge that gets past its checks. -/
structure AnyCall.Purges (c : AnyCall) (scope entityId : Str) (maxPasses : Int) : Prop where
  call : c = .store (.purge scope entityId maxPasses)
  scope : isValidSegment scope = true
  entity : isValidSegment entityId = true
  passes : 1 ≤ maxPasses

/-- What a call does, as far as it is a purge. -/
def AnyCall.Step (c : AnyCall) (tr : StoreTrace) (o : StoreOp) : Prop :=
  ∀ scope entityId maxPasses, c.Purges scope entityId maxPasses →
    PurgeStep (entityPrefix scope entityId) tr o

/-- How a call ends, as far as it is a purge. -/
def Invocation.PurgeEnds (i : Invocation AnyCall) (tr : StoreTrace) (r : Except Exc AnyResult) : Prop :=
  ∀ scope entityId maxPasses, i.call.Purges scope entityId maxPasses →
    ∃ r' : Except Exc Nat, r = r'.map (fun n => .store (.count n)) ∧ PurgeEnd i.store scope entityId tr r'

/-- An invalidation asks nothing of storage. -/
theorem Invalidation.quiet {s : MemoryStore} {scope entityId : Str} {tr : StoreTrace}
    (h : Invalidation s scope entityId tr) : ∀ e ∈ tr, e.op.Quiet := by
  cases h with
  | uncached none => simp
  | done => simp [StoreOp.Quiet]
  | stopped => simp [StoreOp.Quiet]

/-- An invalidation commits nothing in an environment where only storage changes storage. -/
theorem Invalidation.countP {s : MemoryStore} {scope entityId : Str} {inv : StoreTrace}
    (h : Invalidation s scope entityId inv)
    (hhandled : ∀ e ∈ inv, failing.handles e.pre e.op e.ans e.post) :
    inv.countP (Committed ·) = 0 := by
  rw [List.countP_eq_zero]
  intro e he hc
  have hquiet := h.quiet e he
  have hh := hhandled e he
  obtain ⟨pre, op, ans, post⟩ := e
  have hsame : post = pre := by
    cases op with
    | storage o => exact absurd hquiet not_false
    | cacheSet key value => exact hh.1
    | _ => exact hh
  exact of_decide_eq_true hc hsame

section

variable [Interpreter]

/-- Every purge ends as it should, in every run. -/
theorem sat_purges (i : Invocation AnyCall) :
    i.anyBody.Sat failing i.call.Step i.PurgeEnds [] := by
  by_cases hpurge : ∃ scope entityId maxPasses, i.call.Purges scope entityId maxPasses
  · obtain ⟨scope, entityId, maxPasses, h⟩ := hpurge
    have honly : ∀ {sc en n}, i.call.Purges sc en n → sc = scope ∧ en = entityId := by
      intro sc en n h'
      have hcall := h.call.symm.trans h'.call
      cases hcall
      exact ⟨rfl, rfl⟩
    have hsat := sat_purge i.store i.fuel h.scope h.entity h.passes
    have hbody : i.anyBody = i.store.purge i.fuel scope entityId maxPasses >>= fun n =>
        .ret (.store (.count n)) := by
      rw [Invocation.anyBody, h.call, AnyCall.body, StoreCall.body]
      exact bind_assoc _ _ _
    rw [hbody]
    have hguarantee : ∀ tr o, PurgeStep (entityPrefix scope entityId) tr o → i.call.Step tr o := by
      intro tr o ho sc en n h'
      obtain ⟨rfl, rfl⟩ := honly h'
      exact ho
    refine (hsat.mono hguarantee fun _ _ hend => hend).andThen ?_ ?_
    · intro tr n hend sc en m h'
      obtain ⟨rfl, rfl⟩ := honly h'
      exact ⟨.ok n, rfl, hend⟩
    · intro tr e hend sc en m h'
      obtain ⟨rfl, rfl⟩ := honly h'
      exact ⟨.error e, rfl, hend⟩
  · have hnone : ∀ {sc en n}, ¬ i.call.Purges sc en n := fun h => hpurge ⟨_, _, _, h⟩
    exact (Prog.issues_true _).sat (fun _ _ _ _ _ _ h => absurd h hnone)
      fun _ _ _ _ _ _ h => absurd h hnone

/-- **The outcome of a purge** in a run. -/
theorem purgeOutcome {P : AnyPool → Prop} {w : InMemoryStorage} {p : AnyPool}
    (h : Pool.Run failing Invocation.anyBody P w p) {t : Nat} {th : AnyThread}
    (ht : p.threads[t]? = some th) {scope entityId : Str} {maxPasses : Int}
    (hpurge : th.call.call.Purges scope entityId maxPasses) {r : Except Exc AnyResult}
    (hr : p.returned t = some r) : PurgeOutcome th.call.store scope entityId t p r := by
  obtain ⟨th', ht', hend⟩ := Pool.returned_eq_some.mp hr
  cases ht.symm.trans ht'
  obtain ⟨r', rfl, passes, inv, outcome, htrace, hstorage, hpasses, hinv, hout⟩ :=
    h.post sat_purges ht hend scope entityId maxPasses hpurge
  have hchain := h.chain
  -- Behind the operation that ends the passes come only those of the invalidation.
  have hlast : ∀ {tr' : StoreTrace} {e : Event StoreSig InMemoryStorage}, passes = tr' ++ [e] →
      ∃ l l', p.log = l ++ (t, e) :: l' ∧ (∀ e', (t, e') ∈ l' → e'.op.Quiet) ∧
        failing.rely e.post p.world := by
    intro tr' e hsplit
    rw [hsplit, List.append_assoc, List.singleton_append] at htrace
    obtain ⟨l, l', hl, -, hl'⟩ := ownTrace_split htrace
    refine ⟨l, l', hl, fun e' he' => ?_, ?_⟩
    · exact hinv.quiet e' (hl' ▸ mem_ownTrace.mpr he')
    · rw [hl] at hchain
      exact hchain.split.2.2.rely
  refine ⟨⟨passes, inv, htrace, hstorage, hinv⟩, fun a ha => ?_, fun sc en n hn => ?_⟩
  · cases r' with
    | error e => cases ha
    | ok n =>
      cases ha
      rcases hout with rfl | ⟨e, herr, -⟩
      · obtain ⟨hcount, tr', st, limit, hsplit, hnothing⟩ := hpasses
        obtain ⟨l, l', hl, hquiet, hrely⟩ := hlast hsplit
        have hnone : inv.countP (Committed ·) = 0 := hinv.countP fun e he => by
          have hmem : (t, e) ∈ p.log :=
            mem_ownTrace.mp (htrace ▸ List.mem_append_right _ he)
          obtain ⟨l, l', hl⟩ := List.append_of_mem hmem
          rw [hl] at hchain
          exact hchain.split.2.1
        refine ⟨?_, l, l', st, limit, hl, hquiet, hnothing, fun k o hunder ho hissued => ?_⟩
        · rw [htrace, List.countP_append, hnone, ← hcount, Nat.add_zero]
        · have hold := hrely.old k o ho hissued
          have hout := hnothing k (Option.isSome_iff_exists.mpr ⟨o, hold⟩)
          rw [hunder] at hout
          cases hout
      · cases herr
  · cases r' with
    | ok n => cases hn
    | error e =>
      obtain rfl : e = .purgeIncompleteError sc en n := Except.error.inj hn
      rcases hout with rfl | ⟨e, herr, hout, -⟩
      · obtain ⟨tr', st, hsplit, hthere⟩ := hpasses
        obtain ⟨l, l', hl, hquiet, -⟩ := hlast hsplit
        exact ⟨l, l', st, hl, hquiet, hthere⟩
      · cases herr
        exact hout.elim

/-- **The purge guarantee**, among any other calls and alone. -/
theorem purge_guarantee {scope entityId : Str} {maxPasses : Int} :
    (∀ (w : InMemoryStorage) (p : AnyPool) (t : Nat) (th : AnyThread),
      Pool.Run failing Invocation.anyBody (fun _ => True) w p → p.threads[t]? = some th →
      th.call.call.Purges scope entityId maxPasses →
      (∀ l l' e, p.log = l ++ (t, e) :: l' →
        PurgeStep (entityPrefix scope entityId) (ownTrace t l) e.op) ∧
      ∀ r, p.returned t = some r → PurgeOutcome th.call.store scope entityId t p r) ∧
    ∀ (s : MemoryStore) (fuel : Nat) (now : DateTime) (fails : Exc → Prop) (st : InMemoryStorage),
      isValidSegment scope = true → isValidSegment entityId = true → 1 ≤ maxPasses →
      (st.keysUnder (entityPrefix scope entityId)).length < fuel →
      (s.purge fuel scope entityId maxPasses).Ends (handlesRaising now fails)
        (fun r st' => Without ((entityPrefix scope entityId).isPrefixOf · = true) st st' ∧
          PurgedOr s fails (st.keysUnder (entityPrefix scope entityId)).length r) st := by
  refine ⟨fun w p t th h ht hpurge => ⟨fun l l' e hl => ?_, fun r hr => ?_⟩, ?_⟩
  · obtain ⟨th', ht', -, hstep, -⟩ := h.guarantee sat_purges hl
    cases ht.symm.trans ht'
    exact hstep scope entityId maxPasses hpurge
  · exact purgeOutcome h ht hpurge hr
  · intro s fuel now fails st hs he hpasses hfuel
    rw [← length_listing] at hfuel ⊢
    exact ends_purge s hs he hpasses hfuel

end

/-- A purge of one pass, and a put between its listing and its delete. -/
def purgeBesidePut [Interpreter] : Option AnyPool :=
  Pool.exec answerAt Invocation.anyBody
    [.invoke ⟨.default, 3, .store (.purge (str "user") (str "u1") 1)⟩, .act 0 noon,
      .invoke ⟨.default, 1, .storage (.put (str "user/u1/x") [1] .empty)⟩, .act 1 noon,
      .act 0 noon, .act 0 noon]
    (Pool.init (.single (str "user/u1/notes/n.md") []))

/-- The purge is incomplete: what was put is there. Alone it would have removed the one file. -/
theorem purge_guarantee_beside_put : let _ := Interpreter.ascii
    ∃ p th, purgeBesidePut = some p ∧ p.threads[0]? = some th ∧
      p.returned 0 = some (.error (.purgeIncompleteError (str "user") (str "u1") 1)) ∧
      PurgeOutcome th.call.store (str "user") (str "u1") 0 p
        (.error (.purgeIncompleteError (str "user") (str "u1") 1)) ∧
      (MemoryStore.purge .default 3 (str "user") (str "u1") 1).Ends (handlesRaising noon fun _ => False)
        (fun r st' => Without ((entityPrefix (str "user") (str "u1")).isPrefixOf · = true)
            (.single (str "user/u1/notes/n.md") []) st' ∧
          PurgedOr .default (fun _ => False) (InMemoryStorage.keysUnder
            (.single (str "user/u1/notes/n.md") []) (entityPrefix (str "user") (str "u1"))).length r)
        (.single (str "user/u1/notes/n.md") []) := by
  intro _
  have hends : (purgeBesidePut.any fun p =>
      p.returned 0 = some (.error (.purgeIncompleteError (str "user") (str "u1") 1)) ∧
        (p.threads[0]?.any fun th => th.call.call =
          .store (.purge (str "user") (str "u1") 1)) = true) = true := by
    decide +kernel
  obtain ⟨p, hp, h⟩ := (Option.any_eq_true _ _).mp hends
  rw [decide_eq_true_eq] at h
  obtain ⟨hreturned, hthread⟩ := h
  obtain ⟨th, ht, hcall⟩ := (Option.any_eq_true _ _).mp hthread
  have hcall := of_decide_eq_true hcall
  have hrun : Pool.Run failing Invocation.anyBody (fun _ => True)
      (.single (str "user/u1/notes/n.md") []) p :=
    Pool.Run.exec answerAt answerAt_failing (.init trivial) hp
  have hscope : isValidSegment (str "user") = true := by decide +kernel
  have hentity : isValidSegment (str "u1") = true := by decide +kernel
  refine ⟨p, th, hp, ht, hreturned, ?_, ?_⟩
  · have hpurges : th.call.call.Purges (str "user") (str "u1") 1 :=
      ⟨hcall, hscope, hentity, by decide⟩
    exact (purge_guarantee.1 _ p 0 th hrun ht hpurges).2 _ hreturned
  · exact purge_guarantee.2 _ 3 noon _ _ hscope hentity (by decide) (by decide +kernel)

end Wenchang
