import Wenchang.Laws.Calls
import Wenchang.Laws.NoLostUpdate
import Wenchang.Laws.Paging

/-!
# The file cap

The cap is soft: `_at_file_cap` counts page by page while other calls write, and a create puts after
it has counted. What the count is worth is one fact about its own trace (`sat_writeFile_uncapped`):
fewer files than the limit were there at every step of the create. How far that lets an entity
overshoot is an argument about whole runs (`entityFiles_card_le`). Of the files that are there now,
take the one whose create was invoked last. The files that were there all along while it ran are
fewer than the limit, and the others were put after it was invoked by creates invoked before it, so
all of those were in flight together.
-/

namespace Wenchang

open Py Ordered Interaction

section

variable [Interpreter]

/-- A file of an entity that counts toward its cap: well-formed, outside `system/`. -/
def isEntityFile (scope entityId key : Str) : Bool :=
  match parsePath key with
  | .ok parts =>
    parts.scope = scope && parts.entityId = entityId && decide (parts.area ≠ indexSystemArea)
  | .error _ => false

/-- The files of an entity that count toward its cap. -/
def entityFiles (scope entityId : Str) (st : InMemoryStorage) : Finset Str :=
  st.objects.keys.toFinset.filter fun key => isEntityFile scope entityId key = true

/-- A call that creates a file of an entity: a `write_file` without a version, outside `system/`. -/
def StoreCall.creates (scope entityId : Str) : StoreCall → Bool
  | .mutate (.writeFile path _ _ none _) => isEntityFile scope entityId path
  | _ => false

/-- The creating calls of an entity that are in flight. -/
def creating (scope entityId : Str) (p : StorePool) : Nat :=
  p.threads.countP fun th => decide th.InFlight && th.call.call.creates scope entityId

/-- What is assumed of every moment of a run: the creates of the entity check the one limit, and no
more than `n` of them are in flight. -/
structure CreatesAtMost (scope entityId : Str) (limit n : Nat) (p : StorePool) : Prop where
  limit : ∀ th ∈ p.threads, th.call.call.creates scope entityId = true →
    th.call.store.maxFilesPerEntity = some limit
  inFlight : creating scope entityId p ≤ n

/-- An entity's files are stored and are the entity's. -/
theorem mem_entityFiles {scope entityId key : Str} {st : InMemoryStorage} :
    key ∈ entityFiles scope entityId st ↔
      (st.get key).isSome = true ∧ isEntityFile scope entityId key = true := by
  rw [entityFiles, Finset.mem_filter, List.mem_toFinset, FinMap.mem_keys, Option.isSome_iff_exists]
  rfl

/-- A file is an entity's where its path parses so, outside the system area. -/
theorem isEntityFile_iff {scope entityId key : Str} :
    isEntityFile scope entityId key = true ↔
      ∃ parts, parsePath key = .ok parts ∧ parts.scope = scope ∧ parts.entityId = entityId ∧
        parts.area ≠ indexSystemArea := by
  unfold isEntityFile
  cases parsePath key with
  | error e => exact ⟨nofun, fun ⟨_, h, _⟩ => by cases h⟩
  | ok parts =>
    simp only [Bool.and_eq_true, decide_eq_true_eq, Except.ok.injEq, exists_eq_left', and_assoc]

/-- A file of the entity is under its prefix, and `_at_file_cap` counts it. -/
theorem counts_of_isEntityFile {scope entityId key : Str} (h : isEntityFile scope entityId key = true) :
    (entityPrefix scope entityId).isPrefixOf key = true ∧ MemoryStore.countsTowardCap key = true := by
  obtain ⟨parts, hparse, rfl, rfl, harea⟩ := isEntityFile_iff.mp h
  refine ⟨?_, ?_⟩
  · obtain ⟨hvalid, rfl⟩ := parsePath_eq_ok.mp hparse
    have hsegments : ∀ s ∈ [parts.scope, parts.entityId], isValidSegment s = true := by
      simp only [List.forall_mem_cons, hvalid.scope, hvalid.entityId, List.not_mem_nil,
        false_implies, implies_true, and_self]
    rw [List.isPrefixOf_iff_prefix, entityPrefix, hvalid.prefix_iff hsegments]
    exact List.prefix_append _ _
  · simp only [MemoryStore.countsTowardCap, hparse]
    exact decide_eq_true harea

/-! ## What a count is worth -/

/-- A key was there at every step of a trace. -/
def Stays (tr : StoreTrace) (key : Str) : Prop := ∀ e ∈ tr, (e.pre.get key).isSome = true

/-- A key under the prefix that counts and was there at every step. -/
structure Counted (pre : Str) (tr : StoreTrace) (key : Str) : Prop where
  under : pre.isPrefixOf key = true
  counts : MemoryStore.countsTowardCap key = true
  stays : Stays tr key

/-- The keys up to a position that stayed are no more than were counted. -/
def CountedUpTo (pre : Str) (after : Option Str) (count : Nat) (tr : StoreTrace) : Prop :=
  ∀ K : Finset Str, (∀ k ∈ K, Counted pre tr k ∧ ¬ Behind after k) → K.card ≤ count

/-- Fewer keys than the limit stayed. -/
def Uncapped (pre : Str) (limit : Nat) (tr : StoreTrace) : Prop :=
  ∀ K : Finset Str, (∀ k ∈ K, Counted pre tr k) → K.card < limit

/-- What counts along a trace counts along its beginning. -/
theorem Counted.of_append {pre key : Str} {tr q : StoreTrace} (h : Counted pre (tr ++ q) key) :
    Counted pre tr key :=
  ⟨h.under, h.counts, fun e he => h.stays e (List.mem_append_left _ he)⟩

/-- A count below the limit was made. -/
theorem Uncapped.append {pre : Str} {limit : Nat} {tr : StoreTrace} (h : Uncapped pre limit tr)
    (q : StoreTrace) : Uncapped pre limit (tr ++ q) :=
  fun K hK => h K fun k hk => (hK k hk).of_append

/-- One page counts what stayed in its range. -/
theorem CountedUpTo.page {pre : Str} {after upTo : Option Str} {count limit : Nat} {tr : StoreTrace}
    {st : InMemoryStorage} (h : CountedUpTo pre after count tr)
    (hread : Read (st.under pre) after upTo ((st.listPage pre after limit).map (·.key)))
    {K : Finset Str}
    (hK : ∀ k ∈ K, Counted pre (tr ++ [listEvent pre after limit st]) k ∧ UpTo upTo k) :
    K.card ≤ count + (st.listPage pre after limit).countP (MemoryStore.countsTowardCap ·.key) := by
  classical
  have hbefore := h (K.filter fun k => ¬ Behind after k) fun k hk => by
    obtain ⟨hk, hafter⟩ := Finset.mem_filter.mp hk
    exact ⟨(hK k hk).1.of_append, hafter⟩
  have hseen := hread.card_le MemoryStore.countsTowardCap (K := K.filter (Behind after)) fun k hk => by
    obtain ⟨hk, hafter⟩ := Finset.mem_filter.mp hk
    obtain ⟨hcounted, hupTo⟩ := hK k hk
    have hthere := hcounted.stays (listEvent pre after limit st)
      (List.mem_append_right _ (List.mem_singleton_self _))
    exact ⟨⟨hthere, hcounted.under⟩, hcounted.counts, hafter, hupTo⟩
  rw [List.countP_map] at hseen
  have hsplit := Finset.card_filter_add_card_filter_not (s := K) (Behind after)
  have hsame : (st.listPage pre after limit).countP (MemoryStore.countsTowardCap ∘ (·.key)) =
      (st.listPage pre after limit).countP (MemoryStore.countsTowardCap ·.key) := rfl
  omega

/-- A create that got past `_at_file_cap` saw fewer files than its limit. -/
def CapChecked (s : MemoryStore) (path : Str) (tr : StoreTrace) : Prop :=
  ∀ parts limit, parsePath path = .ok parts → parts.area ≠ indexSystemArea →
    s.maxFilesPerEntity = some limit → Uncapped (entityPrefix parts.scope parts.entityId) limit tr

/-- A check was made. -/
theorem CapChecked.append {s : MemoryStore} {path : Str} {tr : StoreTrace}
    (h : CapChecked s path tr) (q : StoreTrace) : CapChecked s path (tr ++ q) :=
  fun parts limit hparse harea hlimit => (h parts limit hparse harea hlimit).append q

section Count

variable {lossy : Prop} (s : MemoryStore) {G : StoreTrace → StoreOp → Prop}

/-- Counting counts what stood there when its pages were read. -/
theorem sat_capLoop (hG : ∀ tr o, ¬ StoreOp.Mutates o → G tr o) {pre : Str} {limit : Nat}
    (fuel count : Nat) (after : Option Str) {tr : StoreTrace}
    (h : CountedUpTo pre after count tr) :
    (s.capLoop pre limit fuel count after).Sat (inMemory lossy) G
      (fun tr r => r = .ok false → Uncapped pre limit tr) tr := by
  induction fuel generalizing count after tr with
  | zero => exact trivial
  | succ fuel ih =>
    unfold MemoryStore.capLoop
    split
    next =>
      intro htrue
      cases htrue
    next hlt =>
      refine (Prog.sat_bind _ _ _ _).mpr (sat_storageListPage (hG _ _ not_false) fun st _ => ?_)
      rw [Prog.andThen_ok]
      split
      next hshort =>
        -- The last page: everything that stayed has been counted.
        intro hfalse K hK
        have hcount := of_decide_eq_false (Except.ok.inj hfalse)
        have hcard := h.page (read_listPage_short hshort) fun k hk => ⟨hK k hk, upTo_none k⟩
        omega
      next hfull =>
        have hne : st.listPage pre after (max (limit - count) s.listPageSize) ≠ [] := by
          intro hnil
          have hpos := s.listPageSize_pos
          rw [hnil, List.length_nil] at hfull
          omega
        obtain ⟨last, hlast⟩ := Option.isSome_iff_exists.mp (List.getLast?_isSome.mpr hne)
        apply ih
        rw [hlast]
        intro K hK
        apply h.page (read_listPage_full hlast)
        intro k hk
        obtain ⟨hcounted, hupTo⟩ := hK k hk
        exact ⟨hcounted, upTo_of_not_behind hupTo⟩

/-- A create is let through after its check. -/
theorem sat_createCap (hG : ∀ tr o, ¬ StoreOp.Mutates o → G tr o) (fuel : Nat) (path : Str) :
    (s.createCap fuel path).Sat (inMemory lossy) G
      (fun tr r => r = .ok none → CapChecked s path tr) [] := by
  unfold MemoryStore.createCap orValueError
  cases hparse : parsePath path with
  | error e => exact nofun
  | ok parts =>
    have hvalid := (parsePath_eq_ok.mp hparse).1
    simp only [Except.mapError, Prog.ofExcept_ok, Prog.ret_bind,
      buildPrefix_entity hvalid.scope hvalid.entityId]
    have hchecked : ∀ tr, (∀ limit, s.maxFilesPerEntity = some limit →
        parts.area ≠ indexSystemArea → Uncapped (entityPrefix parts.scope parts.entityId) limit tr) →
        CapChecked s path tr := by
      intro tr h parts' limit hparse' harea hlimit
      rw [hparse] at hparse'
      cases hparse'
      exact h limit hlimit harea
    cases hlimit : s.maxFilesPerEntity with
    | none =>
      intro _
      apply hchecked
      rw [hlimit]
      exact nofun
    | some limit =>
      dsimp only
      split
      next harea =>
        intro _
        apply hchecked
        intro _ _ hne
        exact absurd harea hne
      next =>
        have hnone : CountedUpTo (entityPrefix parts.scope parts.entityId) none 0 [] := by
          intro K hK
          rw [Nat.le_zero, Finset.card_eq_zero]
          apply Finset.eq_empty_of_forall_notMem
          intro k hk
          exact (hK k hk).2 (behind_none k)
        apply (sat_capLoop s hG fuel 0 none hnone).andThen
        · intro tr full h hreturn
          apply hchecked
          intro limit' hlimit' _
          rw [hlimit] at hlimit'
          cases hlimit'
          cases full with
          | false => exact h rfl
          | true => cases hreturn
        · exact fun _ _ _ => nofun

/-- **What a create has counted**, at every step that may write. -/
theorem sat_writeFile_checked {fuel : Nat} {path content : Str} {metadata : FileMetadata}
    {source : Str} :
    (s.writeFile fuel path content metadata none source).Sat (inMemory lossy)
      (fun tr o => StoreOp.Mutates o → CapChecked s path tr) (fun _ _ => True) [] := by
  have hG : ∀ (tr : StoreTrace) (o : StoreOp), ¬ o.Mutates → o.Mutates → CapChecked s path tr :=
    fun _ _ ho hm => absurd hm ho
  unfold MemoryStore.writeFile
  refine Prog.sat_raiseIf_bind (fun _ => trivial) fun _ => ?_
  refine Prog.sat_raiseIf_bind (fun _ => trivial) fun _ => ?_
  refine Prog.sat_ofExcept_bind (fun _ _ => trivial) fun data _ => ?_
  refine Prog.sat_raiseIf_bind (fun _ => trivial) fun _ => ?_
  have hsources : (s.writeSources fuel path metadata none source).Sat (inMemory lossy)
      (fun tr o => StoreOp.Mutates o → CapChecked s path tr)
      (fun tr r => ∀ sources, r = .ok sources → CapChecked s path tr) [] := by
    apply (sat_createCap s hG fuel path).andThen
    · intro tr cap h
      cases cap with
      | none => exact fun _ _ => h rfl
      | some limit =>
        refine (Prog.sat_bind _ _ _ _).mpr (sat_storageGet (hG _ _ not_false) fun st _ => ?_)
        rw [Prog.andThen_ok]
        cases st.get path with
        | none => exact nofun
        | some obj =>
          show Prog.Sat _ _ (MemoryStore.raiseResult (MemoryStore.conflictAfterRead path obj)) _ _
          cases MemoryStore.conflictAfterRead path obj <;> exact nofun
    · exact fun _ _ _ => nofun
  apply hsources.andThen
  · intro tr sources h
    apply (Prog.issues_true _).sat
    · exact fun q _ _ _ => (h sources rfl).append q
    · exact fun _ _ _ => trivial
  · exact fun _ _ _ => trivial

end Count

/-- What a call that creates may do: write only once it has counted. -/
def StoreCall.Checks (s : MemoryStore) (c : StoreCall) (tr : StoreTrace) (o : StoreOp) : Prop :=
  ∀ path content metadata source, c = .mutate (.writeFile path content metadata none source) →
    o.Mutates → CapChecked s path tr

/-- Every call checks before it creates. -/
theorem StoreCall.sat_checks {lossy : Prop} (s : MemoryStore) (c : StoreCall) (fuel : Nat) :
    (c.body s fuel).Sat (inMemory lossy) (c.Checks s) (fun _ _ => True) [] := by
  by_cases hc : ∃ path content metadata source,
      c = .mutate (.writeFile path content metadata none source)
  · obtain ⟨path, content, metadata, source, rfl⟩ := hc
    have hwrite : (s.writeFile fuel path content metadata none source).Sat (inMemory lossy)
        ((StoreCall.mutate (.writeFile path content metadata none source)).Checks s)
        (fun _ _ => True) [] := by
      apply (sat_writeFile_checked s).mono
      · intro tr o h _ _ _ _ hc hm
        cases hc
        exact h hm
      · exact fun _ _ _ => trivial
    have hbody : ((Mutator.writeFile path content metadata none source).body s fuel).Sat
        (inMemory lossy) ((StoreCall.mutate (.writeFile path content metadata none source)).Checks s)
        (fun _ _ => True) [] := hwrite.andThen (fun _ _ _ => trivial) fun _ _ _ => trivial
    exact hbody.andThen (fun _ _ _ => trivial) fun _ _ _ => trivial
  · apply (Prog.issues_true _).sat
    · intro q o _ path content metadata source he
      exact absurd ⟨path, content, metadata, source, he⟩ hc
    · exact fun _ _ _ => trivial

/-! ## Runs -/

/-- Only a write creates a file. -/
theorem Mutator.Edits.creates {s : MemoryStore} {now : DateTime} {wr : Written} {m : Mutator}
    (h : m.Edits s now wr none) :
    ∃ path content metadata source, m = .writeFile path content metadata none source := by
  cases m with
  | writeFile path content metadata expected source =>
    cases expected with
    | none => exact ⟨path, content, metadata, source, rfl⟩
    | some expected => exact absurd h not_false
  | _ => exact absurd h not_false

/-- The call that put a file: a create, which had counted. The file is there since. -/
structure Creator (p : StorePool) (key : Str) (t : Nat) (before after : Log StoreSig InMemoryStorage) :
    Prop where
  log : ∃ e, p.log = before ++ (t, e) :: after
  call : ∃ th content metadata source, p.threads[t]? = some th ∧ th.start ≤ before.length ∧
    th.call.call = .mutate (.writeFile key content metadata none source) ∧
    CapChecked th.call.store key (ownTrace t before)
  stays : ∀ te ∈ after, (te.2.pre.get key).isSome = true

/-- A key that was there from the start, at every step. -/
def Remained (w : InMemoryStorage) (p : StorePool) (key : Str) : Prop :=
  (w.get key).isSome = true ∧ ∀ te ∈ p.log, (te.2.pre.get key).isSome = true

section Runs

variable {lossy : Prop} {P : StorePool → Prop} {w : InMemoryStorage} {p : StorePool}

/-- A step that puts a file where none was is a create's. -/
theorem creator_of_put (h : Pool.Run (inMemory lossy) Invocation.body P w p)
    {before after : Log StoreSig InMemoryStorage} {t : Nat} {e : Event StoreSig InMemoryStorage}
    (hl : p.log = before ++ (t, e) :: after) {key : Str} (hpre : ¬ (e.pre.get key).isSome = true)
    (hpost : (e.post.get key).isSome = true)
    (hstays : ∀ te ∈ after, (te.2.pre.get key).isSome = true) : Creator p key t before after := by
  obtain ⟨th, ht, hstart, hG, ha⟩ := store_guarantee h hl
  obtain ⟨th', ht', -, hchecks, -⟩ := h.guarantee (fun i : Invocation StoreCall =>
    StoreCall.sat_checks i.store i.call i.fuel) hl
  rw [ht] at ht'
  cases ht'
  have hcommitted : Committed e := by
    intro he
    rw [he] at hpost
    exact hpre hpost
  have hremoved : ∀ path, e.post ≠ e.pre.remove path := by
    intro path he
    rw [he, InMemoryStorage.get_remove] at hpost
    split at hpost
    · cases hpost
    · exact hpre hpost
  refine ⟨⟨e, hl⟩, ?_, hstays⟩
  cases hcall : th.call.call with
  | mutate m =>
    rw [hcall] at hG
    rcases Mutator.commits_of_guarantee hG ha hcommitted with ⟨now, wr, hedits, hput⟩ | ⟨_, _, _, hremove⟩
    · have hkey : key = m.path := by
        by_contra hne
        rw [hput, InMemoryStorage.get_putLocked, if_neg hne] at hpost
        exact hpre hpost
      rw [← hkey, Option.not_isSome_iff_eq_none.mp hpre] at hedits
      obtain ⟨path, content, metadata, source, rfl⟩ := hedits.creates
      cases hkey
      have hmutates : e.op.Mutates := by
        by_contra hm
        exact hcommitted (post_eq_of_not_mutates ha.handles hm)
      exact ⟨th, content, metadata, source, ht, hstart, hcall,
        hchecks path content metadata source hcall hmutates⟩
    · exact absurd hremove (hremoved _)
  | _ =>
    rw [hcall] at hG
    have hwrites : e.op.write? = none := hG
    rcases handles_cases ha.handles with ⟨k, data, metadata, hwrite, -⟩ | ⟨k, _, _, hremove⟩ | hsame
    · rw [hwrites] at hwrite
      cases hwrite
    · exact absurd hremove (hremoved _)
    · exact absurd hsame hcommitted

/-- **Where a file comes from**: it was there from the start, or a create put it. -/
theorem creator_of_file (h : Pool.Run (inMemory lossy) Invocation.body P w p) {key : Str}
    (hkey : (p.world.get key).isSome = true) :
    Remained w p key ∨ ∃ t before after, Creator p key t before after := by
  rcases h.chain.since (fun st => (st.get key).isSome = true) hkey with hold | ⟨before, t, e, after, hl,
    hpre, hpost, hstays⟩
  · exact .inl hold
  · exact .inr ⟨t, before, after, creator_of_put h hl hpre hpost hstays⟩

/-- One create puts one file. -/
theorem Creator.key_eq {key key' : Str} {t : Nat} {before before' after after' : Log StoreSig InMemoryStorage}
    (h : Creator p key t before after) (h' : Creator p key' t before' after') : key = key' := by
  obtain ⟨th, _, _, _, ht, -, hcall, -⟩ := h.call
  obtain ⟨th', _, _, _, ht', -, hcall', -⟩ := h'.call
  rw [ht] at ht'
  cases ht'
  rw [hcall] at hcall'
  cases hcall'
  rfl

variable {scope entityId : Str}

/-- A create that put its file later was in flight. -/
theorem Creator.inFlight {key : Str} {t : Nat} {before after : Log StoreSig InMemoryStorage}
    (h : Creator p key t before after) (hfile : isEntityFile scope entityId key = true)
    {q : StorePool} (hext : q.Extends p) (ht : t < q.threads.length)
    (hlen : q.log.length ≤ before.length) :
    ∃ th, q.threads[t]? = some th ∧
      (decide th.InFlight && th.call.call.creates scope entityId) = true := by
  obtain ⟨th, _, _, _, hth, -, hcall, -⟩ := h.call
  obtain ⟨e, hl⟩ := h.log
  have hq := List.getElem?_eq_getElem ht
  obtain ⟨prog, hlater⟩ := hext.later t _ hq
  rw [hth] at hlater
  cases hlater
  refine ⟨_, hq, ?_⟩
  rw [Bool.and_eq_true, decide_eq_true_eq]
  refine ⟨hext.inFlight hq hl hlen, ?_⟩
  rw [show q.threads[t].call.call = _ from hcall]
  exact hfile

/-- The files that were there at every step a create had made when it put its own are fewer than the
limit. -/
theorem Creator.card_lt {limit n : Nat}
    (hrun : Pool.Run (inMemory lossy) Invocation.body (CreatesAtMost scope entityId limit n) w p)
    {key : Str} {t : Nat} {before after : Log StoreSig InMemoryStorage}
    (h : Creator p key t before after) (hfile : isEntityFile scope entityId key = true)
    {K : Finset Str} (hK : ∀ k ∈ K, isEntityFile scope entityId k = true ∧
      ∀ e, (t, e) ∈ before → (e.pre.get k).isSome = true) : K.card < limit := by
  obtain ⟨th, content, metadata, source, ht, -, hcall, hchecked⟩ := h.call
  obtain ⟨parts, hparse, rfl, rfl, harea⟩ := isEntityFile_iff.mp hfile
  have hlimit : th.call.store.maxFilesPerEntity = some limit := by
    apply hrun.holds.limit th (List.mem_of_getElem? ht)
    rw [hcall]
    exact hfile
  apply hchecked parts limit hparse harea hlimit
  intro k hk
  obtain ⟨hkfile, hstays⟩ := hK k hk
  obtain ⟨hunder, hcounts⟩ := counts_of_isEntityFile hkfile
  exact ⟨hunder, hcounts, fun e he => hstays e (mem_ownTrace.mp he)⟩

/-- **The cap's overshoot.** With at most `n` creates of the entity in flight at any moment, there
are never more than `limit - 1 + n` files. -/
theorem entityFiles_card_le {limit n : Nat} (hn : 0 < n)
    (hw : (entityFiles scope entityId w).card ≤ limit)
    (h : Pool.Run (inMemory lossy) Invocation.body (CreatesAtMost scope entityId limit n) w p) :
    (entityFiles scope entityId p.world).card + 1 ≤ limit + n := by
  classical
  have hborn : ∀ k ∈ (entityFiles scope entityId p.world).filter (¬ Remained w p ·),
      ∃ t before after, Creator p k t before after := by
    intro k hk
    obtain ⟨hfile, hnew⟩ := Finset.mem_filter.mp hk
    exact (creator_of_file h (mem_entityFiles.mp hfile).1).resolve_left hnew
  choose! thread before after hcreator using hborn
  by_cases hsome : ((entityFiles scope entityId p.world).filter (¬ Remained w p ·)).Nonempty
  case neg =>
    -- Every file is an initial one.
    have hsub : entityFiles scope entityId p.world ⊆ entityFiles scope entityId w := by
      intro k hk
      have hold : Remained w p k := by
        by_contra hnew
        exact hsome ⟨k, Finset.mem_filter.mpr ⟨hk, hnew⟩⟩
      exact mem_entityFiles.mpr ⟨hold.1, (mem_entityFiles.mp hk).2⟩
    have hcard := Finset.card_le_card hsub
    omega
  -- The creator that was invoked last, and the pool in which it was.
  obtain ⟨k₀, hk₀, hlast⟩ := Finset.exists_max_image _ thread hsome
  have hc₀ := hcreator k₀ hk₀
  have hfile₀ := (mem_entityFiles.mp (Finset.mem_filter.mp hk₀).1).2
  obtain ⟨th₀, _, _, _, ht₀, -⟩ := hc₀.call
  obtain ⟨q, hq, hext, hthreads, -, hlog⟩ := h.past ht₀
  let late : Str → Prop := fun k => ¬ Remained w p k ∧ th₀.start ≤ (before k).length
  have hmem : ∀ k, k ∈ (entityFiles scope entityId p.world).filter late →
      k ∈ (entityFiles scope entityId p.world).filter (¬ Remained w p ·) := by
    intro k hk
    obtain ⟨hfile, hlate⟩ := Finset.mem_filter.mp hk
    exact Finset.mem_filter.mpr ⟨hfile, hlate.1⟩
  have hlateCard : ((entityFiles scope entityId p.world).filter late).card ≤ n := by
    have hinj : Set.InjOn thread ((entityFiles scope entityId p.world).filter late) := by
      intro k hk k' hk' heq
      have hc' := hcreator k' (hmem k' hk')
      rw [← heq] at hc'
      exact (hcreator k (hmem k hk)).key_eq hc'
    rw [← Finset.card_image_of_injOn hinj]
    refine le_trans (card_le_countP fun t ht => ?_) hq.holds.inFlight
    obtain ⟨k, hk, rfl⟩ := Finset.mem_image.mp ht
    obtain ⟨hfile, hlate⟩ := Finset.mem_filter.mp hk
    apply (hcreator k (hmem k hk)).inFlight (mem_entityFiles.mp hfile).2 hext
    · rw [hthreads]
      exact Nat.lt_succ_of_le (hlast k (hmem k hk))
    · rw [hlog]
      exact hlate.2
  have hearlyCard : ((entityFiles scope entityId p.world).filter (¬ late ·)).card < limit := by
    apply hc₀.card_lt h hfile₀
    intro k hk
    obtain ⟨hfile, hearly⟩ := Finset.mem_filter.mp hk
    refine ⟨(mem_entityFiles.mp hfile).2, fun e he => ?_⟩
    obtain ⟨e₀, hl₀⟩ := hc₀.log
    obtain ⟨m₁, m₂, hm⟩ := List.append_of_mem he
    rw [hm, List.append_assoc, List.cons_append] at hl₀
    by_cases hold : Remained w p k
    · exact hold.2 (thread k₀, e) (hl₀ ▸ List.mem_append_right _ List.mem_cons_self)
    · -- It was put before the create was invoked, and so before any step of it.
      have hc := hcreator k (Finset.mem_filter.mpr ⟨hfile, hold⟩)
      obtain ⟨e', hl⟩ := hc.log
      have hput : (before k).length < th₀.start := by
        by_contra hle
        exact hearly ⟨hold, Nat.le_of_not_lt hle⟩
      obtain ⟨th, ht, hstart, -⟩ := store_guarantee h hl₀
      rw [ht₀] at ht
      cases ht
      exact hc.stays (thread k₀, e)
        (mem_of_append_cons_eq (hl.symm.trans hl₀) (lt_of_lt_of_le hput hstart))
  have hsplit := Finset.card_filter_add_card_filter_not
    (s := entityFiles scope entityId p.world) late
  omega

/-- A run's creates are bounded at each of its moments. -/
theorem createsAtMost_of_extends {limit n : Nat} {q : StorePool} (hext : q.Extends p)
    (hlimit : ∀ th ∈ p.threads, th.call.store.maxFilesPerEntity = some limit)
    (hn : p.threads.length ≤ n) : CreatesAtMost scope entityId limit n q := by
  constructor
  · intro th hth _
    obtain ⟨t, ht⟩ := List.mem_iff_getElem?.mp hth
    obtain ⟨prog, hlater⟩ := hext.later t th ht
    have hlimit' := hlimit _ (List.mem_of_getElem? hlater)
    exact hlimit'
  · exact List.countP_le_length.trans (hext.length_le.trans hn)

end Runs

end

/-- A cap of one file is a cap. -/
theorem one_file_pos : ∀ n ∈ some 1, 0 < n := by simp

/-- Two creates for an entity that may hold one file: both count, then both put. -/
def twoCreates : List (Choice (Invocation StoreCall) Reply) :=
  let store : MemoryStore :=
    { MemoryStore.default with maxFilesPerEntity := some 1, maxFilesPerEntity_pos := one_file_pos }
  let create (name : String) : Invocation StoreCall :=
    ⟨store, 2, .mutate (.writeFile (str "user/u1/notes/" ++ str name) []
      ⟨[], [], .empty, noon, one_line_nil, noon_aware⟩ none (str "s"))⟩
  [.invoke (create "a.md"), .invoke (create "b.md"), .act 0 ⟨noon, false⟩, .act 1 ⟨noon, false⟩,
    .act 0 ⟨noon, false⟩, .act 1 ⟨noon, false⟩, .act 0 ⟨noon, false⟩, .act 1 ⟨noon, false⟩]

/-- The bound is reached: two creates in flight leave two files where one is allowed. -/
theorem two_creates_overshoot : let _ := Interpreter.ascii
    ∃ p, Pool.exec Reply.answer Invocation.body twoCreates (Pool.init InMemoryStorage.empty) =
        some p ∧
      (entityFiles (str "user") (str "u1") p.world).card = 2 ∧
      (entityFiles (str "user") (str "u1") p.world).card + 1 ≤ 1 + 2 := by
  intro _
  have hends : ((Pool.exec Reply.answer Invocation.body twoCreates
      (Pool.init InMemoryStorage.empty)).any fun p => p.threads.length ≤ 2 ∧
        (p.threads.all fun th => th.call.store.maxFilesPerEntity = some 1) = true ∧
        (entityFiles (str "user") (str "u1") p.world).card = 2) = true := by decide +kernel
  obtain ⟨p, hp, h⟩ := (Option.any_eq_true _ _).mp hends
  rw [decide_eq_true_eq, List.all_eq_true] at h
  obtain ⟨hthreads, hlimit, hcard⟩ := h
  have hrun : Pool.Run (inMemory True) Invocation.body
      (CreatesAtMost (str "user") (str "u1") 1 2) .empty p := by
    apply (Pool.Run.exec Reply.answer Reply.handles_lossy (.init trivial) hp).passed.mono
    intro q hq
    apply createsAtMost_of_extends hq.2 _ hthreads
    intro th hth
    exact of_decide_eq_true (hlimit th hth)
  have hempty : (entityFiles (str "user") (str "u1") InMemoryStorage.empty).card ≤ 1 :=
    Nat.zero_le 1
  exact ⟨p, hp, hcard, entityFiles_card_le (Nat.succ_pos 1) hempty hrun⟩

end Wenchang
