import Wenchang.Laws.Mutators

/-!
# No lost update

Mutators on any paths, interleaved at any of their steps, over one `InMemoryStorage`. A step commits
when storage is not what it was (`Committed`). Three facts carry everything else: a commit acts on
the object its call read, since it names that object's version and a version names one object for
ever (`Mutator.commits_of_guarantee`); a version that has been replaced does not come back
(`Later.version_ne`); and an object that is new to a call was put by some step of the log
(`put_of_new`).
-/

namespace Wenchang

open Py Ordered Interaction

/-- A step that changed storage. -/
abbrev Committed (e : Event StoreSig InMemoryStorage) : Prop := e.post ≠ e.pre

/-- A step that replaced or removed the version `v` of `key`. -/
abbrev Supersedes (key v : Str) (e : Event StoreSig InMemoryStorage) : Prop :=
  e.pre.version key = some v ∧ e.post.get key ≠ e.pre.get key

/-! ## What one step commits -/

section Step

variable {lossy : Prop} {e : Event StoreSig InMemoryStorage}

/-- What a step does to storage: what it writes is put, what it deletes is removed, or nothing
happens. -/
theorem handles_cases (h : (inMemory lossy).handles e.pre e.op e.ans e.post) :
    (∃ key data metadata, e.op.write? = some (key, data, metadata) ∧
      e.post = e.pre.putLocked key data metadata) ∨
    (∃ key expected, e.op = .storage (.deleteIfVersion key expected) ∧
      e.post = e.pre.remove key) ∨ e.post = e.pre := by
  obtain ⟨st, o, a, st'⟩ := e
  cases o with
  | storage o =>
    rcases handlesStorage_cases h with hput | ⟨key, expected, rfl, hremove⟩ | hsame
    · exact .inl hput
    · exact .inr (.inl ⟨key, expected, rfl, hremove⟩)
    · exact .inr (.inr hsame)
  | _ => exact .inr (.inr h)

/-- A step that does not mutate commits nothing. -/
theorem post_eq_of_not_mutates (h : (inMemory lossy).handles e.pre e.op e.ans e.post)
    (hm : ¬ e.op.Mutates) : e.post = e.pre := by
  obtain ⟨st, o, a, st'⟩ := e
  cases o with
  | storage o =>
    cases o with
    | put key data metadata => exact absurd trivial hm
    | putIfVersion key data metadata expected => exact absurd trivial hm
    | deleteIfVersion key expected => exact absurd trivial hm
    | _ => exact congrArg Prod.snd h
  | _ => exact h

/-- A version that a step supersedes is not there afterwards. -/
theorem Supersedes.version_ne {key v : Str} (h : Supersedes key v e)
    (hh : (inMemory lossy).handles e.pre e.op e.ans e.post) : e.post.version key ≠ some v := by
  obtain ⟨hv, hne⟩ := h
  obtain ⟨o, ho, rfl⟩ := InMemoryStorage.version_eq_some.mp hv
  intro hv'
  obtain ⟨o', ho', heq⟩ := InMemoryStorage.version_eq_some.mp hv'
  have hlater : e.pre.Later e.post := (inMemory lossy).rely_of_handles hh
  exact hne (ho'.trans ((hlater.object_eq ho ho' heq) ▸ ho.symm))

end Step

/-! ## The log of a run -/

section Log

variable {lossy : Prop} {l : Log StoreSig InMemoryStorage} {w w' : InMemoryStorage}

/-- **Every version has at most one successor.** -/
theorem countP_supersedes_le (h : Chain (inMemory lossy) w l w') (key v : Str) :
    l.countP (fun te => Supersedes key v te.2) ≤ 1 := by
  apply countP_le_one
  rintro l₁ ⟨t, e⟩ l₂ rfl hsup ⟨u, e'⟩ he' hsup'
  rw [decide_eq_true_eq] at hsup hsup'
  obtain ⟨l₃, l₄, rfl⟩ := List.append_of_mem he'
  -- The version is gone after `e'`, and it was issued before, so it is not there before `e`.
  obtain ⟨-, hh', hbetween⟩ := h.split.1.split
  have hgone := Supersedes.version_ne hsup' hh'
  obtain ⟨o, ho, rfl⟩ := InMemoryStorage.version_eq_some.mp hsup'.1
  have hissued := (InMemoryStorage.issued_of_get ho).later ((inMemory lossy).rely_of_handles hh')
  exact InMemoryStorage.Later.version_ne hbetween.rely hissued hgone hsup.1

/-- **Where an object comes from.** An object whose version had not been issued was put since. -/
theorem put_of_new (h : Chain (inMemory lossy) w l w') {key : Str} {obj : StoredObject}
    (hget : w'.get key = some obj) (hnew : ¬ w.Issued obj.version) :
    ∃ t e, (t, e) ∈ l ∧ e.op.write? = some (key, obj.data, obj.metadata) ∧
      e.post = e.pre.putLocked key obj.data obj.metadata ∧ e.pre.token = obj.version := by
  induction l using List.reverseRecOn generalizing w' with
  | nil =>
    have hw : w = w' := h
    exact absurd (InMemoryStorage.issued_of_get (hw ▸ hget)) hnew
  | append_singleton l te ih =>
    obtain ⟨t, e⟩ := te
    obtain ⟨hl, hh, hpost⟩ := h.split
    have hw : e.post = w' := hpost
    have hold : e.pre.get key = some obj → _ := fun hget => ih hl hget
    have hlift : (∃ u e', (u, e') ∈ l ∧ e'.op.write? = some (key, obj.data, obj.metadata) ∧
        e'.post = e'.pre.putLocked key obj.data obj.metadata ∧ e'.pre.token = obj.version) →
        ∃ u e', (u, e') ∈ l ++ [(t, e)] ∧ e'.op.write? = some (key, obj.data, obj.metadata) ∧
          e'.post = e'.pre.putLocked key obj.data obj.metadata ∧ e'.pre.token = obj.version := by
      rintro ⟨u, e', hmem, hput⟩
      exact ⟨u, e', List.mem_append_left _ hmem, hput⟩
    rw [← hw] at hget
    rcases handles_cases hh with ⟨k, data, metadata, hwrite, hput⟩ | ⟨k, -, -, hremove⟩ | hsame
    · rw [hput, InMemoryStorage.get_putLocked] at hget
      split at hget
      next hk =>
        subst hk
        cases hget
        exact ⟨t, e, List.mem_append_right _ (List.mem_singleton_self _), hwrite, hput, rfl⟩
      next => exact hlift (hold hget)
    · rw [hremove, InMemoryStorage.get_remove] at hget
      split at hget
      · cases hget
      · exact hlift (hold hget)
    · exact hlift (hold (hsame ▸ hget))

end Log

/-! ## The order of the commits -/

/-- The calls that committed, in commit order. -/
def commitOrder (log : Log StoreSig InMemoryStorage) : List Nat :=
  (log.filter fun te => Committed te.2).map (·.1)

/-- The bytes of a file. -/
def dataAt (s : InMemoryStorage) (key : Str) : Option Bytes := (s.get key).map (·.data)

/-- One more event is one more commit, or none. -/
theorem commitOrder_concat (l : Log StoreSig InMemoryStorage) (t : Nat)
    (e : Event StoreSig InMemoryStorage) :
    commitOrder (l ++ [(t, e)]) = if Committed e then commitOrder l ++ [t] else commitOrder l := by
  unfold commitOrder
  rw [List.filter_append, List.map_append]
  by_cases h : Committed e
  · rw [if_pos h, List.filter_cons, if_pos (decide_eq_true h)]
    rfl
  · rw [if_neg h, List.filter_cons, if_neg (by rwa [decide_eq_true_eq])]
    exact List.append_nil _

/-- An append changes content. -/
theorem appendContent_ne (content line : Str) : MemoryStore.appendContent content line ≠ content :=
  fun h => by
    have hlen := congrArg List.length h
    simp only [MemoryStore.appendContent, List.length_append, List.length_singleton] at hlen
    omega

/-! ## What a call commits -/

section Calls

variable [Interpreter]

/-- A step commits the mutation of `m`: the put of what `m` writes over the object it acts on, or
its delete. -/
inductive Mutator.Commits (s : MemoryStore) (m : Mutator) (e : Event StoreSig InMemoryStorage) : Prop
  | put (now : DateTime) (w : Written) (edits : m.Edits s now w (e.pre.get m.path))
      (post : e.post = e.pre.putLocked m.path w.data w.map)
  | delete (expected : Str) (delete : m = .deleteFile m.path expected)
      (version : e.pre.version m.path = some expected) (post : e.post = e.pre.remove m.path)

section Call

variable {lossy : Prop} {s : MemoryStore} {m : Mutator} {tr : StoreTrace}
  {e : Event StoreSig InMemoryStorage}

/-- The object a prepared put acts on is the one that was read. -/
theorem Mutator.Prepared.edits {w : Written} {expected : Option Str} (h : m.Prepared s w tr expected)
    {st : InMemoryStorage} (hlater : ∀ e ∈ tr, e.post.Later st) (hv : st.version m.path = expected) :
    ∃ now, m.Edits s now w (st.get m.path) := by
  cases h with
  | create tr now st' edits =>
    have hget : st.get m.path = none := Option.map_eq_none_iff.mp hv
    exact ⟨now, hget ▸ edits⟩
  | edit tr now st₁ st₂ obj read edits =>
    obtain ⟨obj', ho', hversion⟩ := InMemoryStorage.version_eq_some.mp hv
    have hread : readEvent m.path st₁ ∈ tr ++ [readEvent m.path st₁, clockEvent now st₂] :=
      List.mem_append_right _ List.mem_cons_self
    have hsame := (hlater _ hread).object_eq read ho' hversion
    exact ⟨now, ho' ▸ hsame ▸ edits⟩

/-- **A commit acts on what its call read.** -/
theorem Mutator.commits_of_guarantee (hG : m.Guarantee s tr e.op)
    (ha : (inMemory lossy).Admits tr e) (hc : Committed e) : m.Commits s e := by
  have hh := ha.handles
  obtain ⟨st, o, a, st'⟩ := e
  by_cases hm : o.Mutates
  case neg => exact absurd (post_eq_of_not_mutates hh hm) hc
  cases o with
  | storage o =>
    cases o with
    | put key data metadata => exact absurd hG not_false
    | putIfVersion key data metadata expected =>
      obtain ⟨rfl, -, -, w, rfl, rfl, hprep⟩ := hG
      have hput : ∀ st'', st.version m.path = expected →
          st'' = st.putLocked m.path w.data w.map →
          m.Commits s ⟨st, .storage (.putIfVersion m.path w.data w.map expected), a, st''⟩ :=
        fun st'' hv hpost => by
          obtain ⟨now, hedits⟩ := hprep.edits ha.rely hv
          exact .put now w hedits hpost
      rcases hh with hh | ⟨-, hv, -, hpost⟩
      · rcases st.putIfVersion_cases m.path w.data w.map expected with ⟨hv, hres⟩ | ⟨-, hres⟩
        · exact hput st' hv (congrArg Prod.snd (hh.trans hres))
        · exact absurd (congrArg Prod.snd (hh.trans hres)) hc
      · exact hput st' hv hpost
    | deleteIfVersion key expected =>
      obtain ⟨rfl, -⟩ := hG
      rcases st.deleteIfVersion_cases key expected with ⟨hv, hres⟩ | ⟨-, hres⟩
      · exact .delete expected rfl hv (congrArg Prod.snd (hh.trans hres))
      · exact absurd (congrArg Prod.snd (hh.trans hres)) hc
    | _ => exact absurd hm not_false
  | _ => exact absurd hm not_false

/-- Where no response is lost, a mutator's step commits exactly when storage says so. -/
theorem Mutator.committed_iff_succeeded (hG : m.Guarantee s tr e.op)
    (ha : (inMemory False).Admits tr e) : Committed e ↔ Succeeded e := by
  have hh := ha.handles
  obtain ⟨st, o, a, st'⟩ := e
  by_cases hm : o.Mutates
  case neg =>
    exact ⟨fun hc => absurd (post_eq_of_not_mutates hh hm) hc,
      fun hs => absurd hs (not_succeeded_of_not_mutates hm)⟩
  cases o with
  | storage o =>
    cases o with
    | put key data metadata => exact absurd hG not_false
    | putIfVersion key data metadata expected =>
      rcases hh with hh | ⟨hfalse, -⟩
      · rcases st.putIfVersion_cases key data metadata expected with ⟨-, hres⟩ | ⟨-, hres⟩
        · obtain ⟨rfl, hpost⟩ := Prod.mk.inj (hh.trans hres)
          exact iff_of_true (fun he => InMemoryStorage.putLocked_ne _ _ _ _ (hpost.symm.trans he))
            trivial
        · obtain ⟨rfl, hpost⟩ := Prod.mk.inj (hh.trans hres)
          exact iff_of_false (fun hc => hc hpost) not_false
      · exact absurd hfalse not_false
    | deleteIfVersion key expected =>
      rcases st.deleteIfVersion_cases key expected with ⟨hv, hres⟩ | ⟨-, hres⟩
      · obtain ⟨rfl, hpost⟩ := Prod.mk.inj (hh.trans hres)
        obtain ⟨o, ho, -⟩ := InMemoryStorage.version_eq_some.mp hv
        exact iff_of_true (fun he => InMemoryStorage.remove_ne ho (hpost.symm.trans he)) trivial
      · obtain ⟨rfl, hpost⟩ := Prod.mk.inj (hh.trans hres)
        exact iff_of_false (fun hc => hc hpost) not_false
    | _ => exact absurd hm not_false
  | _ => exact absurd hm not_false

end Call

/-- What an `append_line` writes is not what it read. -/
theorem Mutator.Edits.data_ne {s : MemoryStore} {now : DateTime} {wr : Written} {obj : StoredObject}
    {path line v source : Str} {aliases : Option (List Str)} {description : Option Str}
    (h : (Mutator.appendLine path line v source aliases description).Edits s now wr (some obj)) :
    obj.data ≠ wr.data := fun hdata => by
  obtain ⟨-, content, -, hcontent, -, hwr, -⟩ := h
  have hdecode := decodeUtf8_of_encodeUtf8 wr.encoded
  rw [← hdata, hcontent] at hdecode
  exact appendContent_ne content line (hwr.symm.trans (Except.ok.inj hdecode).symm)

section

variable {lossy : Prop} {w : InMemoryStorage}

/-- **An `append_line` that found its own bytes and metadata** found an object that was put after it
had read the file. -/
theorem put_of_landed {l : Log StoreSig InMemoryStorage} {w' : InMemoryStorage} {m : Mutator}
    {s : MemoryStore} (hchain : Chain (inMemory lossy) w l w') {t : Nat} {tr q : StoreTrace}
    {st st' cur : InMemoryStorage} {expected : Option Str} {wr : Written} {a : Except Exc Str}
    {version : Str}
    (htr : ownTrace t l = tr ++ ⟨st, putOp m.path wr expected, a, st'⟩ :: (q ++ [readEvent m.path cur]))
    (hprep : ∃ wr' : Written, wr'.data = wr.data ∧ wr'.map = wr.map ∧ m.Prepared s wr' tr expected)
    (happend : ∃ path line v source aliases description,
      m = .appendLine path line v source aliases description)
    (hfound : cur.get m.path = some ⟨wr.data, wr.map, version⟩) :
    ∃ u e, (u, e) ∈ l ∧ e.op.write? = some (m.path, wr.data, wr.map) ∧
      e.post = e.pre.putLocked m.path wr.data wr.map ∧ e.pre.token = version := by
  obtain ⟨path, line, v, source, aliases, description, hcall⟩ := happend
  obtain ⟨wr', hdata, hmap, hprep⟩ := hprep
  obtain ⟨l₁, l₂, hl, hown, hrest⟩ := ownTrace_split htr
  cases hprep with
  | create tr now st₁ edits =>
    rw [hcall] at edits
    exact absurd edits not_false
  | edit tr now st₁ st₂ obj read edits =>
    rw [hcall] at edits
    have hne := edits.data_ne
    rw [hdata] at hne
    -- The put stands between the read of the file and the read that found the object.
    obtain ⟨m₁, m₂, hm, -, -⟩ := ownTrace_split hown
    obtain ⟨m₃, m₄, hm₄, -, -⟩ := ownTrace_split hrest
    rw [hl, hm, hm₄, List.append_assoc, List.cons_append] at hchain
    obtain ⟨-, -, hafter⟩ := hchain.split
    rw [← List.cons_append, ← List.append_assoc] at hafter
    obtain ⟨hbetween, -, -⟩ := hafter.split
    have hnew : ¬ st₁.Issued version := by
      intro hi
      have hsame := read.symm.trans (hbetween.rely.old _ _ hfound hi)
      exact hne (congrArg StoredObject.data (Option.some.inj hsame))
    obtain ⟨u, e, hmem, hput⟩ := put_of_new hbetween hfound hnew
    refine ⟨u, e, ?_, hput⟩
    rw [hl, hm, hm₄]
    grind

end

/-! ## Runs -/

/-- A mutator as it runs. -/
abbrev MutatorThread := Thread StoreSig Exc (Option MemoryFile) (Invocation Mutator)

/-- Mutators running over one storage. -/
abbrev MutatorPool := Pool StoreSig Exc (Option MemoryFile) (Invocation Mutator) InMemoryStorage

section Runs

variable {lossy : Prop} {P : MutatorPool → Prop} {w : InMemoryStorage} {p : MutatorPool}

/-- Every step of a run was one its call may make, and could be answered as it was. -/
theorem mutator_guarantee (h : Pool.Run (inMemory lossy) Invocation.mutate P w p)
    {l l' : Log StoreSig InMemoryStorage} {t : Nat} {e : Event StoreSig InMemoryStorage}
    (hl : p.log = l ++ (t, e) :: l') :
    ∃ th, p.threads[t]? = some th ∧ th.call.call.Guarantee th.call.store (ownTrace t l) e.op ∧
      (inMemory lossy).Admits (ownTrace t l) e := by
  obtain ⟨th, ht, -, hg, ha⟩ := h.guarantee (fun i : Invocation Mutator =>
    Mutator.sat i.store i.call i.fuel) hl
  exact ⟨th, ht, hg, ha⟩

/-- How a call of a run ended. -/
theorem mutator_outcome (h : Pool.Run (inMemory lossy) Invocation.mutate P w p) {t : Nat}
    {th : MutatorThread} (ht : p.threads[t]? = some th) {r : Except Exc (Option MemoryFile)}
    (hr : th.prog.outcome? = some r) : th.call.call.Outcome (ownTrace t p.log) r :=
  h.post (fun i : Invocation Mutator => Mutator.sat i.store i.call i.fuel) ht hr

/-! ## The account of a call -/

/-- Call `t`, an `append_line`, returns another call's put of the bytes and metadata that its own put
failed to write. -/
def Adopts (p : MutatorPool) (t : Nat) (m : Mutator) (file : Option MemoryFile) : Prop :=
  (∃ path line v source aliases description,
    m = .appendLine path line v source aliases description) ∧
  ∃ wr : Written,
    (∃ st st' expected, ⟨st, putOp m.path wr expected,
      .error (.preconditionFailedError m.path), st'⟩ ∈ ownTrace t p.log) ∧
    ∃ (u : Nat) (e : Event StoreSig InMemoryStorage), u ≠ t ∧ (u, e) ∈ p.log ∧
      e.post = e.pre.putLocked m.path wr.data wr.map ∧
      file = some ⟨m.path, wr.content, wr.metadata, e.pre.token⟩

/-- How often a call commits, by how it ended. -/
def Accounts (p : MutatorPool) (t : Nat) (m : Mutator) : Except Exc (Option MemoryFile) → Prop
  | .ok file => (ownTrace t p.log).countP (Committed ·) = 1 ∨
      ((ownTrace t p.log).countP (Committed ·) = 0 ∧ Adopts p t m file)
  | .error _ => (ownTrace t p.log).countP (Committed ·) = 0

/-- Without losses a call committed what succeeded. -/
theorem committed_iff (h : Pool.Run (inMemory False) Invocation.mutate P w p) {t : Nat}
    {e : Event StoreSig InMemoryStorage} (he : e ∈ ownTrace t p.log) : Committed e ↔ Succeeded e := by
  obtain ⟨l, l', hl⟩ := List.append_of_mem (mem_ownTrace.mp he)
  obtain ⟨th, -, hg, ha⟩ := mutator_guarantee h hl
  exact Mutator.committed_iff_succeeded hg ha

/-- A part of a call's trace in which nothing has succeeded commits nothing. -/
theorem countP_of_noSuccess (h : Pool.Run (inMemory False) Invocation.mutate P w p) {t : Nat}
    {tr : StoreTrace} (hsub : tr ⊆ ownTrace t p.log) (hno : NoSuccess tr) :
    tr.countP (Committed ·) = 0 :=
  List.countP_eq_zero.mpr fun e he hc =>
    hno e he ((committed_iff h (hsub he)).mp (of_decide_eq_true hc))

/-- A trace with one success commits once. -/
theorem countP_of_success (h : Pool.Run (inMemory False) Invocation.mutate P w p) {t : Nat}
    {tr q : StoreTrace} {e : Event StoreSig InMemoryStorage} (htr : ownTrace t p.log = tr ++ e :: q)
    (hno : NoSuccess tr) (hs : Succeeded e) (hq : QuietTrace q) :
    (ownTrace t p.log).countP (Committed ·) = 1 := by
  have hbefore : tr.countP (Committed ·) = 0 :=
    countP_of_noSuccess h (htr ▸ List.subset_append_left _ _) hno
  have hafter : q.countP (Committed ·) = 0 :=
    countP_of_noSuccess h (htr ▸ List.subset_append_of_subset_right _ (List.subset_cons_self _ _))
      hq.readOnly.noSuccess
  have hmem : e ∈ ownTrace t p.log := htr ▸ List.mem_append_right _ List.mem_cons_self
  have he : Committed e := (committed_iff h hmem).mpr hs
  rw [htr, List.countP_append, hbefore, List.countP_cons, hafter, if_pos (decide_eq_true he)]

/-- **A call commits once if it returns and never if it raises**, except that an `append_line` may
return another call's write of the same bytes and metadata. -/
theorem accounts (h : Pool.Run (inMemory False) Invocation.mutate P w p) {t : Nat}
    {th : MutatorThread} (ht : p.threads[t]? = some th) {r : Except Exc (Option MemoryFile)}
    (hr : th.prog.outcome? = some r) : Accounts p t th.call.call r := by
  have hout := mutator_outcome h ht hr
  cases r with
  | error e => exact countP_of_noSuccess h (List.Subset.refl _) hout
  | ok file =>
    generalize htr : ownTrace t p.log = trace at hout
    cases hout with
    | put tr q st st' expected wr version before quiet =>
      exact .inl (countP_of_success h htr before trivial quiet)
    | deleted tr q st st' expected before quiet delete =>
      exact .inl (countP_of_success h htr before trivial quiet)
    | landed tr q st st' cur expected wr version before quiet append found =>
      have hno : NoSuccess (tr ++ ⟨st, putOp th.call.call.path wr expected,
          .error (.preconditionFailedError th.call.call.path), st'⟩ ::
          (q ++ [readEvent th.call.call.path cur])) :=
        before.put_failed (quiet.readOnly.append (readOnly_readEvent _ cur)) _ _ _ _ _
      refine .inr ⟨countP_of_noSuccess h (List.Subset.refl _) (htr ▸ hno), append, ?_⟩
      obtain ⟨l, l', hl, hown, -⟩ := ownTrace_split htr
      obtain ⟨th', ht', hg, -⟩ := mutator_guarantee h hl
      cases ht.symm.trans ht'
      obtain ⟨-, -, -, hprep⟩ := hg
      rw [hown] at hprep
      obtain ⟨u, e, hmem, -, hpost, rfl⟩ := put_of_landed h.chain htr hprep append found
      refine ⟨wr, ⟨st, st', expected, ?_⟩, u, e, ?_, hmem, hpost, rfl⟩
      · exact htr ▸ List.mem_append_right _ List.mem_cons_self
      rintro rfl
      have hc : Committed e := fun he => InMemoryStorage.putLocked_ne _ _ _ _ (hpost.symm.trans he)
      exact hno e (htr ▸ mem_ownTrace.mpr hmem) ((committed_iff h (mem_ownTrace.mpr hmem)).mp hc)

/-! ## The final contents -/

/-- What a mutator makes of a file's bytes. -/
def Mutator.effect : Mutator → Option Bytes → Option Bytes
  | .writeFile _ content _ _ _, _ => (encodeUtf8 content).toOption
  | .replaceFact _ oldString newString _ _ _ _, some data => do
    let content ← (decodeUtf8 data).toOption
    (encodeUtf8 (replaceFirst content oldString newString)).toOption
  | .appendLine _ line _ _ _ _, some data => do
    let content ← (decodeUtf8 data).toOption
    (encodeUtf8 (MemoryStore.appendContent content line)).toOption
  | _, _ => none

/-- The effect of call `t` on the bytes at `key`. -/
def effectAt (p : MutatorPool) (key : Str) (bytes : Option Bytes) (t : Nat) : Option Bytes :=
  match p.threads[t]? with
  | some th => if th.call.call.path = key then th.call.call.effect bytes else bytes
  | none => bytes

/-- What a put writes is the effect of the mutator on what it edits. -/
theorem Mutator.Edits.effect {s : MemoryStore} {m : Mutator} {now : DateTime} {wr : Written}
    {obj : Option StoredObject} (h : m.Edits s now wr obj) :
    m.effect (obj.map (·.data)) = some wr.data := by
  have hencoded : ∀ content, wr.content = content → (encodeUtf8 content).toOption = some wr.data :=
    fun content hc => by rw [← hc, wr.encoded, Except.toOption]
  cases m with
  | writeFile path content metadata expected source =>
    cases expected <;> cases obj
    · exact hencoded content h.1
    · exact absurd h not_false
    · exact absurd h not_false
    · exact hencoded content h.2.1
  | replaceFact path oldString newString expected source aliases description =>
    cases obj with
    | none => exact absurd h not_false
    | some obj =>
      obtain ⟨content, stored, hdecode, -, -, hc, -⟩ := h
      simp only [Option.map_some, Mutator.effect, hdecode, Except.toOption, Option.bind_eq_bind,
        Option.bind_some]
      exact hencoded _ hc
  | appendLine path line expected source aliases description =>
    cases obj with
    | none => exact absurd h not_false
    | some obj =>
      obtain ⟨-, content, stored, hdecode, -, hc, -⟩ := h
      simp only [Option.map_some, Mutator.effect, hdecode, Except.toOption, Option.bind_eq_bind,
        Option.bind_some]
      exact hencoded _ hc
  | deleteFile path expected => cases obj <;> exact absurd h not_false

/-- A commit leaves the effect of its call, at the call's path, and nothing else. -/
theorem Mutator.Commits.dataAt {s : MemoryStore} {m : Mutator} {e : Event StoreSig InMemoryStorage}
    (h : m.Commits s e) (key : Str) :
    dataAt e.post key = if m.path = key then m.effect (dataAt e.pre key) else dataAt e.pre key := by
  unfold Wenchang.dataAt
  cases h with
  | put now wr edits post =>
    rw [post, InMemoryStorage.get_putLocked]
    by_cases hk : m.path = key
    · rw [if_pos hk, if_pos hk.symm, ← hk, edits.effect, Option.map_some]
    · rw [if_neg hk, if_neg (Ne.symm hk)]
  | delete expected delete version post =>
    rw [post, InMemoryStorage.get_remove]
    by_cases hk : m.path = key
    · rw [if_pos hk, if_pos hk.symm, delete, Option.map_none]
      rfl
    · rw [if_neg hk, if_neg (Ne.symm hk)]

/-- **The final contents are the fold of the committed calls**, in the order of their commits. -/
theorem dataAt_fold (h : Pool.Run (inMemory lossy) Invocation.mutate P w p) (key : Str) :
    dataAt p.world key = (commitOrder p.log).foldl (effectAt p key) (dataAt w key) := by
  -- The fold over what has happened so far, for every part of the log.
  have hfold : ∀ (l l' : Log StoreSig InMemoryStorage) (v : InMemoryStorage), p.log = l ++ l' →
      Chain (inMemory lossy) w l v →
      dataAt v key = (commitOrder l).foldl (effectAt p key) (dataAt w key) := fun l => by
    induction l using List.reverseRecOn with
    | nil => exact fun l' v _ hv => hv ▸ rfl
    | append_singleton l te ih =>
      obtain ⟨t, e⟩ := te
      intro l' v hl hv
      rw [List.append_assoc] at hl
      obtain ⟨hbefore, -, hpost⟩ := hv.split
      have hv : e.post = v := hpost
      obtain ⟨th, ht, hg, ha⟩ := mutator_guarantee h hl
      rw [commitOrder_concat, ← hv]
      by_cases hc : Committed e
      · rw [if_pos hc, List.foldl_append, ← ih _ e.pre hl hbefore,
          (Mutator.commits_of_guarantee hg ha hc).dataAt key]
        simp only [List.foldl_cons, List.foldl_nil, effectAt, ht]
      · rw [if_neg hc, ← ih _ e.pre hl hbefore, not_not.mp hc]
  exact hfold p.log [] p.world (List.append_nil _).symm h.chain

/-- What holds of every run of mutators from `w` to `p`. -/
structure NoLostUpdate (w : InMemoryStorage) (p : MutatorPool) : Prop where
  /-- Every version of a key has at most one successor. -/
  linear : ∀ key v, p.log.countP (fun te => Supersedes key v te.2) ≤ 1
  /-- Every commit is the mutation of its call on the object it meets. -/
  acts : ∀ t e, (t, e) ∈ p.log → Committed e →
    ∃ th, p.threads[t]? = some th ∧ th.call.call.Commits th.call.store e
  /-- A call that has ended has committed what its outcome says. -/
  accounts : ∀ t th r, p.threads[t]? = some th → th.prog.outcome? = some r →
    Accounts p t th.call.call r
  /-- The contents are the fold of the commits. -/
  contents : ∀ key,
    dataAt p.world key = (commitOrder p.log).foldl (effectAt p key) (dataAt w key)

/-- **No lost update**, for any calls under any interleaving of their steps. -/
theorem no_lost_update (h : Pool.Run (inMemory False) Invocation.mutate (fun _ => True) w p) :
    NoLostUpdate w p where
  linear := countP_supersedes_le h.chain
  acts t e he hc := by
    obtain ⟨l, l', hl⟩ := List.append_of_mem he
    obtain ⟨th, ht, hg, ha⟩ := mutator_guarantee h hl
    exact ⟨th, ht, Mutator.commits_of_guarantee hg ha hc⟩
  accounts t th r ht hr := accounts h ht hr
  contents := dataAt_fold h

end Runs

/-! ## Two equal appends -/

/-- An append to the file stored under the first token. -/
def firstAppend : Invocation Mutator :=
  ⟨.default, 1, .appendLine (str "user/u1/notes/n.md") (str "- [stated] x") (str "1") (str "s") none
    none⟩

/-- Two equal appends read the same version and the same clock; the first puts, then the second. -/
def equalAppends : List (Choice (Invocation Mutator) DateTime) :=
  [.invoke firstAppend, .invoke firstAppend, .act 0 noon, .act 1 noon, .act 0 noon, .act 1 noon,
    .act 0 noon, .act 1 noon, .act 1 noon]

/-- The pool they lead to, from a storage that holds the file, empty. -/
def afterEqualAppends : Option MutatorPool :=
  Pool.exec answerAt Invocation.mutate equalAppends
    (Pool.init (.single (str "user/u1/notes/n.md") []))

/-- What is executed is a run. -/
theorem run_afterEqualAppends {p : MutatorPool} (hp : afterEqualAppends = some p) :
    Pool.Run (inMemory False) Invocation.mutate (fun _ => True)
      (.single (str "user/u1/notes/n.md") []) p :=
  Pool.Run.exec answerAt answerAt_handles (.init trivial) hp

end Calls

/-- The second of two equal appends returns and has committed nothing. -/
theorem equal_append_commits_nothing : let _ := Interpreter.ascii
    ∃ (w : InMemoryStorage) (p : MutatorPool) (file : Option MemoryFile),
      afterEqualAppends = some p ∧ Pool.Run (inMemory False) Invocation.mutate (fun _ => True) w p ∧
      p.returned 1 = some (.ok file) ∧ (ownTrace 1 p.log).countP (Committed ·) = 0 := by
  intro _
  have hends : (afterEqualAppends.any fun p => (p.returned 1).any (·.isOk) ∧
    (ownTrace 1 p.log).countP (Committed ·) = 0) = true := by decide +kernel
  obtain ⟨p, hp, h⟩ := (Option.any_eq_true _ _).mp hends
  rw [decide_eq_true_eq] at h
  obtain ⟨r, hr, hok⟩ := (Option.any_eq_true _ _).mp h.1
  cases r with
  | error e => exact nomatch hok
  | ok file => exact ⟨_, p, file, hp, run_afterEqualAppends hp, hr, h.2⟩

/-- The laws of a run hold of the two appends. -/
theorem no_lost_update_equal_appends : let _ := Interpreter.ascii
    ∃ p, afterEqualAppends = some p ∧
      NoLostUpdate (.single (str "user/u1/notes/n.md") []) p := by
  intro _
  have hsome : afterEqualAppends.isSome = true := by decide +kernel
  obtain ⟨p, hp⟩ := Option.isSome_iff_exists.mp hsome
  exact ⟨p, hp, no_lost_update (run_afterEqualAppends hp)⟩

end Wenchang
