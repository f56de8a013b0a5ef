import Wenchang.Laws.CacheSteps
import Wenchang.Laws.Reach

/-!
# What a call guarantees of a shared cache

Whatever other calls do meanwhile, a call sets an entity's token only to one it has just drawn, and an entity's
listing only to a tombstone or to what it drained after it had taken note of the token the listing is tagged
with (`CacheGuarantee`). When it has ended it has replaced the token of every entity after it last changed a file
of it (`Settled`). Both are proved of a call's blocks, and so hold of the call (`sat_call`).
-/

namespace Wenchang

open Py Ordered Interaction

/-- An operation that replaces an entity's token. -/
def StoreOp.Replaces (cache : IndexCache) (scope entityId : Str) (o : StoreOp) : Prop :=
  ∃ token, o = .cacheSet (tokenKey cache scope entityId) token

/-- An operation that can change what is under a prefix. -/
def StoreOp.Changes (pre : Str) (o : StoreOp) : Prop := ∃ key, o.Writes key ∧ pre.isPrefixOf key = true

/-- Replacing a token changes no file. -/
theorem StoreOp.Replaces.not_changes {cache : IndexCache} {scope entityId pre : Str} {o : StoreOp}
    (h : o.Replaces cache scope entityId) : ¬ o.Changes pre := by
  obtain ⟨token, rfl⟩ := h
  rintro ⟨key, hwrites, -⟩
  exact hwrites

/-- What writes no key changes no file. -/
theorem not_changes_of_not_writes {o : StoreOp} (h : ∀ key, ¬ o.Writes key) (pre : Str) : ¬ o.Changes pre := by
  rintro ⟨key, hwrites, -⟩
  exact h key hwrites

/-! ## Changes that have been followed by another token -/

/-- Since a call last changed a file of an entity it has replaced the entity's token, but for one entity that may
be open. -/
def Settled (cache : IndexCache) (opened : Option (Str × Str)) (tr : SharedTrace) : Prop :=
  ∀ tr₁ e tr₂ scope entityId, tr = tr₁ ++ e :: tr₂ → isValidSegment scope = true →
    isValidSegment entityId = true → e.op.Changes (entityPrefix scope entityId) →
    opened = some (scope, entityId) ∨ ∃ e' ∈ tr₂, e'.op.Replaces cache scope entityId

section Settled

variable {cache : IndexCache} {opened : Option (Str × Str)} {tr : SharedTrace} {e : Event StoreSig SharedWorld}

/-- Nothing was changed at first. -/
theorem settled_nil : Settled cache opened [] := by
  intro tr₁ e tr₂ scope entityId h
  cases tr₁ with
  | nil => cases h
  | cons => cases h

/-- A change of the entity that is open. -/
theorem Settled.concat (h : Settled cache opened tr)
    (he : ∀ scope entityId, isValidSegment scope = true → isValidSegment entityId = true →
      e.op.Changes (entityPrefix scope entityId) → opened = some (scope, entityId)) :
    Settled cache opened (tr ++ [e]) := by
  intro tr₁ e₁ tr₂ scope entityId heq hs hid hchanges
  rcases List.eq_nil_or_concat tr₂ with rfl | ⟨tr₃, e₂, rfl⟩
  · obtain ⟨-, hlast⟩ := List.append_inj' heq rfl
    obtain rfl := (List.cons.inj hlast).1
    exact .inl (he scope entityId hs hid hchanges)
  · rw [List.concat_eq_append, ← List.cons_append, ← List.append_assoc] at heq
    obtain ⟨htr, -⟩ := List.append_inj' heq rfl
    rcases h tr₁ e₁ tr₃ scope entityId htr hs hid hchanges with hopen | ⟨e', he', hreplaces⟩
    · exact .inl hopen
    · exact .inr ⟨e', by rw [List.concat_eq_append]; exact List.mem_append_left _ he', hreplaces⟩

/-- An operation that changes nothing. -/
theorem Settled.quiet (h : Settled cache opened tr) (he : ∀ pre, ¬ e.op.Changes pre) :
    Settled cache opened (tr ++ [e]) :=
  h.concat fun _ _ _ _ hchanges => absurd hchanges (he _)

/-- What changes no file leaves a trace settled. -/
theorem Settled.append_quiet {tr' : SharedTrace} (h : Settled cache opened tr)
    (hquiet : ∀ e ∈ tr', ∀ pre, ¬ e.op.Changes pre) : Settled cache opened (tr ++ tr') := by
  induction tr' generalizing tr with
  | nil => rwa [List.append_nil]
  | cons e rest ih =>
    have hnext := ih (h.quiet (hquiet e List.mem_cons_self)) fun e' he' => hquiet e' (List.mem_cons_of_mem _ he')
    rwa [List.append_assoc] at hnext

/-- A settled trace is settled while an entity is open. -/
theorem Settled.opening (h : Settled cache none tr) (opened : Option (Str × Str)) : Settled cache opened tr := by
  intro tr₁ e tr₂ scope entityId heq hs hid hchanges
  rcases h tr₁ e tr₂ scope entityId heq hs hid hchanges with hopen | hreplaced
  · cases hopen
  · exact .inr hreplaced

/-- Another token for the entity that is open closes it. -/
theorem Settled.close {scope entityId : Str} (h : Settled cache (some (scope, entityId)) tr)
    (he : e.op.Replaces cache scope entityId) : Settled cache none (tr ++ [e]) := by
  intro tr₁ e₁ tr₂ scope' entityId' heq hs hid hchanges
  rcases List.eq_nil_or_concat tr₂ with rfl | ⟨tr₃, e₂, rfl⟩
  · obtain ⟨-, hlast⟩ := List.append_inj' heq rfl
    obtain rfl := (List.cons.inj hlast).1
    exact absurd hchanges he.not_changes
  · rw [List.concat_eq_append, ← List.cons_append, ← List.append_assoc] at heq
    obtain ⟨htr, hlast⟩ := List.append_inj' heq rfl
    obtain rfl := (List.cons.inj hlast).1
    right
    rw [List.concat_eq_append]
    rcases h tr₁ e₁ tr₃ scope' entityId' htr hs hid hchanges with hopen | ⟨e', he', hreplaces⟩
    · obtain ⟨rfl, rfl⟩ := Prod.mk.inj (Option.some.inj hopen)
      exact ⟨e, List.mem_append_right _ List.mem_cons_self, he⟩
    · exact ⟨e', List.mem_append_left _ he', hreplaces⟩

/-- Another token, drawn and set. -/
theorem Settled.replaced {scope entityId : Str} (h : Settled cache (some (scope, entityId)) tr)
    (w : SharedWorld) (token : Str) (w' v : SharedWorld) (a : Except Exc Unit) (v' : SharedWorld) :
    Settled cache none
      (tr ++ [⟨w, .uuid4, token, w'⟩] ++ [⟨v, .cacheSet (tokenKey cache scope entityId) token, a, v'⟩]) :=
  (h.quiet (not_changes_of_not_writes fun _ => id)).close ⟨token, rfl⟩

end Settled

/-- What changes a key under an entity's prefix changes no other entity. -/
theorem opened_of_writes {o : StoreOp} {scope entityId : Str} {key : Str} (hs : isValidSegment scope = true)
    (he : isValidSegment entityId = true) (hunder : (entityPrefix scope entityId).isPrefixOf key = true)
    (honly : ∀ k, o.Writes k → k = key) (scope' entityId' : Str) (hs' : isValidSegment scope' = true)
    (he' : isValidSegment entityId' = true) (h : o.Changes (entityPrefix scope' entityId')) :
    some (scope, entityId) = some (scope', entityId') := by
  obtain ⟨k, hwrites, hk⟩ := h
  obtain rfl := honly k hwrites
  obtain ⟨rfl, rfl⟩ := entityPrefix_disjoint hs he hs' he' hunder hk
  rfl

/-! ## What a call sets -/

variable [Interpreter]

/-- An operation by which a reader knows the token that stands: it finds it, or it sets it. -/
def Observes (cache : IndexCache) (scope entityId token : Str) (e : Event StoreSig SharedWorld) : Prop :=
  (∃ w w', e = ⟨w, .cacheGet (tokenKey cache scope entityId), .ok (.text token), w'⟩) ∨
    e.op = .cacheSet (tokenKey cache scope entityId) token

/-- What a store has drained after it knew a token, tagged with the token. -/
def TaggedDrain (s : MemoryStore) (cache : IndexCache) (scope entityId : Str) (tr : SharedTrace)
    (value : Str) : Prop :=
  ∃ tr₁ e tr₂ drained fuel token entries, tr = tr₁ ++ e :: tr₂ ++ drained ∧
    Observes cache scope entityId token e ∧
    (s.drain (entityPrefix scope entityId) fuel none).Follows drained (.ret entries) ∧
    value = encodeListing token entries

/-- What a call guarantees of what it sets. -/
def CacheGuarantee (s : MemoryStore) (cache : IndexCache) (tr : SharedTrace) : StoreOp → Prop
  | .cacheSet key value => ∃ scope entityId, isValidSegment scope = true ∧ isValidSegment entityId = true ∧
      ((key = tokenKey cache scope entityId ∧ ∃ tr' w w', tr = tr' ++ [⟨w, .uuid4, value, w'⟩]) ∨
        (key = listingKey cache scope entityId ∧
          (value = tombstone ∨ TaggedDrain s cache scope entityId tr value)))
  | _ => True

section Blocks

variable {raises : Exc → Prop} {s : MemoryStore} {cache : IndexCache} {tr : SharedTrace} {α : Type}

/-- Rule for an operation that sets nothing in the cache. -/
theorem sat_ask_bind {o : StoreOp} {f : o.Ans → Store α} {Q : SharedTrace → Except Exc α → Prop}
    (hG : CacheGuarantee s cache tr o)
    (h : ∀ w a w', handlesShared raises w o a w' →
      (f a).Sat (shared raises) (CacheGuarantee s cache) Q (tr ++ [⟨w, o, a, w'⟩])) :
    (ask o >>= f).Sat (shared raises) (CacheGuarantee s cache) Q tr :=
  ⟨hG, fun w a w' he => h w a w' he.handles⟩

/-- A page changes nothing. -/
theorem sat_storageListPage_under {opened : Option (Str × Str)} (h : Settled cache opened tr) (pre : Str)
    (after : Option Str) (limit : Nat) :
    (storageListPage pre after limit).Sat (shared raises) (CacheGuarantee s cache)
      (fun tr' r => Settled cache opened tr' ∧ ∀ page, r = .ok page → ∀ o ∈ page, pre.isPrefixOf o.key = true)
      tr := by
  refine sat_ask_bind trivial fun w a w' hh => (Prog.sat_ofExcept _ _).mpr ⟨h.quiet ?_, ?_⟩
  · exact not_changes_of_not_writes fun _ => id
  · rintro page rfl o ho
    obtain ⟨st, hst, -⟩ := hh
    rcases hst with hstep | ⟨e, -, hraised, -⟩
    · obtain rfl := Except.ok.inj (congrArg Prod.fst hstep)
      exact (mem_listing.mp (List.mem_of_mem_take ho)).1
    · cases hraised

/-- A token that was just drawn may be set. -/
theorem guarantee_token {scope entityId : Str} (hs : isValidSegment scope = true)
    (he : isValidSegment entityId = true) (w : SharedWorld) (token : Str) (w' : SharedWorld) :
    CacheGuarantee s cache (tr ++ [⟨w, .uuid4, token, w'⟩]) (.cacheSet (tokenKey cache scope entityId) token) :=
  ⟨scope, entityId, hs, he, .inl ⟨rfl, tr, w, w', rfl⟩⟩

/-- A listing may be buried. -/
theorem guarantee_bury {scope entityId : Str} (hs : isValidSegment scope = true)
    (he : isValidSegment entityId = true) :
    CacheGuarantee s cache tr (.cacheSet (listingKey cache scope entityId) tombstone) :=
  ⟨scope, entityId, hs, he, .inr ⟨rfl, .inl rfl⟩⟩

end Blocks

/-! ## The blocks -/

section

variable {raises : Exc → Prop} (s : MemoryStore) {cache : IndexCache} {tr : SharedTrace} {α : Type}

/-- An invalidation settles its entity. -/
theorem Settled.invalidatePath (hcache : s.indexCache = some cache) {p : PathParts} (hp : p.Valid) {bury : Bool}
    (h : Settled cache (some (p.scope, p.entityId)) tr) :
    (s.invalidatePath p.path bury).Sat (shared raises) (CacheGuarantee s cache)
      (fun tr' _ => Settled cache none tr') tr := by
  unfold MemoryStore.invalidatePath
  simp only [hcache, orValueError, parsePath_path hp, Except.mapError, Prog.ofExcept_ok, Prog.ret_bind, cacheSet,
    bind_assoc]
  refine sat_ask_bind trivial fun w token w' _ => ?_
  refine sat_ask_bind (guarantee_token hp.scope hp.entityId w token w') fun v a v' _ => ?_
  have hsettled := h.replaced w token w' v a v'
  cases bury with
  | false => exact hsettled
  | true =>
    refine sat_ask_bind (guarantee_bury hp.scope hp.entityId) fun u b u' _ => ?_
    exact hsettled.quiet (not_changes_of_not_writes fun _ => id)

/-- An invalidation that is called settles its entity. -/
theorem Settled.invalidateIndex (hcache : s.indexCache = some cache) {scope entityId : Str}
    (hs : isValidSegment scope = true) (he : isValidSegment entityId = true)
    (h : Settled cache (some (scope, entityId)) tr) :
    (s.invalidateIndex scope entityId).Sat (shared raises) (CacheGuarantee s cache)
      (fun tr' _ => Settled cache none tr') tr := by
  unfold MemoryStore.invalidateIndex
  simp only [hcache, checkEntitySegments_valid hs he, Prog.ofExcept_ok, Prog.ret_bind]
  refine sat_ask_bind trivial fun w token w' _ => ?_
  refine sat_ask_bind (guarantee_token hs he w token w') fun v a v' _ => ?_
  refine Prog.sat_ofExcept_bind (fun _ _ => h.replaced w token w' v a v') fun _ _ => ?_
  refine sat_ask_bind (guarantee_bury hs he) fun u b u' _ => (Prog.sat_ofExcept _ _).mpr ?_
  exact (h.replaced w token w' v a v').quiet (not_changes_of_not_writes fun _ => id)

/-- A conditional put settles what it changed. -/
theorem Settled.putIfVersion (hcache : s.indexCache = some cache) {p : PathParts} (hp : p.Valid) (data : Bytes)
    (metadata : Metadata) (expected : Option Str) (h : Settled cache none tr) :
    (s.putIfVersion p.path data metadata expected).Sat (shared raises) (CacheGuarantee s cache)
      (fun tr' _ => Settled cache none tr') tr := by
  refine sat_ask_bind trivial fun w a w' _ => ?_
  have hopen : Settled cache (some (p.scope, p.entityId))
      (tr ++ [⟨w, .storage (.putIfVersion p.path data metadata expected), a, w'⟩]) :=
    (h.opening _).concat (opened_of_writes hp.scope hp.entityId (under_entity hp) fun _ hk => Eq.symm hk)
  exact (hopen.invalidatePath s hcache hp).andThen
    (fun _ _ hsettled => (Prog.sat_ofExcept _ _).mpr hsettled) fun _ _ hsettled => hsettled

/-- A conditional delete settles what it changed. -/
theorem Settled.deleteIfVersion (hcache : s.indexCache = some cache) {p : PathParts} (hp : p.Valid) (expected : Str)
    (h : Settled cache none tr) :
    (s.deleteIfVersion p.path expected).Sat (shared raises) (CacheGuarantee s cache)
      (fun tr' _ => Settled cache none tr') tr := by
  refine sat_ask_bind trivial fun w a w' _ => ?_
  have hopen : Settled cache (some (p.scope, p.entityId))
      (tr ++ [⟨w, .storage (.deleteIfVersion p.path expected), a, w'⟩]) :=
    (h.opening _).concat (opened_of_writes hp.scope hp.entityId (under_entity hp) fun _ hk => Eq.symm hk)
  exact (hopen.invalidatePath s hcache hp).andThen
    (fun _ _ hsettled => (Prog.sat_ofExcept _ _).mpr hsettled) fun _ _ hsettled => hsettled

/-! ### A purge -/

/-- A page of a purge changes its entity only. -/
theorem Settled.purgePage {scope entityId : Str} (hs : isValidSegment scope = true)
    (he : isValidSegment entityId = true) {page : List ListedObject}
    (hpage : ∀ o ∈ page, (entityPrefix scope entityId).isPrefixOf o.key = true) {deleted : Nat}
    (h : Settled cache (some (scope, entityId)) tr) :
    (MemoryStore.purgePage page deleted).Sat (shared raises) (CacheGuarantee s cache)
      (fun tr' _ => Settled cache (some (scope, entityId)) tr') tr := by
  induction page generalizing deleted tr with
  | nil => exact h
  | cons o rest ih =>
    have hrest := fun o' ho' => hpage o' (List.mem_cons_of_mem _ ho')
    refine sat_ask_bind trivial fun w a w' _ => ?_
    have hnext : Settled cache (some (scope, entityId))
        (tr ++ [⟨w, .storage (.deleteIfVersion o.key o.version), a, w'⟩]) :=
      h.concat (opened_of_writes hs he (hpage o List.mem_cons_self) fun _ hk => Eq.symm hk)
    split
    · exact ih hrest hnext
    · exact ih hrest hnext
    · exact hnext

/-- A pass of a purge changes its entity only. -/
theorem Settled.purgePass {scope entityId : Str} (hs : isValidSegment scope = true)
    (he : isValidSegment entityId = true) {fuel : Nat} {after : Option Str} {found : Bool} {deleted : Nat}
    (h : Settled cache (some (scope, entityId)) tr) :
    (s.purgePass (entityPrefix scope entityId) fuel after found deleted).Sat (shared raises)
      (CacheGuarantee s cache) (fun tr' _ => Settled cache (some (scope, entityId)) tr') tr := by
  induction fuel generalizing after found deleted tr with
  | zero => trivial
  | succ fuel ih =>
    refine (sat_storageListPage_under h _ _ _).andThen (fun tr₁ page hlisted => ?_) fun _ _ hlisted => hlisted.1
    refine (hlisted.1.purgePage s hs he (hlisted.2 page rfl)).andThen (fun tr₂ n hdeleted => ?_)
      fun _ _ hdeleted => hdeleted
    dsimp only
    split
    · exact hdeleted
    · exact ih hdeleted

/-- So do all its passes. -/
theorem Settled.purgePasses {scope entityId : Str} (hs : isValidSegment scope = true)
    (he : isValidSegment entityId = true) {fuel maxPasses passes deleted : Nat}
    (h : Settled cache (some (scope, entityId)) tr) :
    (s.purgePasses fuel (entityPrefix scope entityId) scope entityId maxPasses passes deleted).Sat (shared raises)
      (CacheGuarantee s cache) (fun tr' _ => Settled cache (some (scope, entityId)) tr') tr := by
  induction passes generalizing deleted tr with
  | zero =>
    refine (sat_storageListPage_under h _ _ _).andThen (fun tr₁ left hlisted => ?_) fun _ _ hlisted => hlisted.1
    split
    · exact hlisted.1
    · exact hlisted.1
  | succ passes ih =>
    refine (h.purgePass s hs he).andThen (fun tr₁ pass hpass => ?_) fun _ _ hpass => hpass
    split
    · exact hpass
    · exact ih hpass

/-- **A purge settles what it changed**, however it ends. -/
theorem Settled.purge (hcache : s.indexCache = some cache) {scope entityId : Str} (hs : isValidSegment scope = true)
    (he : isValidSegment entityId = true) {fuel : Nat} {maxPasses : Int} (h : Settled cache none tr) :
    (s.purge fuel scope entityId maxPasses).Sat (shared raises) (CacheGuarantee s cache)
      (fun tr' _ => Settled cache none tr') tr := by
  unfold MemoryStore.purge orValueError
  have hprefix : joinSegments [scope, entityId] = entityPrefix scope entityId := rfl
  rw [checkEntitySegments_valid hs he, Prog.ofExcept_ok, Prog.ret_bind]
  refine Prog.sat_raiseIf_bind (fun _ => h) fun _ => ?_
  simp only [buildPrefix_entity hs he, Except.mapError, Prog.ofExcept_ok, Prog.ret_bind, hprefix]
  -- However the passes end, the entity is open until its token has been replaced.
  have hpasses : ((s.purgePasses fuel (entityPrefix scope entityId) scope entityId maxPasses.toNat
      maxPasses.toNat 0).attempt : Store (Except Exc Nat)).Sat (shared raises) (CacheGuarantee s cache)
        (fun tr' r => Settled cache (some (scope, entityId)) tr' ∧ ∃ outcome, r = .ok outcome) tr :=
    (Prog.sat_attempt _ _ _).mpr
      (((h.opening _).purgePasses s hs he).post fun _ outcome hopen => ⟨hopen, outcome, rfl⟩)
  refine hpasses.andThen (fun tr₁ outcome hopen => ?_) fun _ _ hraised => nomatch hraised.2
  obtain ⟨hopen, -⟩ := hopen
  cases outcome with
  | error e =>
    have hinvalidate : ((s.invalidateIndex scope entityId).attempt : Store (Except Exc Unit)).Sat (shared raises)
        (CacheGuarantee s cache) (fun tr' _ => Settled cache none tr') tr₁ :=
      (Prog.sat_attempt _ _ _).mpr (hopen.invalidateIndex s hcache hs he)
    exact hinvalidate.andThen (fun _ _ hsettled => hsettled) fun _ _ hsettled => hsettled
  | ok n =>
    exact (hopen.invalidateIndex s hcache hs he).andThen (fun _ _ hsettled => hsettled)
      fun _ _ hsettled => hsettled

/-! ### A reader -/

/-- A refill sets what it drained under the token it knew before. -/
theorem Settled.refill {scope entityId token : Str} (hs : isValidSegment scope = true)
    (he : isValidSegment entityId = true) {fuel : Nat} {tr₁ tr₂ : SharedTrace} {e : Event StoreSig SharedWorld}
    (hknown : Observes cache scope entityId token e) (htr : tr = tr₁ ++ e :: tr₂) (h : Settled cache none tr) :
    (s.refill fuel cache scope entityId (entityPrefix scope entityId) token).Sat (shared raises)
      (CacheGuarantee s cache) (fun tr' _ => Settled cache none tr') tr := by
  have hlists : (s.drain (entityPrefix scope entityId) fuel none).Issues fun o : StoreOp =>
      ∃ pre after limit, o = .storage (.listPage pre after limit) :=
    issues_drain s (fun after limit => ⟨_, after, limit, rfl⟩) fuel none
  have hquiet : ∀ {q : SharedTrace}, (∀ e ∈ q, ∃ pre after limit, e.op = .storage (.listPage pre after limit)) →
      Settled cache none (tr ++ q) := by
    intro q hq
    apply h.append_quiet
    intro e' he'
    obtain ⟨pre, after, limit, hop⟩ := hq e' he'
    rw [hop]
    exact not_changes_of_not_writes fun _ => id
  have hissues : ∀ (q : SharedTrace) (o : StoreOp), (∃ pre after limit, o = .storage (.listPage pre after limit)) →
      CacheGuarantee s cache (tr ++ q) o := by
    rintro q o ⟨pre, after, limit, rfl⟩
    trivial
  have hdrain := hlists.sat_follows (E := shared raises) hissues
  refine hdrain.andThen (fun tr' entries hdrained => ?_) fun tr' _ hraised => ?_
  · obtain ⟨q, rfl, hfollows, hq⟩ := hdrained
    refine sat_ask_bind ⟨scope, entityId, hs, he, .inr ⟨rfl, .inr ?_⟩⟩ fun v a v' _ => ?_
    · exact ⟨tr₁, e, tr₂, q, fuel, token, entries, by rw [htr], hknown, hfollows, rfl⟩
    · exact (hquiet hq).quiet (not_changes_of_not_writes fun _ => id)
  · obtain ⟨q, rfl, -, hq⟩ := hraised
    exact hquiet hq

/-- Rule for a read of the cache: what is found is the text that was answered. -/
theorem sat_cacheGet_bind {key : Str} {f : Option Str → Store α} {Q : SharedTrace → Except Exc α → Prop}
    (h : ∀ w a w' found, (∀ text, found = some text → a = .ok (.text text)) →
      (f found).Sat (shared raises) (CacheGuarantee s cache) Q (tr ++ [⟨w, .cacheGet key, a, w'⟩])) :
    (cacheGet key >>= f).Sat (shared raises) (CacheGuarantee s cache) Q tr := by
  unfold cacheGet
  rw [bind_assoc]
  refine sat_ask_bind trivial fun w a w' _ => ?_
  have hmiss : (f none).Sat (shared raises) (CacheGuarantee s cache) Q (tr ++ [⟨w, .cacheGet key, a, w'⟩]) := by
    apply h w a w' none
    intro text hfound
    cases hfound
  cases a with
  | error e => exact hmiss
  | ok value =>
    cases value with
    | absent => exact hmiss
    | other => exact hmiss
    | text text =>
      apply h w _ w' (some text)
      intro text' hfound
      cases hfound
      rfl

/-- A cached read leaves a trace settled. -/
theorem Settled.cachedEntityEntries {scope entityId : Str} (hs : isValidSegment scope = true)
    (he : isValidSegment entityId = true) {fuel : Nat} (h : Settled cache none tr) :
    (s.cachedEntityEntries fuel cache scope entityId).Sat (shared raises) (CacheGuarantee s cache)
      (fun tr' _ => Settled cache none tr') tr := by
  unfold MemoryStore.cachedEntityEntries orValueError
  have hprefix : joinSegments [scope, entityId] = entityPrefix scope entityId := rfl
  rw [buildPrefix_entity hs he, Except.mapError, Prog.ofExcept_ok, Prog.ret_bind, hprefix]
  refine sat_cacheGet_bind s fun w a w' found hfound => ?_
  have hget : Settled cache none (tr ++ [⟨w, .cacheGet (tokenKey cache scope entityId), a, w'⟩]) :=
    h.quiet (not_changes_of_not_writes fun _ => id)
  cases found with
  | none =>
    -- Without a token the reader draws one and sets it.
    refine sat_ask_bind trivial fun v token v' _ => ?_
    unfold cacheSet
    rw [bind_assoc]
    refine sat_ask_bind (guarantee_token hs he v token v') fun u b u' _ => ?_
    exact ((hget.opening _).replaced v token v' u b u').refill s hs he (.inr rfl) rfl
  | some token =>
    have hobserves := hfound token rfl
    subst hobserves
    refine sat_cacheGet_bind s fun v b v' cached _ => ?_
    have hboth := hget.quiet (e := ⟨v, .cacheGet (listingKey cache scope entityId), b, v'⟩)
      (not_changes_of_not_writes fun _ => id)
    -- Whatever stands at the listing, it is served or drained anew.
    cases cached.bind (decodeListing · token (entityPrefix scope entityId)) with
    | some hit => exact hboth
    | none => exact hboth.refill s hs he (.inl ⟨w, w', rfl⟩) (List.append_assoc _ _ _)

end

/-! ## A call -/

/-- **What a call guarantees, and that it ends settled.** -/
theorem sat_call {raises : Exc → Prop} {cache : IndexCache} {i : Invocation StoreCall} (huses : UsesCache cache i) :
    i.body.Sat (shared raises) (CacheGuarantee i.store cache) (fun tr _ => Settled cache none tr) [] := by
  have hblocks : CallBlocks i.store cache fun _ p => ∀ tr, Settled cache none tr →
      p.Sat (shared raises) (CacheGuarantee i.store cache) (fun tr' _ => Settled cache none tr') tr :=
    { toComposes := Prog.composes_sat_keeps _ _ _
      uses := huses
      get := fun key tr h => sat_ask_bind trivial fun w a w' _ =>
        (Prog.sat_ofExcept _ _).mpr (h.quiet (not_changes_of_not_writes fun _ => id))
      list := fun pre after limit tr h => (sat_storageListPage_under h pre after limit).post fun _ _ h' => h'.1
      clock := fun tr h => ⟨trivial, fun w a w' _ => h.quiet (not_changes_of_not_writes fun _ => id)⟩
      put := fun path data metadata expected hpath tr h => by
        obtain ⟨p, hp, rfl⟩ := exists_parts hpath
        exact h.putIfVersion i.store huses hp data metadata expected
      delete := fun path expected hpath tr h => by
        obtain ⟨p, hp, rfl⟩ := exists_parts hpath
        exact h.deleteIfVersion i.store huses hp expected
      cached := fun fuel scope entityId hs he tr h => h.cachedEntityEntries i.store hs he
      purge := fun fuel scope entityId maxPasses hs he tr h => h.purge i.store huses hs he
      invalidate := fun scope entityId hs he tr h => (h.opening _).invalidateIndex i.store huses hs he }
  exact hblocks.call i.call i.fuel [] settled_nil

end Wenchang
