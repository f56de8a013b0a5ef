import Wenchang.Objects

/-!
# Tokens are opaque

No operation looks into a token: under a permutation of all texts each does the same to renamed objects
(`step_rename`). So a history of a store that issues no token twice is one of an `InMemoryStorage`, under the
permutation that takes the tokens of the one to those of the other (`exists_renamed`).
-/

namespace Wenchang

open Py Ordered Interaction

/-! ## Renamed values -/

section

variable (ρ : Equiv.Perm Str)

/-- An object with its token renamed. -/
def StoredObject.rename (o : StoredObject) : StoredObject := { o with version := ρ o.version }

/-- What a listing shows, with its token renamed. -/
def ListedObject.rename (l : ListedObject) : ListedObject := { l with version := ρ l.version }

/-- The objects with their tokens renamed. -/
def Objects.rename (s : Objects) : Objects := s.map (StoredObject.rename ρ)

/-- An operation with the token that it expects renamed. -/
def StorageOp.rename : StorageOp → StorageOp
  | .putIfVersion key data metadata expected => .putIfVersion key data metadata (expected.map ρ)
  | .deleteIfVersion key expected => .deleteIfVersion key (ρ expected)
  | o => o

/-- An answer with its tokens renamed. -/
def StorageOp.renameAns : (o : StorageOp) → o.Ans → (o.rename ρ).Ans
  | .get _, a => a.map (Option.map (StoredObject.rename ρ))
  | .put _ _ _, a => a.map ρ
  | .putIfVersion _ _ _ _, a => a.map ρ
  | .deleteIfVersion _ _, a => a
  | .listPage _ _ _, a => a.map (List.map (ListedObject.rename ρ))

/-- A call with its outcome, the tokens of both renamed. -/
def renamedCall (c : StorageOp × Except Exc Answered) : StorageOp × Except Exc Answered :=
  (c.1.rename ρ, c.2.map fun a => ⟨a.1.rename ρ, a.1.renameAns ρ a.2⟩)

end

/-! ## Operations on renamed objects -/

section

variable {ρ : Equiv.Perm Str} {s : Objects} {keep : Metadata → Metadata} {token key : Str}

/-- A renamed store is looked up by renaming what is found. -/
theorem Objects.get?_rename (s : Objects) (key : Str) :
    (s.rename ρ).get? key = (s.get? key).map (StoredObject.rename ρ) := FinMap.get?_map _ s key

/-- The version of a key is renamed. -/
theorem Objects.version_rename (s : Objects) (key : Str) :
    Objects.version (s.rename ρ) key = (s.version key).map ρ := by
  rw [Objects.version, get?_rename, Objects.version, Option.map_map, Option.map_map]
  rfl

/-- A listing is renamed. -/
theorem Objects.listing_rename (s : Objects) (pre : Str) (startAfter : Option Str) :
    Objects.listing (s.rename ρ) pre startAfter = (s.listing pre startAfter).map (ListedObject.rename ρ) := by
  simp only [Objects.listing, Objects.rename, FinMap.map, List.filter_map, List.map_map]
  rfl

/-- **An operation does the same** to renamed objects. -/
theorem Objects.step_rename (o : StorageOp) :
    Objects.step keep (ρ token) (o.rename ρ) (s.rename ρ) =
      (o.renameAns ρ (Objects.step keep token o s).1, (Objects.step keep token o s).2.rename ρ) := by
  have hinsert : ∀ (key : Str) (data : Bytes) (metadata : Metadata),
      FinMap.insert (s.rename ρ) key ⟨data, metadata, ρ token⟩ =
        Objects.rename ρ (s.insert key ⟨data, metadata, token⟩) := fun key data metadata =>
    (FinMap.map_insert (StoredObject.rename ρ) s key ⟨data, metadata, token⟩).symm
  cases o with
  | get key => exact Prod.ext (congrArg Except.ok (get?_rename s key)) rfl
  | put key data metadata => exact Prod.ext rfl (hinsert key data (keep metadata))
  | putIfVersion key data metadata expected =>
    by_cases hversion : s.version key = expected
    · have hrenamed : Objects.version (s.rename ρ) key = expected.map ρ := by rw [version_rename, hversion]
      rw [Objects.step_putIfVersion hversion]
      exact (Objects.step_putIfVersion hrenamed).trans (Prod.ext rfl (hinsert key data (keep metadata)))
    · have hrenamed : Objects.version (s.rename ρ) key ≠ expected.map ρ := by
        rw [version_rename]
        exact fun heq => hversion (Option.map_injective ρ.injective heq)
      rw [Objects.step_putIfVersion_ne hversion]
      exact Objects.step_putIfVersion_ne hrenamed
  | deleteIfVersion key expected =>
    by_cases hversion : s.version key = some expected
    · have hrenamed : Objects.version (s.rename ρ) key = some (ρ expected) := by
        rw [version_rename, hversion]
        rfl
      rw [Objects.step_deleteIfVersion hversion]
      exact (Objects.step_deleteIfVersion hrenamed).trans (Prod.ext rfl (FinMap.map_erase _ s key).symm)
    · have hrenamed : Objects.version (s.rename ρ) key ≠ some (ρ expected) := by
        rw [version_rename]
        exact fun heq => hversion (Option.map_injective ρ.injective heq)
      rw [Objects.step_deleteIfVersion_ne hversion]
      exact Objects.step_deleteIfVersion_ne hrenamed
  | listPage pre startAfter limit =>
    refine Prod.ext (congrArg Except.ok ?_) rfl
    show (Objects.listing (s.rename ρ) pre startAfter).take limit = ((s.listing pre startAfter).take limit).map _
    rw [listing_rename, List.map_take]

/-- The token of an answer is renamed. -/
theorem StorageOp.token?_rename (o : StorageOp) (a : o.Ans) :
    (o.rename ρ).token? (o.renameAns ρ a) = (o.token? a).map ρ := by
  cases o with
  | get key => rfl
  | put key data metadata => cases a <;> rfl
  | putIfVersion key data metadata expected => cases a <;> rfl
  | deleteIfVersion key expected => rfl
  | listPage pre startAfter limit => rfl

end

/-! ## Numbering tokens -/

/-- Tokens go to their numbers, the first one to the first. -/
def Numbers (ρ : Equiv.Perm Str) (tokens : List Str) : Prop :=
  ∀ t rest, (t :: rest) <:+ tokens → ρ t = Py.ofNat (rest.length + 1)

/-- **Distinct tokens can be numbered**, and all else but the numbers left as it is. -/
theorem exists_numbers {tokens : List Str} (h : tokens.Nodup) : ∃ ρ : Equiv.Perm Str, Numbers ρ tokens ∧
    ∀ t, t ∉ tokens → (∀ n, n < tokens.length → t ≠ Py.ofNat (n + 1)) → ρ t = t := by
  induction tokens with
  | nil => exact ⟨.refl Str, fun t rest hsuffix => absurd (List.suffix_nil.mp hsuffix) nofun, fun _ _ _ => rfl⟩
  | cons t tokens ih =>
    obtain ⟨hnew, hdistinct⟩ := List.nodup_cons.mp h
    obtain ⟨ρ, hnumbers, hfixed⟩ := ih hdistinct
    refine ⟨ρ.trans (Equiv.swap (ρ t) (Py.ofNat (tokens.length + 1))), fun u rest hsuffix => ?_,
      fun u hu hnumber => ?_⟩
    · rw [Equiv.trans_apply]
      rcases List.suffix_cons_iff.mp hsuffix with heq | hsuffix
      · obtain ⟨rfl, rfl⟩ := List.cons.inj heq
        exact Equiv.swap_apply_left _ _
      · -- The numbers given before stay.
        have hu : u ∈ tokens := hsuffix.subset List.mem_cons_self
        have hshort : rest.length < tokens.length := hsuffix.length_le
        rw [hnumbers u rest hsuffix]
        refine Equiv.swap_apply_of_ne_of_ne ?_ fun heq => ?_
        · rw [← hnumbers u rest hsuffix]
          exact fun heq => hnew (ρ.injective heq ▸ hu)
        · have hlen := ofNat_injective heq
          omega
    · have hrest : ρ u = u := hfixed u (fun hmem => hu (List.mem_cons_of_mem t hmem))
        fun n hn => hnumber n (Nat.lt_succ_of_lt hn)
      rw [Equiv.trans_apply, hrest]
      refine Equiv.swap_apply_of_ne_of_ne (fun heq => ?_) (hnumber tokens.length (Nat.lt_succ_self _))
      rw [← hrest] at heq
      exact hu (ρ.injective heq ▸ List.mem_cons_self)

/-! ## Histories -/

/-- An `InMemoryStorage` answers. -/
def handlesInMemory (s : InMemoryStorage) (o : StorageOp) (a : o.Ans) (s' : InMemoryStorage) : Prop :=
  InMemoryStorage.step o s = (a, s')

/-- The tokens that the calls of a history brought, the last one first. -/
def tokensOf : List (StorageOp × Except Exc Answered) → List Str
  | [] => []
  | (_, .ok ⟨o, a⟩) :: rest => tokensOf rest ++ (o.token? a).toList
  | _ :: rest => tokensOf rest

section

variable {keep : Metadata → Metadata} {allowed : List Str → Str → Prop} {s s' : Issuing}
  {calls : List (StorageOp × Except Exc Answered)}

/-- What a history has issued. -/
theorem issued_of_history (hist : History (issuing keep allowed) StorageOp.call s calls s') :
    s'.issued = tokensOf calls ++ s.issued := by
  induction hist with
  | nil s => rfl
  | cons o r rest s s₁ s' run _ ih =>
    obtain ⟨a, ⟨token, -, -, hissued⟩, rfl⟩ := StorageOp.runs_call.mp run
    rw [ih, hissued, tokensOf, List.append_assoc]

/-- A store that allows only new tokens issues none twice. -/
theorem nodup_of_history (hnew : ∀ issued t, allowed issued t → t ∉ issued)
    (hist : History (issuing keep allowed) StorageOp.call s calls s') (hs : s.issued.Nodup) : s'.issued.Nodup := by
  induction hist with
  | nil s => exact hs
  | cons o r rest s s₁ s' run _ ih =>
    obtain ⟨a, ⟨token, -, hallowed, hissued⟩, rfl⟩ := StorageOp.runs_call.mp run
    refine ih ?_
    rw [hissued]
    cases htoken : o.token? a with
    | none => exact hs
    | some t => exact List.nodup_cons.mpr ⟨hnew _ t (hallowed t htoken), hs⟩

/-- The renamed history, by the numbers of its tokens. -/
theorem renamed_of_numbers {ρ : Equiv.Perm Str}
    (hist : History (issuing id allowed) StorageOp.call s calls s') (hρ : Numbers ρ s'.issued)
    {m : InMemoryStorage} (hobjects : m.objects = s.objects.rename ρ) (hnext : m.nextToken = s.issued.length + 1) :
    ∃ m', History handlesInMemory StorageOp.call m (calls.map (renamedCall ρ)) m' := by
  induction hist generalizing m with
  | nil s => exact ⟨m, .nil m⟩
  | cons o r rest s s₁ s' run tail ih =>
    obtain ⟨a, ⟨token, hstep, -, hissued⟩, rfl⟩ := StorageOp.runs_call.mp run
    have hrest : s₁.issued <:+ s'.issued := issued_of_history tail ▸ List.suffix_append _ _
    -- The token that is issued next here is the one that was issued there, if there was one.
    have hsame : Objects.step id (ρ.symm m.token) o s.objects = (a, s₁.objects) := by
      cases htoken : o.token? a with
      | none => exact (Objects.step_of_token?_eq_none hstep htoken _).trans hstep
      | some t =>
        obtain rfl := Objects.eq_of_token? hstep htoken
        rw [hissued, htoken] at hrest
        have hnumber := hρ token s.issued hrest
        rw [InMemoryStorage.token, hnext, ← hnumber, Equiv.symm_apply_apply]
        exact hstep
    have hrenamed : Objects.step id (ρ (ρ.symm m.token)) (o.rename ρ) (s.objects.rename ρ) = _ :=
      Objects.step_rename o
    rw [hsame, Equiv.apply_symm_apply, ← hobjects] at hrenamed
    obtain ⟨hans, hstored⟩ := InMemoryStorage.step_objects (o.rename ρ) m
    rw [hrenamed] at hans hstored
    have hcount : (InMemoryStorage.step (o.rename ρ) m).2.nextToken = s₁.issued.length + 1 := by
      rw [InMemoryStorage.nextToken_step, hans, StorageOp.token?_rename, hnext, hissued, List.length_append]
      cases o.token? a with
      | none => simp
      | some t =>
        simp
        omega
    obtain ⟨m', htail⟩ := ih hρ hstored hcount
    exact ⟨m', .cons _ _ _ m _ m' (StorageOp.runs_call.mpr ⟨_, Prod.ext hans rfl, rfl⟩) htail⟩

/-- **A store whose tokens are new is an `InMemoryStorage`**, but for the names of its tokens. A text that
neither issues keeps its name. -/
theorem exists_renamed (hnew : ∀ issued t, allowed issued t → t ∉ issued)
    (hist : History (issuing id allowed) StorageOp.call Issuing.empty calls s') :
    ∃ ρ : Equiv.Perm Str, (∀ t, t ∉ tokensOf calls → (∀ n, n < (tokensOf calls).length → t ≠ Py.ofNat (n + 1)) →
        ρ t = t) ∧
      ∃ m, History handlesInMemory StorageOp.call InMemoryStorage.empty (calls.map (renamedCall ρ)) m := by
  have hissued : s'.issued = tokensOf calls := (issued_of_history hist).trans (List.append_nil _)
  obtain ⟨ρ, hnumbers, hfixed⟩ := exists_numbers (nodup_of_history hnew hist List.nodup_nil)
  rw [hissued] at hfixed
  exact ⟨ρ, hfixed, renamed_of_numbers hist hnumbers rfl rfl⟩

end

end Wenchang
