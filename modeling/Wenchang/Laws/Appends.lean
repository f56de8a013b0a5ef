import Wenchang.Laws.Body
import Wenchang.Laws.NoLostUpdate

/-!
# Appended facts

What `append_line` makes of a body, and what any number of committed appends make of it: the facts of
the appends in the order of their commits, behind the body lines that were there. The step is
`parseBody_appendContent`; a part of a run in which only appends commit at a path is the fold of it.
-/

namespace Wenchang

open Py Ordered Interaction

/-- **One append** adds the fact of its line, and takes away no more than an empty last line. -/
theorem parseBody_appendContent (content : Str) {line : Str} {fact : Fact}
    (h : parseFact line = some fact) :
    parseBody (MemoryStore.appendContent content line) =
      dropBlankEnd (parseBody content) ++ [.fact fact, .text []] := by
  obtain rfl := parseFact_eq_some.mp h
  have hline : ∀ before, parseBody (before ++ formatFact fact ++ [10]) =
      parseBody (before ++ formatFact fact) ++ [.text []] := fun before => by
    rw [parseBody_append, parseBody_nil]
  have hlast : (parseBody content).getLast? = some (.text []) ↔ content = [] ∨ [10] <:+ content := by
    rw [← getLast?_splitOn, parseBody, List.getLast?_map, Option.map_eq_some_iff]
    simp only [parseLine_eq_blank, exists_eq_right]
  unfold MemoryStore.appendContent
  rw [hline]
  by_cases hempty : content = []
  · subst hempty
    rw [if_neg (by simp), List.append_nil, List.nil_append, parseBody_formatFact, parseBody_nil]
    rfl
  by_cases hsuffix : [10] <:+ content
  · obtain ⟨before, rfl⟩ := hsuffix
    rw [if_neg (by simp), List.append_nil, List.append_assoc, List.singleton_append, parseBody_append,
      parseBody_append, parseBody_formatFact, parseBody_nil, dropBlankEnd_concat]
    simp
  · rw [if_pos ⟨hempty, fun h => hsuffix (List.isSuffixOf_iff_suffix.mp h)⟩, List.append_assoc,
      List.singleton_append, parseBody_append, parseBody_formatFact, dropBlankEnd,
      if_neg (fun h => (hlast.mp h).elim hempty hsuffix)]
    simp

/-- An append keeps the content before it. -/
theorem prefix_appendContent (content line : Str) : content <+: MemoryStore.appendContent content line := by
  simp [MemoryStore.appendContent, List.append_assoc]

/-! ## Runs -/

/-- The fact an append adds. -/
def Mutator.added : Mutator → Option Fact
  | .appendLine _ line _ _ _ _ => parseFact line
  | _ => none

/-- The call is an `append_line`. -/
def Mutator.IsAppend : Mutator → Prop
  | .appendLine _ _ _ _ _ _ => True
  | _ => False

/-- The facts that a part of a run's log committed at `key`, in commit order. -/
def factsAt (p : MutatorPool) (key : Str) (log : Log StoreSig InMemoryStorage) : List Fact :=
  (commitOrder log).filterMap fun t =>
    p.threads[t]?.bind fun th => if th.call.call.path = key then th.call.call.added else none

/-- Only appends commit at `key` in this part of the log. -/
def OnlyAppends (p : MutatorPool) (key : Str) (log : Log StoreSig InMemoryStorage) : Prop :=
  ∀ t e, (t, e) ∈ log → Committed e → ∀ th, p.threads[t]? = some th → th.call.call.path = key →
    th.call.call.IsAppend

/-- An event that commits nothing adds no fact. -/
theorem factsAt_concat (p : MutatorPool) (key : Str) (l : Log StoreSig InMemoryStorage) (t : Nat)
    (e : Event StoreSig InMemoryStorage) (h : ¬ Committed e) :
    factsAt p key (l ++ [(t, e)]) = factsAt p key l := by
  rw [factsAt, commitOrder_concat, if_neg h, factsAt]

/-- A commit adds its fact. -/
theorem factsAt_commit {p : MutatorPool} (key : Str) (l : Log StoreSig InMemoryStorage) {t : Nat}
    {e : Event StoreSig InMemoryStorage} {th : MutatorThread} (ht : p.threads[t]? = some th)
    (h : Committed e) : factsAt p key (l ++ [(t, e)]) =
      factsAt p key l ++ (if th.call.call.path = key then th.call.call.added else none).toList := by
  rw [factsAt, commitOrder_concat, if_pos h, List.filterMap_append, factsAt]
  simp only [List.filterMap_cons, List.filterMap_nil, ht, Option.bind_some]
  cases if th.call.call.path = key then th.call.call.added else none <;> rfl

section Runs

variable [Interpreter] {P : MutatorPool → Prop} {lossy : Prop} {w : InMemoryStorage} {p : MutatorPool}

/-- An append that does anything has a fact line. -/
theorem added_of_mem (h : Pool.Run (inMemory lossy) Invocation.mutate P w p) {t : Nat}
    {e : Event StoreSig InMemoryStorage} (he : (t, e) ∈ p.log) {th : MutatorThread}
    (ht : p.threads[t]? = some th) {path line expected source : Str} {aliases : Option (List Str)}
    {description : Option Str}
    (hcall : th.call.call = .appendLine path line expected source aliases description) :
    ∃ fact, parseFact line = some fact := by
  by_contra hnone
  have hline : parseFact line = none := Option.eq_none_iff_forall_not_mem.mpr fun f hf => hnone ⟨f, hf⟩
  have hraise : ∃ exc, th.call.mutate = .raise exc := by
    unfold Invocation.mutate
    rw [hcall]
    simp only [Mutator.body, MemoryStore.appendLine]
    by_cases hpath : isValidPath path = false
    · rw [Prog.raiseIf_pos hpath]
      exact ⟨_, rfl⟩
    · rw [Prog.raiseIf_neg hpath, Prog.ret_bind, Prog.raiseIf_pos (.inl hline)]
      exact ⟨_, rfl⟩
  obtain ⟨exc, hraise⟩ := hraise
  have hfollows := h.follows ht
  rw [hraise] at hfollows
  have hmem := mem_ownTrace.mpr he
  rw [hfollows.raise_eq.1] at hmem
  exact List.not_mem_nil hmem

/-- A commit leaves the other paths alone. -/
theorem Mutator.Commits.get_of_ne {s : MemoryStore} {m : Mutator} {e : Event StoreSig InMemoryStorage}
    (h : m.Commits s e) {key : Str} (hkey : m.path ≠ key) : e.post.get key = e.pre.get key := by
  cases h with
  | put now wr edits post => rw [post, InMemoryStorage.get_putLocked, if_neg (Ne.symm hkey)]
  | delete expected delete version post => rw [post, InMemoryStorage.get_remove, if_neg (Ne.symm hkey)]

/-- A commit of an append replaces the content it meets by that content with its line appended. -/
theorem Mutator.Commits.appended {s : MemoryStore} {m : Mutator} {e : Event StoreSig InMemoryStorage}
    {path line expected source : Str} {aliases : Option (List Str)} {description : Option Str}
    (h : m.Commits s e) (hcall : m = .appendLine path line expected source aliases description) :
    ∃ obj content obj', e.pre.get path = some obj ∧ decodeUtf8 obj.data = .ok content ∧
      e.post.get path = some obj' ∧
      decodeUtf8 obj'.data = .ok (MemoryStore.appendContent content line) := by
  subst hcall
  cases h with
  | put now wr edits post =>
    simp only [Mutator.path] at edits post
    cases hget : e.pre.get path with
    | none =>
      rw [hget] at edits
      exact absurd edits not_false
    | some obj =>
      rw [hget] at edits
      obtain ⟨-, content, stored, hdecode, -, hcontent, -⟩ := edits
      refine ⟨obj, content, ⟨wr.data, wr.map, e.pre.token⟩, rfl, hdecode, ?_, ?_⟩
      · rw [post, InMemoryStorage.get_putLocked, if_pos rfl]
      · exact hcontent ▸ decodeUtf8_of_encodeUtf8 wr.encoded
  | delete expected delete version post => cases delete

/-- **A part of a run in which only appends commit** at a path adds their facts, in commit order. -/
theorem appends_fold (h : Pool.Run (inMemory lossy) Invocation.mutate P w p) {key : Str}
    {before log after : Log StoreSig InMemoryStorage} (hlog : p.log = before ++ log ++ after)
    {v v' : InMemoryStorage} (hchain : Chain (inMemory lossy) v log v') (honly : OnlyAppends p key log)
    {obj : StoredObject} {content : Str} (hget : v.get key = some obj)
    (hdecode : decodeUtf8 obj.data = .ok content) :
    ∃ obj' content', v'.get key = some obj' ∧ decodeUtf8 obj'.data = .ok content' ∧
      content <+: content' ∧
      parseBody content' = addFacts (parseBody content) (factsAt p key log) := by
  -- By induction on how much of the part has happened.
  induction log using List.reverseRecOn generalizing after v' with
  | nil =>
    obtain rfl : v = v' := hchain
    exact ⟨obj, content, hget, hdecode, List.prefix_rfl, rfl⟩
  | append_singleton log te ih =>
    obtain ⟨t, e⟩ := te
    obtain ⟨hbefore, -, hpost⟩ := hchain.split
    obtain rfl : e.post = v' := hpost
    have hsplit : p.log = (before ++ log) ++ (t, e) :: after := by simp [hlog]
    obtain ⟨obj', content', hget', hdecode', hprefix, hbody⟩ := ih hsplit hbefore
      fun u e' hmem => honly u e' (List.mem_append_left _ hmem)
    obtain ⟨th, ht, hg, ha⟩ := mutator_guarantee h hsplit
    by_cases hc : Committed e
    · have hcommits := Mutator.commits_of_guarantee hg ha hc
      rw [factsAt_commit key log ht hc]
      by_cases hpath : th.call.call.path = key
      · have happend := honly t e (List.mem_append_right _ List.mem_cons_self) hc th ht hpath
        cases hcall : th.call.call with
        | appendLine path line expected source aliases description =>
          obtain ⟨fact, hfact⟩ := added_of_mem h (hsplit ▸ List.mem_append_right _ List.mem_cons_self) ht hcall
          rw [hcall] at hpath hcommits
          obtain rfl : path = key := hpath
          obtain ⟨met, text, obj'', hmet, htext, hget'', hdecode''⟩ := hcommits.appended rfl
          obtain rfl : met = obj' := Option.some.inj (hmet.symm.trans hget')
          obtain rfl : text = content' := Except.ok.inj (htext.symm.trans hdecode')
          refine ⟨obj'', _, hget'', hdecode'', hprefix.trans (prefix_appendContent text line), ?_⟩
          rw [parseBody_appendContent text hfact, hbody, addFacts_concat]
          simp [Mutator.path, Mutator.added, hfact]
        | _ => rw [hcall] at happend; exact absurd happend not_false
      · rw [if_neg hpath, Option.toList_none, List.append_nil, hcommits.get_of_ne hpath]
        exact ⟨obj', content', hget', hdecode', hprefix, hbody⟩
    · rw [factsAt_concat p key log t e hc]
      exact ⟨obj', content', (not_not.mp hc) ▸ hget', hdecode', hprefix, hbody⟩

/-- What holds of every run of mutators to `p` about the facts that appends add. -/
structure AppendsFacts (p : MutatorPool) : Prop where
  /-- What `append_line` stores over a content. -/
  line : ∀ content line fact, parseFact line = some fact →
    content <+: MemoryStore.appendContent content line ∧
      parseBody (MemoryStore.appendContent content line) =
        dropBlankEnd (parseBody content) ++ [.fact fact, .text []]
  /-- A commit of an append replaces the content it meets by that content with its line appended. -/
  stores : ∀ t e th path line expected source aliases description, (t, e) ∈ p.log → Committed e →
    p.threads[t]? = some th →
    th.call.call = .appendLine path line expected source aliases description →
    ∃ obj content obj' fact, e.pre.get path = some obj ∧ decodeUtf8 obj.data = .ok content ∧
      e.post.get path = some obj' ∧
      decodeUtf8 obj'.data = .ok (MemoryStore.appendContent content line) ∧ parseFact line = some fact
  /-- Any number of committed appends add their facts, in the order of their commits. -/
  facts : ∀ key before log after v v' obj content, p.log = before ++ log ++ after →
    Chain (inMemory False) v log v' → OnlyAppends p key log → v.get key = some obj →
    decodeUtf8 obj.data = .ok content →
    ∃ obj' content', v'.get key = some obj' ∧ decodeUtf8 obj'.data = .ok content' ∧
      content <+: content' ∧ parseBody content' = addFacts (parseBody content) (factsAt p key log)
  /-- An append that returned committed once, or returns what another call put in its stead. -/
  accounts : ∀ t th file, p.threads[t]? = some th → th.call.call.IsAppend →
    th.prog.outcome? = some (.ok file) → Accounts p t th.call.call (.ok file)

/-- **Appends add facts.** -/
theorem append_adds_facts (h : Pool.Run (inMemory False) Invocation.mutate (fun _ => True) w p) :
    AppendsFacts p where
  line content line fact hfact := ⟨prefix_appendContent content line, parseBody_appendContent content hfact⟩
  stores t e th path line expected source aliases description he hc ht hcall := by
    obtain ⟨before, after, hlog⟩ := List.append_of_mem he
    obtain ⟨th', ht', hg, ha⟩ := mutator_guarantee h hlog
    obtain rfl : th' = th := Option.some.inj (ht'.symm.trans ht)
    obtain ⟨obj, content, obj', hget, hdecode, hget', hdecode'⟩ :=
      (Mutator.commits_of_guarantee hg ha hc).appended hcall
    obtain ⟨fact, hfact⟩ := added_of_mem h he ht hcall
    exact ⟨obj, content, obj', fact, hget, hdecode, hget', hdecode', hfact⟩
  facts key before log after v v' obj content hlog hchain honly hget hdecode :=
    appends_fold h hlog hchain honly hget hdecode
  accounts t th file ht _ hr := accounts h ht hr

end Runs

/-- The fact of the two equal appends. -/
def statedX : Fact := ⟨.stated, str "x", by decide, by decide⟩

/-- Two equal appends to an empty file both return, and one fact is added. -/
theorem equal_appends_add_one_fact : let _ := Interpreter.ascii
    ∃ (p : MutatorPool) (obj : StoredObject) (content : Str), afterEqualAppends = some p ∧
      Pool.Run (inMemory False) Invocation.mutate (fun _ => True)
        (.single (str "user/u1/notes/n.md") []) p ∧
      parseFact (str "- [stated] x") = some statedX ∧
      (p.returned 0).any (·.isOk) = true ∧ (p.returned 1).any (·.isOk) = true ∧
      p.world.get (str "user/u1/notes/n.md") = some obj ∧ decodeUtf8 obj.data = .ok content ∧
      parseBody content ≠ addFacts (parseBody []) [statedX, statedX] := by
  intro _
  have hends : (afterEqualAppends.any fun p => (p.returned 0).any (·.isOk) ∧
    (p.returned 1).any (·.isOk) ∧
    (p.world.get (str "user/u1/notes/n.md")).any fun obj => (decodeUtf8 obj.data).toOption.any fun
      content => parseBody content = [.fact statedX, .text []]) = true := by decide +kernel
  obtain ⟨p, hp, h⟩ := (Option.any_eq_true _ _).mp hends
  rw [decide_eq_true_eq] at h
  obtain ⟨h₀, h₁, hobj⟩ := h
  obtain ⟨obj, hget, h⟩ := (Option.any_eq_true _ _).mp hobj
  obtain ⟨content, hcontent, h⟩ := (Option.any_eq_true _ _).mp h
  rw [decide_eq_true_eq] at h
  refine ⟨p, obj, content, hp, run_afterEqualAppends hp, by decide +kernel, h₀, h₁, hget,
    eq_ok_of_toOption hcontent, ?_⟩
  rw [h]
  decide

/-- The laws hold of the run of the two appends. -/
theorem append_adds_facts_equal_appends : let _ := Interpreter.ascii
    ∃ p, afterEqualAppends = some p ∧ AppendsFacts p := by
  intro _
  have hsome : afterEqualAppends.isSome = true := by decide +kernel
  obtain ⟨p, hp⟩ := Option.isSome_iff_exists.mp hsome
  exact ⟨p, hp, append_adds_facts (run_afterEqualAppends hp)⟩

end Wenchang
