import Wenchang.Laws.Blocks
import Wenchang.Laws.Metadata
import Wenchang.Laws.Paging

/-!
# Whose cursor it is

A cursor carries the last key of its page and nothing of the prefix it was issued for. `list_prefix`
takes it for every prefix of that key: `cursor_refused_iff`. A cursor of another prefix is refused
where neither prefix extends the other; a cursor of a nested prefix goes through.
-/

namespace Wenchang

open Py Ordered Interaction

section

variable [Interpreter]

/-- Whatever storage it runs over, the call raises `ValueError`, returns no page and changes nothing. -/
def Refuses (call : Store ListPage) : Prop :=
  ∃ message, ∀ (W : Type) (handles : W → (o : StoreOp) → StoreSig.Ans o → W → Prop) (w w' : W)
    (r : Except Exc ListPage),
    call.Runs handles w r w' ↔ r = .error (.valueError message) ∧ w' = w

/-- A cursor is read as the key it was made of, or refused. -/
theorem decodeCursor_of_encodeCursor {key cursor : Str} (h : encodeCursor key = .ok cursor) (pre : Str) :
    (pre.isPrefixOf key = true ∧ decodeCursor cursor pre = .ok key) ∨
      (pre.isPrefixOf key = false ∧ ∃ message, decodeCursor cursor pre = .error (.valueError message)) := by
  cases hpre : pre.isPrefixOf key with
  | true => exact .inl ⟨rfl, decodeCursor_encodeCursor h hpre⟩
  | false =>
    have hroot : decodeCursor cursor [] = .ok key := decodeCursor_encodeCursor h (by simp)
    refine .inr ⟨rfl, ?_⟩
    unfold decodeCursor at hroot ⊢
    split at hroot
    · cases hroot
    · split at hroot
      · cases hroot
      next raw hraw key' hkey =>
        rw [if_pos (by simp)] at hroot
        obtain rfl := Except.ok.inj hroot
        rw [if_neg (by simp [hpre])]
        exact ⟨_, rfl⟩

/-- What a returned page with a cursor was made of. -/
theorem runs_listPrefix_cursor {W : Type} {handles : W → (o : StoreOp) → StoreSig.Ans o → W → Prop}
    {w w' : W} {s : MemoryStore} {p : Str} {cursor : Option Str} {page : ListPage} {next : Str}
    (h : (s.listPrefix p cursor).Runs handles w (.ok page) w') (hnext : page.nextCursor = some next) :
    ∃ after objs last, MemoryStore.decodeStart cursor p = .ok after ∧
      handles w (.storage (.listPage p after (s.listPageSize + 1))) (.ok objs) w' ∧
      (objs.take s.listPageSize).getLast? = some last ∧ encodeCursor last.key = .ok next := by
  unfold MemoryStore.listPrefix at h
  by_cases hvalid : isValidPrefix p = false
  · rw [Prog.raiseIf_pos hvalid, Prog.raise_bind, Prog.runs_raise] at h
    cases h.1
  rw [Prog.raiseIf_neg hvalid, Prog.ret_bind] at h
  cases hafter : MemoryStore.decodeStart cursor p with
  | error e =>
    rw [hafter, Prog.ofExcept_error, Prog.raise_bind, Prog.runs_raise] at h
    cases h.1
  | ok after =>
    rw [hafter, Prog.ofExcept_ok, Prog.ret_bind] at h
    obtain ⟨objs, w₁, hobjs, h⟩ | ⟨e, he, -⟩ := Prog.runs_bind.mp h
    · obtain ⟨hpage, rfl⟩ := Prog.runs_ofExcept.mp h
      obtain ⟨a, w₂, hask, hobjs⟩ | ⟨e, he, -⟩ := Prog.runs_bind.mp hobjs
      · obtain ⟨a', ha, hobjs'⟩ := runs_ask.mp hask
        cases ha
        obtain ⟨rfl, rfl⟩ := Prog.runs_ofExcept.mp hobjs
        obtain ⟨-, -, hcursor⟩ := pageOf_eq_ok s.listPageSize_pos hpage.symm
        obtain ⟨last, hlast, hencode⟩ := hcursor next hnext
        exact ⟨after, objs, last, rfl, hobjs', hlast, hencode⟩
      · cases he
    · cases he

/-- **Whose cursor it is.** A cursor that `list_prefix` returned for `p` is refused for `q` exactly when
the last key of the page that storage answered does not start with `q`. -/
theorem cursor_refused_iff {W : Type} {handles : W → (o : StoreOp) → StoreSig.Ans o → W → Prop}
    {w w' : W} {s : MemoryStore} (s' : MemoryStore) {p q : Str} (hq : isValidPrefix q = true)
    {cursor : Option Str} {page : ListPage} {next : Str}
    (h : (s.listPrefix p cursor).Runs handles w (.ok page) w') (hnext : page.nextCursor = some next) :
    ∃ after objs last, MemoryStore.decodeStart cursor p = .ok after ∧
      handles w (.storage (.listPage p after (s.listPageSize + 1))) (.ok objs) w' ∧
      (objs.take s.listPageSize).getLast? = some last ∧
      (Refuses (s'.listPrefix q (some next)) ↔ ¬ q.isPrefixOf last.key = true) := by
  obtain ⟨after, objs, last, hafter, hobjs, hlast, hcursor⟩ := runs_listPrefix_cursor h hnext
  refine ⟨after, objs, last, hafter, hobjs, hlast, ?_⟩
  have hvalid : ¬ isValidPrefix q = false := by simp [hq]
  rcases decodeCursor_of_encodeCursor hcursor q with ⟨hpre, hdecode⟩ | ⟨hpre, message, hdecode⟩
  · -- Storage may answer that nothing is behind the key.
    refine iff_of_false (fun ⟨message, hrefuses⟩ => ?_) (by simp [hpre])
    have hpage : (s'.listPrefix q (some next)).Runs (W := Unit) (fun _ _ _ _ => True) () (.ok ⟨[], none⟩) () := by
      unfold MemoryStore.listPrefix
      rw [Prog.raiseIf_neg hvalid, Prog.ret_bind, MemoryStore.decodeStart, hdecode, Except.map,
        Prog.ofExcept_ok, Prog.ret_bind, Prog.runs_bind]
      have hempty : MemoryStore.pageOf s'.listPageSize [] = .ok ⟨[], none⟩ := by
        simp only [MemoryStore.pageOf, List.take_nil]
        rfl
      refine .inl ⟨[], (), ?_, Prog.runs_ofExcept.mpr ⟨hempty.symm, rfl⟩⟩
      exact Prog.runs_bind.mpr (.inl ⟨.ok [], (), runs_ask.mpr ⟨_, rfl, trivial⟩,
        Prog.runs_ofExcept.mpr ⟨rfl, rfl⟩⟩)
    cases ((hrefuses Unit _ () () _).mp hpage).1
  · refine iff_of_true ⟨message, fun W handles w w' r => ?_⟩ (by simp [hpre])
    unfold MemoryStore.listPrefix
    rw [Prog.raiseIf_neg hvalid, Prog.ret_bind, MemoryStore.decodeStart, hdecode, Except.map,
      Prog.ofExcept_error, Prog.raise_bind, Prog.runs_raise]

end

/-- Two files of one area, and a file of another area before them. -/
def threeFiles : InMemoryStorage :=
  let metadata := metadataMap [] (str "[]") (str "[]") (str "2026-01-01T00:00:00Z")
  ((InMemoryStorage.empty.putLocked (str "user/u1/a/x.md") [] metadata).putLocked
    (str "user/u1/notes/n.md") [] metadata).putLocked (str "user/u1/notes/o.md") [] metadata

/-- The cursor of an area lists the entity from there on, without the file of the area before. -/
theorem cursor_of_nested_prefix : let _ := Interpreter.ascii
    isValidPrefix (str "user/u1/notes/") = true ∧ isValidPrefix (str "user/u1/") = true ∧
      (threeFiles.get (str "user/u1/a/x.md")).isSome ∧
      ∃ page next rest, listAt onePerPage (str "user/u1/notes/") none threeFiles = some (.ok page) ∧
        page.nextCursor = some next ∧
        listAt onePerPage (str "user/u1/") (some next) threeFiles = some (.ok rest) ∧
        rest.entries.map (·.path) = [str "user/u1/notes/o.md"] ∧ rest.nextCursor = none := by
  intro _
  have hends : ((listAt onePerPage (str "user/u1/notes/") none threeFiles).any fun r =>
      r.toOption.any fun page => page.nextCursor.any fun next =>
        (listAt onePerPage (str "user/u1/") (some next) threeFiles).any fun r =>
          r.toOption.any fun rest => decide (rest.entries.map (·.path) = [str "user/u1/notes/o.md"] ∧
            rest.nextCursor = none)) = true := by
    decide +kernel
  obtain ⟨r, hr, h₁⟩ := (Option.any_eq_true _ _).mp hends
  obtain ⟨page, hpage, h₂⟩ := (Option.any_eq_true _ _).mp h₁
  obtain ⟨next, hnext, h₃⟩ := (Option.any_eq_true _ _).mp h₂
  obtain ⟨r', hr', h₄⟩ := (Option.any_eq_true _ _).mp h₃
  obtain ⟨rest, hrest, h⟩ := (Option.any_eq_true _ _).mp h₄
  rw [decide_eq_true_eq] at h
  rw [eq_ok_of_toOption hpage] at hr
  rw [eq_ok_of_toOption hrest] at hr'
  exact ⟨by decide +kernel, by decide +kernel, by decide +kernel, page, next, rest, hr, hnext, hr', h⟩

/-- The law of the cursor of the area. -/
theorem cursor_refused_iff_nested : let _ := Interpreter.ascii
    ∃ (next : Str) (w : InMemoryStorage) (after : Option Str) (objs : List ListedObject)
      (last : ListedObject), MemoryStore.decodeStart none (str "user/u1/notes/") = .ok after ∧
      (inMemory False).handles threeFiles (.storage (.listPage (str "user/u1/notes/") after 2)) (.ok objs) w ∧
      (objs.take 1).getLast? = some last ∧
      (Refuses (onePerPage.listPrefix (str "user/u1/") (some next)) ↔
        ¬ (str "user/u1/").isPrefixOf last.key = true) := by
  intro _
  have hends : ((listAt onePerPage (str "user/u1/notes/") none threeFiles).any fun r =>
      r.toOption.any fun page => page.nextCursor.isSome) = true := by
    decide +kernel
  obtain ⟨r, hr, h₁⟩ := (Option.any_eq_true _ _).mp hends
  obtain ⟨page, hpage, h₂⟩ := (Option.any_eq_true _ _).mp h₁
  obtain ⟨next, hnext⟩ := Option.isSome_iff_exists.mp h₂
  rw [eq_ok_of_toOption hpage] at hr
  have hanswers : ∀ o : StoreOp, True → ∀ st : InMemoryStorage, ∃ st',
      (inMemory False).handles st o (answerAt noon o (id st)).1 st' ∧
        id st' = (answerAt noon o (id st)).2 :=
    fun o _ st => ⟨_, answerAt_handles noon o st, rfl⟩
  have hstep : (onePerPage.listPrefix (str "user/u1/notes/") none).run (answerAt noon) (id threeFiles) =
      (some (.ok page),
        ((onePerPage.listPrefix (str "user/u1/notes/") none).run (answerAt noon) threeFiles).2) :=
    Prod.ext hr rfl
  obtain ⟨w, hrun, -⟩ := (Prog.issues_true _).runs_of_run hanswers hstep
  obtain ⟨after, objs, last, h⟩ :=
    cursor_refused_iff onePerPage (q := str "user/u1/") (by decide +kernel) hrun hnext
  exact ⟨next, w, after, objs, last, h⟩

end Wenchang
