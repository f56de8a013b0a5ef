import Wenchang.Evals.Graders

/-!
# The lines of a seed are kept

`_seed_lines_preserved` looks for each wanted line in what an iterator has left. It passes just when the
wanted lines are a subsequence of the stored ones, repeated lines counted (`seedLinesPreserved_eq_none`),
and when it does not, it names the first line that cannot be placed behind those before it.
-/

namespace Wenchang.Evals

open Py Ordered

variable [Interpreter] {search : Str → Str → Bool} {a : SeedLinesPreserved} {s : Scenario}
  {store : StoreDump}

/-- With a seed and a stored file, the scan alone decides. -/
theorem seedLinesPreserved_found {seed : SeedFile} {found : StoredFile} (hseed : s.seed a.file = some seed)
    (hfound : store.get a.file.scope a.file.area a.file.name = some found) :
    seedLinesPreserved search a s store =
      (firstMissing (wantedLines search a seed) (splitlines found.content)).map
        (found.path ++ str " lost or reordered seed line " ++ Py.repr ·) := by
  simp only [seedLinesPreserved, hseed, hfound]
  cases firstMissing (wantedLines search a seed) (splitlines found.content) with
  | none => rfl
  | some line => rfl

/-- Where the file is stored the grader answers for its missing line. -/
theorem seedLinesPreserved_passes {seed : SeedFile} {found : StoredFile}
    (hseed : s.seed a.file = some seed)
    (hfound : store.get a.file.scope a.file.area a.file.name = some found) :
    seedLinesPreserved search a s store = none ↔
      (wantedLines search a seed).Sublist (splitlines found.content) := by
  rw [seedLinesPreserved_found hseed hfound, Option.map_eq_none_iff, firstMissing_eq_none]

/-- A grader that passes has found both files. -/
theorem found_of_passes (h : seedLinesPreserved search a s store = none) : ∃ seed found,
    s.seed a.file = some seed ∧ store.get a.file.scope a.file.area a.file.name = some found := by
  cases hseed : s.seed a.file with
  | none => simp [seedLinesPreserved, hseed] at h
  | some seed =>
    cases hfound : store.get a.file.scope a.file.area a.file.name with
    | none => simp [seedLinesPreserved, hseed, hfound] at h
    | some found => exact ⟨seed, found, rfl, rfl⟩

/-- The line a failed grader names is the first one that has no place behind those before it. -/
theorem seedLinesPreserved_lost {seed : SeedFile} {found : StoredFile} {failure : Str}
    (hseed : s.seed a.file = some seed)
    (hfound : store.get a.file.scope a.file.area a.file.name = some found)
    (h : seedLinesPreserved search a s store = some failure) : ∃ before line after,
      wantedLines search a seed = before ++ line :: after ∧
      before.Sublist (splitlines found.content) ∧
      ¬ (before ++ [line]).Sublist (splitlines found.content) ∧
      failure = found.path ++ str " lost or reordered seed line " ++ Py.repr line := by
  rw [seedLinesPreserved_found hseed hfound, Option.map_eq_some_iff] at h
  obtain ⟨line, hmissing, rfl⟩ := h
  obtain ⟨before, after, hwanted, hbefore, hstuck⟩ := firstMissing_eq_some.mp hmissing
  exact ⟨before, line, after, hwanted, hbefore, hstuck, rfl⟩

omit [Interpreter] in
/-- The lines of the seed that do not match the pattern. -/
theorem wantedLines_eq (seed : SeedFile) : wantedLines search a seed =
    (splitlines seed.content).filter fun line => ∀ pattern ∈ a.exceptPattern, search pattern line = false := by
  unfold wantedLines
  cases a.exceptPattern with
  | none => simp
  | some pattern => simp

/-- **The grader decides subsequence**: it passes just when the lines of the seed that do not match the pattern have
places among the stored lines, in order and no place taken twice. -/
theorem seedLinesPreserved_eq_none : seedLinesPreserved search a s store = none ↔ ∃ seed found kept,
    s.seed a.file = some seed ∧ store.get a.file.scope a.file.area a.file.name = some found ∧
    kept = (splitlines seed.content).filter (fun line => ∀ pattern ∈ a.exceptPattern, search pattern line = false) ∧
    ∃ place : Fin kept.length ↪o Fin (splitlines found.content).length,
      ∀ i, kept.get i = (splitlines found.content).get (place i) := by
  constructor
  · intro h
    obtain ⟨seed, found, hseed, hfound⟩ := found_of_passes h
    have hsub := (seedLinesPreserved_passes hseed hfound).mp h
    exact ⟨seed, found, wantedLines search a seed, hseed, hfound, wantedLines_eq seed,
      List.sublist_iff_exists_fin_orderEmbedding_get_eq.mp hsub⟩
  · rintro ⟨seed, found, kept, hseed, hfound, hkept, hplace⟩
    have hsub := List.sublist_iff_exists_fin_orderEmbedding_get_eq.mpr hplace
    rw [hkept, ← wantedLines_eq] at hsub
    exact (seedLinesPreserved_passes hseed hfound).mpr hsub

/-- A seed with a repeated line and a line of another kind. -/
def repeatedSeed : Scenario := ⟨[⟨str "user", str "notes", str "n", str "a\n# x\nb\na\n"⟩]⟩

/-- A store that holds a file with this content. -/
def storeOf (content : Str) : StoreDump :=
  ⟨[⟨str "user/u1/notes/n.md", str "user", str "notes", str "n", content⟩]⟩

/-- Every line but the headings is to be kept. -/
def keepBody : SeedLinesPreserved := ⟨⟨str "user", str "notes", str "n"⟩, some (str "#")⟩

omit [Interpreter] in
/-- A store that keeps both repeated lines passes without the heading, and one that lost the second does not. -/
theorem seedLinesPreserved_eq_none_repeated : let _ := Interpreter.ascii
    (∃ kept : List Str, kept = [str "a", str "b", str "a"] ∧
      ∃ place : Fin kept.length ↪o Fin (splitlines (str "new\na\nb\nmore\na\n")).length,
        ∀ i, kept.get i = (splitlines (str "new\na\nb\nmore\na\n")).get (place i)) ∧
    seedLinesPreserved (fun pattern line => pattern.isPrefixOf line) keepBody repeatedSeed
      (storeOf (str "a\n# x\nb\n")) = some (str "user/u1/notes/n.md lost or reordered seed line \x27a\x27") ∧
    ¬ ∃ place : Fin [str "a", str "b", str "a"].length ↪o Fin (splitlines (str "a\n# x\nb\n")).length,
      ∀ i, [str "a", str "b", str "a"].get i = (splitlines (str "a\n# x\nb\n")).get (place i) := by
  intro _
  have hpasses : seedLinesPreserved (fun pattern line => pattern.isPrefixOf line) keepBody repeatedSeed
      (storeOf (str "new\na\nb\nmore\na\n")) = none := by
    decide +kernel
  have hfails : seedLinesPreserved (fun pattern line => pattern.isPrefixOf line) keepBody repeatedSeed
      (storeOf (str "a\n# x\nb\n")) = some (str "user/u1/notes/n.md lost or reordered seed line \x27a\x27") := by
    decide +kernel
  have hwanted : (splitlines (str "a\n# x\nb\na\n")).filter (fun line => ∀ pattern ∈ keepBody.exceptPattern,
      pattern.isPrefixOf line = false) = [str "a", str "b", str "a"] := by
    decide +kernel
  obtain ⟨seed, found, kept, hseed, hfound, hkept, place, hplace⟩ := seedLinesPreserved_eq_none.mp hpasses
  obtain rfl := Option.some.inj (hseed.symm.trans (show repeatedSeed.seed keepBody.file = some _ from rfl))
  obtain rfl := Option.some.inj (hfound.symm.trans (show (storeOf _).get _ _ _ = some _ from rfl))
  refine ⟨⟨kept, hkept.trans hwanted, place, hplace⟩, hfails, fun hplace => ?_⟩
  have hnone : seedLinesPreserved (fun pattern line => pattern.isPrefixOf line) keepBody repeatedSeed
      (storeOf (str "a\n# x\nb\n")) = none := by
    refine seedLinesPreserved_eq_none.mpr ⟨_, _, _, rfl, rfl, hwanted.symm, ?_⟩
    exact hplace
  rw [hnone] at hfails
  cases hfails

end Wenchang.Evals
