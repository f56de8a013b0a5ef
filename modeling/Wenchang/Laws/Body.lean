import Wenchang.FileFormat
import Wenchang.Paths

/-!
# Bodies

`serializeBody` and `parseBody` are inverse to each other, on all strings and on the sequences of body
lines that `serializeBody` accepts. A round trip is that of its lines, put together by the splitting at
newlines: a fact line is a line that `formatFact` wrote (`parseFact_eq_some`), so a line that is no
fact line stays what it is.
-/

namespace Wenchang

open Py

/-! ## Fact lines -/

/-- The labels differ within the first five characters of a fact line. -/
theorem formatFact_take (fact : Fact) :
    (formatFact fact).take 5 = str "- [" ++ fact.label.text.take 2 := by
  obtain ⟨label, text, -, -⟩ := fact
  cases label <;> rfl

/-- Two characters tell the labels apart. -/
theorem label_of_take {l l' : ConfidenceLabel} (h : l.text.take 2 = l'.text.take 2) : l = l' := by
  revert h
  cases l <;> cases l' <;> decide

/-- A fact is told by its text. -/
theorem formatFact_inj {f f' : Fact} (h : formatFact f = formatFact f') : f = f' := by
  have htake := congrArg (List.take 5) h
  rw [formatFact_take, formatFact_take] at htake
  have hlabel := label_of_take (List.append_cancel_left htake)
  obtain ⟨label, text, hline, hblank⟩ := f
  obtain ⟨label', text', hline', hblank'⟩ := f'
  obtain rfl : label = label' := hlabel
  obtain rfl : text = text' := List.append_cancel_left h
  rfl

/-- A line matches a label where it is the text of a fact with it. -/
theorem matchLabel_eq_some {label : ConfidenceLabel} {line : Str} {fact : Fact} :
    matchLabel label line = some fact ↔ fact.label = label ∧ line = formatFact fact := by
  unfold matchLabel
  simp only
  constructor
  · intro h
    split at h
    next hmatch =>
      obtain rfl := Option.some.inj h
      obtain ⟨text, rfl⟩ := List.isPrefixOf_iff_prefix.mp hmatch.1
      exact ⟨rfl, by simp [formatFact]⟩
    next => cases h
  · rintro ⟨rfl, rfl⟩
    obtain ⟨label, text, hline, hblank⟩ := fact
    simp [formatFact, hline, hblank]

/-- **Fact lines** are the lines that facts are rendered as. -/
theorem parseFact_eq_some {line : Str} {fact : Fact} :
    parseFact line = some fact ↔ line = formatFact fact := by
  constructor
  · intro h
    obtain ⟨label, -, hmatch⟩ := List.exists_of_findSome?_eq_some h
    exact (matchLabel_eq_some.mp hmatch).2
  · rintro rfl
    have hlabel : fact.label ∈ [ConfidenceLabel.stated, .observed, .inferred, .system] := by
      cases fact.label <;> simp
    have hsome : (parseFact (formatFact fact)).isSome := by
      rw [parseFact, List.findSome?_isSome_iff]
      exact ⟨fact.label, hlabel, Option.isSome_iff_exists.mpr ⟨fact, matchLabel_eq_some.mpr ⟨rfl, rfl⟩⟩⟩
    obtain ⟨found, hfound⟩ := Option.isSome_iff_exists.mp hsome
    obtain ⟨label, -, hmatch⟩ := List.exists_of_findSome?_eq_some hfound
    rw [hfound, formatFact_inj (matchLabel_eq_some.mp hmatch).2]

/-- A fact is written on one line. -/
theorem newline_not_mem_formatFact (fact : Fact) : (10 : CodePoint) ∉ formatFact fact := by
  have hhead : (10 : CodePoint) ∉ str "- [" ++ fact.label.text ++ str "] " := by
    cases fact.label <;> decide
  intro h
  rcases List.mem_append.mp h with h | h
  · exact hhead h
  · exact fact.one_line h

/-! ## Lines -/

/-- A line is a fact where it is the text of one. -/
theorem parseLine_eq_fact {line : Str} {fact : Fact} :
    parseLine line = .fact fact ↔ line = formatFact fact := by
  rw [← parseFact_eq_some, parseLine]
  cases parseFact line with
  | some f => simp
  | none => simp

/-- A line is text where it is no fact. -/
theorem parseLine_eq_text {line text : Str} :
    parseLine line = .text text ↔ line = text ∧ parseFact line = none := by
  rw [parseLine]
  cases parseFact line with
  | some f => simp
  | none => simp

/-- The text of a fact is read as the fact. -/
theorem parseLine_formatFact (fact : Fact) : parseLine (formatFact fact) = .fact fact :=
  parseLine_eq_fact.mpr rfl

/-- A body line is rendered as the one line that parses as it. -/
theorem renderLine_eq_ok {line : BodyLine} {rendered : Str} :
    renderLine line = .ok rendered ↔ (10 : CodePoint) ∉ rendered ∧ parseLine rendered = line := by
  cases line with
  | fact fact =>
    rw [parseLine_eq_fact]
    simp only [renderLine, Except.ok.injEq]
    constructor
    · rintro rfl
      exact ⟨newline_not_mem_formatFact fact, rfl⟩
    · exact fun h => h.2.symm
  | text text =>
    rw [parseLine_eq_text, renderLine]
    split
    next hline =>
      simp only [reduceCtorEq, false_iff]
      rintro ⟨hrendered, rfl, -⟩
      exact hrendered hline
    next hline =>
      split
      next hfact =>
        simp only [reduceCtorEq, false_iff]
        rintro ⟨-, rfl, hnone⟩
        simp [hnone] at hfact
      next hfact =>
        simp only [Except.ok.injEq]
        constructor
        · rintro rfl
          exact ⟨hline, rfl, by simpa using hfact⟩
        · exact fun h => h.2.1.symm

/-- Lines are rendered as pieces that read as them. -/
theorem mapM_renderLine_eq_ok {lines : List BodyLine} {rendered : List Str} :
    lines.mapM renderLine = .ok rendered ↔
      (∀ r ∈ rendered, (10 : CodePoint) ∉ r) ∧ rendered.map parseLine = lines := by
  induction lines generalizing rendered with
  | nil =>
    rw [List.map_eq_nil_iff]
    constructor
    · intro h
      obtain rfl : [] = rendered := Except.ok.inj h
      simp
    · rintro ⟨-, rfl⟩
      rfl
  | cons line lines ih =>
    rw [List.mapM_cons]
    constructor
    · intro h
      obtain ⟨first, hfirst, h⟩ := except_bind_eq_ok.mp h
      obtain ⟨rest, hrest, h⟩ := except_bind_eq_ok.mp h
      obtain rfl : first :: rest = rendered := Except.ok.inj h
      obtain ⟨hnewline, hline⟩ := renderLine_eq_ok.mp hfirst
      obtain ⟨hnewlines, hlines⟩ := ih.mp hrest
      exact ⟨List.forall_mem_cons.mpr ⟨hnewline, hnewlines⟩, by rw [List.map_cons, hline, hlines]⟩
    · rintro ⟨hnewlines, hmap⟩
      obtain ⟨first, rest, rfl, hline, hlines⟩ := List.map_eq_cons_iff.mp hmap
      obtain ⟨hnewline, hnewlines⟩ := List.forall_mem_cons.mp hnewlines
      exact except_bind_eq_ok.mpr ⟨first, renderLine_eq_ok.mpr ⟨hnewline, hline⟩,
        except_bind_eq_ok.mpr ⟨rest, ih.mpr ⟨hnewlines, hlines⟩, rfl⟩⟩

/-- Rendering a line fails with a `ValueError` only. -/
theorem renderLine_eq_error {line : BodyLine} {e : Exc} (h : renderLine line = .error e) :
    ∃ message, e = .valueError message := by
  cases line with
  | fact fact => cases h
  | text text =>
    rw [renderLine] at h
    split at h
    · exact ⟨_, (Except.error.inj h).symm⟩
    · split at h
      · exact ⟨_, (Except.error.inj h).symm⟩
      · cases h

/-! ## Bodies -/

/-- **Serializing is the inverse of parsing.** -/
theorem serializeBody_eq_ok {lines : List BodyLine} {body : Str} :
    serializeBody lines = .ok body ↔ parseBody body = lines := by
  unfold serializeBody
  constructor
  · intro h
    split at h
    · cases h
    next hne =>
      obtain ⟨rendered, hrendered, h⟩ := except_bind_eq_ok.mp h
      obtain rfl : join [10] rendered = body := Except.ok.inj h
      obtain ⟨hnewlines, hlines⟩ := mapM_renderLine_eq_ok.mp hrendered
      have hrendered_ne : rendered ≠ [] := by
        rintro rfl
        exact hne hlines.symm
      rw [parseBody, join, List.splitOn_intercalate _ hnewlines hrendered_ne, hlines]
  · rintro rfl
    rw [if_neg (by simp [parseBody])]
    have hlines : (parseBody body).mapM renderLine = .ok (body.splitOn 10) :=
      mapM_renderLine_eq_ok.mpr ⟨fun r hr => not_mem_of_mem_splitOn hr, rfl⟩
    refine except_bind_eq_ok.mpr ⟨_, hlines, ?_⟩
    rw [join, List.intercalate_splitOn]
    rfl

/-- Lines are refused with a `ValueError`. -/
theorem mapM_renderLine_eq_error {lines : List BodyLine} {e : Exc}
    (h : lines.mapM renderLine = .error e) : ∃ message, e = .valueError message := by
  induction lines with
  | nil => cases h
  | cons line lines ih =>
    rw [List.mapM_cons] at h
    cases hline : renderLine line with
    | error e' =>
      rw [hline] at h
      obtain rfl : e' = e := Except.error.inj h
      exact renderLine_eq_error hline
    | ok first =>
      rw [hline] at h
      cases hlines : lines.mapM renderLine with
      | error e' =>
        rw [hlines] at h
        obtain rfl : e' = e := Except.error.inj h
        exact ih hlines
      | ok rest =>
        rw [hlines] at h
        cases h

/-- A body is refused with a `ValueError`. -/
theorem serializeBody_eq_error {lines : List BodyLine} {e : Exc} (h : serializeBody lines = .error e) :
    ∃ message, e = .valueError message := by
  unfold serializeBody at h
  split at h
  · exact ⟨_, (Except.error.inj h).symm⟩
  · cases hm : lines.mapM renderLine with
    | ok rendered =>
      rw [hm] at h
      cases h
    | error e' =>
      rw [hm] at h
      obtain rfl : e' = e := Except.error.inj h
      exact mapM_renderLine_eq_error hm

/-! ## Appending -/

/-- The body lines without the last one, if that is the empty string. -/
def dropBlankEnd (lines : List BodyLine) : List BodyLine :=
  if lines.getLast? = some (.text []) then lines.dropLast else lines

/-- The body lines with these facts added at the end. -/
def addFacts (lines : List BodyLine) (facts : List Fact) : List BodyLine :=
  if facts = [] then lines else dropBlankEnd lines ++ facts.map .fact ++ [.text []]

/-- A blank line at the end is dropped. -/
@[simp] theorem dropBlankEnd_concat (lines : List BodyLine) :
    dropBlankEnd (lines ++ [.text []]) = lines := by
  rw [dropBlankEnd, List.getLast?_concat, if_pos rfl, List.dropLast_concat]

/-- One more fact goes behind the facts that were added. -/
theorem addFacts_concat (lines : List BodyLine) (facts : List Fact) (fact : Fact) :
    dropBlankEnd (addFacts lines facts) ++ [.fact fact, .text []] = addFacts lines (facts ++ [fact]) := by
  unfold addFacts
  rw [if_neg (List.concat_ne_nil fact facts)]
  split
  next hfacts => simp [hfacts]
  · rw [dropBlankEnd_concat]
    simp

/-- A line is blank where it is empty. -/
theorem parseLine_eq_blank {piece : Str} : parseLine piece = .text [] ↔ piece = [] := by
  rw [parseLine_eq_text]
  constructor
  · exact And.left
  · rintro rfl
    exact ⟨rfl, rfl⟩

/-- Content is read line by line. -/
theorem parseBody_append (before after : Str) :
    parseBody (before ++ 10 :: after) = parseBody before ++ parseBody after := by
  rw [parseBody, List.splitOn_append_cons_self, List.map_append]
  rfl

/-- The text of a fact is read as a body of it. -/
theorem parseBody_formatFact (fact : Fact) : parseBody (formatFact fact) = [.fact fact] := by
  rw [parseBody, List.splitOn_eq_singleton (newline_not_mem_formatFact fact), List.map_singleton,
    parseLine_formatFact]

/-- Empty content is read as one blank line. -/
theorem parseBody_nil : parseBody [] = [.text []] := rfl

/-- The last piece of a body is empty where the body is, or ends with a newline. -/
theorem getLast?_splitOn {s : Str} :
    (s.splitOn 10).getLast? = some [] ↔ s = [] ∨ [10] <:+ s := by
  induction s with
  | nil => simp
  | cons c s ih =>
    rw [List.splitOn_cons_eq_if_modifyHead, List.suffix_cons_iff]
    cases hs : s.splitOn 10 with
    | nil => exact absurd hs (List.splitOn_ne_nil _ _)
    | cons first rest =>
      rw [hs] at ih
      by_cases hc : c = 10
      · subst hc
        rw [if_pos (by simp), List.getLast?_cons_cons, ih]
        simp only [List.cons_ne_nil, List.cons.injEq, true_and, false_or, @eq_comm _ [] s]
      · cases rest with
        | nil =>
          -- There is no newline at all.
          have hfirst : (10 : CodePoint) ∉ first := not_mem_of_mem_splitOn (hs ▸ List.mem_cons_self)
          have hjoin : [10].intercalate (s.splitOn 10) = s := List.intercalate_splitOn 10
          rw [hs, List.intercalate_singleton] at hjoin
          have hsuffix : ¬ [10] <:+ s := fun h => hfirst (hjoin.symm ▸ h.subset List.mem_cons_self)
          simp only [hc, hsuffix, beq_iff_eq, if_false, List.modifyHead_cons, List.getLast?_singleton,
            Option.some.injEq, List.cons_ne_nil, List.cons.injEq, Ne.symm hc, false_and, or_false]
        | cons second rest =>
          have hne : s ≠ [] := by
            rintro rfl
            simp at hs
          simpa only [hc, hne, beq_iff_eq, if_false, List.modifyHead_cons, List.getLast?_cons_cons,
            List.cons_ne_nil, List.cons.injEq, Ne.symm hc, false_and, false_or] using ih

/-- **The body codec.** -/
theorem body_codec :
    (∀ body, serializeBody (parseBody body) = .ok body) ∧
    (∀ lines, (∃ body, serializeBody lines = .ok body) ↔ ∃ body, parseBody body = lines) ∧
    (∀ lines body, serializeBody lines = .ok body → parseBody body = lines) ∧
    (∀ lines e, serializeBody lines = .error e → ∃ message, e = .valueError message) ∧
    (∀ fact, parseFact (formatFact fact) = some fact ∧ parseBody (formatFact fact) = [.fact fact]) ∧
    (∀ line fact, parseFact line = some fact → formatFact fact = line) := by
  refine ⟨fun body => serializeBody_eq_ok.mpr rfl, fun lines => ?_,
    fun lines body => serializeBody_eq_ok.mp, fun lines e => serializeBody_eq_error, fun fact => ?_,
    fun line fact h => (parseFact_eq_some.mp h).symm⟩
  · exact exists_congr fun body => serializeBody_eq_ok
  · exact ⟨parseFact_eq_some.mpr rfl, parseBody_formatFact fact⟩

end Wenchang
