import Wenchang.Py.Json

/-!
# Strings that survive JSON

`json.dumps` writes two adjacent surrogates as two escapes, and `json.loads` reads the escapes of a
pair as one character, so a string with a pair in two halves does not come back. `Joined` are the
strings that do. A text without surrogates is one of them, and so is everything `json.loads` reads from
such a text: a pair it meets it joins, and a half it yields has no other half next to it.
-/

namespace Py

/-- No high surrogate stands before a low one: what `json.loads` yields of a text without surrogates,
and what `json.dumps` writes unambiguously. -/
def Joined (s : Str) : Prop := joinPairs s = s

/-- Scalar text holds no split pair. -/
theorem Scalar.joined {s : Str} (h : Scalar s) : Joined s := joinPairs_of_scalar h

/-- A character that completes no pair may go first. -/
theorem Joined.cons {c : CodePoint} {s : Str} (hs : Joined s)
    (hc : IsHigh c.val → ∀ d, s.head? = some d → ¬ IsLow d.val) : Joined (c :: s) := by
  cases s with
  | nil => rfl
  | cons d s =>
    have hpair : ¬ (IsHigh c.val ∧ IsLow d.val) := fun h => hc h.1 d rfl h.2
    rw [Joined, joinPairs, if_neg hpair, hs]

/-- A joined pair is no half of another. -/
theorem joinSurrogates_whole {n m : Nat} (hn : IsHigh n) (hm : IsLow m) :
    ¬ IsHigh (joinSurrogates n m).val ∧ ¬ IsLow (joinSurrogates n m).val := by
  obtain ⟨hn, hn'⟩ := hn
  obtain ⟨hm, hm'⟩ := hm
  simp only [IsHigh, IsLow, joinSurrogates, Fin.val_ofNat]
  omega

/-- What `json.loads` makes of a written string is joined. -/
theorem joined_joinPairs (s : Str) : Joined (joinPairs s) := by
  induction s using joinPairs.induct with
  | case1 => rfl
  | case2 c => rfl
  | case3 c d rest hpair ih =>
    rw [joinPairs, if_pos hpair]
    exact ih.cons fun hhigh => absurd hhigh (joinSurrogates_whole hpair.1 hpair.2).1
  | case4 c d rest hpair ih =>
    rw [joinPairs, if_neg hpair]
    refine ih.cons fun hhigh e he => ?_
    have hlow : ¬ IsLow d.val := fun hlow => hpair ⟨hhigh, hlow⟩
    -- The next character is `d`, or a pair that begins with `d`.
    cases rest with
    | nil =>
      obtain rfl := Option.some.inj he
      exact hlow
    | cons e' rest =>
      rw [joinPairs] at he
      split at he
      next hnext =>
        obtain rfl := Option.some.inj he
        exact (joinSurrogates_whole hnext.1 hnext.2).2
      next =>
        obtain rfl := Option.some.inj he
        exact hlow

/-- A text that begins with the escape of a low surrogate. -/
def BeginsLow (text : Str) : Prop :=
  ∃ h₁ h₂ h₃ h₄ rest m, text = 92 :: 117 :: h₁ :: h₂ :: h₃ :: h₄ :: rest ∧
    hexValue4 h₁ h₂ h₃ h₄ = some m ∧ IsLow m

/-- A digit is below sixteen. -/
theorem hexValue_lt {c : CodePoint} {n : Nat} (h : hexValue c = some n) : n < 16 := by
  unfold hexValue at h
  split at h
  · obtain rfl := Option.some.inj h
    omega
  · split at h
    · obtain rfl := Option.some.inj h
      omega
    · split at h
      · obtain rfl := Option.some.inj h
        omega
      · cases h

/-- Four digits are below 65536. -/
theorem hexValue4_lt {a b c d : CodePoint} {n : Nat} (h : hexValue4 a b c d = some n) :
    n < 0x10000 := by
  unfold hexValue4 at h
  split at h
  next ha hb hc hd =>
    obtain rfl := Option.some.inj h
    have := hexValue_lt ha
    have := hexValue_lt hb
    have := hexValue_lt hc
    have := hexValue_lt hd
    omega
  · cases h

/-- No short escape is a surrogate. -/
theorem simpleEscape_not_surrogate {k c : CodePoint} (h : simpleEscape k = some c) :
    ¬ IsHigh c.val ∧ ¬ IsLow c.val := by
  unfold simpleEscape at h
  unfold IsHigh IsLow
  split at h
  next hk =>
    obtain rfl := Option.some.inj h
    rcases hk with rfl | rfl | rfl <;> decide
  split_ifs at h <;> obtain rfl := Option.some.inj h <;> decide

/-- One character of a string that is read, and what it was read from: the text itself, or an
escape. -/
structure ReadsChar (text : Str) (c : CodePoint) (tail : Str) : Prop where
  suffix : tail <:+ text
  shorter : tail.length < text.length
  source : c ∈ text ∨ (IsHigh c.val → ¬ BeginsLow tail) ∧ (IsLow c.val → BeginsLow text)

/-- A `\u` escape is read as a character of its own, unless the other half follows. -/
theorem readsChar_escape {h₁ h₂ h₃ h₄ : CodePoint} {n : Nat} {tail : Str}
    (hn : hexValue4 h₁ h₂ h₃ h₄ = some n) (htail : IsHigh n → ¬ BeginsLow tail) :
    ReadsChar (92 :: 117 :: h₁ :: h₂ :: h₃ :: h₄ :: tail) (Fin.ofNat _ n) tail where
  suffix := ⟨[92, 117, h₁, h₂, h₃, h₄], rfl⟩
  shorter := by simp only [List.length_cons]; omega
  source := by
    have hval : (Fin.ofNat 0x110000 n).val = n :=
      Nat.mod_eq_of_lt (Nat.lt_trans (hexValue4_lt hn) (by decide))
    rw [hval]
    exact .inr ⟨htail, fun hlow => ⟨h₁, h₂, h₃, h₄, tail, n, rfl, hn, hlow⟩⟩

/-- An escaped pair is read as a character that is no surrogate. -/
theorem readsChar_pair {high low : Nat} (hhigh : IsHigh high) (hlow : IsLow low) (front tail : Str) :
    ReadsChar (92 :: front ++ tail) (joinSurrogates high low) tail where
  suffix := List.suffix_append _ _
  shorter := by simp only [List.length_append, List.length_cons]; omega
  source :=
    have hwhole := joinSurrogates_whole hhigh hlow
    .inr ⟨fun h => absurd h hwhole.1, fun h => absurd h hwhole.2⟩

/-- A string ends at its quote, or starts with a character and goes on. -/
theorem parseString_step {text s rest : Str} (h : parseString text = some (s, rest)) :
    (text = 34 :: rest ∧ s = []) ∨
      ∃ c tail s', s = c :: s' ∧ parseString tail = some (s', rest) ∧ ReadsChar text c tail := by
  have hmap : ∀ {c : CodePoint} {tail : Str},
      ((parseString tail).map fun r => (c :: r.1, r.2)) = some (s, rest) → ReadsChar text c tail →
      ∃ c tail s', s = c :: s' ∧ parseString tail = some (s', rest) ∧ ReadsChar text c tail :=
    fun {c tail} hp hreads => by
      obtain ⟨⟨s', rest'⟩, htail, hpair⟩ := Option.map_eq_some_iff.mp hp
      obtain ⟨rfl, rfl⟩ := Prod.mk.inj hpair
      exact ⟨c, tail, s', rfl, htail, hreads⟩
  rw [parseString.eq_def] at h
  split at h
  · cases h
  next c rest' =>
    split at h
    next hquote =>
      obtain ⟨rfl, rfl⟩ := Prod.mk.inj (Option.some.inj h)
      exact .inl ⟨by rw [hquote], rfl⟩
    split at h
    next hslash =>
      subst hslash
      split at h
      · cases h
      next k rest₁ =>
        split at h
        next hu =>
          subst hu
          split at h
          next h₁ h₂ h₃ h₄ rest₂ =>
            cases hn : hexValue4 h₁ h₂ h₃ h₄ with
            | none =>
              simp only [hn] at h
              cases h
            | some n =>
              simp only [hn] at h
              split at h
              next hhigh =>
                split at h
                next b u l₁ l₂ l₃ l₄ rest₃ =>
                  split at h
                  next hbu =>
                    cases hm : hexValue4 l₁ l₂ l₃ l₄ with
                    | none =>
                      simp only [hm] at h
                      cases h
                    | some m =>
                      simp only [hm] at h
                      split at h
                      next hlow =>
                        obtain ⟨rfl, rfl⟩ := hbu
                        exact .inr (hmap h (readsChar_pair hhigh hlow
                          [117, h₁, h₂, h₃, h₄, 92, 117, l₁, l₂, l₃, l₄] _))
                      next hlow =>
                        refine .inr (hmap h (readsChar_escape hn fun _ hbegins => ?_))
                        obtain ⟨k₁, k₂, k₃, k₄, _, m', heq, hm', hlow'⟩ := hbegins
                        obtain ⟨-, -, rfl, rfl, rfl, rfl, -⟩ :
                          b = 92 ∧ u = 117 ∧ l₁ = k₁ ∧ l₂ = k₂ ∧ l₃ = k₃ ∧ l₄ = k₄ ∧ True := by
                          simp only [List.cons.injEq] at heq
                          exact ⟨heq.1, heq.2.1, heq.2.2.1, heq.2.2.2.1, heq.2.2.2.2.1,
                            heq.2.2.2.2.2.1, trivial⟩
                        rw [hm] at hm'
                        exact hlow (Option.some.inj hm' ▸ hlow')
                  next hbu =>
                    refine .inr (hmap h (readsChar_escape hn fun _ hbegins => ?_))
                    obtain ⟨_, _, _, _, _, _, heq, -⟩ := hbegins
                    simp only [List.cons.injEq] at heq
                    exact hbu ⟨heq.1, heq.2.1⟩
                next hshort =>
                  refine .inr (hmap h (readsChar_escape hn fun _ hbegins => ?_))
                  obtain ⟨_, _, _, _, _, _, heq, -⟩ := hbegins
                  exact hshort _ _ _ _ _ _ _ heq
              next hhigh => exact .inr (hmap h (readsChar_escape hn fun hc => absurd hc hhigh))
          · cases h
        next hu =>
          split at h
          · cases h
          next c hc =>
            exact .inr (hmap h ⟨⟨[92, k], rfl⟩, by simp only [List.length_cons]; omega,
              .inr ⟨fun hhigh => absurd hhigh (simpleEscape_not_surrogate hc).1,
                fun hlow => absurd hlow (simpleEscape_not_surrogate hc).2⟩⟩)
    next hslash =>
      split at h
      · cases h
      · exact .inr (hmap h ⟨⟨[c], rfl⟩, Nat.lt_succ_self _, .inl List.mem_cons_self⟩)

/-- **What is read of a text without surrogates is joined**, and what remains has none either. -/
theorem joined_parseString {text s rest : Str} (htext : Scalar text)
    (h : parseString text = some (s, rest)) :
    Scalar rest ∧ Joined s ∧ (¬ BeginsLow text → ∀ d, s.head? = some d → ¬ IsLow d.val) := by
  induction hlen : text.length using Nat.strong_induction_on generalizing text s rest with
  | _ n ih =>
    rcases parseString_step h with ⟨rfl, rfl⟩ | ⟨c, tail, s', rfl, htail, hreads⟩
    · exact ⟨fun d hd => htext d (List.mem_cons_of_mem _ hd), rfl, fun _ d hd => nomatch hd⟩
    · have htailScalar : Scalar tail := fun d hd => htext d (hreads.suffix.subset hd)
      obtain ⟨hrest, hjoined, hhead⟩ := ih _ (hlen ▸ hreads.shorter) htailScalar htail rfl
      have hplain : c ∈ text → ¬ IsHigh c.val ∧ ¬ IsLow c.val := fun hc => by
        have hs := htext c hc
        simp only [isSurrogate, Bool.and_eq_false_iff, decide_eq_false_iff_not] at hs
        unfold IsHigh IsLow
        omega
      refine ⟨hrest, hjoined.cons fun hhigh => ?_, fun hbegins d hd => ?_⟩
      · rcases hreads.source with hc | ⟨hnext, -⟩
        · exact absurd hhigh (hplain hc).1
        · exact hhead (hnext hhigh)
      · obtain rfl := Option.some.inj hd
        rcases hreads.source with hc | ⟨-, hlow⟩
        · exact (hplain hc).2
        · exact fun h => hbegins (hlow h)

/-- Scalar text is scalar behind its spaces. -/
theorem Scalar.skipSpace {s : Str} (h : Scalar s) : Scalar (skipSpace s) :=
  fun c hc => h c ((List.dropWhile_suffix _).subset hc)

/-- No number is read as a text. -/
theorem parseNumber_other {s rest : Str} {v : Json} (h : parseNumber s = .ok (v, rest)) :
    v = .other := by
  unfold parseNumber at h
  dsimp only at h
  repeat' split at h
  all_goals simp_all

/-- No literal is read as a text. -/
theorem parseScalar_other {s rest : Str} {v : Json} (h : parseScalar s = .ok (v, rest)) :
    v = .other := by
  unfold parseScalar at h
  split at h
  · exact (Prod.mk.inj (Except.ok.inj h)).1.symm
  · exact parseNumber_other h

/-- A text that is read from scalar text holds no split pair. -/
theorem joined_parseValue {fuel depth : Nat} {text rest t : Str} (htext : Scalar text)
    (h : parseValue fuel depth text = .ok (.str t, rest)) : Scalar rest ∧ Joined t := by
  have hmap : ∀ {α : Type} {r : Except JsonFailure (α × Str)} {f : α → Json}, (∀ a, f a ≠ .str t) →
      r.map (fun r => (f r.1, r.2)) ≠ .ok (.str t, rest) := fun {α r f} hf hr => by
    cases r with
    | error e => cases hr
    | ok a => exact hf a.1 (Prod.mk.inj (Except.ok.inj hr)).1
  cases fuel with
  | zero => cases h
  | succ fuel =>
    rw [parseValue.eq_def] at h
    dsimp only at h
    split at h
    · cases h
    next c rest₁ =>
      split at h
      · split at h
        next s rest₂ hs =>
          obtain ⟨hstr, rfl⟩ := Prod.mk.inj (Except.ok.inj h)
          obtain rfl := Json.str.inj hstr
          obtain ⟨hrest, hjoined, -⟩ :=
            joined_parseString (fun d hd => htext d (List.mem_cons_of_mem _ hd)) hs
          exact ⟨hrest, hjoined⟩
        · cases h
      -- no other value is a string
      exfalso
      split at h
      · split at h
        · cases h
        · cases h
        · split at h
          · cases h
          · exact hmap (f := .arr) (fun _ => Json.noConfusion) h
      split at h
      · split at h
        · cases h
        · cases h
        · split at h
          · cases h
          · exact hmap (f := .obj) (fun _ => Json.noConfusion) h
      · exact Json.noConfusion (parseScalar_other h)

/-- The strings of a list that holds nothing else. -/
theorem joined_parseItems {fuel depth : Nat} {text rest : Str} {items : List Json}
    (htext : Scalar text) (h : parseItems fuel depth text = .ok (items, rest))
    (hitems : ∀ v ∈ items, ∃ t, v = .str t) {t : Str} (ht : .str t ∈ items) : Joined t := by
  induction fuel generalizing text rest items with
  | zero => cases h
  | succ fuel ih =>
    rw [parseItems.eq_def] at h
    dsimp only at h
    cases hvalue : parseValue fuel depth text with
    | error e =>
      rw [hvalue] at h
      cases h
    | ok vr =>
      obtain ⟨v, rest₁⟩ := vr
      simp only [hvalue] at h
      -- the first item is a string that is read from the text
      have hfirst : ∀ s, v = .str s → Scalar rest₁ ∧ Joined s := fun s hs => by
        subst hs
        exact joined_parseValue htext hvalue
      split at h
      · cases h
      next d rest₂ hspace =>
        split at h
        · obtain ⟨rfl, -⟩ := Prod.mk.inj (Except.ok.inj h)
          exact (hfirst t (List.mem_singleton.mp ht).symm).2
        · split at h
          · cases hrest : parseItems fuel depth (skipSpace rest₂) with
            | error e =>
              rw [hrest] at h
              cases h
            | ok r =>
              rw [hrest] at h
              obtain ⟨rfl, -⟩ := Prod.mk.inj (Except.ok.inj h)
              rcases List.mem_cons.mp ht with hv | ht
              · exact (hfirst t hv.symm).2
              · obtain ⟨s, hs⟩ := hitems v List.mem_cons_self
                have hscalar := (hfirst s hs).1.skipSpace
                rw [hspace] at hscalar
                have htail : Scalar rest₂ := fun c hc => hscalar c (List.mem_cons_of_mem _ hc)
                exact ih htail.skipSpace hrest (fun w hw => hitems w (List.mem_cons_of_mem _ hw)) ht
          · cases h

/-- So do the texts of an array. -/
theorem joined_parseArray {fuel depth : Nat} {text rest : Str} {items : List Json}
    (htext : Scalar text) (h : parseValue fuel depth text = .ok (.arr items, rest))
    (hitems : ∀ v ∈ items, ∃ t, v = .str t) {t : Str} (ht : .str t ∈ items) : Joined t := by
  cases fuel with
  | zero => cases h
  | succ fuel =>
    rw [parseValue.eq_def] at h
    dsimp only at h
    split at h
    · cases h
    next c rest₁ =>
      have hrest : Scalar rest₁ := fun d hd => htext d (List.mem_cons_of_mem _ hd)
      split at h
      · split at h
        · cases h
        · cases h
      split at h
      · split at h
        · cases h
        · cases h
        next d rest₂ hspace =>
          split at h
          · obtain ⟨harr, -⟩ := Prod.mk.inj (Except.ok.inj h)
            obtain rfl := Json.arr.inj harr
            exact absurd ht List.not_mem_nil
          · cases hparse : parseItems fuel _ (d :: rest₂) with
            | error e =>
              rw [hparse] at h
              cases h
            | ok r =>
              rw [hparse] at h
              obtain ⟨harr, -⟩ := Prod.mk.inj (Except.ok.inj h)
              obtain rfl := Json.arr.inj harr
              exact joined_parseItems (hspace ▸ hrest.skipSpace) hparse hitems ht
      split at h
      · split at h
        · cases h
        · cases h
        · split at h
          · cases h
          next d rest₂ _ _ =>
            cases hparse : parseMembers fuel _ (d :: rest₂) with
            | error e =>
              rw [hparse] at h
              cases h
            | ok r =>
              rw [hparse] at h
              cases h
      · exact Json.noConfusion (parseScalar_other h)

/-- The strings of a text that is a list of strings. -/
theorem joined_jsonLoads [Interpreter] {text : Str} {items : List Json} (htext : Scalar text)
    (h : jsonLoads text = .ok (.arr items)) (hitems : ∀ v ∈ items, ∃ t, v = .str t) {t : Str}
    (ht : .str t ∈ items) : Joined t := by
  unfold jsonLoads at h
  split at h
  · cases h
  · split at h
    · cases h
    next v rest hvalue =>
      split at h
      · obtain rfl := Except.ok.inj h
        exact joined_parseArray htext.skipSpace hvalue hitems ht
      · cases h

end Py
