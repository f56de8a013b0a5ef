import Wenchang.Interaction.Alone
import Wenchang.Laws.Paging

/-!
# What `_at_file_cap` counts

While nothing under the prefix changes, the pages that the loop lists are, one behind the other, the
beginning of the listing of the prefix (`Counting`), whatever their sizes. So nothing is counted twice
or skipped, the loop ends, and its answer is that of the count (`atFileCap_decides`).
-/

namespace Wenchang

open Py Ordered Interaction

/-! ## A quiescent prefix -/

/-- A storage, and the pages that were listed from it. -/
structure Watched where
  storage : InMemoryStorage
  pages : List (List ListedObject)

/-- Nothing under the prefix has changed. -/
def Quiescent (pre : Str) (st st' : InMemoryStorage) : Prop :=
  ∀ k, pre.isPrefixOf k = true → st'.get k = st.get k

/-- What a call meets while nothing under the prefix changes, though at every step anything else may.
Pages are recorded. -/
def handlesQuiescent (pre : Str) (w : Watched) : (o : StoreOp) → o.Ans → Watched → Prop
  | .storage (.listPage p after limit), a, w' => a = .ok (w.storage.listPage p after limit) ∧
    w'.pages = w.pages ++ [w.storage.listPage p after limit] ∧ Quiescent pre w.storage w'.storage
  | _, _, w' => w'.pages = w.pages ∧ Quiescent pre w.storage w'.storage

/-- Nothing changed below the prefix. -/
theorem Quiescent.refl (pre : Str) (st : InMemoryStorage) : Quiescent pre st st := fun _ _ => rfl

/-- What is quiet in two steps is quiet. -/
theorem Quiescent.trans {pre : Str} {st st' st'' : InMemoryStorage} (h : Quiescent pre st st')
    (h' : Quiescent pre st' st'') : Quiescent pre st st'' := fun k hk => (h' k hk).trans (h k hk)

/-- A listing below a quiet prefix stays. -/
theorem Quiescent.listing {pre : Str} {st st' : InMemoryStorage} (h : Quiescent pre st st')
    (after : Option Str) : st'.listing pre after = st.listing pre after :=
  listing_congr fun k hk _ => h k hk

/-- A page below a quiet prefix, then the rest. -/
theorem ends_listPage_quiescent {α : Type} {pre : Str} {st : InMemoryStorage} {after : Option Str} {size : Nat}
    {f : List ListedObject → Store α} {Q : Except Exc α → Watched → Prop} {w : Watched}
    (hquiet : Quiescent pre st w.storage)
    (h : ∀ w' : Watched, w'.pages = w.pages ++ [st.listPage pre after size] →
      Quiescent pre st w'.storage → (f (st.listPage pre after size)).Ends (handlesQuiescent pre) Q w') :
    (storageListPage pre after size >>= f).Ends (handlesQuiescent pre) Q w := by
  have hpage : w.storage.listPage pre after size = st.listPage pre after size := by
    rw [InMemoryStorage.listPage, InMemoryStorage.listPage, hquiet.listing]
  intro a w' hh
  obtain ⟨rfl, hpages, hkeeps⟩ : a = .ok (w.storage.listPage pre after size) ∧
    w'.pages = w.pages ++ [w.storage.listPage pre after size] ∧ Quiescent pre w.storage w'.storage := hh
  rw [hpage] at hpages ⊢
  exact h w' hpages (hquiet.trans hkeeps)

section

variable [Interpreter]

/-! ## The count -/

/-- The well-formed paths under a prefix that are outside the system area. -/
def capFiles (pre : Str) (st : InMemoryStorage) : Finset Str :=
  st.objects.keys.toFinset.filter fun key =>
    pre.isPrefixOf key = true ∧ (parsePath key).toOption.any (·.area ≠ indexSystemArea) = true

/-- A key counts where it parses, outside the system area. -/
theorem countsTowardCap_iff {key : Str} : MemoryStore.countsTowardCap key = true ↔
    ∃ parts, parsePath key = .ok parts ∧ parts.area ≠ indexSystemArea := by
  unfold MemoryStore.countsTowardCap
  cases parsePath key with
  | ok parts => simp
  | error e => simp

/-- What counts is stored below the prefix, and parses outside the system area. -/
theorem mem_capFiles {pre key : Str} {st : InMemoryStorage} : key ∈ capFiles pre st ↔
    (st.get key).isSome = true ∧ pre.isPrefixOf key = true ∧
      ∃ parts, parsePath key = .ok parts ∧ parts.area ≠ indexSystemArea := by
  have hparse : (parsePath key).toOption.any (·.area ≠ indexSystemArea) = true ↔
      ∃ parts, parsePath key = .ok parts ∧ parts.area ≠ indexSystemArea := by
    cases parsePath key with
    | ok parts => simp [Except.toOption]
    | error e => simp [Except.toOption]
  rw [capFiles, Finset.mem_filter, List.mem_toFinset, FinMap.mem_keys, hparse, Option.isSome_iff_exists]
  rfl

/-- The count of a whole listing is that of the files. -/
theorem card_capFiles (pre : Str) (st : InMemoryStorage) :
    (capFiles pre st).card = (st.listing pre none).countP (MemoryStore.countsTowardCap ·.key) := by
  have hread := read_listing st pre none
  have hsame : capFiles pre st =
      (((st.listing pre none).map (·.key)).filter MemoryStore.countsTowardCap).toFinset := by
    ext key
    rw [mem_capFiles, List.mem_toFinset, List.mem_filter, countsTowardCap_iff]
    constructor
    · rintro ⟨hthere, hunder, hcounts⟩
      exact ⟨hread.complete key ⟨hthere, hunder⟩ (behind_none key) (upTo_none key), hcounts⟩
    · rintro ⟨hmem, hcounts⟩
      obtain ⟨⟨hthere, hunder⟩, -, -⟩ := hread.mem key hmem
      exact ⟨hthere, hunder, hcounts⟩
  have hnodup := (hread.sorted.imp fun hlt => ne_of_lt hlt).filter MemoryStore.countsTowardCap
  rw [hsame, List.toFinset_card_of_nodup hnodup, ← List.countP_eq_length_filter, List.countP_map]
  rfl

/-- What holds before each round of the loop: the pages and what is left are the whole listing, and the
pages' files are counted. -/
structure Counting (s : MemoryStore) (st : InMemoryStorage) (pre : Str) (limit count : Nat)
    (left : List ListedObject) (w : Watched) : Prop where
  quiet : Quiescent pre st w.storage
  read : w.pages.flatten ++ left = st.listing pre none
  counted : w.pages.flatten.countP (MemoryStore.countsTowardCap ·.key) = count
  bound : count ≤ limit - 1 + s.listPageSize

/-- What the loop has done when it answers. -/
structure CapDecided (s : MemoryStore) (st : InMemoryStorage) (pre : Str) (limit : Nat)
    (r : Except Exc Bool) (w : Watched) : Prop where
  answer : r = .ok (decide (limit ≤ (capFiles pre st).card))
  inOrder : w.pages.flatten <+: st.listing pre none
  once : (w.pages.flatten.map (·.key)).Pairwise (· < ·)
  whole : r = .ok false → w.pages.flatten = st.listing pre none
  listed : w.pages.flatten.length ≤ limit - 1 + s.listPageSize +
    w.pages.flatten.countP fun o => !MemoryStore.countsTowardCap o.key

variable {s : MemoryStore} {st : InMemoryStorage} {pre : Str} {limit count : Nat}
  {left left' page : List ListedObject} {w w' : Watched}

/-- The loop may answer as it has counted, if the count is enough or nothing is left. -/
theorem Counting.decided (h : Counting s st pre limit count left w) (hend : limit ≤ count ∨ left = []) :
    CapDecided s st pre limit (.ok (decide (limit ≤ count))) w := by
  have hbegin : w.pages.flatten <+: st.listing pre none := ⟨_, h.read⟩
  have hcard : (capFiles pre st).card =
      count + left.countP (MemoryStore.countsTowardCap ·.key) := by
    rw [card_capFiles, ← h.read, List.countP_append, h.counted]
  have hanswer : limit ≤ count ↔ limit ≤ (capFiles pre st).card := by
    rcases hend with hle | rfl
    · exact iff_of_true hle (by omega)
    · rw [hcard, List.countP_nil, Nat.add_zero]
  refine ⟨by simp [hanswer], hbegin, ?_, fun hfalse => ?_, ?_⟩
  · exact (read_listing st pre none).sorted.sublist (hbegin.sublist.map _)
  · rcases hend with hle | rfl
    · simp [hle] at hfalse
    · rw [← h.read, List.append_nil]
  · have hsplit := List.length_eq_countP_add_countP (fun o : ListedObject => MemoryStore.countsTowardCap o.key)
      (l := w.pages.flatten)
    have hbound := h.bound
    have hcounted := h.counted
    simp only [Bool.not_eq_true, Bool.decide_eq_false] at hsplit
    omega

/-- A page is counted. Its size leaves room for what is still missing, or for one page. -/
theorem Counting.count_page (h : Counting s st pre limit count left w) (hcount : count < limit)
    (hlength : page.length ≤ max (limit - count) s.listPageSize) (hleft : left = page ++ left')
    (hpages : w'.pages = w.pages ++ [page]) (hquiet : Quiescent pre st w'.storage) :
    Counting s st pre limit (count + page.countP (MemoryStore.countsTowardCap ·.key)) left' w' where
  quiet := hquiet
  read := by
    rw [hpages, List.flatten_append, List.flatten_singleton, List.append_assoc, ← hleft, h.read]
  counted := by
    rw [hpages, List.flatten_append, List.flatten_singleton, List.countP_append, h.counted]
  bound := by
    have hle := List.countP_le_length (p := fun o : ListedObject => MemoryStore.countsTowardCap o.key)
      (l := page)
    have hpos := s.listPageSize_pos
    omega

/-- **The loop ends, and has counted.** What is left to list shrinks with every full page. -/
theorem ends_capLoop_counting {after : Option Str} {fuel : Nat}
    (h : Counting s st pre limit count (st.listing pre after) w)
    (hfuel : (st.listing pre after).length < fuel) :
    (s.capLoop pre limit fuel count after).Ends (handlesQuiescent pre) (CapDecided s st pre limit) w := by
  induction fuel generalizing count after w with
  | zero => exact absurd hfuel (Nat.not_lt_zero _)
  | succ fuel ih =>
    unfold MemoryStore.capLoop
    split
    next hle =>
      have hdecided := h.decided (.inl hle)
      rwa [decide_eq_true hle] at hdecided
    next hlt =>
      refine ends_listPage_quiescent h.quiet fun w' hpages hquiet => ?_
      have hlength := List.length_take_le (max (limit - count) s.listPageSize) (st.listing pre after)
      rw [← InMemoryStorage.listPage] at hlength
      dsimp only
      split
      next hshort =>
        have hall : st.listing pre after =
            st.listPage pre after (max (limit - count) s.listPageSize) ++ [] := by
          rw [InMemoryStorage.listPage, List.length_take] at hshort
          rw [List.append_nil, InMemoryStorage.listPage, List.take_of_length_le (by omega)]
        exact (h.count_page (Nat.lt_of_not_le hlt) hlength hall hpages hquiet).decided (.inr rfl)
      next hfull =>
        have hne : st.listPage pre after (max (limit - count) s.listPageSize) ≠ [] := by
          intro hnil
          have hpos := s.listPageSize_pos
          rw [hnil, List.length_nil] at hfull
          omega
        obtain ⟨last, hlast⟩ := Option.isSome_iff_exists.mp (List.getLast?_isSome.mpr hne)
        have hshrinks := length_listing_lt hlast
        rw [hlast, Option.map_some]
        exact ih (h.count_page (Nat.lt_of_not_le hlt) hlength (listing_eq_append hlast) hpages hquiet) (by omega)

/-- Before the first page. -/
theorem counting_start (s : MemoryStore) (st : InMemoryStorage) (pre : Str) (limit : Nat) :
    Counting s st pre limit 0 (st.listing pre none) ⟨st, []⟩ :=
  ⟨Quiescent.refl pre st, rfl, rfl, Nat.zero_le _⟩

/-- **`_at_file_cap` counts exactly.** While nothing under the prefix changes it ends, it answers whether
there are as many well-formed files outside the system area as the limit, its pages are the beginning of
the sorted listing, and it lists no more than it has to and one page. -/
theorem atFileCap_decides (s : MemoryStore) (st : InMemoryStorage) (pre : Str) (limit : Nat) {fuel : Nat}
    (hfuel : (st.listing pre none).length < fuel) :
    (s.atFileCap fuel pre limit).Ends (handlesQuiescent pre) (CapDecided s st pre limit) ⟨st, []⟩ :=
  ends_capLoop_counting (counting_start s st pre limit) hfuel

end

/-- A system file and a malformed key before two files, pages of one key, and a limit of two. -/
theorem atFileCap_decides_small : let _ := Interpreter.ascii
    let s : MemoryStore := { MemoryStore.default with listPageSize := 1, listPageSize_pos := by decide }
    let st := (((InMemoryStorage.empty.putLocked (str "u/a/n/x.md") [] .empty).putLocked
      (str "u/a/n/y.md") [] .empty).putLocked (str "u/a/0") [] .empty).putLocked
      (str "u/a/system/z.md") [] .empty
    (s.atFileCap 5 (str "u/a/") 2).Ends (handlesQuiescent (str "u/a/"))
      (fun r w => r = .ok true ∧ (w.pages.flatten.map (·.key)).Pairwise (· < ·)) ⟨st, []⟩ := by
  let _ := Interpreter.ascii
  intro _ s st
  have hlength : (st.listing (str "u/a/") none).length < 5 := by decide
  refine (atFileCap_decides s st (str "u/a/") 2 hlength).mono fun r w h => ?_
  have hcard : (capFiles (str "u/a/") st).card = 2 := by decide
  have hanswer := h.answer
  rw [hcard] at hanswer
  exact ⟨hanswer, h.once⟩

end Wenchang
