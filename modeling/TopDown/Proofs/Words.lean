-- Words that are written with blanks between them are read back as they are, and so is the name in
-- front of an arrow.
import Mathlib.Data.List.TakeWhile
import TopDown.Text.Blank

namespace TopDown.Text

/-! ## Words -/

/-- A text that can be a word: it is not empty and has no blank. -/
def IsWord (s : String) : Prop := s.toList ≠ [] ∧ ∀ c ∈ s.toList, isBlank c = false

instance (s : String) : Decidable (IsWord s) :=
  decidable_of_iff (s.toList ≠ [] ∧ s.toList.all (fun c => !isBlank c) = true) (by simp [IsWord])

theorem eq_false_of_mem_splitOnP {α : Type} {p : α → Bool} {xs piece : List α}
    (h : piece ∈ xs.splitOnP p) : ∀ x ∈ piece, p x = false := by
  induction xs generalizing piece with
  | nil =>
    rw [List.splitOnP_nil, List.mem_singleton] at h
    simp [h]
  | cons y ys ih =>
    rw [List.splitOnP_cons_eq_if_modifyHead] at h
    split at h
    · rcases List.mem_cons.mp h with rfl | h
      · simp
      · exact ih h
    · next hy =>
      rcases hpieces : ys.splitOnP p with _ | ⟨first, rest⟩
      · exact absurd hpieces (List.splitOnP_ne_nil p ys)
      · rw [hpieces] at h ih
        rcases List.mem_cons.mp h with rfl | h
        · intro x hx
          rcases List.mem_cons.mp hx with rfl | hx
          · simpa using hy
          · exact ih List.mem_cons_self x hx
        · exact ih (List.mem_cons_of_mem first h)

theorem isWord_of_mem_words {s w : String} (h : w ∈ words s) : IsWord w := by
  unfold words wordChars at h
  obtain ⟨cs, hcs, rfl⟩ := List.mem_map.mp h
  obtain ⟨hpiece, hne⟩ := List.mem_filter.mp hcs
  rw [IsWord, String.toList_ofList]
  exact ⟨by simpa using hne, eq_false_of_mem_splitOnP hpiece⟩

/-- A blank divides words. -/
theorem wordChars_append_cons (cs ds : List Char) {b : Char} (hb : isBlank b = true) :
    wordChars (cs ++ b :: ds) = wordChars cs ++ wordChars ds := by
  unfold wordChars
  rw [List.splitOnP_append_cons cs ds hb, List.filter_append]

theorem wordChars_eq_singleton {cs : List Char} (hne : cs ≠ [])
    (h : ∀ c ∈ cs, isBlank c = false) : wordChars cs = [cs] := by
  unfold wordChars
  rw [List.splitOnP_eq_singleton h]
  simp [hne]

/-- Words with one space between them are read back. -/
theorem words_intercalate {ws : List String} (h : ∀ w ∈ ws, IsWord w) :
    words (" ".intercalate ws) = ws := by
  induction ws with
  | nil => rfl
  | cons w ws ih =>
    have hw := h w List.mem_cons_self
    have hfirst : wordChars w.toList = [w.toList] := wordChars_eq_singleton hw.1 hw.2
    rcases ws with _ | ⟨w', ws⟩
    · rw [String.intercalate_singleton, words, hfirst]
      simp
    · have hrest := ih fun v hv => h v (List.mem_cons_of_mem w hv)
      rw [words] at hrest ⊢
      rw [String.intercalate_cons_cons, String.toList_append, String.toList_append,
        List.append_assoc]
      have hspace : (" " : String).toList = [' '] := rfl
      rw [hspace, List.singleton_append, wordChars_append_cons _ _ (by decide), hfirst,
        List.map_append, hrest]
      simp

/-- A space in front is no word. -/
theorem words_space_append (s : String) : words (" " ++ s) = words s := by
  unfold words
  have hspace : (" " ++ s).toList = [] ++ ' ' :: s.toList := by
    rw [String.toList_append]
    rfl
  rw [hspace, wordChars_append_cons _ _ (by decide)]
  rfl

/-! ## The two sides of a sign -/

/-- What stands before the first of the signs is cut off there, whatever comes behind it. -/
theorem cut_append {sep : Char} {left : String} (h : sep ∉ left.toList) (right : String) :
    cut sep (left ++ sep.toString ++ right) = some (left, right) := by
  have hleft : ∀ c ∈ left.toList, (c != sep) = true := by
    rintro c hc
    simp only [bne_iff_ne]
    rintro rfl
    exact h hc
  have htext : (left ++ sep.toString ++ right).toList = left.toList ++ sep :: right.toList := by
    simp [String.toList_append]
  have htake : (sep :: right.toList).takeWhile (· != sep) = [] := by simp
  have hdrop : (sep :: right.toList).dropWhile (· != sep) = sep :: right.toList := by simp
  unfold cut cutAt
  rw [htext, List.dropWhile_append_of_pos hleft, List.takeWhile_append_of_pos hleft, htake, hdrop]
  simp

/-- Where there is no such sign, nothing is cut. -/
theorem cut_eq_none {sep : Char} {s : String} (h : sep ∉ s.toList) : cut sep s = none := by
  have hdrop : s.toList.dropWhile (· != sep) = [] := by
    rw [List.dropWhile_eq_nil_iff]
    intro c hc
    rw [bne_iff_ne]
    rintro rfl
    exact h hc
  unfold cut cutAt
  rw [hdrop]
  rfl

/-! ## Trimming -/

/-- A text without a blank has nothing to trim. -/
theorem trim_eq_self {s : String} (h : ∀ c ∈ s.toList, isBlank c = false) : trim s = s := by
  have hdrop : ∀ {cs : List Char}, (∀ c ∈ cs, isBlank c = false) → cs.dropWhile isBlank = cs := by
    intro cs hcs
    cases cs with
    | nil => rfl
    | cons c cs => rw [List.dropWhile_cons_of_neg (by simp [hcs c List.mem_cons_self])]
  unfold trim trimChars trimEndChars
  rw [hdrop h, hdrop fun c hc => h c (List.mem_reverse.mp hc), List.reverse_reverse,
    String.ofList_toList]

/-- A text of blanks alone, or of nothing. -/
def IsBlank (s : String) : Prop := ∀ c ∈ s.toList, isBlank c = true

instance (s : String) : Decidable (IsBlank s) :=
  decidable_of_iff (s.toList.all isBlank = true) List.all_eq_true

theorem not_mem_of_isBlank {s : String} (h : IsBlank s) {c : Char} (hc : isBlank c = false) :
    c ∉ s.toList := by
  intro hmem
  rw [h c hmem] at hc
  cases hc

theorem trimEndChars_append {blanks : List Char} (h : ∀ c ∈ blanks, isBlank c = true)
    (cs : List Char) : trimEndChars (cs ++ blanks) = trimEndChars cs := by
  unfold trimEndChars
  rw [List.reverse_append, List.dropWhile_append_of_pos fun c hc => h c (List.mem_reverse.mp hc)]

/-- Blanks before and behind a text are trimmed away. -/
theorem trim_surround {before behind : String} (hbefore : IsBlank before) (hbehind : IsBlank behind)
    (s : String) : trim (before ++ s ++ behind) = trim s := by
  have hdrop : behind.toList.dropWhile isBlank = [] := List.dropWhile_eq_nil_iff.mpr hbehind
  unfold trim trimChars
  rw [String.toList_append, String.toList_append, List.append_assoc,
    List.dropWhile_append_of_pos hbefore, List.dropWhile_append]
  split
  · next hempty => rw [List.isEmpty_iff.mp hempty, hdrop]
  · rw [trimEndChars_append hbehind]

/-! ## Blanks between words -/

/-- These words, with any blanks before, between and behind them. Between two words there is one at
least. -/
inductive Spaced : List (List Char) → List Char → Prop
  | nil : Spaced [] []
  | blank {b : Char} {ws : List (List Char)} {cs : List Char} :
      isBlank b = true → Spaced ws cs → Spaced ws (b :: cs)
  | word {w : List Char} {ws : List (List Char)} {cs : List Char} :
      w ≠ [] → (∀ c ∈ w, isBlank c = false) → (∀ c ∈ cs.head?, isBlank c = true) →
      Spaced ws cs → Spaced (w :: ws) (w ++ cs)

/-- The text is these words with blanks. -/
def IsSpaced (ws : List String) (s : String) : Prop := Spaced (ws.map String.toList) s.toList

theorem wordChars_cons_blank {b : Char} (hb : isBlank b = true) (cs : List Char) :
    wordChars (b :: cs) = wordChars cs := wordChars_append_cons [] cs hb

/-- Whatever the blanks are, the words are found. -/
theorem Spaced.wordChars_eq {ws : List (List Char)} {cs : List Char} (h : Spaced ws cs) :
    wordChars cs = ws := by
  induction h with
  | nil => rfl
  | blank hb _ ih => rw [wordChars_cons_blank hb, ih]
  | @word w ws cs hne hw hcs _ ih =>
    rcases cs with _ | ⟨b, cs⟩
    · subst ih
      rw [List.append_nil, wordChars_eq_singleton hne hw]
      rfl
    · have hb : isBlank b = true := hcs b rfl
      rw [wordChars_cons_blank hb] at ih
      rw [wordChars_append_cons w cs hb, wordChars_eq_singleton hne hw, ih, List.singleton_append]

/-- A text that does not begin with a blank begins with a word. What comes behind it begins with a
blank, if there is anything. -/
theorem exists_word_append {c : Char} (hc : isBlank c = false) (cs : List Char) :
    ∃ w rest, w ≠ [] ∧ (∀ d ∈ w, isBlank d = false) ∧ (∀ d ∈ rest.head?, isBlank d = true) ∧
      c :: cs = w ++ rest := by
  let p : Char → Bool := fun d => !isBlank d
  have hstop := List.head?_dropWhile_not p (c :: cs)
  refine ⟨(c :: cs).takeWhile p, (c :: cs).dropWhile p, ?_, ?_, ?_,
    List.takeWhile_append_dropWhile.symm⟩
  · simp [p, hc]
  · intro d hd
    simpa [p] using List.mem_takeWhile_imp hd
  · intro d hd
    rw [Option.mem_def.mp hd] at hstop
    simpa [p] using hstop

/-- Every text is its words with blanks. The induction is on the length, as a word is taken off
whole. -/
theorem spaced_wordChars (cs : List Char) : Spaced (wordChars cs) cs := by
  induction hn : cs.length using Nat.strongRecOn generalizing cs with
  | ind n ih =>
    rcases cs with _ | ⟨c, cs⟩
    · exact .nil
    cases hc : isBlank c with
    | true =>
      rw [wordChars_cons_blank hc]
      exact .blank hc (ih cs.length (by simp [← hn]) cs rfl)
    | false =>
      obtain ⟨w, rest, hne, hw, hrest, heq⟩ := exists_word_append hc cs
      have hlt : rest.length < n := by
        have hlen := congrArg List.length heq
        have hpos := List.length_pos_iff.mpr hne
        rw [hn, List.length_append] at hlen
        omega
      have hspaced : Spaced (w :: wordChars rest) (w ++ rest) :=
        .word hne hw hrest (ih rest.length hlt rest rfl)
      rw [heq]
      rwa [hspaced.wordChars_eq]

/-- The words of a text are those that it has with whatever blanks. -/
theorem words_eq_iff {s : String} {ws : List String} : words s = ws ↔ IsSpaced ws s := by
  unfold words IsSpaced
  constructor
  · rintro rfl
    have hread : String.toList ∘ String.ofList = id := funext fun _ => String.toList_ofList
    rw [List.map_map, hread, List.map_id]
    exact spaced_wordChars s.toList
  · intro h
    have hread : String.ofList ∘ String.toList = id := funext fun _ => String.ofList_toList
    rw [h.wordChars_eq, List.map_map, hread, List.map_id]

/-- Other than blanks, a text has the characters of its words. -/
theorem Spaced.mem_iff {ws : List (List Char)} {cs : List Char} (h : Spaced ws cs) {c : Char}
    (hc : isBlank c = false) : c ∈ cs ↔ ∃ w ∈ ws, c ∈ w := by
  induction h with
  | nil => simp
  | @blank b ws cs hb _ ih =>
    have hne : c ≠ b := by
      rintro rfl
      rw [hb] at hc
      cases hc
    rw [List.mem_cons, ih, or_iff_right hne]
  | word _ _ _ _ ih => simp [ih]

/-- Texts of the same words have the same characters other than blanks. -/
theorem IsSpaced.mem_iff {s t : String} (h : IsSpaced (words s) t) {c : Char}
    (hc : isBlank c = false) : c ∈ t.toList ↔ c ∈ s.toList := by
  have hs : IsSpaced (words s) s := words_eq_iff.mp rfl
  exact (Spaced.mem_iff h hc).trans (Spaced.mem_iff hs hc).symm

end TopDown.Text
