-- A grid is read back from its text. The bars of all its lines stand below one another, as do the
-- crossings of its rule, and between the bars of a line are the cells of a row. Padding is blank,
-- so trimming a piece leaves the cell; where the end of a line was trimmed, its bars have stayed.
import Mathlib
import TopDown.Display.Grammar
import TopDown.Display.Trace
import TopDown.Proofs.BuiltIn.Loaded
import TopDown.Proofs.Words

namespace TopDown

namespace Text

/-! ## Pieces -/

/-- What stands between the signs `sep`, before the first and behind the last. -/
def split (sep : Char) (s : String) : List String := (s.toList.splitOn sep).map String.ofList

theorem split_of_not_mem {sep : Char} {s : String} (h : sep ∉ s.toList) : split sep s = [s] := by
  rw [split, List.splitOn_eq_singleton h, List.map_singleton, String.ofList_toList]

theorem split_append {sep : Char} {left : String} (h : sep ∉ left.toList) (right : String) :
    split sep (left ++ sep.toString ++ right) = left :: split sep right := by
  have htext : (left ++ sep.toString ++ right).toList = left.toList ++ sep :: right.toList := by
    simp [String.toList_append]
  have hpieces : (left.toList ++ sep :: right.toList).splitOn sep =
      left.toList.splitOn sep ++ right.toList.splitOn sep :=
    List.splitOnP_append_cons _ _ (beq_self_eq_true sep)
  rw [split, htext, hpieces, List.splitOn_eq_singleton h, List.singleton_append, List.map_cons,
    String.ofList_toList, split]

/-- Texts with a sign between them are split at it. -/
theorem split_intercalate {sep : Char} {ss : List String} (hne : ss ≠ [])
    (h : ∀ s ∈ ss, sep ∉ s.toList) : split sep (sep.toString.intercalate ss) = ss := by
  induction ss with
  | nil => exact absurd rfl hne
  | cons s ss ih =>
    have hs := h s List.mem_cons_self
    rcases ss with _ | ⟨s', ss⟩
    · rw [String.intercalate_singleton, split_of_not_mem hs]
    · rw [String.intercalate_cons_cons, split_append hs,
        ih (by simp) fun t ht => h t (List.mem_cons_of_mem s ht)]

theorem not_mem_append {c : Char} {left right : String} (hleft : c ∉ left.toList)
    (hright : c ∉ right.toList) : c ∉ (left ++ right).toList := by
  rw [String.toList_append, List.mem_append, not_or]
  exact ⟨hleft, hright⟩

theorem not_mem_replicate {c d : Char} (h : c ≠ d) (n : Nat) :
    c ∉ (String.ofList (List.replicate n d)).toList := by
  rw [String.toList_ofList]
  exact fun hmem => h (List.eq_of_mem_replicate hmem)

theorem mem_of_mem_intercalate {c : Char} {sep : String} {ss : List String}
    (h : c ∈ (sep.intercalate ss).toList) : c ∈ sep.toList ∨ ∃ s ∈ ss, c ∈ s.toList := by
  induction ss with
  | nil => simp at h
  | cons s ss ih =>
    rcases ss with _ | ⟨s', ss⟩
    · rw [String.intercalate_singleton] at h
      exact .inr ⟨s, List.mem_cons_self, h⟩
    · rw [String.intercalate_cons_cons, String.toList_append, String.toList_append,
        List.mem_append, List.mem_append] at h
      rcases h with (h | h) | h
      · exact .inr ⟨s, List.mem_cons_self, h⟩
      · exact .inl h
      · exact (ih h).imp id fun ⟨t, ht, hc⟩ => ⟨t, List.mem_cons_of_mem s ht, hc⟩

/-! ## Places -/

/-- Where a sign stands, in characters from the start of the text. -/
def places (c : Char) (s : String) : List Nat := s.toList.idxsOf c

theorem idxsOf_eq_nil {c : Char} {cs : List Char} (h : c ∉ cs) (start : Nat) :
    cs.idxsOf c start = [] := by
  rw [List.idxsOf_eq_nil_iff]
  rintro d hd
  rw [beq_eq_false_iff_ne]
  rintro rfl
  exact h hd

/-! ## Trimming at the end -/

theorem isBlank_empty : IsBlank "" := by decide

theorem isBlank_replicate (n : Nat) : IsBlank (String.ofList (List.replicate n ' ')) := by
  intro c hc
  rw [String.toList_ofList] at hc
  rw [List.eq_of_mem_replicate hc]
  decide

theorem trim_append {blanks : String} (h : IsBlank blanks) (s : String) :
    trim (s ++ blanks) = trim s := by
  rw [← trim_surround isBlank_empty h s, String.empty_append]

/-- What is trimmed off at the end is blank. -/
theorem exists_trimEnd_append (s : String) :
    ∃ blanks, IsBlank blanks ∧ s = trimEnd s ++ blanks := by
  let tail := s.toList.reverse.takeWhile isBlank
  refine ⟨String.ofList tail.reverse, ?_, ?_⟩
  · intro c hc
    rw [String.toList_ofList, List.mem_reverse] at hc
    exact List.mem_takeWhile_imp hc
  · apply String.toList_inj.mp
    rw [String.toList_append, trimEnd, String.toList_ofList, String.toList_ofList, trimEndChars,
      ← List.reverse_append, List.takeWhile_append_dropWhile, List.reverse_reverse]

theorem trim_trimEnd (s : String) : trim (trimEnd s) = trim s := by
  obtain ⟨blanks, hblanks, hs⟩ := exists_trimEnd_append s
  conv_rhs => rw [hs]
  exact (trim_append hblanks _).symm

theorem mem_of_mem_trimEnd {c : Char} {s : String} (h : c ∈ (trimEnd s).toList) :
    c ∈ s.toList := by
  obtain ⟨blanks, _, hs⟩ := exists_trimEnd_append s
  rw [hs, String.toList_append]
  exact List.mem_append_left _ h

/-- Trimming does not go beyond a sign that is not blank. -/
theorem trimEnd_append {c : Char} (hc : isBlank c = false) (left right : String) :
    trimEnd (left ++ c.toString ++ right) = left ++ c.toString ++ trimEnd right := by
  apply String.toList_inj.mp
  simp only [trimEnd, trimEndChars, String.toList_ofList, String.toList_append,
    Char.toString_eq_singleton, String.toList_singleton, List.reverse_append]
  rw [List.dropWhile_append]
  split
  · next hempty => simp [List.isEmpty_iff.mp hempty, hc]
  · simp

/-- No sign other than a blank is trimmed off, and those that stay do not move. -/
theorem places_trimEnd {c : Char} (hc : isBlank c = false) (s : String) :
    places c (trimEnd s) = places c s := by
  obtain ⟨blanks, hblanks, hs⟩ := exists_trimEnd_append s
  conv_rhs => rw [hs]
  rw [places, places, String.toList_append, List.idxsOf_append,
    idxsOf_eq_nil (not_mem_of_isBlank hblanks hc), List.append_nil]

end Text

namespace Grid

open Text (split places trim trimEnd)

/-! ## Bars -/

/-- Where the bar behind column `j` stands, if the columns are `w` characters wide and a bar has a
space on either side. -/
def barPlace (w : Nat → Nat) (j : Nat) : Nat := ∑ c ∈ Finset.range (j + 1), w c + 3 * j + 1

theorem barPlace_zero (w : Nat → Nat) : barPlace w 0 = w 0 + 1 := by
  simp [barPlace]

theorem barPlace_succ (w : Nat → Nat) (j : Nat) :
    barPlace w (j + 1) = w 0 + 3 + barPlace (fun c => w (c + 1)) j := by
  simp only [barPlace]
  rw [Finset.sum_range_succ']
  omega

/-- Texts of these widths have the signs between them at the places of bars. The induction takes off
the first text, and counts on from behind its bar. -/
theorem idxsOf_intercalate {c f : Char} {sep : String} (hsep : sep.toList = [f, c, f]) (hf : f ≠ c)
    {ss : List String} (hfree : ∀ s ∈ ss, c ∉ s.toList) {w : Nat → Nat}
    (hw : ∀ j s, ss[j]? = some s → s.length = w j) (start : Nat) :
    (sep.intercalate ss).toList.idxsOf c start =
      (List.range (ss.length - 1)).map fun j => start + barPlace w j := by
  induction ss generalizing w start with
  | nil => simp
  | cons s ss ih =>
    have hs := hfree s List.mem_cons_self
    rcases ss with _ | ⟨s', ss⟩
    · rw [String.intercalate_singleton, Text.idxsOf_eq_nil hs]
      rfl
    · have hlen : s.length = w 0 := hw 0 s rfl
      have hrest := ih (fun t ht => hfree t (List.mem_cons_of_mem s ht))
        (w := fun j => w (j + 1)) fun j t ht => hw (j + 1) t ht
      have hbar : [f, c, f].idxsOf c (start + w 0) = [start + w 0 + 1] := by
        simp [List.idxsOf_cons, hf]
      rw [String.intercalate_cons_cons, String.toList_append, String.toList_append, hsep,
        List.idxsOf_append, List.idxsOf_append, Text.idxsOf_eq_nil hs, List.nil_append,
        String.length_toList, hlen, hbar, hrest]
      simp only [List.length_cons, Nat.add_sub_cancel, List.range_succ_eq_map, List.map_cons,
        List.map_map, List.singleton_append, List.length_append, String.length_toList, hlen,
        List.length_nil]
      rw [barPlace_zero, Nat.add_assoc]
      congr 1
      apply List.map_congr_left
      intro j _
      simp only [Function.comp_apply, Nat.succ_eq_add_one, barPlace_succ w j]
      omega

theorem places_intercalate {c f : Char} {sep : String} (hsep : sep.toList = [f, c, f]) (hf : f ≠ c)
    {n : Nat} {text : Nat → String} (hfree : ∀ s ∈ (List.range n).map text, c ∉ s.toList)
    {w : Nat → Nat} (hw : ∀ i < n, (text i).length = w i) :
    places c (sep.intercalate ((List.range n).map text)) =
      (List.range (n - 1)).map (barPlace w) := by
  have hwidth : ∀ j s, ((List.range n).map text)[j]? = some s → s.length = w j := by
    intro j s hs
    rw [List.getElem?_map] at hs
    obtain ⟨i, hi, rfl⟩ := Option.map_eq_some_iff.mp hs
    obtain ⟨hj, rfl⟩ := List.getElem?_eq_some_iff.mp hi
    rw [List.length_range] at hj
    rw [List.getElem_range, hw j hj]
  rw [places, idxsOf_intercalate hsep hf hfree hwidth 0, List.length_map, List.length_range]
  simp only [Nat.zero_add]

/-! ## Cells -/

/-- A cell that can be told from what is around it: it has no bar and no line feed, and no blank at
its ends. -/
structure IsPlain (cell : String) : Prop where
  no_bar : '│' ∉ cell.toList
  no_feed : '\n' ∉ cell.toList
  trim_eq : trim cell = cell

instance (cell : String) : Decidable (IsPlain cell) :=
  decidable_of_iff ('│' ∉ cell.toList ∧ '\n' ∉ cell.toList ∧ trim cell = cell)
    ⟨fun ⟨h₁, h₂, h₃⟩ => ⟨h₁, h₂, h₃⟩, fun ⟨h₁, h₂, h₃⟩ => ⟨h₁, h₂, h₃⟩⟩

theorem isPlain_getD {row : List String} (h : ∀ cell ∈ row, IsPlain cell) (c : Nat) :
    IsPlain (row.getD c "") := by
  rw [List.getD_eq_getElem?_getD]
  cases hcell : row[c]? with
  | none => exact (by decide : IsPlain "")
  | some cell => exact h cell (List.mem_of_getElem? hcell)

theorem length_pad {w : Nat} {s : String} (h : s.length ≤ w) : (pad w s).length = w := by
  rw [pad, String.length_append, String.length_ofList, List.length_replicate]
  omega

/-- Padding is trimmed off again. -/
theorem trim_pad (w : Nat) (s : String) : trim (pad w s) = trim s :=
  Text.trim_append (Text.isBlank_replicate _) s

theorem not_mem_pad {c : Char} (hc : c ≠ ' ') {s : String} (h : c ∉ s.toList) (w : Nat) :
    c ∉ (pad w s).toList :=
  Text.not_mem_append h (Text.not_mem_replicate hc _)

/-! ## Measures -/

/-- The longest row has `n` cells, and the longest cell of column `c` has `w c` characters. -/
structure Measures (rows : List (List String)) (n : Nat) (w : Nat → Nat) : Prop where
  longest_row : (rows.map List.length).max? = some n
  longest_cell : ∀ c < n, ((rows.filterMap fun row => row[c]?).map String.length).max? = some (w c)

theorem foldl_max_eq {ns : List Nat} {m : Nat} (hm : m ∈ ns) (hle : ∀ k ∈ ns, k ≤ m) :
    ns.foldl max 0 = m := by
  rw [List.foldl_max, List.max?_eq_some_iff.mpr ⟨hm, hle⟩, Option.getD_some, Nat.zero_max]

variable {rows : List (List String)} {n : Nat} {w : Nat → Nat} {row : List String}

theorem Measures.columns_eq (h : Measures rows n w) : columns rows = n := by
  obtain ⟨hmem, hle⟩ := List.max?_eq_some_iff.mp h.longest_row
  exact foldl_max_eq hmem hle

theorem Measures.length_le (h : Measures rows n w) (hrow : row ∈ rows) : row.length ≤ n :=
  (List.max?_eq_some_iff.mp h.longest_row).2 _ (List.mem_map.mpr ⟨row, hrow, rfl⟩)

/-- A cell that is not there is as long as an empty one. -/
theorem Measures.length_getD_le (h : Measures rows n w) (hrow : row ∈ rows) {c : Nat} (hc : c < n) :
    (row.getD c "").length ≤ w c := by
  rw [List.getD_eq_getElem?_getD]
  cases hcell : row[c]? with
  | none => exact Nat.zero_le _
  | some cell =>
    have hmem : cell ∈ rows.filterMap fun row => row[c]? :=
      List.mem_filterMap.mpr ⟨row, hrow, hcell⟩
    exact (List.max?_eq_some_iff.mp (h.longest_cell c hc)).2 _ (List.mem_map.mpr ⟨cell, hmem, rfl⟩)

theorem Measures.width_eq (h : Measures rows n w) {c : Nat} (hc : c < n) : width rows c = w c := by
  obtain ⟨hmem, _⟩ := List.max?_eq_some_iff.mp (h.longest_cell c hc)
  obtain ⟨cell, hcell, hlen⟩ := List.mem_map.mp hmem
  obtain ⟨row, hrow, hat⟩ := List.mem_filterMap.mp hcell
  apply foldl_max_eq
  · refine List.mem_map.mpr ⟨row, hrow, ?_⟩
    rw [List.getD_eq_getElem?_getD, hat, Option.getD_some, hlen]
  · intro k hk
    obtain ⟨other, hother, rfl⟩ := List.mem_map.mp hk
    exact h.length_getD_le hother hc

theorem Measures.widths_eq (h : Measures rows n w) : widths rows = (List.range n).map w := by
  rw [widths, h.columns_eq]
  exact List.map_congr_left fun c hc => h.width_eq (List.mem_range.mp hc)

/-- Where there is a row there are measures. -/
theorem exists_measures (h : rows ≠ []) : ∃ n w, Measures rows n w := by
  cases hmax : (rows.map List.length).max? with
  | none => exact absurd (List.map_eq_nil_iff.mp (List.max?_eq_none_iff.mp hmax)) h
  | some n =>
    refine ⟨n, fun c => ((rows.filterMap fun row => row[c]?).map String.length).max?.getD 0, hmax,
      fun c hc => ?_⟩
    obtain ⟨row, hrow, rfl⟩ := List.mem_map.mp (List.max?_eq_some_iff.mp hmax).1
    have hcell : row[c] ∈ rows.filterMap fun row => row[c]? :=
      List.mem_filterMap.mpr ⟨row, hrow, List.getElem?_eq_getElem hc⟩
    cases hlongest : ((rows.filterMap fun row => row[c]?).map String.length).max? with
    | none =>
      rw [List.map_eq_nil_iff.mp (List.max?_eq_none_iff.mp hlongest)] at hcell
      cases hcell
    | some m => rfl

/-- Rows that are all of one length have it as the length of the longest. -/
theorem Measures.eq_of_forall_length (h : Measures rows n w) {k : Nat}
    (hk : ∀ row ∈ rows, row.length = k) : n = k := by
  obtain ⟨row, hrow, hlen⟩ := List.mem_map.mp (List.max?_eq_some_iff.mp h.longest_row).1
  rw [← hlen, hk row hrow]

/-! ## Lines -/

/-- The cells of a row with empty cells behind them, up to `n`. -/
def fill (n : Nat) (row : List String) : List String := row ++ List.replicate (n - row.length) ""

theorem fill_of_length_eq (h : row.length = n) : fill n row = row := by
  simp [fill, h]

theorem map_getD_range (h : row.length ≤ n) :
    ((List.range n).map fun c => row.getD c "") = fill n row := by
  apply List.ext_getElem?
  intro c
  rw [fill, List.getElem?_map, List.getElem?_append, List.getElem?_replicate]
  by_cases hc : c < n
  · rw [List.getElem?_range hc, Option.map_some, List.getD_eq_getElem?_getD]
    split
    · next hlt => rw [List.getElem?_eq_getElem hlt, Option.getD_some]
    · next hge => rw [List.getElem?_eq_none (by omega), if_pos (by omega), Option.getD_none]
  · rw [List.getElem?_eq_none (by simpa using hc), if_neg (by omega), if_neg (by omega)]
    rfl

theorem cells_range_map (row : List String) :
    cells ((List.range n).map w) row = (List.range n).map fun c => pad (w c) (row.getD c "") := by
  apply List.ext_getElem?
  intro c
  rw [cells, List.getElem?_mapIdx, List.getElem?_map, List.getElem?_map, Option.map_map]
  by_cases hc : c < n
  · rw [List.getElem?_range hc]
    rfl
  · rw [List.getElem?_eq_none (by simpa using hc)]
    rfl

theorem toList_bar : (" │ " : String).toList = [' ', '│', ' '] := rfl

theorem toList_crossing : ("─┼─" : String).toList = ['─', '┼', '─'] := rfl

theorem isBlank_bar : Text.isBlank '│' = false := by decide

/-- The first cell of a line goes up to a space and a bar. The space behind the bar is left to what
comes next. -/
theorem append_intercalate_cons_cons (before s s' : String) (ss : List String) :
    before ++ " │ ".intercalate (s :: s' :: ss) =
      before ++ s ++ " " ++ '│'.toString ++ (" " ++ " │ ".intercalate (s' :: ss)) := by
  have hbar : (" │ " : String) = " " ++ '│'.toString ++ " " := by decide
  rw [String.intercalate_cons_cons]
  generalize (" │ " : String).intercalate (s' :: ss) = rest
  rw [hbar]
  simp only [String.append_assoc]

/-- Cut at its bars and trimmed, a line of cells gives the cells. Blanks before it do not count; the
induction needs that, as there is a space behind each bar. -/
theorem map_trim_split_trimEnd {before : String} (hbefore : Text.IsBlank before) {ss : List String}
    (hne : ss ≠ []) (hfree : ∀ s ∈ ss, '│' ∉ s.toList) :
    (split '│' (trimEnd (before ++ " │ ".intercalate ss))).map trim = ss.map trim := by
  induction ss generalizing before with
  | nil => exact absurd rfl hne
  | cons s ss ih =>
    have hs := hfree s List.mem_cons_self
    have hstart : '│' ∉ (before ++ s).toList :=
      Text.not_mem_append (Text.not_mem_of_isBlank hbefore isBlank_bar) hs
    rcases ss with _ | ⟨s', ss⟩
    · have htrim := Text.trim_surround hbefore Text.isBlank_empty s
      rw [String.append_empty] at htrim
      rw [String.intercalate_singleton,
        Text.split_of_not_mem fun h => hstart (Text.mem_of_mem_trimEnd h), List.map_singleton,
        Text.trim_trimEnd, htrim, List.map_singleton]
    · have hspace : Text.IsBlank " " := by decide
      have hfirst : '│' ∉ (before ++ s ++ " ").toList := Text.not_mem_append hstart (by decide)
      have hrest := ih hspace (by simp) fun t ht => hfree t (List.mem_cons_of_mem s ht)
      rw [append_intercalate_cons_cons, Text.trimEnd_append isBlank_bar, Text.split_append hfirst,
        List.map_cons, hrest, Text.trim_surround hbefore hspace]
      rfl

/-- No sign that is in no cell of a row comes in by padding, a space apart. -/
theorem not_mem_of_mem_cells {c : Char} (hc : c ≠ ' ') (hrow : ∀ i, c ∉ (row.getD i "").toList)
    {ws : List Nat} {s : String} (hs : s ∈ cells ws row) : c ∉ s.toList := by
  obtain ⟨i, hi, rfl⟩ := List.mem_mapIdx.mp hs
  exact not_mem_pad hc (hrow i) _

theorem bar_not_mem_of_mem_cells (hplain : ∀ cell ∈ row, IsPlain cell) {ws : List Nat} :
    ∀ s ∈ cells ws row, '│' ∉ s.toList :=
  fun _ => not_mem_of_mem_cells (by decide) fun i => (isPlain_getD hplain i).no_bar

/-- In a line of cells the bars stand behind the columns, the last column apart. -/
theorem places_line (h : Measures rows n w) (hrow : row ∈ rows)
    (hplain : ∀ cell ∈ row, IsPlain cell) :
    places '│' (line (widths rows) row) = (List.range (n - 1)).map (barPlace w) := by
  have hfree : ∀ s ∈ cells ((List.range n).map w) row, '│' ∉ s.toList :=
    bar_not_mem_of_mem_cells hplain
  rw [cells_range_map] at hfree
  rw [line, Text.places_trimEnd isBlank_bar, h.widths_eq, cells_range_map]
  exact places_intercalate toList_bar (by decide) hfree
    fun c hc => length_pad (h.length_getD_le hrow hc)

/-- In the rule the crossings stand where the bars stand. -/
theorem places_rule (h : Measures rows n w) :
    places '┼' (rule (widths rows)) = (List.range (n - 1)).map (barPlace w) := by
  have hfree : ∀ s ∈ (List.range n).map fun c => String.ofList (List.replicate (w c) '─'),
      '┼' ∉ s.toList := by
    intro s hs
    obtain ⟨c, _, rfl⟩ := List.mem_map.mp hs
    exact Text.not_mem_replicate (by decide) _
  have hlen : ∀ c < n, (String.ofList (List.replicate (w c) '─')).length = w c := by
    intro c _
    rw [String.length_ofList, List.length_replicate]
  rw [rule, h.widths_eq, List.map_map]
  exact places_intercalate toList_crossing (by decide) hfree hlen

/-- Cut at its bars and trimmed, the line of a row gives its cells. -/
theorem map_trim_split_line (h : Measures rows n w) (hn : 0 < n) (hrow : row ∈ rows)
    (hplain : ∀ cell ∈ row, IsPlain cell) :
    (split '│' (line (widths rows) row)).map trim = fill n row := by
  have hne : cells (widths rows) row ≠ [] := by
    rw [h.widths_eq, cells_range_map, ne_eq, List.map_eq_nil_iff, List.range_eq_nil]
    omega
  have hsplit :=
    map_trim_split_trimEnd Text.isBlank_empty hne (bar_not_mem_of_mem_cells hplain)
  rw [String.empty_append] at hsplit
  rw [line, hsplit, h.widths_eq, cells_range_map, List.map_map, ← map_getD_range (h.length_le hrow)]
  apply List.map_congr_left
  intro c _
  exact (trim_pad _ _).trans (isPlain_getD hplain c).trim_eq

theorem feed_not_mem_line {ws : List Nat} (hplain : ∀ cell ∈ row, IsPlain cell) :
    '\n' ∉ (line ws row).toList := by
  intro hmem
  rcases Text.mem_of_mem_intercalate (Text.mem_of_mem_trimEnd hmem) with hbetween | ⟨s, hs, hfeed⟩
  · exact absurd hbetween (by decide)
  · exact not_mem_of_mem_cells (by decide) (fun i => (isPlain_getD hplain i).no_feed) hs hfeed

theorem feed_not_mem_rule (ws : List Nat) : '\n' ∉ (rule ws).toList := by
  intro hmem
  rcases Text.mem_of_mem_intercalate hmem with hbetween | ⟨s, hs, hfeed⟩
  · exact absurd hbetween (by decide)
  · obtain ⟨k, _, rfl⟩ := List.mem_map.mp hs
    exact Text.not_mem_replicate (by decide) k hfeed

/-! ## Texts -/

/-- All cells can be told from what is around them. -/
def Plain (rows : List (List String)) : Prop := ∀ row ∈ rows, ∀ cell ∈ row, IsPlain cell

instance (rows : List (List String)) : Decidable (Plain rows) :=
  inferInstanceAs (Decidable (∀ row ∈ rows, ∀ cell ∈ row, IsPlain cell))

/-- The lines of a text are those of the rows and a rule behind the first. All bars and crossings
stand behind the columns, and between the bars stand the cells. -/
structure Shows (text : String) (rows : List (List String)) (n : Nat) (w : Nat → Nat)
    (rowLines : List String) (rule : String) : Prop where
  split_eq : split '\n' text = rowLines.insertIdx 1 rule
  length_eq : rowLines.length = rows.length
  places_bar : ∀ s ∈ rowLines, places '│' s = (List.range (n - 1)).map (barPlace w)
  places_crossing : places '┼' rule = (List.range (n - 1)).map (barPlace w)
  cells_eq : rowLines.map (fun s => (split '│' s).map trim) = rows.map (fill n)

theorem split_render (hne : rows ≠ []) (hplain : Plain rows) :
    split '\n' (render rows) =
      (rows.map (line (widths rows))).insertIdx 1 (rule (widths rows)) := by
  obtain ⟨header, body, rfl⟩ := List.exists_cons_of_ne_nil hne
  have hlines : lines (header :: body) = ((header :: body).map
      (line (widths (header :: body)))).insertIdx 1 (rule (widths (header :: body))) := rfl
  rw [← hlines]
  refine Text.split_intercalate (by simp [lines]) fun s hs => ?_
  rw [hlines] at hs
  rcases List.eq_or_mem_of_mem_insertIdx hs with rfl | hs
  · exact feed_not_mem_rule _
  · obtain ⟨row, hrow, rfl⟩ := List.mem_map.mp hs
    exact feed_not_mem_line (hplain row hrow)

theorem shows_render (h : Measures rows n w) (hn : 0 < n) (hplain : Plain rows) :
    Shows (render rows) rows n w (rows.map (line (widths rows))) (rule (widths rows)) where
  split_eq := by
    refine split_render ?_ hplain
    rintro rfl
    cases h.longest_row
  length_eq := List.length_map _
  places_bar := by
    intro s hs
    obtain ⟨row, hrow, rfl⟩ := List.mem_map.mp hs
    exact places_line h hrow (hplain row hrow)
  places_crossing := places_rule h
  cells_eq := by
    rw [List.map_map]
    apply List.map_congr_left
    intro row hrow
    rw [Function.comp_apply]
    exact map_trim_split_line h hn hrow (hplain row hrow)

/-- The rows that a text shows: its lines without the second, cut at their bars and trimmed. -/
def read (text : String) : List (List String) :=
  ((split '\n' text).eraseIdx 1).map fun s => (split '│' s).map trim

/-- Rows of one length are read back as they are. -/
theorem read_render {k : Nat} (hk : 0 < k) (hne : rows ≠ []) (hlen : ∀ row ∈ rows, row.length = k)
    (hplain : Plain rows) : read (render rows) = rows := by
  obtain ⟨n, w, h⟩ := exists_measures hne
  obtain rfl := h.eq_of_forall_length hlen
  have hshows := shows_render h hk hplain
  rw [read, hshows.split_eq, List.eraseIdx_insertIdx_self, hshows.cells_eq]
  conv_rhs => rw [← List.map_id rows]
  exact List.map_congr_left fun row hrow => fill_of_length_eq (hlen row hrow)

end Grid

theorem length_of_mem_traceRows {g : Grammar} {rs : List Record} {row : List String}
    (h : row ∈ traceRows g rs) : row.length = 3 := by
  rcases List.mem_cons.mp h with rfl | h
  · rfl
  · obtain ⟨r, _, rfl⟩ := List.mem_map.mp h
    rfl

theorem ParsingTable.length_of_mem_rows {t : ParsingTable} {g : Grammar} {highlight : Option Cell}
    {row : List String} (h : row ∈ t.rows g highlight) : row.length = g.terminals.length + 1 := by
  rcases List.mem_cons.mp h with rfl | h
  · simp
  · obtain ⟨nt, _, rfl⟩ := List.mem_map.mp h
    simp

namespace Grid

/-- A grid of plain cells, whatever lengths its rows have, is a line for each row and a rule behind
the first. In all lines the bars stand behind the columns, the crossings of the rule stand where
they do, and what is between the bars gives the cells. So all cells of a trace or of a table can be
told from its text. -/
theorem a_grid_is_aligned_and_read_back :
    (∀ (rows : List (List String)) (n : Nat) (w : Nat → Nat), Measures rows n w → 1 ≤ n →
      Plain rows → ∃ rowLines rule, Shows (render rows) rows n w rowLines rule) ∧
    (∀ (g : Grammar) (rs : List Record), Plain (traceRows g rs) →
      read (traceText g rs) = traceRows g rs) ∧
    ∀ (t : ParsingTable) (g : Grammar) (highlight : Option Cell), Plain (t.rows g highlight) →
      read (t.text g highlight) = t.rows g highlight := by
  refine ⟨fun rows n w h hn hplain => ⟨_, _, shows_render h hn hplain⟩, fun g rs hplain => ?_,
    fun t g highlight hplain => ?_⟩
  · exact read_render (by decide) (List.cons_ne_nil _ _) (fun _ => length_of_mem_traceRows) hplain
  · exact read_render (Nat.succ_pos _) (List.cons_ne_nil _ _)
      (fun _ => ParsingTable.length_of_mem_rows) hplain

/-- Rows of one, two and three cells, and a column of no width. -/
def ragged : List (List String) := [["Stack", "", "Action"], ["é"], ["$ S", ""], ["", "", "S → a"]]

def raggedWidths (c : Nat) : Nat := [5, 0, 6].getD c 0

example : render ragged =
    "Stack │  │ Action\n──────┼──┼───────\né     │  │\n$ S   │  │\n      │  │ S → a" := by
  decide +kernel

theorem measures_ragged : Measures ragged 3 raggedWidths where
  longest_row := by decide
  longest_cell := by decide

/-- It is read back, as are the trace of `ccc` and the built-in table with a cell in brackets. -/
theorem a_ragged_grid_is_read_back :
    Measures ragged 3 raggedWidths ∧ Plain ragged ∧
      (∃ rowLines rule, Shows (render ragged) ragged 3 raggedWidths rowLines rule) ∧
      (∃ r, (Parser.ofConfiguration BuiltIn.loaded).run "ccc" = some r ∧
        Plain (traceRows BuiltIn.grammar r.trace) ∧
        read (traceText BuiltIn.grammar r.trace) = traceRows BuiltIn.grammar r.trace) ∧
      Plain (BuiltIn.parsingTable.rows BuiltIn.grammar (some (0, .terminal 'c'))) ∧
      read (BuiltIn.parsingTable.text BuiltIn.grammar (some (0, .terminal 'c'))) =
        BuiltIn.parsingTable.rows BuiltIn.grammar (some (0, .terminal 'c')) := by
  obtain ⟨hgrid, htrace, htable⟩ := a_grid_is_aligned_and_read_back
  have hragged : Plain ragged := by decide
  have hrun : ((Parser.ofConfiguration BuiltIn.loaded).run "ccc").any
      (fun r => decide (Plain (traceRows BuiltIn.grammar r.trace))) = true := by decide +kernel
  obtain ⟨r, hr, hplain⟩ := (Option.any_eq_true _ _).mp hrun
  have hrows : Plain (BuiltIn.parsingTable.rows BuiltIn.grammar (some (0, .terminal 'c'))) := by
    decide +kernel
  exact ⟨measures_ragged, hragged, hgrid _ _ _ measures_ragged (by decide) hragged,
    ⟨r, hr, of_decide_eq_true hplain, htrace _ _ (of_decide_eq_true hplain)⟩, hrows,
    htable _ _ _ hrows⟩

end Grid

end TopDown
