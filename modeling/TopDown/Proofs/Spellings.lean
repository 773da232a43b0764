-- What is spelled is read back as what it was: the symbols of a right-hand side, a lookahead, a
-- member of a list, and an alternative among those of its non-terminal. A spelling that comes after
-- an arrow is found only if it is a word, and the first alternative that it fits counts.
import TopDown.Proofs.Loading
import TopDown.Proofs.Words

namespace TopDown

/-! ## Symbols -/

/-- What a FIRST or FOLLOW list can hold: what can be ahead, except for the spelling of the empty
marker, and the empty marker. -/
def Symbol.IsMember : Symbol → Prop
  | .terminal c => c ≠ '$' ∧ c ≠ 'ε'
  | .empty | .endMark => True
  | .nonTerminal _ => False

theorem singleChar?_toString (c : Char) : singleChar? c.toString = some c := by
  have hc : c.toString.toList = [c] := String.toList_singleton c
  unfold singleChar?
  rw [hc]

theorem toString_ne_toString {c d : Char} (h : c ≠ d) : c.toString ≠ d.toString := by
  intro heq
  have hsome := singleChar?_toString d
  rw [← heq, singleChar?_toString] at hsome
  exact h (Option.some.inj hsome)

theorem eq_toString_of_readLookahead {s : String} {c : Char}
    (h : readLookahead s = .ok (.terminal c)) : s = c.toString := by
  unfold readLookahead at h
  split at h
  · cases h
  · split at h
    · next d hd =>
      cases h
      exact eq_toString_of_singleChar? hd
    · cases h

theorem isMember_of_readMember {s : String} {x : Symbol} (h : readMember s = .ok x) :
    x.IsMember := by
  unfold readMember at h
  split at h
  · cases h
    trivial
  · next hs =>
    have hx := isLookahead_of_readLookahead h
    cases x with
    | terminal c =>
      refine ⟨hx, ?_⟩
      rintro rfl
      exact hs (eq_toString_of_readLookahead h)
    | endMark => trivial
    | nonTerminal | empty => cases hx

theorem readLookahead_spell (g : Grammar) {x : Symbol} (hx : x.IsLookahead) :
    readLookahead (g.spell x) = .ok x := by
  cases x with
  | terminal c =>
    have hc : c.toString ≠ endSpelling := toString_ne_toString hx
    simp only [Grammar.spell, readLookahead, if_neg hc, singleChar?_toString]
  | endMark => simp only [Grammar.spell, readLookahead, if_true]
  | nonTerminal | empty => cases hx

theorem readMember_spell (g : Grammar) {x : Symbol} (hx : x.IsMember) :
    readMember (g.spell x) = .ok x := by
  unfold readMember
  cases x with
  | terminal c =>
    have hc : g.spell (.terminal c) ≠ emptySpelling := toString_ne_toString hx.2
    rw [if_neg hc]
    exact readLookahead_spell g hx.1
  | empty => rw [Grammar.spell, if_pos rfl]
  | endMark =>
    rw [Grammar.spell, if_neg (by decide)]
    exact readLookahead_spell g (x := .endMark) trivial
  | nonTerminal => cases hx

namespace Grammar

variable {g : Grammar} {nt k : Nat}

/-- Where no rule has the name of the empty marker, each symbol of a right-hand side is read back. -/
theorem readSymbol_spell (hg : g.names.Nodup) (hempty : emptySpelling ∉ g.names) {x : Symbol}
    (hx : x.Fits g.names) : g.readSymbol (g.spell x) = .ok x := by
  unfold readSymbol
  cases x with
  | terminal c =>
    have hc : c.toString ≠ emptySpelling := toString_ne_toString hx.1
    have hid : g.idOf? c.toString = none := idOf?_eq_none_iff.mpr hx.2
    simp only [spell, hid, if_neg hc, singleChar?_toString]
  | nonTerminal id =>
    have hid : g.idOf? (g.nameOf id) = some id := idOf?_of_nameOf? hg (nameOf?_eq hx)
    simp only [spell, hid]
  | empty =>
    have hid : g.idOf? emptySpelling = none := idOf?_eq_none_iff.mpr hempty
    simp only [spell, hid, if_true]
  | endMark => cases hx

/-- So is a whole right-hand side. -/
theorem mapM_readSymbol_spell (hg : g.names.Nodup) (hempty : emptySpelling ∉ g.names)
    {xs : List Symbol} (hxs : ∀ x ∈ xs, x.Fits g.names) :
    (xs.map g.spell).mapM g.readSymbol = .ok xs := by
  have hread := mapM_map_eq_ok (f := g.readSymbol) (w := g.spell) (u := id) fun x hx =>
    readSymbol_spell hg hempty (hxs x hx)
  rw [hread, List.map_id]

/-- Right-hand sides that are spelled alike are alike. -/
theorem eq_of_map_spell_eq (hg : g.names.Nodup) (hempty : emptySpelling ∉ g.names)
    {xs ys : List Symbol} (hxs : ∀ x ∈ xs, x.Fits g.names) (hys : ∀ y ∈ ys, y.Fits g.names)
    (h : xs.map g.spell = ys.map g.spell) : xs = ys := by
  have hread := mapM_readSymbol_spell hg hempty hxs
  rw [h, mapM_readSymbol_spell hg hempty hys] at hread
  exact (Except.ok.inj hread).symm

/-! ## Alternatives -/

/-- The words that were found spell the alternative. -/
theorem map_spell_of_spelledBy? {ws : List String} (h : g.spelledBy? nt ws = some k)
    {q : Production} (hq : g.production? nt k = some q) : q.rhs.map g.spell = ws := by
  obtain ⟨hk, hspelled, _⟩ := List.findIdx?_eq_some_iff_getElem.mp h
  rw [production?, List.getElem?_eq_getElem hk] at hq
  cases hq
  exact eq_of_beq hspelled

/-- Whatever text names an alternative, it does so by words. -/
theorem exists_words_of_alternativeOf? {text : String} (h : g.alternativeOf? nt text = some k) :
    ∃ ws, (∀ w ∈ ws, Text.IsWord w) ∧ g.spelledBy? nt ws = some k := by
  unfold alternativeOf? at h
  split at h
  · exact ⟨Text.words text, fun w hw => Text.isWord_of_mem_words hw, h⟩
  · next left right _ =>
    split at h
    · exact ⟨Text.words right, fun w hw => Text.isWord_of_mem_words hw, h⟩
    · cases h

theorem isBlank_arrow : Text.isBlank arrow = false := by decide

/-- Where there is no arrow, an alternative is found by all the words. -/
theorem alternativeOf?_of_not_mem {text : String} (h : arrow ∉ text.toList) :
    g.alternativeOf? nt text = g.spelledBy? nt (Text.words text) := by
  unfold alternativeOf?
  rw [Text.cut_eq_none h]

/-- What stands before the first arrow has to be the name, and the words behind it count. -/
theorem alternativeOf?_append_arrow {left : String} (h : arrow ∉ left.toList) (right : String) :
    g.alternativeOf? nt (left ++ arrow.toString ++ right) =
      if g.nameOf? nt = some (Text.trim left) then g.spelledBy? nt (Text.words right)
      else none := by
  unfold alternativeOf?
  rw [Text.cut_append h]

/-- After the name of its non-terminal and the arrow, an alternative is found by its words. The
blanks around the name do not count. -/
theorem alternativeOf?_after_name {name before behind : String} (hname : g.nameOf? nt = some name)
    (harrow : arrow ∉ name.toList) (htrim : Text.trim name = name)
    (hbefore : Text.IsBlank before) (hbehind : Text.IsBlank behind) (right : String) :
    g.alternativeOf? nt (before ++ name ++ behind ++ arrow.toString ++ right) =
      g.spelledBy? nt (Text.words right) := by
  have hleft : arrow ∉ (before ++ name ++ behind).toList := by
    simp only [String.toList_append, List.mem_append, not_or]
    exact ⟨⟨Text.not_mem_of_isBlank hbefore isBlank_arrow, harrow⟩,
      Text.not_mem_of_isBlank hbehind isBlank_arrow⟩
  rw [alternativeOf?_append_arrow hleft, Text.trim_surround hbefore hbehind, htrim,
    if_pos hname]

/-- The line of a rule names what its right-hand side spells. -/
theorem alternativeOf?_ruleLine {name : String} (hname : g.nameOf? nt = some name)
    (harrow : arrow ∉ name.toList) (htrim : Text.trim name = name) (right : String) :
    g.alternativeOf? nt (g.ruleLine nt right) = g.spelledBy? nt (Text.words right) := by
  have hline : g.ruleLine nt right = "" ++ name ++ " " ++ arrow.toString ++ (" " ++ right) := by
    rw [ruleLine, nameOf, hname, Option.getD_some, String.empty_append, String.append_assoc,
      String.append_assoc, String.append_assoc]
  rw [hline, alternativeOf?_after_name hname harrow htrim (by decide) (by decide),
    Text.words_space_append]

/-- A text that names an alternative can be replaced by the alternative as it is written. -/
theorem alternativeOf?_write {name text : String} {q : Production}
    (hname : g.nameOf? nt = some name) (harrow : arrow ∉ name.toList)
    (htrim : Text.trim name = name) (h : g.alternativeOf? nt text = some k)
    (hq : g.production? nt k = some q) (hlhs : q.lhs = nt) :
    g.alternativeOf? nt (g.write q) = some k := by
  obtain ⟨ws, hwords, hws⟩ := exists_words_of_alternativeOf? h
  rw [write, hlhs, alternativeOf?_ruleLine hname harrow htrim, spellAll,
    map_spell_of_spelledBy? hws hq, Text.words_intercalate hwords]
  exact hws

end Grammar

end TopDown
