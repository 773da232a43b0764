-- FIRST and FOLLOW as derivations tell them, of whatever length. Lists that are closed under the
-- rules miss no member. Lists whose members are all found by working the rules from nothing hold
-- no other. So lists that pass both tests are FIRST and FOLLOW, and a table that enters what they
-- predict and nothing else tells the predicted alternatives.
import TopDown.Proofs.Lookahead

namespace TopDown

namespace Grammar

/-! ## What derivations say -/

/-- The form derives a string that begins with the character, or the empty string. -/
def IsFirst (g : Grammar) (form : List Symbol) : Symbol → Prop
  | .terminal c => ∃ v, g.Derives form (symbols (c :: v))
  | .empty => g.Derives form []
  | .nonTerminal _ | .endMark => False

/-- The start symbol derives a form in which the character stands right behind the non-terminal,
or one that ends in the non-terminal. -/
def IsFollow (g : Grammar) (nt : Nat) : Symbol → Prop
  | .terminal c => ∃ left right,
      g.Derives [g.startSymbol] (left ++ .nonTerminal nt :: .terminal c :: right)
  | .endMark => ∃ left, g.Derives [g.startSymbol] (left ++ [.nonTerminal nt])
  | .nonTerminal _ | .empty => False

/-- A lookahead for an alternative of `nt`: one that it begins with, or, where it can be empty, one
that follows `nt`. -/
def IsPredicted (g : Grammar) (nt : Nat) (p : Production) (x : Symbol) : Prop :=
  (g.IsFirst p.visible x ∧ x ≠ .empty) ∨ (g.Derives p.visible [] ∧ g.IsFollow nt x)

/-- The form derives a string. -/
def Completes (g : Grammar) (form : List Symbol) : Prop := ∃ w, g.Derives form (symbols w)

/-- The start symbol and every alternative derive a string. -/
structure Productive (g : Grammar) : Prop where
  start : g.Completes [g.startSymbol]
  alternative : ∀ nt k p, g.production? nt k = some p → g.Completes p.visible

variable {g : Grammar}

/-! ## Forms that derive a string -/

theorem completes_iff_yields {form : List Symbol} :
    g.Completes form ↔ ∃ cs w, g.Yields form cs w := by
  constructor
  · rintro ⟨w, h⟩
    obtain ⟨cs, hcs⟩ := yields_of_derives h
    exact ⟨cs, w, hcs⟩
  · rintro ⟨cs, w, h⟩
    exact ⟨w, h.derives⟩

theorem completes_nil : g.Completes [] := ⟨[], .refl⟩

theorem completes_terminal (c : Char) : g.Completes [.terminal c] := ⟨[c], .refl⟩

theorem not_completes_empty : ¬ g.Completes [.empty] := by
  rw [completes_iff_yields]
  rintro ⟨cs, w, h⟩
  cases h

theorem not_completes_endMark : ¬ g.Completes [.endMark] := by
  rw [completes_iff_yields]
  rintro ⟨cs, w, h⟩
  cases h

theorem completes_append_iff {xs ys : List Symbol} :
    g.Completes (xs ++ ys) ↔ g.Completes xs ∧ g.Completes ys := by
  constructor
  · intro h
    obtain ⟨cs, w, h⟩ := completes_iff_yields.mp h
    obtain ⟨cs₁, cs₂, u, v, _, _, hu, hv⟩ := h.split
    exact ⟨⟨u, hu.derives⟩, ⟨v, hv.derives⟩⟩
  · rintro ⟨⟨u, hu⟩, ⟨v, hv⟩⟩
    refine ⟨u ++ v, ?_⟩
    rw [symbols_append]
    exact hu.append hv

theorem completes_cons_iff {x : Symbol} {xs : List Symbol} :
    g.Completes (x :: xs) ↔ g.Completes [x] ∧ g.Completes xs := by
  rw [← completes_append_iff, List.singleton_append]

theorem completes_of_forall {xs : List Symbol} (h : ∀ x ∈ xs, g.Completes [x]) :
    g.Completes xs := by
  induction xs with
  | nil => exact completes_nil
  | cons x xs ih =>
    refine completes_cons_iff.mpr ⟨h x List.mem_cons_self, ih ?_⟩
    exact fun y hy => h y (List.mem_cons_of_mem x hy)

/-- No derivation comes to a dead end. -/
theorem Productive.completes_of_derives (hg : g.Productive) {xs ys : List Symbol}
    (h : g.Derives xs ys) (hxs : g.Completes xs) : g.Completes ys := by
  induction h with
  | refl => exact hxs
  | tail _ hstep ih =>
    obtain ⟨left, right, nt, k, p, hp, rfl, rfl⟩ := hstep
    obtain ⟨hleft, hrest⟩ := completes_append_iff.mp ih
    have hright := (completes_cons_iff.mp hrest).2
    rw [List.append_assoc]
    exact completes_append_iff.mpr
      ⟨hleft, completes_append_iff.mpr ⟨hg.alternative nt k p hp, hright⟩⟩

/-! ## Laws of FIRST and FOLLOW -/

theorem IsFirst.of_derives {xs ys : List Symbol} {x : Symbol} (h : g.Derives xs ys)
    (hx : g.IsFirst ys x) : g.IsFirst xs x := by
  cases x with
  | terminal c =>
    obtain ⟨v, hv⟩ := hx
    exact ⟨v, h.trans hv⟩
  | empty => exact h.trans hx
  | nonTerminal | endMark => cases hx

/-- What begins a form begins it also with more behind it. -/
theorem IsFirst.append {xs ys : List Symbol} {x : Symbol} (hx : g.IsFirst xs x) (hne : x ≠ .empty)
    (hys : g.Completes ys) : g.IsFirst (xs ++ ys) x := by
  cases x with
  | terminal c =>
    obtain ⟨u, hu⟩ := hx
    obtain ⟨v, hv⟩ := hys
    refine ⟨u ++ v, ?_⟩
    rw [← List.cons_append, symbols_append]
    exact hu.append hv
  | empty => exact absurd rfl hne
  | nonTerminal | endMark => cases hx

/-- A non-terminal that has a follower is reached from the start symbol. -/
theorem IsFollow.exists_derives {nt : Nat} {x : Symbol} (h : g.IsFollow nt x) :
    ∃ left right, g.Derives [g.startSymbol] (left ++ .nonTerminal nt :: right) := by
  cases x with
  | terminal c =>
    obtain ⟨left, right, hd⟩ := h
    exact ⟨left, _, hd⟩
  | endMark =>
    obtain ⟨left, hd⟩ := h
    exact ⟨left, [], hd⟩
  | nonTerminal | empty => cases h

/-- What `nt` turns into at the place where it stands. -/
theorem Derives.replace {x left right ys : List Symbol} {nt : Nat}
    (h : g.Derives x (left ++ .nonTerminal nt :: right)) (hys : g.Derives [.nonTerminal nt] ys) :
    g.Derives x (left ++ (ys ++ right)) := by
  refine h.trans ?_
  have haround := hys.around left right
  rwa [List.append_assoc, List.append_assoc] at haround

/-- The last non-terminal of an alternative is followed by what follows the alternative. -/
theorem IsFollow.last {nt b : Nat} {x : Symbol} {left : List Symbol} (hx : g.IsFollow nt x)
    (h : g.Derives [.nonTerminal nt] (left ++ [.nonTerminal b])) : g.IsFollow b x := by
  cases x with
  | terminal c =>
    obtain ⟨l, r, hd⟩ := hx
    exact ⟨l ++ left, r, by simpa using hd.replace h⟩
  | endMark =>
    obtain ⟨l, hd⟩ := hx
    exact ⟨l ++ left, by simpa using hd.replace h⟩
  | nonTerminal | empty => cases hx

/-- A non-terminal inside an alternative is followed by what the symbols behind it begin with. -/
theorem isFollow_of_isFirst {nt b : Nat} {x : Symbol} {l r left right : List Symbol}
    (hd : g.Derives [g.startSymbol] (l ++ .nonTerminal nt :: r))
    (h : g.Derives [.nonTerminal nt] (left ++ .nonTerminal b :: right))
    (hx : g.IsFirst right x) (hne : x ≠ .empty) : g.IsFollow b x := by
  cases x with
  | terminal c =>
    obtain ⟨v, hv⟩ := hx
    have hbehind := hv.around (left ++ [.nonTerminal b]) []
    simp only [List.append_nil, List.append_assoc, List.singleton_append] at hbehind
    exact ⟨l ++ left, symbols v ++ r, by simpa using hd.replace (h.trans hbehind)⟩
  | empty => exact absurd rfl hne
  | nonTerminal | endMark => cases hx

end Grammar

namespace SymbolSets

variable {s : SymbolSets} {g : Grammar}

/-! ## Nothing is missing -/

theorem mem_firstOf_nonTerminal {nt : Nat} {x : Symbol} :
    x ∈ s.firstOf [.nonTerminal nt] ↔ x ∈ s.first nt := by
  simp only [firstOf, mem_chain, List.mem_singleton]
  constructor
  · rintro (⟨hx, _⟩ | ⟨he, rfl⟩)
    · exact hx
    · exact he
  · intro hx
    by_cases hne : x = .empty
    · subst hne
      exact Or.inr ⟨hx, rfl⟩
    · exact Or.inl ⟨hx, hne⟩

theorem Closed.mem_firstOf (h : s.Closed g) {form : List Symbol} {x : Symbol}
    (hx : g.IsFirst form x) : x ∈ s.firstOf form := by
  cases x with
  | terminal c =>
    obtain ⟨v, hv⟩ := hx
    obtain ⟨cs, hcs⟩ := Grammar.yields_of_derives hv
    exact (h.begins hcs).2 c v rfl
  | empty =>
    obtain ⟨cs, hcs⟩ := Grammar.yields_of_derives (w := []) hx
    exact (h.begins hcs).1 rfl
  | nonTerminal | endMark => cases hx

/-- A follower is a lookahead, since what stands behind it can be completed. -/
theorem Closed.mem_follow (h : s.Closed g) (hg : g.Productive) {nt : Nat} {x : Symbol}
    (hx : g.IsFollow nt x) : x ∈ s.follow nt := by
  cases x with
  | terminal c =>
    obtain ⟨left, right, hd⟩ := hx
    have hform := (Grammar.completes_append_iff.mp (hg.completes_of_derives hd hg.start)).2
    have hbehind := (Grammar.completes_cons_iff.mp hform).2
    obtain ⟨cs, w, hy⟩ := Grammar.completes_iff_yields.mp hbehind
    obtain ⟨v, rfl, _⟩ := Grammar.yields_terminal_iff.mp hy
    exact h.followsIn hd left nt _ cs _ rfl hy
  | endMark =>
    obtain ⟨left, hd⟩ := hx
    exact h.followsIn hd left nt [] [] [] rfl .nil
  | nonTerminal | empty => cases hx

/-! ## The rules worked from nothing -/

/-- A row for each non-terminal. -/
def eachRow (g : Grammar) (f : Nat → List Symbol) : List (List Symbol) :=
  (List.range g.rules.length).map f

theorem mem_row_eachRow {f : Nat → List Symbol} {i : Nat} {x : Symbol}
    (h : x ∈ Rows.row (eachRow g f) i) : x ∈ f i := by
  unfold Rows.row eachRow at h
  rw [List.getElem?_map] at h
  rcases Nat.lt_or_ge i g.rules.length with hlt | hge
  · rw [List.getElem?_range hlt] at h
    exact h
  · rw [List.getElem?_eq_none (by simpa using hge)] at h
    cases h

/-- What these symbols, as an alternative of `nt`, put behind `b`. -/
def behind (s : SymbolSets) (nt b : Nat) : List Symbol → List Symbol
  | [] => []
  | .nonTerminal a :: right =>
    (if a = b then s.predict nt right else []) ++ s.behind nt b right
  | _ :: right => s.behind nt b right

/-- The rules worked once more. A non-terminal gives nothing to the followers of others before it
has one of its own, so one that the start symbol does not reach gives nothing at all. -/
def round (s : SymbolSets) (g : Grammar) : SymbolSets where
  firstRows := eachRow g fun nt => (g.productions nt).flatMap fun p => s.firstOf p.visible
  followRows := eachRow g fun b =>
    (if b = g.start then [.endMark] else []) ++
      (List.range g.rules.length).flatMap fun nt =>
        if (s.follow nt).isEmpty then []
        else (g.productions nt).flatMap fun p => s.behind nt b p.visible

/-- The rules worked so many times. -/
def rounds (g : Grammar) : Nat → SymbolSets
  | 0 => ⟨[], []⟩
  | n + 1 => (rounds g n).round g

/-- Every member of the lists is found in so many rounds. -/
structure Found (s : SymbolSets) (g : Grammar) (n : Nat) : Prop where
  first : ∀ nt < s.firstRows.length, ∀ x ∈ s.first nt, x ∈ (rounds g n).first nt
  follow : ∀ nt < s.followRows.length, ∀ x ∈ s.follow nt, x ∈ (rounds g n).follow nt

/-- Every member of the lists is one that derivations tell. -/
structure Justified (s : SymbolSets) (g : Grammar) : Prop where
  first : ∀ nt, ∀ x ∈ s.first nt, g.IsFirst [.nonTerminal nt] x
  follow : ∀ nt, ∀ x ∈ s.follow nt, g.IsFollow nt x

/-! ## Nothing is too much -/

theorem Justified.isFirst (hs : s.Justified g) {form : List Symbol} (hform : g.Completes form)
    {x : Symbol} (hx : x ∈ s.firstOf form) : g.IsFirst form x := by
  induction form with
  | nil =>
    rw [firstOf, List.mem_singleton] at hx
    subst hx
    exact .refl
  | cons z form ih =>
    obtain ⟨hz, hrest⟩ := Grammar.completes_cons_iff.mp hform
    cases z with
    | terminal c =>
      rw [firstOf, List.mem_singleton] at hx
      · subst hx
        have hc : g.IsFirst [.terminal c] (.terminal c) := ⟨[], .refl⟩
        exact hc.append (by simp) hrest
      all_goals simp
    | nonTerminal nt =>
      rw [firstOf, mem_chain] at hx
      rcases hx with ⟨hx, hne⟩ | ⟨he, hx⟩
      · exact (hs.first nt x hx).append hne hrest
      · have hgone : g.Derives [.nonTerminal nt] [] := hs.first nt .empty he
        exact .of_derives (hgone.append .refl) (ih hrest hx)
    | empty => exact absurd hz Grammar.not_completes_empty
    | endMark => exact absurd hz Grammar.not_completes_endMark

theorem exists_of_mem_behind {nt b : Nat} {form : List Symbol} {x : Symbol}
    (h : x ∈ s.behind nt b form) :
    ∃ left right, form = left ++ .nonTerminal b :: right ∧ x ∈ s.predict nt right := by
  induction form with
  | nil => cases h
  | cons z form ih =>
    have hlater (h : x ∈ s.behind nt b form) : ∃ left right,
        z :: form = left ++ .nonTerminal b :: right ∧ x ∈ s.predict nt right := by
      obtain ⟨left, right, rfl, hx⟩ := ih h
      exact ⟨z :: left, right, rfl, hx⟩
    cases z with
    | nonTerminal a =>
      rw [behind, List.mem_append] at h
      rcases h with h | h
      · split at h
        · next hab =>
          subst hab
          exact ⟨[], form, rfl, h⟩
        · cases h
      · exact hlater h
    | terminal | empty | endMark => exact hlater h

/-- What an alternative of a non-terminal that is reached puts behind another follows it. -/
theorem Justified.isFollow (hs : s.Justified g) (hg : g.Productive) {nt b : Nat} {p : Production}
    {z x : Symbol} (hz : z ∈ s.follow nt) (hp : p ∈ g.productions nt)
    (hx : x ∈ s.behind nt b p.visible) : g.IsFollow b x := by
  obtain ⟨k, hk⟩ := List.mem_iff_getElem?.mp hp
  obtain ⟨left, right, hvisible, hx⟩ := exists_of_mem_behind hx
  have hnt : g.Derives [.nonTerminal nt] (left ++ .nonTerminal b :: right) := by
    rw [← hvisible]
    exact Grammar.derives_of_production? hk
  have hright : g.Completes right := by
    have hcompletes := hg.alternative nt k p hk
    rw [hvisible] at hcompletes
    exact (Grammar.completes_cons_iff.mp (Grammar.completes_append_iff.mp hcompletes).2).2
  rw [predict, mem_chain] at hx
  rcases hx with ⟨hx, hne⟩ | ⟨he, hx⟩
  · obtain ⟨l, r, hd⟩ := (hs.follow nt z hz).exists_derives
    exact Grammar.isFollow_of_isFirst hd hnt (hs.isFirst hright hx) hne
  · have hgone : g.Derives right [] := hs.isFirst hright he
    have hlast := hgone.around (left ++ [.nonTerminal b]) []
    simp only [List.append_nil, List.append_assoc, List.singleton_append] at hlast
    exact (hs.follow nt x hx).last (hnt.trans hlast)

theorem Justified.round (hs : s.Justified g) (hg : g.Productive) : (s.round g).Justified g where
  first nt x hx := by
    obtain ⟨p, hp, hx⟩ := List.mem_flatMap.mp (mem_row_eachRow hx)
    obtain ⟨k, hk⟩ := List.mem_iff_getElem?.mp hp
    exact .of_derives (Grammar.derives_of_production? hk)
      (hs.isFirst (hg.alternative nt k p hk) hx)
  follow b x hx := by
    rcases List.mem_append.mp (mem_row_eachRow hx) with hx | hx
    · split at hx
      · next hb =>
        obtain rfl := List.mem_singleton.mp hx
        subst hb
        exact ⟨[], .refl⟩
      · cases hx
    · obtain ⟨nt, _, hx⟩ := List.mem_flatMap.mp hx
      split at hx
      · cases hx
      · next hne =>
        -- A follower that was found before shows that the start symbol reaches `nt`.
        obtain ⟨z, hz⟩ := List.exists_mem_of_ne_nil _ fun h => hne (List.isEmpty_iff.mpr h)
        obtain ⟨p, hp, hx⟩ := List.mem_flatMap.mp hx
        exact hs.isFollow hg hz hp hx

theorem justified_rounds (hg : g.Productive) (n : Nat) : (rounds g n).Justified g := by
  induction n with
  | zero =>
    have hrow : ∀ nt, Rows.row ([] : List (List Symbol)) nt = [] := fun nt => by simp [Rows.row]
    refine ⟨fun nt x hx => ?_, fun nt x hx => ?_⟩
    · rw [rounds, SymbolSets.first, hrow] at hx
      cases hx
    · rw [rounds, SymbolSets.follow, hrow] at hx
      cases hx
  | succ n ih => exact ih.round hg

/-- A row with a member is one of the rows. -/
theorem lt_length_of_mem_row {rows : List (List Symbol)} {i : Nat} {x : Symbol}
    (h : x ∈ Rows.row rows i) : i < rows.length := by
  rcases Nat.lt_or_ge i rows.length with hlt | hge
  · exact hlt
  · simp [Rows.row, List.getElem?_eq_none hge] at h

theorem Found.justified {n : Nat} (h : s.Found g n) (hg : g.Productive) : s.Justified g where
  first nt x hx := (justified_rounds hg n).first nt x (h.first nt (lt_length_of_mem_row hx) x hx)
  follow nt x hx := (justified_rounds hg n).follow nt x (h.follow nt (lt_length_of_mem_row hx) x hx)

/-! ## The lists are FIRST and FOLLOW -/

theorem mem_first_iff (hc : s.Closed g) (hs : s.Justified g) (nt : Nat) (x : Symbol) :
    x ∈ s.first nt ↔ g.IsFirst [.nonTerminal nt] x :=
  ⟨hs.first nt x, fun hx => mem_firstOf_nonTerminal.mp (hc.mem_firstOf hx)⟩

theorem mem_follow_iff (hc : s.Closed g) (hs : s.Justified g) (hg : g.Productive) (nt : Nat)
    (x : Symbol) : x ∈ s.follow nt ↔ g.IsFollow nt x :=
  ⟨hs.follow nt x, hc.mem_follow hg⟩

theorem mem_predict_iff (hc : s.Closed g) (hs : s.Justified g) (hg : g.Productive) {nt k : Nat}
    {p : Production} (hp : g.production? nt k = some p) (x : Symbol) :
    x ∈ s.predict nt p.visible ↔ g.IsPredicted nt p x := by
  have hvisible := hg.alternative nt k p hp
  have hfirst (y : Symbol) : y ∈ s.firstOf p.visible ↔ g.IsFirst p.visible y :=
    ⟨hs.isFirst hvisible, hc.mem_firstOf⟩
  rw [predict, mem_chain, hfirst, hfirst, mem_follow_iff hc hs hg]
  rfl

/-- The lists bear out every entry of the table: it is for a lookahead of its alternative. -/
def Backs (s : SymbolSets) (g : Grammar) (t : ParsingTable) : Prop :=
  ∀ e ∈ t.entries, ∃ p ∈ g.production? e.1.1 e.2, e.1.2 ∈ s.predict e.1.1 p.visible

instance (s : SymbolSets) (g : Grammar) (t : ParsingTable) : Decidable (s.Backs g t) := by
  unfold Backs
  infer_instance

/-- A table that covers the lists and that they bear out gives the predicted alternatives. -/
theorem lookup_eq_some_iff (hc : s.Closed g) (hs : s.Justified g) (hg : g.Productive)
    {t : ParsingTable} (ht : s.Covered g t) (ht' : s.Backs g t) (nt : Nat) (x : Symbol) (k : Nat) :
    t.lookup nt x = some k ↔ ∃ p, g.production? nt k = some p ∧ g.IsPredicted nt p x := by
  constructor
  · intro h
    obtain ⟨p, hp, hx⟩ := ht' _ (Keyed.mem_of_get? h)
    exact ⟨p, hp, (mem_predict_iff hc hs hg hp x).mp hx⟩
  · rintro ⟨p, hp, hx⟩
    have hlt : k < (g.productions nt).length := (List.getElem?_eq_some_iff.mp hp).1
    exact ht nt (Grammar.lt_length_of_production? hp) k hlt p hp x
      ((mem_predict_iff hc hs hg hp x).mpr hx)

end SymbolSets

end TopDown
