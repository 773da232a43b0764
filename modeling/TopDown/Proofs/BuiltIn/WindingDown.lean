-- The generator of the built-in grammar winds down. Once its budget is used up every non-terminal but
-- the start symbol has one alternative left, and before that an alternative that goes on puts out a
-- character first. So what is left of the budget bounds the levels still to go and the characters
-- still to come, and the first alternative of every choice goes all the way to both bounds.
import Mathlib
import TopDown.Benchmark
import TopDown.Proofs.BuiltIn.Language
import TopDown.Proofs.Limits

namespace TopDown

namespace Generator

variable {σ : Type}

/-! ## More levels -/

/-- What was derived is derived with more levels too, from the same choices. -/
theorem expand_mono [Chooser σ] {g : Generator} {levels more : Nat} {x : Symbol} {remaining : Int}
    {source source' : σ} {d : Derivation}
    (h : g.expand levels x remaining source = (.ok d, source')) :
    g.expand (levels + more) x remaining source = (.ok d, source') := by
  have hext : Extends g.maxDepth (g.expand levels x remaining source)
      (g.expand (levels + more) x remaining source) := extends_expand
  rw [h] at hext
  exact hext.eq nofun

/-! ## How much is put out -/

section

variable [Chooser σ]

/-- So many levels are enough for what is chosen from `source`, and `n` characters come out. -/
def PutsOut (g : Generator) (levels : Nat) (xs : List Symbol) (remaining : Int) (source : σ)
    (n : Nat) (source' : σ) : Prop :=
  ∃ d, expandAll (g.expand levels) xs remaining source = (.ok d, source') ∧ d.output.length = n

/-- So many levels are not enough for what is chosen from `source`. -/
def FallsShort (g : Generator) (levels : Nat) (xs : List Symbol) (remaining : Int)
    (source : σ) : Prop :=
  ∃ source', expandAll (g.expand levels) xs remaining source =
    (.error (.depthLimitExceeded g.maxDepth), source')

variable {g : Generator} {levels n k nt : Nat} {x : Symbol} {xs : List Symbol} {remaining : Int}
  {source source' source'' : σ} {p : Production} {ps : List Production}

theorem putsOut_leaf (hx : x.isNonTerminal = false) (remaining : Int) (source : σ) :
    g.PutsOut levels [x] remaining source x.char?.toList.length source := by
  refine ⟨⟨x.char?.toList, []⟩, ?_, rfl⟩
  rw [expandAll_singleton, expand_leaf hx]

/-- The symbols after the first one have what it leaves of the budget. -/
theorem PutsOut.cons (hx : g.PutsOut levels [x] remaining source n source')
    (hxs : g.PutsOut levels xs (remaining - n) source' k source'') :
    g.PutsOut levels (x :: xs) remaining source (n + k) source'' := by
  obtain ⟨d, hd, rfl⟩ := hx
  obtain ⟨e, he, rfl⟩ := hxs
  rw [expandAll_singleton] at hd
  exact ⟨d.append e, expandAll_cons hd he, List.length_append⟩

/-- A non-terminal takes one level more than the alternative that is chosen. -/
theorem PutsOut.nonTerminal {i : Fin (ps.length + 1)} (hc : g.candidates nt remaining = p :: ps)
    (hi : Chooser.choose ps.length source = (i, source'))
    (h : g.PutsOut levels (p :: ps)[i].rhs remaining source' n source'') :
    g.PutsOut (levels + 1) [.nonTerminal nt] remaining source n source'' := by
  obtain ⟨d, hd, hn⟩ := h
  refine ⟨⟨d.output, (p :: ps)[i] :: d.productions⟩, ?_, hn⟩
  rw [expandAll_singleton]
  exact expand_nonTerminal hc hi rfl hd

theorem fallsShort_zero (nt : Nat) (xs : List Symbol) :
    g.FallsShort 0 (.nonTerminal nt :: xs) remaining source := ⟨source, rfl⟩

/-- The first symbol is too deep. -/
theorem FallsShort.head (h : g.FallsShort levels [x] remaining source) (xs : List Symbol) :
    g.FallsShort levels (x :: xs) remaining source := by
  obtain ⟨source', h⟩ := h
  rw [expandAll_singleton] at h
  refine ⟨source', ?_⟩
  rw [expandAll, h]

/-- A symbol after the first one is too deep. -/
theorem FallsShort.tail (hx : g.PutsOut levels [x] remaining source n source')
    (hxs : g.FallsShort levels xs (remaining - n) source') :
    g.FallsShort levels (x :: xs) remaining source := by
  obtain ⟨d, hd, rfl⟩ := hx
  obtain ⟨source'', hxs⟩ := hxs
  rw [expandAll_singleton] at hd
  refine ⟨source'', ?_⟩
  rw [expandAll, hd]
  simp only [hxs]

/-- The alternative that is chosen is too deep. -/
theorem FallsShort.nonTerminal {i : Fin (ps.length + 1)}
    (hc : g.candidates nt remaining = p :: ps)
    (hi : Chooser.choose ps.length source = (i, source'))
    (h : g.FallsShort levels (p :: ps)[i].rhs remaining source') :
    g.FallsShort (levels + 1) [.nonTerminal nt] remaining source := by
  obtain ⟨source'', h⟩ := h
  refine ⟨source'', ?_⟩
  rw [expandAll_singleton, expand, hc]
  simp only [hi, h]

/-- The only alternative that is left is too deep. -/
theorem FallsShort.forced (hc : g.candidates nt remaining = [p])
    (h : ∀ source' : σ, g.FallsShort levels p.rhs remaining source') :
    g.FallsShort (levels + 1) [.nonTerminal nt] remaining source := by
  rcases hi : Chooser.choose ([] : List Production).length source with ⟨i, source'⟩
  apply FallsShort.nonTerminal hc hi
  have hp : [p][i] = p := List.mem_singleton.mp (List.getElem_mem _)
  rw [hp]
  exact h source'

end

/-! ## Bounds whatever is chosen -/

/-- Whatever is chosen, so many levels are enough, and from `least` to `most` characters come out. -/
def ComesTo (g : Generator) (levels : Nat) (xs : List Symbol) (remaining : Int)
    (least most : Nat) : Prop :=
  ∀ (σ : Type) [Chooser σ] (source : σ), ∃ n source',
    g.PutsOut levels xs remaining source n source' ∧ least ≤ n ∧ n ≤ most

variable {g : Generator} {levels nt : Nat} {x : Symbol} {xs : List Symbol} {remaining : Int}
  {least most : Nat} {p q : Production}

theorem comesTo_leaf (hx : x.isNonTerminal = false) :
    g.ComesTo levels [x] remaining x.char?.toList.length x.char?.toList.length := by
  intro σ _ source
  exact ⟨_, source, putsOut_leaf hx remaining source, Nat.le_refl _, Nat.le_refl _⟩

theorem ComesTo.mono {least' most' : Nat} (h : g.ComesTo levels xs remaining least most)
    (hleast : least' ≤ least) (hmost : most ≤ most') :
    g.ComesTo levels xs remaining least' most' := by
  intro σ _ source
  obtain ⟨n, source', hn, hle, hge⟩ := h σ source
  exact ⟨n, source', hn, hleast.trans hle, hge.trans hmost⟩

/-- The symbols after the first one have what it leaves of the budget and of the bounds. -/
theorem ComesTo.cons {lo hi : Nat} (hx : g.ComesTo levels [x] remaining lo hi)
    (hxs : ∀ n, lo ≤ n → n ≤ hi →
      n ≤ most ∧ g.ComesTo levels xs (remaining - n) (least - n) (most - n)) :
    g.ComesTo levels (x :: xs) remaining least most := by
  intro σ _ source
  obtain ⟨n, source', hn, hlo, hhi⟩ := hx σ source
  obtain ⟨hle, hrest⟩ := hxs n hlo hhi
  obtain ⟨k, source'', hk, hleast, hmost⟩ := hrest σ source'
  exact ⟨n + k, source'', hn.cons hk, by omega, by omega⟩

theorem ComesTo.terminal {c : Char} (h : g.ComesTo levels xs (remaining - 1) least most) :
    g.ComesTo levels (.terminal c :: xs) remaining (least + 1) (most + 1) := by
  apply ComesTo.cons (comesTo_leaf rfl)
  intro n hlo hhi
  have hn : n = 1 := Nat.le_antisymm hhi hlo
  subst hn
  exact ⟨Nat.le_add_left 1 most, h⟩

/-- A non-terminal takes one level more than its alternatives. -/
theorem ComesTo.nonTerminal {ps : List Production} (hc : g.candidates nt remaining = ps)
    (hne : ps ≠ []) (hl : 0 < levels)
    (h : ∀ p ∈ ps, g.ComesTo (levels - 1) p.rhs remaining least most) :
    g.ComesTo levels [.nonTerminal nt] remaining least most := by
  obtain ⟨levels, rfl⟩ : ∃ l, levels = l + 1 := ⟨levels - 1, by omega⟩
  intro σ _ source
  rcases ps with _ | ⟨p, ps⟩
  · exact absurd rfl hne
  · rcases hi : Chooser.choose ps.length source with ⟨i, source'⟩
    obtain ⟨n, source'', hn, hbounds⟩ := h (p :: ps)[i] (List.getElem_mem _) σ source'
    exact ⟨n, source'', hn.nonTerminal hc hi, hbounds⟩

/-- Where one alternative is left. -/
theorem ComesTo.forced (hc : g.candidates nt remaining = [p]) (hl : 0 < levels)
    (h : g.ComesTo (levels - 1) p.rhs remaining least most) :
    g.ComesTo levels [.nonTerminal nt] remaining least most := by
  apply ComesTo.nonTerminal hc (List.cons_ne_nil p []) hl
  simpa using h

/-- Where two alternatives are open. -/
theorem ComesTo.either (hc : g.candidates nt remaining = [p, q]) (hl : 0 < levels)
    (hp : g.ComesTo (levels - 1) p.rhs remaining least most)
    (hq : g.ComesTo (levels - 1) q.rhs remaining least most) :
    g.ComesTo levels [.nonTerminal nt] remaining least most := by
  apply ComesTo.nonTerminal hc (List.cons_ne_nil p [q]) hl
  simpa using ⟨hp, hq⟩

/-- What holds once the budget is used up, and of each budget if it does of one less. -/
theorem budget_induction {P : Int → Prop} (last : ∀ r, r ≤ 1 → P r)
    (more : ∀ r, 2 ≤ r → P (r - 1) → P r) (r : Int) : P r := by
  by_cases hr : r ≤ 1
  · exact last r hr
  · have hone : 1 ≤ r := by omega
    induction r, hone using Int.leInduction with
    | base => exact last 1 (Int.le_refl 1)
    | succ r _ ih =>
      apply more (r + 1) (by omega)
      rw [Int.add_sub_cancel]
      by_cases hr : r ≤ 1
      · exact last r hr
      · exact ih hr

end Generator

namespace BuiltIn

open Generator

/-- The generator of the built-in grammar, with a ceiling. -/
def generator (maxDepth : Nat) : Generator := { Generator.ofConfiguration loaded with maxDepth }

variable {m levels : Nat} {remaining : Int}

/-! ## The alternatives that are left -/

theorem candidates_A (h : remaining ≤ 1) : (generator m).candidates 1 remaining =
    [⟨1, [.terminal 'c', .nonTerminal 4, .nonTerminal 2]⟩] := by
  unfold candidates
  rw [if_pos h]
  rfl

theorem candidates_B (h : remaining ≤ 1) : (generator m).candidates 2 remaining =
    [⟨2, [.terminal 'c', .nonTerminal 3, .nonTerminal 4]⟩] := by
  unfold candidates
  rw [if_pos h]
  rfl

theorem candidates_D (h : remaining ≤ 1) :
    (generator m).candidates 4 remaining = [⟨4, [.empty]⟩] := by
  unfold candidates
  rw [if_pos h]
  rfl

/-- `S` and `C` have the same alternatives under any budget. -/
theorem candidates_S : (generator m).candidates 0 remaining = grammar.productions 0 := by
  unfold candidates
  split <;> rfl

theorem candidates_C : (generator m).candidates 3 remaining = grammar.productions 3 := by
  unfold candidates
  split <;> rfl

theorem candidates_open (nt : Nat) (h : 2 ≤ remaining) :
    (generator m).candidates nt remaining = grammar.productions nt := candidates_eq_productions h

/-! ## Levels and characters for each non-terminal -/

theorem comesTo_D (h : max remaining.toNat 1 ≤ levels) :
    (generator m).ComesTo levels [.nonTerminal 4] remaining 0 (remaining.toNat - 1) := by
  have hstop : ∀ levels remaining, (generator m).ComesTo levels [.empty] remaining 0 0 :=
    fun _ _ => comesTo_leaf rfl
  induction remaining using budget_induction generalizing levels with
  | last r hr =>
    apply ComesTo.forced (candidates_D hr) (by omega)
    exact (hstop _ r).mono (Nat.zero_le _) (Nat.zero_le _)
  | more r hr ih =>
    have hmore := (@ih (levels - 1) (by omega)).terminal (c := 'd')
    apply ComesTo.either (candidates_open 4 hr) (by omega)
    · exact hmore.mono (by omega) (by omega)
    · exact (hstop _ r).mono (by omega) (by omega)

theorem comesTo_C (h : max remaining.toNat 1 + 1 ≤ levels) :
    (generator m).ComesTo levels [.nonTerminal 3] remaining 1 (max remaining.toNat 1) := by
  apply ComesTo.forced candidates_C (by omega)
  apply (comesTo_D (by omega)).cons
  intro n _ hn
  have hend : (generator m).ComesTo (levels - 1) [.terminal 'c'] (remaining - n) 1 1 :=
    comesTo_leaf rfl
  exact ⟨by omega, hend.mono (by omega) (by omega)⟩

/-- `cCD`, to which `B` comes in the end. -/
theorem comesTo_cCD (h : max remaining.toNat 1 + 1 ≤ levels) :
    (generator m).ComesTo levels [.terminal 'c', .nonTerminal 3, .nonTerminal 4] remaining 2
      (max remaining.toNat 2) := by
  have hrest : (generator m).ComesTo levels [.nonTerminal 3, .nonTerminal 4] (remaining - 1) 1
      (max remaining.toNat 2 - 1) := by
    apply (comesTo_C (by omega)).cons
    intro n hn hn'
    have hD := @comesTo_D m levels (remaining - 1 - n) (by omega)
    exact ⟨by omega, hD.mono (by omega) (by omega)⟩
  exact hrest.terminal.mono (by omega) (by omega)

theorem comesTo_B (h : max remaining.toNat 1 + 2 ≤ levels) :
    (generator m).ComesTo levels [.nonTerminal 2] remaining 2 (max remaining.toNat 1 + 1) := by
  induction remaining using budget_induction generalizing levels with
  | last r hr =>
    apply ComesTo.forced (candidates_B hr) (by omega)
    exact (comesTo_cCD (by omega)).mono (by omega) (by omega)
  | more r hr ih =>
    have hmore := (@ih (levels - 1) (by omega)).terminal (c := 'b')
    apply ComesTo.either (candidates_open 2 hr) (by omega)
    · exact hmore.mono (by omega) (by omega)
    · exact (comesTo_cCD (by omega)).mono (by omega) (by omega)

/-- `cDB`, to which `A` comes in the end. -/
theorem comesTo_cDB (h : max remaining.toNat 1 + 2 ≤ levels) :
    (generator m).ComesTo levels [.terminal 'c', .nonTerminal 4, .nonTerminal 2] remaining 3
      (max remaining.toNat 2 + 1) := by
  have hrest : (generator m).ComesTo levels [.nonTerminal 4, .nonTerminal 2] (remaining - 1) 2
      (max remaining.toNat 2) := by
    apply (comesTo_D (by omega)).cons
    intro n _ hn
    have hB := @comesTo_B m levels (remaining - 1 - n) (by omega)
    exact ⟨by omega, hB.mono (by omega) (by omega)⟩
  exact hrest.terminal.mono (by omega) (by omega)

theorem comesTo_A (h : max remaining.toNat 1 + 3 ≤ levels) :
    (generator m).ComesTo levels [.nonTerminal 1] remaining 3 (max remaining.toNat 1 + 2) := by
  induction remaining using budget_induction generalizing levels with
  | last r hr =>
    apply ComesTo.forced (candidates_A hr) (by omega)
    exact (comesTo_cDB (by omega)).mono (by omega) (by omega)
  | more r hr ih =>
    have hmore := (@ih (levels - 1) (by omega)).terminal (c := 'a')
    apply ComesTo.either (candidates_open 1 hr) (by omega)
    · exact hmore.mono (by omega) (by omega)
    · exact (comesTo_cDB (by omega)).mono (by omega) (by omega)

/-- A non-terminal between two letters. -/
theorem comesTo_between {c : Char} {nt least most : Nat}
    (h : (generator m).ComesTo levels [.nonTerminal nt] (remaining - 1) least most) :
    (generator m).ComesTo levels [.terminal c, .nonTerminal nt, .terminal c] remaining
      (least + 2) (most + 2) := by
  have hrest : (generator m).ComesTo levels [.nonTerminal nt, .terminal c] (remaining - 1)
      (least + 1) (most + 1) := by
    apply h.cons
    intro n hn hn'
    have hend : (generator m).ComesTo levels [.terminal c] (remaining - 1 - n) 1 1 :=
      comesTo_leaf rfl
    exact ⟨by omega, hend.mono (by omega) (by omega)⟩
  exact hrest.terminal

theorem comesTo_S (h : max remaining.toNat 2 + 3 ≤ levels) :
    (generator m).ComesTo levels [.nonTerminal 0] remaining 3 (max remaining.toNat 2 + 3) := by
  have ha := comesTo_between (c := 'a') (@comesTo_A m (levels - 1) (remaining - 1) (by omega))
  have hb := comesTo_between (c := 'b') (@comesTo_B m (levels - 1) (remaining - 1) (by omega))
  have hc := comesTo_between (c := 'c') (@comesTo_C m (levels - 1) (remaining - 1) (by omega))
  apply ComesTo.nonTerminal candidates_S (by simp [productions_S]) (by omega)
  simp only [productions_S, List.mem_cons, List.not_mem_nil, or_false, forall_eq_or_imp, forall_eq]
  exact ⟨ha.mono (by omega) (by omega), hb.mono (by omega) (by omega),
    hc.mono (by omega) (by omega)⟩

/-! ## The first alternative of every choice -/

/-- A stream of zeros, of which some are drawn. -/
def zeros (drawn : Nat) : Source := ⟨.ofList [], drawn⟩

theorem choose_zeros (n drawn : Nat) :
    Chooser.choose n (zeros drawn) = (0, zeros (drawn + 1)) := by
  have hpeek : (zeros drawn).peek = 0 := rfl
  have hzero : Source.alternative n 0 = 0 := by
    apply Fin.ext
    simp [Source.alternative, Source.spread]
  change Source.choose n (zeros drawn) = _
  rw [Source.choose_eq, hpeek, if_pos (Source.isFit_zero _), hzero]
  rfl

/-- With the first alternative of every choice `A` puts an `a` before itself as long as it can. -/
theorem putsOut_A_zeros (h : max remaining.toNat 1 + 3 ≤ levels) (drawn : Nat) :
    ∃ source', (generator m).PutsOut levels [.nonTerminal 1] remaining (zeros drawn)
      (max remaining.toNat 1 + 2) source' := by
  induction remaining using budget_induction generalizing levels drawn with
  | last r hr =>
    obtain ⟨n, source', hn, hleast, hmost⟩ := comesTo_A (m := m) h Source (zeros drawn)
    have hthree : n = max r.toNat 1 + 2 := by omega
    exact ⟨source', hthree ▸ hn⟩
  | more r hr ih =>
    obtain ⟨levels, rfl⟩ : ∃ l, levels = l + 1 := ⟨levels - 1, by omega⟩
    obtain ⟨source', hrest⟩ := @ih levels (by omega) (drawn + 1)
    have hletter : (generator m).PutsOut levels [.terminal 'a'] r (zeros (drawn + 1)) 1 _ :=
      putsOut_leaf rfl r _
    have hboth := hletter.cons hrest
    have hlen : 1 + (max (r - 1).toNat 1 + 2) = max r.toNat 1 + 2 := by omega
    rw [hlen] at hboth
    exact ⟨source', hboth.nonTerminal (candidates_open 1 hr) (choose_zeros _ drawn)⟩

theorem putsOut_S_zeros (h : max remaining.toNat 2 + 3 ≤ levels) (drawn : Nat) :
    ∃ source', (generator m).PutsOut levels [.nonTerminal 0] remaining (zeros drawn)
      (max remaining.toNat 2 + 3) source' := by
  obtain ⟨levels, rfl⟩ : ∃ l, levels = l + 1 := ⟨levels - 1, by omega⟩
  obtain ⟨source', hA⟩ := @putsOut_A_zeros m levels (remaining - 1) (by omega) (drawn + 1)
  have hletter : ∀ r (source : Source),
      (generator m).PutsOut levels [.terminal 'a'] r source 1 source := putsOut_leaf rfl
  have hall := (hletter remaining (zeros (drawn + 1))).cons (hA.cons (hletter _ source'))
  have hlen : 1 + (max (remaining - 1).toNat 1 + 2 + 1) = max remaining.toNat 2 + 3 := by omega
  rw [hlen] at hall
  exact ⟨source', hall.nonTerminal candidates_S (choose_zeros _ drawn)⟩

/-! ## One level too few -/

section

variable {σ : Type} [Chooser σ]

/-- Below `C` there is always a `D`. -/
theorem fallsShort_C (remaining : Int) (source : σ) :
    (generator m).FallsShort 1 [.nonTerminal 3] remaining source :=
  .forced candidates_C fun _ => fallsShort_zero 4 _

theorem fallsShort_B (h : remaining ≤ 1) (source : σ) :
    (generator m).FallsShort 2 [.nonTerminal 2] remaining source := by
  apply FallsShort.forced (candidates_B h)
  intro source'
  apply FallsShort.tail (putsOut_leaf rfl remaining source')
  exact (fallsShort_C _ source').head _

theorem fallsShort_A (h : remaining ≤ 1) (source : σ) :
    (generator m).FallsShort 3 [.nonTerminal 1] remaining source := by
  apply FallsShort.forced (candidates_A h)
  intro source'
  apply FallsShort.tail (putsOut_leaf rfl remaining source')
  obtain ⟨n, source'', hn, _, hmost⟩ :=
    @comesTo_D m 2 (remaining - 1) (by omega) σ _ source'
  apply FallsShort.tail hn
  apply fallsShort_B
  omega

end

theorem fallsShort_A_zeros (h : levels = max remaining.toNat 1 + 2) (drawn : Nat) :
    (generator m).FallsShort levels [.nonTerminal 1] remaining (zeros drawn) := by
  induction remaining using budget_induction generalizing levels drawn with
  | last r hr =>
    have hthree : levels = 3 := by omega
    rw [hthree]
    exact fallsShort_A hr (zeros drawn)
  | more r hr ih =>
    obtain ⟨levels, rfl⟩ : ∃ l, levels = l + 1 := ⟨levels - 1, by omega⟩
    apply FallsShort.nonTerminal (candidates_open 1 hr) (choose_zeros _ drawn)
    apply FallsShort.tail (putsOut_leaf rfl r _)
    exact ih (by omega) (drawn + 1)

theorem fallsShort_S_zeros (h : levels = max remaining.toNat 2 + 2) (drawn : Nat) :
    (generator m).FallsShort levels [.nonTerminal 0] remaining (zeros drawn) := by
  obtain ⟨levels, rfl⟩ : ∃ l, levels = l + 1 := ⟨levels - 1, by omega⟩
  apply FallsShort.nonTerminal candidates_S (choose_zeros _ drawn)
  apply FallsShort.tail (putsOut_leaf rfl remaining _)
  apply FallsShort.head
  apply fallsShort_A_zeros
  have hone : ((Symbol.terminal 'a').char?.toList.length : Int) = 1 := rfl
  omega

/-! ## Sentences -/

section

variable {σ : Type} [Chooser σ] {source source' : σ} {budget : Int} {b : Nat} {d : Derivation}

theorem exists_derive (hb : effectiveBudget budget = b) (hm : max b 2 + 2 ≤ m) (source : σ) :
    ∃ d source', (generator m).derive budget source = (.ok d, source') := by
  obtain ⟨n, source', ⟨d, hd, _⟩, _⟩ :=
    @comesTo_S m (m + 1) b (by omega) σ _ source
  rw [expandAll_singleton, ← hb] at hd
  exact ⟨d, source', hd⟩

/-- With enough levels it would have come to the same, so the bounds hold with fewer too. -/
theorem length_of_derive (hb : effectiveBudget budget = b)
    (h : (generator m).derive budget source = (.ok d, source')) :
    3 ≤ d.sentence.length ∧ d.sentence.length ≤ max b 2 + 3 := by
  have hmore : (generator m).expand (m + 1 + (max b 2 + 2)) (.nonTerminal 0)
      (effectiveBudget budget) source = (.ok d, source') := expand_mono h
  obtain ⟨n, source'', ⟨e, he, hn⟩, hleast, hmost⟩ := @comesTo_S m
    (m + 1 + (max b 2 + 2)) b (by omega) σ _ source
  rw [expandAll_singleton, ← hb, hmore] at he
  cases he
  have hlen : d.sentence.length = d.output.length := String.length_ofList
  rw [hlen, hn]
  exact ⟨hleast, by omega⟩

end

/-- The first alternatives all the way, in one level less than it takes. -/
theorem derive_zeros_error {budget : Int} {b : Nat} (hb : effectiveBudget budget = b) :
    ∃ source', (generator (max b 2 + 1)).derive budget (zeros 0) =
      (.error (.depthLimitExceeded (max b 2 + 1)), source') := by
  obtain ⟨source', h⟩ := @fallsShort_S_zeros (max b 2 + 1) (max b 2 + 2) b
    (by omega) 0
  rw [expandAll_singleton, ← hb] at h
  exact ⟨source', h⟩

theorem derive_zeros {budget : Int} {b : Nat} (hb : effectiveBudget budget = b) :
    ∃ d source', (generator (max b 2 + 2)).derive budget (zeros 0) = (.ok d, source') ∧
      d.sentence.length = max b 2 + 3 := by
  obtain ⟨source', d, hd, hn⟩ := @putsOut_S_zeros (max b 2 + 2) (max b 2 + 3) b
    (by omega) 0
  rw [expandAll_singleton, ← hb] at hd
  refine ⟨d, source', hd, ?_⟩
  have hlen : d.sentence.length = d.output.length := String.length_ofList
  rw [hlen, hn]
  omega

/-- No budget of the survey is too large for its ceiling, whatever is drawn. -/
theorem exists_measure {budget : Int} (hbudget : budget ∈ Benchmark.budgets) (number : Nat)
    (source : Source) :
    ∃ s, (Benchmark.measure loaded budget number source).1 = [.sample s] := by
  have hsmall : ∀ budget ∈ Benchmark.budgets,
      effectiveBudget budget = (effectiveBudget budget).toNat ∧
        max (effectiveBudget budget).toNat 2 + 2 ≤ Benchmark.maxDepth := by decide
  obtain ⟨hb, hm⟩ := hsmall budget hbudget
  obtain ⟨d, source', hd⟩ := exists_derive hb hm source
  obtain ⟨r, hr, _⟩ := potential.exists_run d.sentence
  have hgenerator : { Generator.ofConfiguration loaded with maxDepth := Benchmark.maxDepth } =
      generator Benchmark.maxDepth := rfl
  refine ⟨⟨budget, d.output.length, r.steps, r.isAccepted⟩, ?_⟩
  unfold Benchmark.measure
  simp only [hgenerator, hd, hr, Option.toList_some, List.map_cons, List.map_nil]

/-- For the effective budget `b` two levels more than the larger of `b` and 2 are always enough, and
every sentence has three characters at least and that number and three at most. Some words take
every one of these levels, and some give all of these characters. So no budget up to 510 ever fails
under the default ceiling, and none of the survey is ever skipped. -/
theorem the_built_in_generator_winds_down :
    ∃ c, configuration = .ok c ∧
      (∀ (budget : Int) (b : Nat), effectiveBudget budget = b →
        (∀ (σ : Type) [Chooser σ] (maxDepth : Nat) (source : σ),
          (max b 2 + 2 ≤ maxDepth → ∃ d source',
            { Generator.ofConfiguration c with maxDepth }.derive budget source =
              (.ok d, source')) ∧
          ∀ d source', { Generator.ofConfiguration c with maxDepth }.derive budget source =
              (.ok d, source') →
            3 ≤ d.sentence.length ∧ d.sentence.length ≤ max b 2 + 3) ∧
        (∃ words source', { Generator.ofConfiguration c with maxDepth := max b 2 + 1 }.derive budget
            (Source.ofStream (.ofList words)) =
          (.error (.depthLimitExceeded (max b 2 + 1)), source')) ∧
        ∃ words d source', { Generator.ofConfiguration c with maxDepth := max b 2 + 2 }.derive
            budget (Source.ofStream (.ofList words)) = (.ok d, source') ∧
          d.sentence.length = max b 2 + 3) ∧
      (∀ (σ : Type) [Chooser σ] (budget : Int) (source : σ), effectiveBudget budget ≤ 510 →
        ∃ d source', (Generator.ofConfiguration c).derive budget source = (.ok d, source')) ∧
      ∀ budget ∈ Benchmark.budgets, ∀ (number : Nat) (source : Source),
        ∃ s, (Benchmark.measure c budget number source).1 = [.sample s] := by
  refine ⟨loaded, configuration_eq, ?_, ?_, fun _ h number source => exists_measure h number source⟩
  · intro budget b hb
    refine ⟨?_, ⟨[], derive_zeros_error hb⟩, ⟨[], derive_zeros hb⟩⟩
    intro σ _ maxDepth source
    exact ⟨fun hm => exists_derive hb hm source, fun d source' h => length_of_derive hb h⟩
  · intro σ _ budget source hle
    have hpos : 0 < effectiveBudget budget := by
      unfold effectiveBudget defaultBudget
      split <;> omega
    exact exists_derive (m := defaultMaxDepth) (Int.toNat_of_nonneg hpos.le).symm
      (by unfold defaultMaxDepth; omega) source

/-- A budget below zero stands for twenty, for which 22 levels are enough whatever the seed. -/
theorem a_budget_of_minus_seven_winds_down :
    ∃ c, configuration = .ok c ∧ effectiveBudget (-7) = (20 : Nat) ∧ max 20 2 + 2 ≤ 22 ∧
      (∃ d source', { Generator.ofConfiguration c with maxDepth := 22 }.derive (-7)
          (Source.ofStream (Seeded.stream 1)) = (.ok d, source') ∧
        3 ≤ d.sentence.length ∧ d.sentence.length ≤ 23) ∧
      effectiveBudget 510 ≤ 510 ∧
      (∃ d source', (Generator.ofConfiguration c).derive 510 (Source.ofStream (Seeded.stream 1)) =
        (.ok d, source')) ∧
      2500 ∈ Benchmark.budgets ∧
      ∃ s, (Benchmark.measure c 2500 1 (Source.ofStream (Seeded.stream 1))).1 = [.sample s] := by
  obtain ⟨c, hc, hbounds, hdefault, hsurvey⟩ := the_built_in_generator_winds_down
  have hb : effectiveBudget (-7) = (20 : Nat) := by decide
  obtain ⟨hall, _⟩ := hbounds (-7) 20 hb
  obtain ⟨henough, hlength⟩ := hall Source 22 (Source.ofStream (Seeded.stream 1))
  obtain ⟨d, source', hd⟩ := henough (by decide)
  exact ⟨c, hc, hb, by decide, ⟨d, source', hd, hlength d source' hd⟩, by decide,
    hdefault Source 510 _ (by decide), by decide, hsurvey 2500 (by decide) 1 _⟩

end BuiltIn

end TopDown
