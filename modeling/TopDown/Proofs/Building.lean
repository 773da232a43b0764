-- A grammar and its table, put together in whatever order. Names and alternatives are only added
-- behind those that are there, so a number keeps its name and an alternative its place. An entry is
-- checked when it is made; what it needs is there then, and so for good.
import Mathlib
import TopDown.Table

namespace TopDown

/-! ## Pairs that are written one after another -/

namespace Keyed

variable {κ ν : Type} [DecidableEq κ]

theorem ofList_append_singleton (es : List (κ × ν)) (e : κ × ν) :
    ofList (es ++ [e]) = put e.1 e.2 (ofList es) := by
  rw [ofList, List.foldl_append]
  rfl

/-- The latest pair for a key counts. -/
theorem get?_ofList (k : κ) (es : List (κ × ν)) :
    get? k (ofList es) = (es.findRev? fun e => e.1 = k).map Prod.snd := by
  rw [List.findRev?_eq_find?_reverse]
  induction es using List.reverseRecOn with
  | nil => rfl
  | append_singleton es e ih =>
    rw [ofList_append_singleton, get?_put, ih, List.reverse_append, List.reverse_singleton,
      List.singleton_append, List.find?_cons]
    by_cases h : e.1 = k <;> simp [h]

theorem mem_keys_ofList (k : κ) (es : List (κ × ν)) : k ∈ keys (ofList es) ↔ k ∈ keys es := by
  induction es using List.reverseRecOn with
  | nil => rfl
  | append_singleton es e ih =>
    rw [ofList_append_singleton, mem_keys_put, ih, keys, keys, List.map_append, List.mem_append,
      List.map_singleton, List.mem_singleton, or_comm]

/-- There are as many pairs as different keys. -/
theorem length_ofList (es : List (κ × ν)) : (ofList es).length = (keys es).toFinset.card := by
  have hkeys : (keys (ofList es)).toFinset = (keys es).toFinset := by
    ext k
    rw [List.mem_toFinset, List.mem_toFinset, mem_keys_ofList]
  rw [← hkeys, List.toFinset_card_of_nodup (nodup_keys_ofList es), keys, List.length_map]

end Keyed

/-! ## Grammars -/

namespace Grammar

variable {g h k : Grammar} {name : String} {nt : Nat}

/-- No name stands twice, and each alternative stands under its own non-terminal and has symbols. -/
structure Orderly (g : Grammar) : Prop where
  names_nodup : g.names.Nodup
  lhs_eq : ∀ nt, ∀ p ∈ g.productions nt, p.lhs = nt
  rhs_ne_nil : ∀ nt, ∀ p ∈ g.productions nt, p.rhs ≠ []

/-- `h` is `g` with more names and more alternatives behind those that were there. -/
structure Grows (g h : Grammar) : Prop where
  names : g.names <+: h.names
  productions : ∀ nt, g.productions nt <+: h.productions nt

theorem Grows.refl (g : Grammar) : g.Grows g := ⟨List.prefix_rfl, fun _ => List.prefix_rfl⟩

theorem Grows.trans (hgh : g.Grows h) (hhk : h.Grows k) : g.Grows k :=
  ⟨hgh.names.trans hhk.names, fun nt => (hgh.productions nt).trans (hhk.productions nt)⟩

theorem Grows.nameOf? (hgh : g.Grows h) {id : Nat} (hname : g.nameOf? id = some name) :
    h.nameOf? id = some name := by
  obtain ⟨more, hmore⟩ := hgh.names
  have hlt := (List.getElem?_eq_some_iff.mp hname).1
  rw [Grammar.nameOf?, ← hmore, List.getElem?_append_left hlt]
  exact hname

theorem Grows.production? (hgh : g.Grows h) {alternative : Nat} {p : Production}
    (hp : g.production? nt alternative = some p) : h.production? nt alternative = some p := by
  obtain ⟨more, hmore⟩ := hgh.productions nt
  have hlt := (List.getElem?_eq_some_iff.mp hp).1
  rw [Grammar.production?, ← hmore, List.getElem?_append_left hlt]
  exact hp

theorem orderly_new (name : String) : (new name).Orderly :=
  ⟨List.nodup_nil, by simp [new, productions, Rows.row], by simp [new, productions, Rows.row]⟩

/-! ### Names -/

theorem names_intern (g : Grammar) (name : String) :
    (g.intern name).2.names = if name ∈ g.names then g.names else g.names ++ [name] := by
  unfold intern
  cases hid : g.idOf? name with
  | none => rw [if_neg (idOf?_eq_none_iff.mp hid)]
  | some id => rw [if_pos (List.mem_of_getElem? (nameOf?_of_idOf? hid))]

theorem productions_intern (g : Grammar) (name : String) (nt : Nat) :
    (g.intern name).2.productions nt = g.productions nt := by
  unfold intern productions
  cases g.idOf? name <;> rfl

/-- The number that is told for a name is the number of that name. -/
theorem nameOf?_intern (g : Grammar) (name : String) :
    (g.intern name).2.nameOf? (g.intern name).1 = some name := by
  unfold intern
  cases hid : g.idOf? name with
  | none => simp [nameOf?]
  | some id => exact nameOf?_of_idOf? hid

theorem Orderly.nodup_intern (hg : g.Orderly) (name : String) :
    (g.intern name).2.names.Nodup := by
  rw [names_intern]
  split
  · exact hg.names_nodup
  · next hnew =>
    refine List.nodup_append.mpr ⟨hg.names_nodup, List.nodup_singleton name, ?_⟩
    rintro other hother _ hname rfl
    rw [List.mem_singleton.mp hname] at hother
    exact hnew hother

theorem prefix_names_intern (g : Grammar) (name : String) :
    g.names <+: (g.intern name).2.names := by
  rw [names_intern]
  split
  · exact List.prefix_rfl
  · exact List.prefix_append _ _

theorem Orderly.intern (hg : g.Orderly) (name : String) : (g.intern name).2.Orderly where
  names_nodup := hg.nodup_intern name
  lhs_eq := by simpa only [productions_intern] using hg.lhs_eq
  rhs_ne_nil := by simpa only [productions_intern] using hg.rhs_ne_nil

theorem Orderly.addNonTerminal (hg : g.Orderly) (name : String) :
    (g.addNonTerminal name).2.Orderly where
  names_nodup := hg.nodup_intern name
  lhs_eq := by simpa only [productions_addNonTerminal] using hg.lhs_eq
  rhs_ne_nil := by simpa only [productions_addNonTerminal] using hg.rhs_ne_nil

theorem grows_intern (g : Grammar) (name : String) : g.Grows (g.intern name).2 where
  names := prefix_names_intern g name
  productions nt := by rw [productions_intern]

theorem grows_addNonTerminal (g : Grammar) (name : String) : g.Grows (g.addNonTerminal name).2 where
  names := prefix_names_intern g name
  productions nt := by rw [productions_addNonTerminal]

/-! ### Alternatives -/

theorem forall_mem_productions_addProduction {P : Nat → Production → Prop} {lhs : Nat}
    {rhs : List Symbol} (hg : ∀ nt, ∀ p ∈ g.productions nt, P nt p)
    (hnew : P lhs ⟨lhs, if rhs.isEmpty then [.empty] else rhs⟩) :
    ∀ nt, ∀ p ∈ (g.addProduction lhs rhs).2.productions nt, P nt p := by
  intro nt p hp
  rw [productions_addProduction] at hp
  split at hp
  · next heq =>
    subst heq
    rcases List.mem_append.mp hp with hp | hp
    · exact hg lhs p hp
    · rw [List.mem_singleton.mp hp]
      exact hnew
  · exact hg nt p hp

theorem Orderly.addProduction (hg : g.Orderly) (lhs : Nat) (rhs : List Symbol) :
    (g.addProduction lhs rhs).2.Orderly where
  names_nodup := hg.names_nodup
  lhs_eq := forall_mem_productions_addProduction hg.lhs_eq rfl
  rhs_ne_nil := forall_mem_productions_addProduction hg.rhs_ne_nil (by cases rhs <;> simp)

theorem grows_addProduction (g : Grammar) (lhs : Nat) (rhs : List Symbol) :
    g.Grows (g.addProduction lhs rhs).2 where
  names := List.prefix_rfl
  productions nt := by
    rw [productions_addProduction]
    split
    · exact List.prefix_append _ _
    · exact List.prefix_rfl

end Grammar

/-! ## Operations -/

/-- A grammar and a table that are being put together. -/
structure Construction where
  grammar : Grammar
  table : ParsingTable
  deriving DecidableEq, Repr

inductive Operation where
  /-- Register a non-terminal, with a row for its alternatives. -/
  | addNonTerminal (name : String)
  /-- Register a name alone. -/
  | intern (name : String)
  /-- Append an alternative, whether or not `lhs` has a name. -/
  | addProduction (lhs : Nat) (rhs : List Symbol)
  /-- Make an entry of the table, if the grammar has the alternative by now. -/
  | insert (nt : Nat) (lookahead : Symbol) (alternative : Nat)
  deriving DecidableEq, Repr

/-- What an operation answers. -/
inductive Answer where
  /-- The number of the name. -/
  | number (id : Nat)
  /-- The place of the alternative. -/
  | place (alternative : Nat)
  | inserted
  | refused (e : GrammarError)
  deriving DecidableEq, Repr

namespace Construction

def new (name : String) : Construction := ⟨.new name, .empty⟩

def perform (b : Construction) : Operation → Answer × Construction
  | .addNonTerminal name =>
    let (id, grammar) := b.grammar.addNonTerminal name
    (.number id, { b with grammar })
  | .intern name =>
    let (id, grammar) := b.grammar.intern name
    (.number id, { b with grammar })
  | .addProduction lhs rhs =>
    let (alternative, grammar) := b.grammar.addProduction lhs rhs
    (.place alternative, { b with grammar })
  | .insert nt lookahead alternative =>
    match b.table.insert b.grammar nt lookahead alternative with
    | .ok table => (.inserted, { b with table })
    | .error e => (.refused e, b)

/-- After the operations, one after another. -/
def after (b : Construction) (ops : List Operation) : Construction :=
  ops.foldl (fun b op => (b.perform op).2) b

/-- The entry that an operation has made, by what it answered. -/
def entryOf : Operation → Answer → Option (Cell × Nat)
  | .insert nt lookahead alternative, .inserted => some ((nt, lookahead), alternative)
  | _, _ => none

/-- The entries that operations make, in order. -/
def made (b : Construction) : List Operation → List (Cell × Nat)
  | [] => []
  | op :: ops =>
    let (answer, next) := b.perform op
    (entryOf op answer).toList ++ made next ops

theorem after_append (b : Construction) (ops more : List Operation) :
    b.after (ops ++ more) = (b.after ops).after more := List.foldl_append

/-! ### One operation -/

/-- All that an operation can do: what it answers, and what there is then. -/
inductive Effect (b : Construction) : Operation → Answer → Construction → Prop
  | addNonTerminal (name : String) :
      Effect b (.addNonTerminal name) (.number (b.grammar.addNonTerminal name).1)
        { b with grammar := (b.grammar.addNonTerminal name).2 }
  | intern (name : String) :
      Effect b (.intern name) (.number (b.grammar.intern name).1)
        { b with grammar := (b.grammar.intern name).2 }
  | addProduction (lhs : Nat) (rhs : List Symbol) :
      Effect b (.addProduction lhs rhs) (.place (b.grammar.addProduction lhs rhs).1)
        { b with grammar := (b.grammar.addProduction lhs rhs).2 }
  | insert {nt k : Nat} (x : Symbol) (h : (b.grammar.production? nt k).isSome = true) :
      Effect b (.insert nt x k) .inserted
        { b with table := ⟨Keyed.put (nt, x) k b.table.entries⟩ }
  | refuse {nt k : Nat} (x : Symbol) (h : b.grammar.production? nt k = none) :
      Effect b (.insert nt x k)
        (.refused (.foreignProduction (b.grammar.nameOf nt) ("#" ++ toString k))) b

theorem effect_perform (b : Construction) (op : Operation) :
    b.Effect op (b.perform op).1 (b.perform op).2 := by
  cases op with
  | addNonTerminal name => exact .addNonTerminal name
  | intern name => exact .intern name
  | addProduction lhs rhs => exact .addProduction lhs rhs
  | insert nt x k =>
    cases hp : b.grammar.production? nt k with
    | none =>
      have hperform : b.perform (.insert nt x k) =
          (.refused (.foreignProduction (b.grammar.nameOf nt) ("#" ++ toString k)), b) := by
        simp [perform, ParsingTable.insert, hp]
      rw [hperform]
      exact .refuse x hp
    | some p =>
      have hsome : (b.grammar.production? nt k).isSome = true := by rw [hp]; rfl
      have hperform : b.perform (.insert nt x k) =
          (.inserted, { b with table := ⟨Keyed.put (nt, x) k b.table.entries⟩ }) := by
        simp [perform, ParsingTable.insert, hsome]
      rw [hperform]
      exact .insert x hsome

variable {b c : Construction} {op : Operation} {made : List (Cell × Nat)}

/-- What is refused is an insertion, and that for want of the alternative. Nothing is changed. -/
theorem Effect.of_refused {e : GrammarError} (h : b.Effect op (.refused e) c) :
    c = b ∧ ∃ nt x k, op = .insert nt x k ∧ b.grammar.production? nt k = none ∧
      e = .foreignProduction (b.grammar.nameOf nt) ("#" ++ toString k) := by
  cases h with
  | refuse x hp => exact ⟨rfl, _, x, _, rfl, hp, rfl⟩

/-- A number is answered for a name, and is its number then. -/
theorem Effect.nameOf?_of_number {id : Nat} (h : b.Effect op (.number id) c) :
    ∃ s, (op = .addNonTerminal s ∨ op = .intern s) ∧ c.grammar.nameOf? id = some s := by
  cases h with
  | addNonTerminal s => exact ⟨s, .inl rfl, b.grammar.nameOf?_intern s⟩
  | intern s => exact ⟨s, .inr rfl, b.grammar.nameOf?_intern s⟩

/-- A place is answered for an alternative, which stands there then. -/
theorem Effect.production?_of_place {k : Nat} (h : b.Effect op (.place k) c) :
    ∃ lhs rhs, op = .addProduction lhs rhs ∧ c.grammar.production? lhs k =
      some ⟨lhs, if rhs.isEmpty then [.empty] else rhs⟩ := by
  cases h with
  | addProduction lhs rhs => exact ⟨lhs, rhs, rfl, b.grammar.production?_addProduction lhs rhs⟩

/-- An operation adds to the grammar or leaves it. -/
theorem Effect.grows {answer : Answer} (h : b.Effect op answer c) : b.grammar.Grows c.grammar := by
  cases h with
  | addNonTerminal name => exact b.grammar.grows_addNonTerminal name
  | intern name => exact b.grammar.grows_intern name
  | addProduction lhs rhs => exact b.grammar.grows_addProduction lhs rhs
  | insert | refuse => exact .refl _

/-- The grammar is orderly, the table has these entries, written in this order, and the alternative
of each is there. -/
structure Keeps (b : Construction) (made : List (Cell × Nat)) : Prop where
  orderly : b.grammar.Orderly
  entries_eq : b.table.entries = Keyed.ofList made
  isSome : ∀ e ∈ made, (b.grammar.production? e.1.1 e.2).isSome = true

theorem keeps_new (name : String) : (new name).Keeps [] :=
  ⟨Grammar.orderly_new name, rfl, by simp⟩

/-- A grammar may grow under a table. -/
theorem Keeps.grow (hb : b.Keeps made) {g : Grammar} (hg : g.Orderly)
    (hgrows : b.grammar.Grows g) : ({ b with grammar := g } : Construction).Keeps made where
  orderly := hg
  entries_eq := hb.entries_eq
  isSome e he := by
    obtain ⟨p, hp⟩ := Option.isSome_iff_exists.mp (hb.isSome e he)
    exact Option.isSome_iff_exists.mpr ⟨p, hgrows.production? hp⟩

theorem Effect.keeps {answer : Answer} (h : b.Effect op answer c) (hb : b.Keeps made) :
    c.Keeps (made ++ (entryOf op answer).toList) := by
  cases h with
  | addNonTerminal name =>
    simpa [entryOf] using
      hb.grow (hb.orderly.addNonTerminal name) (Grammar.grows_addNonTerminal _ name)
  | intern name =>
    simpa [entryOf] using hb.grow (hb.orderly.intern name) (Grammar.grows_intern _ name)
  | addProduction lhs rhs =>
    simpa [entryOf] using
      hb.grow (hb.orderly.addProduction lhs rhs) (Grammar.grows_addProduction _ lhs rhs)
  | refuse => simpa [entryOf] using hb
  | @insert nt k x hp =>
    rw [entryOf, Option.toList_some]
    refine ⟨hb.orderly, ?_, fun e he => ?_⟩
    · rw [Keyed.ofList_append_singleton, ← hb.entries_eq]
    · rcases List.mem_append.mp he with he | he
      · exact hb.isSome e he
      · rw [List.mem_singleton.mp he]
        exact hp

/-! ### Many operations -/

theorem grows_after (b : Construction) (ops : List Operation) :
    b.grammar.Grows (b.after ops).grammar := by
  induction ops generalizing b with
  | nil => exact .refl _
  | cons op ops ih => exact (b.effect_perform op).grows.trans (ih _)

theorem Keeps.after (hb : b.Keeps made) (ops : List Operation) :
    (b.after ops).Keeps (made ++ b.made ops) := by
  induction ops generalizing b made with
  | nil =>
    rw [Construction.made, List.append_nil]
    exact hb
  | cons op ops ih =>
    rw [Construction.made, ← List.append_assoc]
    exact ih ((b.effect_perform op).keeps hb)

/-- What holds of a grammar and its table if these entries were made, in this order: the latest for
a cell counts. Numbers stay below the number of names. -/
structure Consistent (b : Construction) (made : List (Cell × Nat)) : Prop where
  names_nodup : b.grammar.names.Nodup
  idOf?_eq_some_iff : ∀ s id, b.grammar.idOf? s = some id ↔ b.grammar.nameOf? id = some s
  id_lt : ∀ s id, b.grammar.idOf? s = some id → id < b.grammar.names.length
  productions : ∀ nt, ∀ p ∈ b.grammar.productions nt, p.lhs = nt ∧ p.rhs ≠ []
  lookup_eq : ∀ nt x, b.table.lookup nt x = (made.findRev? fun e => e.1 = (nt, x)).map Prod.snd
  production?_of_lookup : ∀ nt x k, b.table.lookup nt x = some k →
    ∃ p, b.table.production? b.grammar nt x = some p ∧ p.lhs = nt
  size_eq : b.table.size = (made.map Prod.fst).toFinset.card

theorem Keeps.consistent (hb : b.Keeps made) : b.Consistent made where
  names_nodup := hb.orderly.names_nodup
  idOf?_eq_some_iff _ _ :=
    ⟨Grammar.nameOf?_of_idOf?, Grammar.idOf?_of_nameOf? hb.orderly.names_nodup⟩
  id_lt _ _ h := Grammar.lt_of_idOf? h
  productions nt p hp := ⟨hb.orderly.lhs_eq nt p hp, hb.orderly.rhs_ne_nil nt p hp⟩
  lookup_eq nt x := by rw [ParsingTable.lookup, hb.entries_eq, Keyed.get?_ofList]
  production?_of_lookup nt x k hk := by
    have hmem : ((nt, x), k) ∈ made := by
      apply Keyed.mem_of_mem_ofList
      rw [← hb.entries_eq]
      exact Keyed.mem_of_get? hk
    obtain ⟨p, hp⟩ := Option.isSome_iff_exists.mp (hb.isSome _ hmem)
    refine ⟨p, ?_, hb.orderly.lhs_eq nt p (Grammar.mem_productions_of_production? hp)⟩
    simp [ParsingTable.production?, hk, hp]
  size_eq := by
    rw [ParsingTable.size, hb.entries_eq, Keyed.length_ofList]
    rfl

/-- Whatever is done to a new grammar and a new table, in whatever order: names and numbers are
matched one to one, alternatives stand under their non-terminals, and the table has the latest entry
that was made for each cell, whose alternative is there. The number that is told for a name stays
that of the name, an alternative stays at the place that is told, and an insertion that is refused
leaves everything as it was. -/
theorem what_was_built_stays (name : String) (ops : List Operation) :
    ((new name).after ops).Consistent ((new name).made ops) ∧
    (∀ more id s, ((new name).after ops).grammar.nameOf? id = some s →
      ((new name).after (ops ++ more)).grammar.nameOf? id = some s) ∧
    (∀ op id, (((new name).after ops).perform op).1 = .number id →
      ∃ s, (op = .addNonTerminal s ∨ op = .intern s) ∧
        ((new name).after (ops ++ [op])).grammar.nameOf? id = some s) ∧
    (∀ more nt k p, ((new name).after ops).grammar.production? nt k = some p →
      ((new name).after (ops ++ more)).grammar.production? nt k = some p) ∧
    (∀ op k, (((new name).after ops).perform op).1 = .place k →
      ∃ lhs rhs, op = .addProduction lhs rhs ∧
        ((new name).after (ops ++ [op])).grammar.production? lhs k =
          some ⟨lhs, if rhs.isEmpty then [.empty] else rhs⟩) ∧
    ∀ op e, (((new name).after ops).perform op).1 = .refused e →
      (((new name).after ops).perform op).2 = (new name).after ops ∧
      ∃ nt x k, op = .insert nt x k ∧
        ((new name).after ops).grammar.production? nt k = none ∧
        e = .foreignProduction (((new name).after ops).grammar.nameOf nt) ("#" ++ toString k) := by
  have hgrows : ∀ more, ((new name).after ops).grammar.Grows
      ((new name).after (ops ++ more)).grammar := fun more =>
    after_append (new name) ops more ▸ grows_after _ more
  have heffect : ∀ op, ((new name).after ops).Effect op (((new name).after ops).perform op).1
      (((new name).after ops).perform op).2 := fun op => effect_perform _ op
  refine ⟨?_, fun more id s => (hgrows more).nameOf?, fun op id hid => ?_,
    fun more nt k p => (hgrows more).production?, fun op k hk => ?_, fun op e hrefused => ?_⟩
  · have hkeeps := (keeps_new name).after ops
    rw [List.nil_append] at hkeeps
    exact hkeeps.consistent
  · have hop := heffect op
    rw [hid] at hop
    rw [after_append]
    exact hop.nameOf?_of_number
  · have hop := heffect op
    rw [hk] at hop
    rw [after_append]
    exact hop.production?_of_place
  · have hop := heffect op
    rw [hrefused] at hop
    exact hop.of_refused

/-- An alternative without a name for its number, entries for it, one of them too early, and its
name last. -/
def backToFront : List Operation :=
  [.addProduction 1 [.terminal 'x'], .insert 1 (.terminal 'x') 0, .insert 1 (.terminal 'x') 1,
    .addProduction 1 [], .insert 1 .endMark 1, .insert 1 (.terminal 'x') 1, .intern "S",
    .addNonTerminal "T"]

/-- The entry for `x` that was refused once is made later, in the place of the first one. -/
theorem a_name_that_comes_last_finds_its_alternatives :
    (new "g").made backToFront = [((1, .terminal 'x'), 0), ((1, .endMark), 1),
      ((1, .terminal 'x'), 1)] ∧
    ((new "g").after backToFront).table.lookup 1 (.terminal 'x') = some 1 ∧
    ((new "g").after backToFront).table.size = 2 ∧
    (∃ p, ((new "g").after backToFront).table.production? ((new "g").after backToFront).grammar 1
      (.terminal 'x') = some p ∧ p.lhs = 1) ∧
    ∀ more, ((new "g").after (backToFront ++ more)).grammar.nameOf? 1 = some "T" := by
  obtain ⟨hconsistent, hnames, _⟩ := what_was_built_stays "g" backToFront
  have hmade : (new "g").made backToFront = [((1, .terminal 'x'), 0), ((1, .endMark), 1),
      ((1, .terminal 'x'), 1)] := by decide
  have hlookup := hconsistent.lookup_eq 1 (.terminal 'x')
  have hsize := hconsistent.size_eq
  rw [hmade] at hlookup hsize
  exact ⟨hmade, hlookup, hsize, hconsistent.production?_of_lookup _ _ _ hlookup,
    fun more => hnames more 1 "T" (by decide)⟩

end Construction

end TopDown
