-- What comes out of a reader, whatever stands in the text. The state of a reader is the text ahead,
-- and laws about what is read do not speak of it. A document that was read has no key twice in any
-- of its maps and objects, since of two members with one key the later value takes the place of the
-- earlier.
import TopDown.Document.Read

namespace TopDown

namespace Json.Reader

variable {α β σ : Type} {P : α → Prop} {Q : β → Prop}

/-- Whatever the reader gives is as `P` says, wherever it starts. -/
def Gives (r : Reader α) (P : α → Prop) : Prop := ∀ s a s', r s = .ok (a, s') → P a

theorem gives_pure {a : α} (h : P a) : Gives (pure a) P := by
  intro s b s' hb
  cases hb
  exact h

theorem gives_fail (f : Fault) : Gives (fail f) P := by
  intro s a s' ha
  cases ha

theorem Gives.bind {r : Reader α} {f : α → Reader β} (h : Gives r P)
    (hf : ∀ a, P a → Gives (f a) Q) : Gives (r >>= f) Q := by
  intro s b s' hb
  cases hr : r s with
  | error e => simp [Bind.bind, StateT.bind, Except.bind, hr] at hb
  | ok x =>
    simp only [Bind.bind, StateT.bind, Except.bind, hr] at hb
    exact hf x.1 (h s x.1 x.2 hr) x.2 b s' hb

/-- Where it does not matter what was read before. -/
theorem gives_bind {r : Reader α} {f : α → Reader β} (hf : ∀ a, Gives (f a) Q) :
    Gives (r >>= f) Q :=
  Gives.bind (fun _ _ _ _ => trivial) fun a (_ : True) => hf a

theorem gives_mismatch (what : Mismatch) : Gives (mismatch what) P :=
  gives_bind fun _ => gives_fail _

theorem gives_wrongKind (wanted : Wanted) : Gives (wrongKind wanted) P :=
  gives_bind fun _ => gives_mismatch _

/-- What every round keeps holds of what the last one starts from. -/
theorem gives_rounds {I : σ → Prop} {round : σ → Reader (σ ⊕ β)}
    (hround : ∀ s, I s → Gives (round s) (Sum.elim I Q)) {fuel : Nat} {s : σ} (hs : I s) :
    Gives (rounds round fuel s) Q := by
  induction fuel generalizing s with
  | zero => exact gives_fail _
  | succ fuel ih =>
    refine (hround s hs).bind ?_
    intro next hnext
    cases next with
    | inl s => exact ih hnext
    | inr b => exact gives_pure hnext

theorem gives_loop {I : σ → Prop} {round : σ → Reader (σ ⊕ β)}
    (hround : ∀ s, I s → Gives (round s) (Sum.elim I Q)) {s : σ} (hs : I s) :
    Gives (loop round s) Q :=
  gives_bind fun _ => gives_rounds hround hs

/-! ## Maps -/

theorem gives_members {value : Reader α} (h : Gives value P) :
    Gives (members value) fun ms => (Keyed.keys ms).Nodup ∧ ∀ m ∈ ms, P m.2 := by
  refine gives_loop (I := fun back => ∀ m ∈ back, P m.2) ?_ (by simp)
  intro back hback
  refine gives_bind fun key => ?_
  cases key with
  | some key =>
    refine gives_bind fun _ => h.bind fun v hv => gives_pure ?_
    intro m hm
    rcases List.mem_cons.mp hm with rfl | hm
    · exact hv
    · exact hback m hm
  | none =>
    refine gives_bind fun _ => gives_pure ⟨Keyed.nodup_keys_ofList _, fun m hm => ?_⟩
    exact hback m (List.mem_reverse.mp (Keyed.mem_of_mem_ofList hm))

/-- No key stands twice in an object that is read. -/
theorem gives_value (levels : Nat) :
    Gives (value levels) fun v => ∀ ms ∈ v.members?, (Keyed.keys ms).Nodup := by
  have hother : ∀ v : Value, v.members? = none → ∀ ms ∈ v.members?, (Keyed.keys ms).Nodup := by
    intro v hv ms hms
    rw [hv] at hms
    cases hms
  unfold value
  refine gives_bind fun ahead => ?_
  split
  · exact gives_fail _
  · exact gives_bind fun _ => gives_pure (hother _ rfl)
  · exact gives_bind fun _ => gives_pure (hother _ rfl)
  · exact gives_bind fun _ => gives_pure (hother _ rfl)
  · exact gives_bind fun _ => gives_bind fun _ => gives_pure (hother _ rfl)
  · cases levels with
    | zero => exact gives_fail _
    | succ levels => exact gives_bind fun _ => gives_bind fun _ => gives_pure (hother _ rfl)
  · cases levels with
    | zero => exact gives_fail _
    | succ levels =>
      have hmembers : Gives (members (value levels)) fun ms => (Keyed.keys ms).Nodup ∧
          ∀ m ∈ ms, True := gives_members fun _ _ _ _ => trivial
      refine gives_bind fun _ => hmembers.bind fun ms hms => gives_pure ?_
      rintro _ ⟨⟩
      exact hms.1
  · split
    · exact gives_bind fun _ => gives_pure (hother _ rfl)
    · exact gives_fail _

end Json.Reader

/-- No key stands twice in the map, nor in any object under one of its keys. -/
def Json.Neat (ms : List (String × Json.Value)) : Prop :=
  (Keyed.keys ms).Nodup ∧ ∀ m ∈ ms, ∀ inner ∈ m.2.members?, (Keyed.keys inner).Nodup

theorem Json.Reader.gives_map (levels : Nat) : Gives (map levels) Json.Neat := by
  unfold map
  refine gives_bind fun ahead => ?_
  split
  · exact gives_fail _
  · exact gives_bind fun _ => gives_members (gives_value levels)
  · exact gives_wrongKind _

/-! ## Documents -/

namespace Document

open Json (Neat)
open Json.Reader

/-- No map of the document has a key twice. -/
structure Distinct (d : Document) : Prop where
  rules : (Keyed.keys d.rules).Nodup
  first : (Keyed.keys d.first).Nodup
  follow : (Keyed.keys d.follow).Nodup
  table : (Keyed.keys d.table).Nodup

/-- No map of the document and no object in one has a key twice. -/
structure Tidy (d : Document) : Prop where
  rules : Neat d.rules
  first : Neat d.first
  follow : Neat d.follow
  table : Neat d.table

theorem Tidy.distinct {d : Document} (h : d.Tidy) : d.Distinct :=
  ⟨h.rules.1, h.first.1, h.follow.1, h.table.1⟩

/-- What was read so far has no key twice. -/
structure Draft.Tidy (d : Draft) : Prop where
  rules : ∀ m ∈ d.rules, Neat m
  first : ∀ m ∈ d.first, Neat m
  follow : ∀ m ∈ d.follow, Neat m
  table : ∀ m ∈ d.table, Neat m

namespace Draft

theorem tidy_empty : ({} : Draft).Tidy := by
  constructor <;> simp

theorem Tidy.read {d : Draft} (h : d.Tidy) (f : Field) : Gives (d.read f) Draft.Tidy := by
  have hput : ∀ {m : List (String × Json.Value)}, Neat m → ∀ n ∈ some m, Neat n := by
    rintro m hm n ⟨⟩
    exact hm
  cases f with
  | name | start | closing =>
    exact gives_bind fun _ => gives_pure ⟨h.rules, h.first, h.follow, h.table⟩
  | rules =>
    exact (gives_map _).bind fun m hm => gives_pure ⟨hput hm, h.first, h.follow, h.table⟩
  | first =>
    exact (gives_map _).bind fun m hm => gives_pure ⟨h.rules, hput hm, h.follow, h.table⟩
  | follow =>
    exact (gives_map _).bind fun m hm => gives_pure ⟨h.rules, h.first, hput hm, h.table⟩
  | table =>
    exact (gives_map _).bind fun m hm => gives_pure ⟨h.rules, h.first, h.follow, hput hm⟩

theorem Tidy.finish {d : Draft} {doc : Document} (h : d.Tidy)
    (hdoc : d.finish? = some doc) : doc.Tidy := by
  have hmap : ∀ {m : Option (List (String × Json.Value))}, (∀ n ∈ m, Neat n) →
      Neat (m.getD []) := by
    intro m hm
    cases m with
    | none => exact ⟨List.nodup_nil, by simp⟩
    | some n => exact hm n rfl
  unfold finish? at hdoc
  simp only [Option.bind_eq_bind, Option.pure_def, Option.bind_eq_some_iff] at hdoc
  obtain ⟨name, _, start, _, rules, hrules, table, htable, heq⟩ := hdoc
  cases heq
  exact ⟨h.rules rules hrules, hmap h.first, hmap h.follow, h.table table htable⟩

end Draft

theorem gives_refuse {α : Type} {P : α → Prop} (what : Json.Mismatch) :
    Gives (refuse what) P := by
  unfold refuse
  refine gives_bind fun ahead => ?_
  split
  · exact gives_bind fun _ => gives_mismatch _
  · exact gives_mismatch _

theorem gives_ofObject : Gives ofObject Tidy := by
  refine gives_loop (I := fun s => s.2.Tidy) ?_ Draft.tidy_empty
  rintro ⟨isFirst, draft⟩ h
  refine gives_bind fun key => ?_
  cases key with
  | none =>
    simp only
    split
    · next d hd => exact gives_bind fun _ => gives_pure (h.finish hd)
    · exact gives_refuse _
  | some key =>
    simp only
    split
    · exact gives_bind fun _ => gives_bind fun _ => gives_pure h
    · next f _ =>
      split
      · exact gives_bind fun _ => gives_bind fun _ => (h.read f).bind fun d hd => gives_pure hd
      · exact gives_bind fun _ => (h.read f).bind fun d hd => gives_pure hd

theorem gives_ofElements {i : Nat} {draft : Draft} (h : draft.Tidy) (fs : List Field) :
    Gives (ofElements i draft fs) Tidy := by
  induction fs generalizing i draft with
  | nil =>
    unfold ofElements
    refine gives_bind fun ahead => ?_
    split
    · exact gives_fail _
    · next d hd => exact gives_bind fun _ => gives_pure (h.finish hd)
    · exact gives_fail _
  | cons f fs ih =>
    unfold ofElements
    refine gives_bind fun more => ?_
    split
    · exact (h.read f).bind fun d hd => ih hd
    · split
      · exact gives_bind fun _ => gives_mismatch _
      · exact ih h

theorem gives_read : Gives read Tidy := by
  unfold read
  refine gives_bind fun ahead => ?_
  extract_lets atEnd
  have hend : ∀ d : Document, d.Tidy → Gives (atEnd d) Tidy := by
    intro d hd
    refine gives_bind fun ahead => ?_
    split
    · exact gives_pure hd
    · exact gives_fail _
  split
  · exact (gives_fail _).bind hend
  · exact gives_bind fun _ => gives_ofObject.bind hend
  · exact gives_bind fun _ => (gives_ofElements Draft.tidy_empty _).bind hend
  · exact (gives_wrongKind _).bind hend

/-- A document that was read has each key once in each of its maps and objects. -/
theorem tidy_of_ofText {s : String} {d : Document} (h : ofText s = .ok d) : d.Tidy := by
  unfold ofText at h
  cases hr : read.run (Json.Cursor.start s.toList) with
  | error e =>
    rw [hr] at h
    cases h
  | ok x =>
    rw [hr] at h
    cases h
    exact gives_read _ x.1 x.2 hr

theorem distinct_of_ofText {s : String} {d : Document} (h : ofText s = .ok d) : d.Distinct :=
  (tidy_of_ofText h).distinct

end Document

end TopDown
