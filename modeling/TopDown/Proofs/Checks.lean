-- Computations that only check. Such a computation has a list of checks and a result: the first check
-- that does not hold gives the error, and where all hold it gives the result. Computations that are
-- put together from such ones run through the checks of their parts in order.
import TopDown.Proofs.Loading

namespace TopDown

/-- What has to hold, and the error that is reported where it does not. -/
structure Check where
  holds : Bool
  error : GrammarError

namespace Check

variable {α β γ : Type}

/-- The error of the first check that does not hold. -/
def firstError? (cs : List Check) : Option GrammarError :=
  (cs.find? fun c => !c.holds).map error

/-- `a` if all checks hold, otherwise the first error. -/
def judge (cs : List Check) (a : α) : Except GrammarError α :=
  match firstError? cs with
  | none => .ok a
  | some e => .error e

/-- All checks hold. -/
def All (cs : List Check) : Prop := ∀ c ∈ cs, c.holds = true

/-! ## One check after another -/

@[simp] theorem all_nil : All [] := by simp [All]

@[simp] theorem all_cons {c : Check} {cs : List Check} :
    All (c :: cs) ↔ c.holds = true ∧ All cs := by simp [All]

@[simp] theorem all_append {cs ds : List Check} : All (cs ++ ds) ↔ All cs ∧ All ds := by
  simp [All, or_imp, forall_and]

@[simp] theorem all_flatMap {xs : List β} {cs : β → List Check} :
    All (xs.flatMap cs) ↔ ∀ x ∈ xs, All (cs x) := by
  simp only [All, List.mem_flatMap]
  exact ⟨fun h x hx c hc => h c ⟨x, hx, hc⟩, fun h c ⟨x, hx, hc⟩ => h x hx c hc⟩

@[simp] theorem all_map {xs : List β} {c : β → Check} :
    All (xs.map c) ↔ ∀ x ∈ xs, (c x).holds = true := by simp [All]

theorem firstError?_eq_none_iff {cs : List Check} : firstError? cs = none ↔ All cs := by
  simp [firstError?, All]

theorem judge_cons_of_holds {c : Check} {cs : List Check} (h : c.holds = true) (a : α) :
    judge (c :: cs) a = judge cs a := by
  simp [judge, firstError?, h]

theorem judge_cons_of_fails {c : Check} {cs : List Check} (h : c.holds = false) (a : α) :
    judge (c :: cs) a = .error c.error := by
  simp [judge, firstError?, h]

theorem judge_of_all {cs : List Check} (h : All cs) (a : α) : judge cs a = .ok a := by
  rw [judge, firstError?_eq_none_iff.mpr h]

theorem judge_eq_error_iff {cs : List Check} {a : α} {e : GrammarError} :
    judge cs a = .error e ↔ firstError? cs = some e := by
  unfold judge
  cases firstError? cs <;> simp

theorem judge_eq_ok_iff {cs : List Check} {a b : α} :
    judge cs a = .ok b ↔ All cs ∧ a = b := by
  rw [← firstError?_eq_none_iff]
  unfold judge
  cases firstError? cs <;> simp

/-- The result counts only where all checks hold. -/
theorem judge_congr {cs : List Check} {a b : α} (h : All cs → a = b) :
    judge cs a = judge cs b := by
  by_cases hall : All cs
  · rw [h hall]
  · unfold judge
    cases hfirst : firstError? cs with
    | none => exact absurd (firstError?_eq_none_iff.mp hfirst) hall
    | some e => rfl

/-- What follows is looked at only where all checks hold. -/
theorem judge_bind {cs ds : List Check} {a : α} {b : β} {f : α → Except GrammarError β}
    (h : All cs → f a = judge ds b) : judge cs a >>= f = judge (cs ++ ds) b := by
  induction cs with
  | nil => exact h all_nil
  | cons c cs ih =>
    rw [List.cons_append]
    cases hc : c.holds with
    | true =>
      rw [judge_cons_of_holds hc, judge_cons_of_holds hc]
      exact ih fun hall => h (all_cons.mpr ⟨hc, hall⟩)
    | false =>
      rw [judge_cons_of_fails hc, judge_cons_of_fails hc]
      rfl

/-- What follows is no check. -/
theorem judge_bind_ok {cs : List Check} {a : α} {b : β} {f : α → Except GrammarError β}
    (h : All cs → f a = .ok b) : judge cs a >>= f = judge cs b := by
  have hbind : judge cs a >>= f = judge (cs ++ []) b := judge_bind h
  rwa [List.append_nil] at hbind

/-! ## Lists and options -/

theorem mapM_eq_judge {f : β → Except GrammarError γ} {cs : β → List Check} {k : β → γ}
    {xs : List β} (h : ∀ x ∈ xs, f x = judge (cs x) (k x)) :
    xs.mapM f = judge (xs.flatMap cs) (xs.map k) := by
  induction xs with
  | nil => rfl
  | cons x xs ih =>
    rw [List.mapM_cons, h x List.mem_cons_self, List.flatMap_cons, List.map_cons]
    apply judge_bind
    intro _
    rw [ih fun y hy => h y (List.mem_cons_of_mem x hy)]
    exact judge_bind_ok fun _ => rfl

/-- The checks of a turn must not depend on what the fold has come to; `P` is what its turns keep. -/
theorem foldlM_eq_judge {P : α → Prop} {f : α → β → Except GrammarError α}
    {cs : β → List Check} {k : α → β → α} {xs : List β}
    (h : ∀ x ∈ xs, ∀ a, P a → f a x = judge (cs x) (k a x) ∧ (All (cs x) → P (k a x))) {a : α}
    (ha : P a) : xs.foldlM f a = judge (xs.flatMap cs) (xs.foldl k a) := by
  induction xs generalizing a with
  | nil => rfl
  | cons x xs ih =>
    obtain ⟨hf, hk⟩ := h x List.mem_cons_self a ha
    rw [List.foldlM_cons, hf, List.flatMap_cons, List.foldl_cons]
    apply judge_bind
    intro hall
    exact ih (fun y hy => h y (List.mem_cons_of_mem x hy)) (hk hall)

theorem optionMapM_eq_judge {f : β → Except GrammarError γ} {cs : β → List Check} {k : β → γ}
    (h : ∀ x, f x = judge (cs x) (k x)) (o : Option β) :
    o.mapM f = judge (o.toList.flatMap cs) (o.map k) := by
  cases o with
  | none => rfl
  | some x =>
    have hcs : (some x).toList.flatMap cs = cs x := by simp
    rw [Option.mapM_some, h x, hcs]
    exact judge_bind_ok fun _ => rfl

end Check

end TopDown
