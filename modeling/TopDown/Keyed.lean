-- Lists of pairs read as finite maps: each key stands once, at the place where it was
-- first written, and the last value written for it counts.

namespace TopDown.Keyed

variable {κ ν : Type} [DecidableEq κ]

/-- Write `v` under `k`: in place if `k` is there, else at the end. -/
def put (k : κ) (v : ν) : List (κ × ν) → List (κ × ν)
  | [] => [(k, v)]
  | e :: es => if e.1 = k then (k, v) :: es else e :: put k v es

/-- The value under `k`. -/
def get? (k : κ) : List (κ × ν) → Option ν
  | [] => none
  | e :: es => if e.1 = k then some e.2 else get? k es

/-- Write the pairs of a list one after another. -/
def ofList (es : List (κ × ν)) : List (κ × ν) := es.foldl (fun written e => put e.1 e.2 written) []

/-- The keys in order of first writing. -/
def keys (es : List (κ × ν)) : List κ := es.map (·.1)

/-! ## Laws -/

theorem get?_put (k j : κ) (v : ν) (es : List (κ × ν)) :
    get? j (put k v es) = if k = j then some v else get? j es := by
  induction es with
  | nil => simp [put, get?]
  | cons e es ih =>
    by_cases h : e.1 = k <;> by_cases hj : k = j <;> simp_all [put, get?]

theorem mem_of_get? {k : κ} {v : ν} {es : List (κ × ν)} (h : get? k es = some v) :
    (k, v) ∈ es := by
  induction es with
  | nil => cases h
  | cons e es ih =>
    rw [get?] at h
    split at h
    · next he =>
      cases h
      subst he
      exact List.mem_cons_self
    · exact List.mem_cons_of_mem e (ih h)

theorem get?_of_not_mem_keys {k : κ} {es : List (κ × ν)} (h : k ∉ keys es) : get? k es = none := by
  rw [Option.eq_none_iff_forall_not_mem]
  intro v hv
  exact h (List.mem_map.mpr ⟨(k, v), mem_of_get? hv, rfl⟩)

/-- What is written is added, and may take the place of a pair. -/
theorem mem_of_mem_put {k : κ} {v : ν} {e : κ × ν} {es : List (κ × ν)} (h : e ∈ put k v es) :
    e = (k, v) ∨ e ∈ es := by
  induction es with
  | nil => exact .inl (List.mem_singleton.mp h)
  | cons d es ih =>
    rw [put] at h
    split at h
    · rcases List.mem_cons.mp h with h | h
      · exact .inl h
      · exact .inr (List.mem_cons_of_mem d h)
    · rcases List.mem_cons.mp h with h | h
      · exact .inr (h ▸ List.mem_cons_self)
      · exact (ih h).imp id (List.mem_cons_of_mem d)

theorem mem_keys_put (k j : κ) (v : ν) (es : List (κ × ν)) :
    j ∈ keys (put k v es) ↔ j = k ∨ j ∈ keys es := by
  induction es with
  | nil => simp [put, keys]
  | cons e es ih =>
    by_cases h : e.1 = k
    · subst h; simp [put, keys]
    · simp only [put, h, if_false, keys, List.map_cons, List.mem_cons] at ih ⊢
      rw [ih]
      exact or_left_comm

theorem nodup_keys_put (k : κ) (v : ν) {es : List (κ × ν)} (h : (keys es).Nodup) :
    (keys (put k v es)).Nodup := by
  induction es with
  | nil => simp [put, keys]
  | cons e es ih =>
    have hd := List.nodup_cons.mp h
    by_cases he : e.1 = k
    · simp only [put, he, if_true]
      subst he
      exact h
    · simp only [put, he, if_false]
      refine List.nodup_cons.mpr ⟨fun hm => ?_, ih hd.2⟩
      rcases (mem_keys_put k e.1 v es).mp hm with h1 | h1
      · exact he h1
      · exact hd.1 h1

theorem nodup_keys_ofList (es : List (κ × ν)) : (keys (ofList es)).Nodup := by
  suffices h : ∀ written : List (κ × ν), (keys written).Nodup →
      (keys (es.foldl (fun written e => put e.1 e.2 written) written)).Nodup from h [] (by simp [keys])
  induction es with
  | nil => exact fun _ h => h
  | cons e es ih => exact fun written h => ih _ (nodup_keys_put e.1 e.2 h)

theorem mem_of_mem_ofList {e : κ × ν} {es : List (κ × ν)} (h : e ∈ ofList es) : e ∈ es := by
  suffices hmem : ∀ written : List (κ × ν),
      e ∈ es.foldl (fun written e => put e.1 e.2 written) written → e ∈ written ∨ e ∈ es from
    (hmem [] h).resolve_left (by simp)
  clear h
  induction es with
  | nil => exact fun _ h => .inl h
  | cons d es ih =>
    intro written h
    rcases ih _ h with h | h
    · rcases mem_of_mem_put h with rfl | h
      · exact .inr List.mem_cons_self
      · exact .inl h
    · exact .inr (List.mem_cons_of_mem d h)

/-- What is written under a new key comes last. -/
theorem put_of_not_mem_keys {k : κ} {v : ν} {es : List (κ × ν)} (h : k ∉ keys es) :
    put k v es = es ++ [(k, v)] := by
  induction es with
  | nil => rfl
  | cons e es ih =>
    obtain ⟨hne, hrest⟩ := not_or.mp (mt List.mem_cons.mpr h)
    rw [put, if_neg (Ne.symm hne), ih hrest, List.cons_append]

theorem not_mem_keys_of_nodup {κ ν : Type} {e : κ × ν} {es fs : List (κ × ν)}
    (h : (keys (es ++ e :: fs)).Nodup) : e.1 ∉ keys es := by
  intro hmem
  rw [keys, List.map_append, List.nodup_append] at h
  exact h.2.2 _ hmem _ List.mem_cons_self rfl

/-- Pairs of which no two have one key are written as they are. -/
theorem ofList_of_nodup {es : List (κ × ν)} (h : (keys es).Nodup) : ofList es = es := by
  suffices hwritten : ∀ written : List (κ × ν), (keys (written ++ es)).Nodup →
      es.foldl (fun written e => put e.1 e.2 written) written = written ++ es from hwritten [] h
  clear h
  induction es with
  | nil => exact fun written _ => (List.append_nil written).symm
  | cons e es ih =>
    intro written h
    have hcons : written ++ e :: es = (written ++ [e]) ++ es := by simp
    rw [List.foldl_cons, put_of_not_mem_keys (not_mem_keys_of_nodup h)]
    rw [hcons] at h ⊢
    exact ih (written ++ [e]) h

theorem get?_eq_some_iff {k : κ} {v : ν} {es : List (κ × ν)} (h : (keys es).Nodup) :
    get? k es = some v ↔ (k, v) ∈ es := by
  refine ⟨mem_of_get?, fun hmem => ?_⟩
  induction es with
  | nil => cases hmem
  | cons e es ih =>
    obtain ⟨hnew, hrest⟩ := List.nodup_cons.mp h
    rcases List.mem_cons.mp hmem with rfl | hmem
    · rw [get?, if_pos rfl]
    · have hkey : k ∈ keys es := List.mem_map.mpr ⟨(k, v), hmem, rfl⟩
      have hne : e.1 ≠ k := by
        rintro rfl
        exact hnew hkey
      rw [get?, if_neg hne, ih hrest hmem]

/-- In what order the pairs stand does not count. -/
theorem get?_eq_of_perm {es fs : List (κ × ν)} (hperm : es.Perm fs) (h : (keys es).Nodup) (k : κ) :
    get? k es = get? k fs := by
  have hfs : (keys fs).Nodup := (hperm.map Prod.fst).nodup_iff.mp h
  apply Option.ext
  intro v
  rw [get?_eq_some_iff h, get?_eq_some_iff hfs, hperm.mem_iff]

/-- Keys of which no two are sent to one find the same. -/
theorem get?_map {κ' : Type} [DecidableEq κ'] {f : κ → κ'} (hf : Function.Injective f) (k : κ)
    (es : List (κ × ν)) : get? (f k) (es.map (Prod.map f id)) = get? k es := by
  induction es with
  | nil => rfl
  | cons e es ih => simp only [List.map_cons, get?, Prod.map, hf.eq_iff, ih, id]

end TopDown.Keyed
