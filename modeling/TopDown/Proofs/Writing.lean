-- What is written as JSON is read as what it was. A written text is one of many that hold the same
-- value; a reader takes it as far as it goes, with blanks in front of it, and leaves what comes after.
-- So texts and readers are put together in the same way, and the law of a container follows from that
-- of what it holds.
import Mathlib
import TopDown.Json.Write
import TopDown.Proofs.Reading

namespace TopDown

namespace Json

namespace Reader

variable {α β γ σ : Type} {s t u : List Char} {a : α} {b : β}

/-- With `s` ahead the reader gives `a` and leaves `t` ahead, wherever in a text that is. -/
def Runs (r : Reader α) (s : List Char) (a : α) (t : List Char) : Prop :=
  ∀ place, ∃ place', r ⟨s, place⟩ = .ok (a, ⟨t, place'⟩)

theorem runs_pure (a : α) (s : List Char) : Runs (pure a) s a s := fun place => ⟨place, rfl⟩

theorem Runs.bind {r : Reader α} {f : α → Reader β} (h : Runs r s a t) (hf : Runs (f a) t b u) :
    Runs (r >>= f) s b u := by
  intro place
  obtain ⟨place', h⟩ := h place
  obtain ⟨place'', hf⟩ := hf place'
  refine ⟨place'', ?_⟩
  simp only [Bind.bind, StateT.bind, Except.bind, h, hf]

theorem runs_get {f : Cursor → Reader β} (h : ∀ place, Runs (f ⟨s, place⟩) s b t) :
    Runs (get >>= f) s b t := fun place => h place place

/-! ## Characters -/

theorem runs_peek (s : List Char) : Runs peek s s.head? s := fun place => ⟨place, rfl⟩

theorem runs_take (c : Char) (s : List Char) : Runs take (c :: s) (some c) s :=
  fun place => ⟨place.past c, rfl⟩

theorem runs_skip (c : Char) (s : List Char) : Runs skip (c :: s) () s :=
  (runs_take c s).bind (runs_pure () s)

theorem runs_expect (c : Char) (wrong : Fault) (s : List Char) :
    Runs (expect c wrong) (c :: s) () s := by
  refine (runs_take c s).bind ?_
  simp only [if_true]
  exact runs_pure () s

theorem runs_word (letters : String) (s : List Char) :
    Runs (word letters) (letters.toList ++ s) () s := by
  unfold word
  induction letters.toList with
  | nil => exact runs_pure () s
  | cons c cs ih => exact (runs_expect c .malformed (cs ++ s)).bind ih

theorem runs_takeWhile (p : Char → Bool) (s : List Char) :
    Runs (takeWhile p) s (s.takeWhile p) (s.dropWhile p) := fun _ => ⟨_, rfl⟩

/-- The first character that is no blank stays unread. -/
theorem runs_peekSolid {blanks : List Char} (hblanks : ∀ c ∈ blanks, isSpace c = true) {c : Char}
    (hc : isSpace c = false) (s : List Char) :
    Runs peekSolid (blanks ++ c :: s) (some c) (c :: s) := by
  have hdrop : (blanks ++ c :: s).dropWhile isSpace = c :: s := by
    rw [List.dropWhile_append_of_pos hblanks, List.dropWhile_cons, hc]
    rfl
  unfold peekSolid
  refine (runs_takeWhile isSpace _).bind ?_
  rw [hdrop]
  exact runs_peek (c :: s)

theorem runs_peekSolid_self {c : Char} (hc : isSpace c = false) (s : List Char) :
    Runs peekSolid (c :: s) (some c) (c :: s) := by
  have hnone : ∀ b ∈ ([] : List Char), isSpace b = true := by simp
  exact runs_peekSolid hnone hc s

/-! ## Repetition -/

section Loops

variable {round : σ → Reader (σ ⊕ β)}

/-- A loop that takes one item a round: what is ahead depends on the items before and after. -/
theorem runs_rounds {state : List γ → σ} {ahead : List γ → List γ → List Char} {items : List γ}
    (hround : ∀ before x after, before ++ x :: after = items →
      Runs (round (state before)) (ahead before (x :: after)) (.inl (state (before ++ [x])))
        (ahead (before ++ [x]) after))
    (hlast : Runs (round (state items)) (ahead items []) (.inr b) u) {before after : List γ}
    (hitems : before ++ after = items) {fuel : Nat} (hfuel : after.length < fuel) :
    Runs (rounds round fuel (state before)) (ahead before after) b u := by
  induction after generalizing before fuel with
  | nil =>
    rw [List.append_nil] at hitems
    obtain ⟨fuel, rfl⟩ := Nat.exists_eq_succ_of_ne_zero (Nat.ne_of_gt hfuel)
    rw [hitems]
    exact hlast.bind (runs_pure b u)
  | cons x after ih =>
    obtain ⟨fuel, rfl⟩ := Nat.exists_eq_succ_of_ne_zero (Nat.ne_zero_of_lt hfuel)
    refine (hround before x after hitems).bind ?_
    exact ih (by simpa using hitems) (by simpa using hfuel)

theorem runs_loop (state : List γ → σ) (ahead : List γ → List γ → List Char) (items : List γ)
    (hround : ∀ before x after, before ++ x :: after = items →
      Runs (round (state before)) (ahead before (x :: after)) (.inl (state (before ++ [x])))
        (ahead (before ++ [x]) after))
    (hlast : Runs (round (state items)) (ahead items []) (.inr b) u)
    (hlen : items.length ≤ (ahead [] items).length) :
    Runs (loop round (state [])) (ahead [] items) b u := by
  refine runs_get fun _ => ?_
  exact runs_rounds hround hlast rfl (Nat.lt_succ_of_le hlen)

end Loops

end Reader

/-! ## Strings -/

namespace Quote

open Reader

/-- A control character without a letter is written by its number. -/
theorem escape_ofNat : ∀ n < 0x20, Char.ofNat n ∉ ['\x08', '\x0c', '\n', '\r', '\t'] →
    (escape (Char.ofNat n)).toList =
      ['\\', 'u', '0', '0', Nat.digitChar (n / 16), Nat.digitChar (n % 16)] ∧
    hexNumber? ['0', '0', Nat.digitChar (n / 16), Nat.digitChar (n % 16)] = some n := by
  decide

/-- A character is written as it is, by a letter, or by its number. -/
theorem escape_cases (c : Char) :
    ((escape c).toList = [c] ∧ c ≠ '"' ∧ c ≠ '\\' ∧ ¬ c.toNat < 0x20) ∨
    (∃ l, (escape c).toList = ['\\', l] ∧ l ≠ 'u' ∧ lettered? l = some c) ∨
    ∃ h l, (escape c).toList = ['\\', 'u', '0', '0', h, l] ∧
      hexNumber? ['0', '0', h, l] = some c.toNat ∧ c.toNat < 0x20 := by
  by_cases hletter : c ∈ ['"', '\\', '\x08', '\x0c', '\n', '\r', '\t']
  · right; left
    simp only [List.mem_cons, List.not_mem_nil, or_false] at hletter
    rcases hletter with rfl | rfl | rfl | rfl | rfl | rfl | rfl
    · exact ⟨'"', rfl, by decide, rfl⟩
    · exact ⟨'\\', rfl, by decide, rfl⟩
    · exact ⟨'b', rfl, by decide, rfl⟩
    · exact ⟨'f', rfl, by decide, rfl⟩
    · exact ⟨'n', rfl, by decide, rfl⟩
    · exact ⟨'r', rfl, by decide, rfl⟩
    · exact ⟨'t', rfl, by decide, rfl⟩
  · have hnot := hletter
    simp only [List.mem_cons, List.not_mem_nil, or_false, not_or] at hnot
    obtain ⟨hquote, hslash, hrest⟩ := hnot
    by_cases hcontrol : c.toNat < 0x20
    · right; right
      have hc := escape_ofNat c.toNat hcontrol
      rw [Char.ofNat_toNat] at hc
      obtain ⟨htext, hnumber⟩ := hc (by simpa using hrest)
      exact ⟨_, _, htext, hnumber, hcontrol⟩
    · left
      refine ⟨?_, hquote, hslash, hcontrol⟩
      have hlow : ¬ c.toNat < 0x10 := fun h => hcontrol (h.trans (by decide))
      simp only [escape, hquote, hslash, hrest, hlow, hcontrol, if_false]
      exact String.toList_singleton c

theorem runs_readUnit {a b c d : Char} {n : Nat} (h : hexNumber? [a, b, c, d] = some n)
    (s : List Char) : Runs readUnit (a :: b :: c :: d :: s) n s := by
  refine runs_get fun place => ?_
  simp only [h]
  exact (runs_skip a _).bind ((runs_skip b _).bind ((runs_skip c _).bind
    ((runs_skip d s).bind (runs_pure n s))))

/-- Where a number below a surrogate is written, it is read as its character. -/
theorem runs_readNumbered {h l : Char} {n : Nat} (hn : hexNumber? ['0', '0', h, l] = some n)
    (hlow : n < 0x20) (s : List Char) :
    Runs readNumbered ('0' :: '0' :: h :: l :: s) (Char.ofNat n) s := by
  have htrailing : isTrailing n = false := by
    unfold isTrailing
    simp
    omega
  have hleading : isLeading n = false := by
    unfold isLeading
    simp
    omega
  refine (runs_readUnit hn s).bind ?_
  simp only [htrailing, hleading]
  exact runs_pure (Char.ofNat n) s

/-- The characters of a string as they are written. -/
def escaped (cs : List Char) : List Char := cs.flatMap fun c => (escape c).toList

theorem length_le_length_escaped (cs : List Char) : cs.length ≤ (escaped cs).length := by
  induction cs with
  | nil => exact Nat.le_refl 0
  | cons c cs ih =>
    have hpos : 0 < (escape c).toList.length := by
      rcases escape_cases c with ⟨h, _⟩ | ⟨l, h, _⟩ | ⟨h, l, heq, _⟩ <;> simp [*]
    rw [escaped, List.flatMap_cons, List.length_append, List.length_cons]
    exact Nat.add_comm 1 _ ▸ Nat.add_le_add hpos ih

/-- A string that is written is read up to its closing quote. -/
theorem runs_body (cs s : List Char) :
    Runs (body readNumbered) (escaped cs ++ '"' :: s) cs s := by
  unfold body
  refine runs_loop List.reverse (fun _ after => escaped after ++ '"' :: s) cs ?_ ?_ ?_
  · intro before c after _
    rw [escaped, List.flatMap_cons, List.append_assoc, List.reverse_append]
    rcases escape_cases c with ⟨htext, hquote, hslash, hcontrol⟩ | ⟨l, htext, hu, hl⟩ |
      ⟨h, l, htext, hnumber, hlow⟩
    · rw [htext]
      refine (runs_take c _).bind ?_
      simp only [hcontrol, if_false]
      exact runs_pure _ _
    · rw [htext]
      refine (runs_take '\\' _).bind ((runs_take l _).bind ?_)
      simp only [hl]
      exact runs_pure _ _
    · rw [htext]
      refine (runs_take '\\' _).bind ((runs_take 'u' _).bind ?_)
      refine (runs_readNumbered hnumber hlow _).bind ?_
      rw [Char.ofNat_toNat]
      exact runs_pure _ _
  · refine (runs_take '"' s).bind ?_
    have hcs : cs.reverse.reverse = cs := List.reverse_reverse cs
    simp only [hcs]
    exact runs_pure _ _
  · have hlen := length_le_length_escaped cs
    rw [List.length_append]
    omega

theorem toList_quote (s : String) :
    (quote s).toList = '"' :: (escaped s.toList ++ ['"']) := by
  have hmap : ((s.toList.map escape).flatMap String.toList) = escaped s.toList := by
    rw [escaped, List.flatMap_map]
  unfold quote
  rw [String.toList_append, String.toList_append, String.toList_join, hmap]
  rfl

theorem runs_read (text : String) (s : List Char) :
    Runs Quote.read (escaped text.toList ++ '"' :: s) text s := by
  refine (runs_body text.toList s).bind ?_
  rw [String.ofList_toList]
  exact runs_pure text s

end Quote

/-! ## Containers -/

def indent (n : Nat) : List Char := List.replicate (2 * n) ' '

/-- What stands in a container behind its opening bracket, or behind one of its parts. -/
def inside (depth : Nat) (close : List Char) (first : Bool) : List (List Char) → List Char
  | [] => (if first then [] else '\n' :: indent depth) ++ close
  | p :: ps => (if first then [] else [',']) ++
      ('\n' :: indent (depth + 1) ++ (p ++ inside depth close false ps))

/-- Each part takes at least a line feed. -/
theorem length_le_length_inside {α : Type} (text : α → List Char) (items : List α) (depth : Nat)
    (close : List Char) (first : Bool) (s : List Char) :
    items.length ≤ (inside depth close first (items.map text) ++ s).length := by
  induction items generalizing first with
  | nil => exact Nat.zero_le _
  | cons x items ih =>
    have hrest := ih false
    simp only [List.map_cons, inside, List.length_append, List.length_cons] at hrest ⊢
    omega

/-- Lines with a comma at the end of all but the last. -/
theorem toList_lines (depth : Nat) (close : List Char) (p : String) (ps : List String) :
    (",\n".intercalate ((p :: ps).map
        fun p => String.ofList (List.replicate (2 * (depth + 1)) ' ') ++ p)).toList ++
      '\n' :: (indent depth ++ close) =
    indent (depth + 1) ++ (p.toList ++ inside depth close false (ps.map String.toList)) := by
  induction ps generalizing p with
  | nil => simp [inside, indent]
  | cons q ps ih =>
    rw [List.map_cons, List.map_cons, String.intercalate_cons_cons, ← List.map_cons]
    simp only [String.toList_append, List.append_assoc, ih]
    simp [inside, indent]

theorem toList_enclose (opening closing : String) (depth : Nat) (parts : List String) :
    (enclose opening closing depth parts).toList =
      opening.toList ++ inside depth closing.toList true (parts.map String.toList) := by
  rcases parts with _ | ⟨p, ps⟩
  · simp [enclose, inside]
  · have hlines := toList_lines depth closing.toList p ps
    have hbreak : ("\n" : String).toList = ['\n'] := rfl
    have hindent : (String.ofList (List.replicate (2 * depth) ' ')).toList = indent depth :=
      String.toList_ofList
    unfold enclose
    simp only [List.isEmpty_cons, Bool.false_eq_true, if_false, String.toList_append, hbreak,
      hindent, List.append_assoc, List.map_cons, inside, if_true,
      List.nil_append, List.cons_append, ← hlines]

namespace Reader

variable {α : Type}

/-- The reader takes the text, with any blanks in front of it, and gives `a`. -/
def Takes (r : Reader α) (text : List Char) (a : α) : Prop :=
  ∀ blanks, (∀ c ∈ blanks, isSpace c = true) → ∀ s, Runs r (blanks ++ (text ++ s)) a s

/-- The text begins as a value does: with no blank, bracket or comma. -/
def Begins (text : List Char) : Prop :=
  ∃ c cs, text = c :: cs ∧ isSpace c = false ∧ c ≠ ']' ∧ c ≠ ','

theorem isSpace_of_mem_indent {n : Nat} : ∀ c ∈ '\n' :: indent n, isSpace c = true := by
  intro c hc
  rcases List.mem_cons.mp hc with rfl | hc
  · rfl
  · rw [List.eq_of_mem_replicate hc]
    rfl

theorem Takes.runs {r : Reader α} {text : List Char} {a : α} (h : Takes r text a)
    (s : List Char) : Runs r (text ++ s) a s := h [] (by simp) s

/-- What is behind the last part of a container is blank up to its closing bracket. -/
theorem runs_peekSolid_close (depth : Nat) {c : Char} (hc : isSpace c = false) (first : Bool)
    (s : List Char) :
    Runs peekSolid (inside depth [c] first [] ++ s) (some c) (c :: s) := by
  have htext : inside depth [c] first [] ++ s =
      (if first then [] else '\n' :: indent depth) ++ c :: s := by
    simp [inside]
  rw [htext]
  refine runs_peekSolid ?_ hc s
  cases first with
  | true => simp
  | false => exact isSpace_of_mem_indent

/-- In an array the next element comes after the comma and the blanks. -/
theorem runs_nextElement {p : List Char} (hp : Begins p) (depth : Nat) (first : Bool)
    (ps : List (List Char)) (s : List Char) :
    Runs (nextElement first) (inside depth [']'] first (p :: ps) ++ s) true
      (p ++ (inside depth [']'] false ps ++ s)) := by
  obtain ⟨c, cs, rfl, hsolid, hclose, hcomma⟩ := hp
  have hblanks := isSpace_of_mem_indent (n := depth + 1)
  have hpeek := runs_peekSolid hblanks hsolid (cs ++ (inside depth [']'] false ps ++ s))
  have htext : inside depth [']'] first ((c :: cs) :: ps) ++ s = (if first then [] else [',']) ++
      ('\n' :: indent (depth + 1) ++ c :: (cs ++ (inside depth [']'] false ps ++ s))) := by
    simp [inside]
  rw [htext]
  unfold nextElement
  cases first with
  | true =>
    refine hpeek.bind ?_
    simp only [if_true]
    exact runs_pure true _
  | false =>
    refine (runs_peekSolid_self (c := ',') rfl _).bind ?_
    simp only [Bool.false_eq_true, if_false]
    refine (runs_skip ',' _).bind (hpeek.bind ?_)
    simp only
    exact runs_pure true _

theorem runs_nextElement_close (depth : Nat) (first : Bool) (s : List Char) :
    Runs (nextElement first) (inside depth [']'] first [] ++ s) false (']' :: s) := by
  refine (runs_peekSolid_close depth (c := ']') rfl first s).bind ?_
  exact runs_pure false _

/-- The elements of an array are read one after another. -/
theorem runs_elements {element : Reader α} {items : List α} {text : α → List Char}
    (h : ∀ x ∈ items, Begins (text x) ∧ Takes element (text x) x) (depth : Nat) (s : List Char) :
    Runs (elements element) (inside depth [']'] true (items.map text) ++ s) items s := by
  unfold elements
  refine runs_loop List.reverse
    (fun before after => inside depth [']'] before.isEmpty (after.map text) ++ s) items ?_ ?_ ?_
  · rintro before x after rfl
    obtain ⟨hbegins, htakes⟩ := h x (by simp)
    rw [List.isEmpty_reverse, List.reverse_append, List.map_cons]
    refine (runs_nextElement hbegins depth _ _ s).bind ?_
    simp only [if_true]
    refine (htakes.runs _).bind ?_
    have hmore : (before ++ [x]).isEmpty = false := by simp
    rw [hmore]
    exact runs_pure _ _
  · rw [List.isEmpty_reverse, List.reverse_reverse, List.map_nil]
    refine (runs_nextElement_close depth _ s).bind ?_
    exact (runs_skip ']' s).bind (runs_pure _ _)
  · exact length_le_length_inside text items depth [']'] true s

/-- A member of an object as it is written, where its value is this text. -/
def memberText (key : String) (text : List Char) : List Char :=
  (quote key).toList ++ ':' :: ' ' :: text

/-- In an object the next key comes after the comma and the blanks. -/
theorem runs_nextKey (key : String) (text : List Char) (depth : Nat) (first : Bool)
    (ps : List (List Char)) (s : List Char) :
    Runs (nextKey first) (inside depth ['\x7d'] first (memberText key text :: ps) ++ s)
      (some key) (':' :: ([' '] ++ (text ++ (inside depth ['\x7d'] false ps ++ s)))) := by
  generalize hahead : ':' :: ([' '] ++ (text ++ (inside depth ['\x7d'] false ps ++ s))) = ahead
  have hpeek := runs_peekSolid (isSpace_of_mem_indent (n := depth + 1)) (c := '"') rfl
    (Quote.escaped key.toList ++ '"' :: ahead)
  have hkey : Runs (do skip; return some (← Quote.read))
      ('"' :: (Quote.escaped key.toList ++ '"' :: ahead)) (some key) ahead :=
    (runs_skip '"' _).bind ((Quote.runs_read key ahead).bind (runs_pure _ _))
  have htext : inside depth ['\x7d'] first (memberText key text :: ps) ++ s =
      (if first then [] else [',']) ++ ('\n' :: indent (depth + 1) ++
        '"' :: (Quote.escaped key.toList ++ '"' :: ahead)) := by
    simp [inside, memberText, Quote.toList_quote, ← hahead]
  rw [htext]
  unfold nextKey
  cases first with
  | true =>
    refine hpeek.bind ?_
    simp only [Bool.not_true, Bool.false_eq_true, if_false]
    exact (runs_peekSolid_self (c := '"') rfl _).bind hkey
  | false =>
    refine (runs_peekSolid_self (c := ',') rfl _).bind ?_
    simp only [Bool.not_false, if_true]
    refine (runs_skip ',' _).bind ?_
    exact hpeek.bind hkey

theorem runs_nextKey_close (depth : Nat) (first : Bool) (s : List Char) :
    Runs (nextKey first) (inside depth ['\x7d'] first [] ++ s) none ('\x7d' :: s) := by
  refine (runs_peekSolid_close depth (c := '\x7d') rfl first s).bind ?_
  exact runs_pure none _

theorem runs_colon (s : List Char) : Runs colon (':' :: s) () s :=
  (runs_peekSolid_self (c := ':') rfl s).bind (runs_skip ':' s)

/-- The members of an object are read one after another, where no key stands twice. -/
theorem runs_members {value : Reader α} {items : List (String × α)} (text : α → List Char)
    (hkeys : (Keyed.keys items).Nodup) (h : ∀ m ∈ items, Takes value (text m.2) m.2) (depth : Nat)
    (s : List Char) :
    Runs (members value)
      (inside depth ['\x7d'] true (items.map fun m => memberText m.1 (text m.2)) ++ s) items s := by
  unfold members
  refine runs_loop List.reverse (fun (before after : List (String × α)) =>
    inside depth ['\x7d'] before.isEmpty (after.map fun m => memberText m.1 (text m.2)) ++ s)
    items ?_ ?_ ?_
  · rintro before ⟨key, x⟩ after rfl
    have htakes := h (key, x) (by simp)
    have hspace : ∀ c ∈ [' '], isSpace c = true := List.forall_mem_singleton.mpr rfl
    rw [List.isEmpty_reverse, List.reverse_append, List.map_cons]
    refine (runs_nextKey key (text x) depth _ _ s).bind ?_
    refine (runs_colon _).bind ((htakes [' '] hspace _).bind ?_)
    have hmore : (before ++ [(key, x)]).isEmpty = false := by simp
    rw [hmore]
    exact runs_pure _ _
  · rw [List.isEmpty_reverse, List.reverse_reverse, List.map_nil]
    refine (runs_nextKey_close depth _ s).bind ?_
    refine (runs_skip '\x7d' s).bind ?_
    rw [Keyed.ofList_of_nodup hkeys]
    exact runs_pure _ _
  · have hlen := length_le_length_inside (fun m : String × α => memberText m.1 (text m.2)) items
      depth ['\x7d'] true s
    exact hlen

end Reader

/-! ## Values -/

namespace Value

open Reader

theorem writeItems_eq_map (depth : Nat) (vs : List Value) :
    writeItems depth vs = vs.map (write depth) := by
  induction vs with
  | nil => rw [writeItems, List.map_nil]
  | cons v vs ih => rw [writeItems, List.map_cons, ih]

theorem writeMembers_eq_map (depth : Nat) (ms : List (String × Value)) :
    writeMembers depth ms = ms.map fun m => quote m.1 ++ ": " ++ write depth m.2 := by
  induction ms with
  | nil => rw [writeMembers, List.map_nil]
  | cons m ms ih => rw [writeMembers, List.map_cons, ih]

theorem toList_write_array (depth : Nat) (vs : List Value) :
    ((array vs).write depth).toList =
      '[' :: inside depth [']'] true (vs.map fun v => (v.write (depth + 1)).toList) := by
  rw [write, toList_enclose, writeItems_eq_map, List.map_map]
  rfl

theorem toList_write_object (depth : Nat) (ms : List (String × Value)) :
    ((object ms).write depth).toList = '\x7b' :: inside depth ['\x7d'] true
      (ms.map fun m => memberText m.1 (m.2.write (depth + 1)).toList) := by
  have hmember : ∀ m : String × Value, (quote m.1 ++ ": " ++ write (depth + 1) m.2).toList =
      memberText m.1 (m.2.write (depth + 1)).toList := by
    intro m
    simp [memberText, String.toList_append]
  rw [write, toList_enclose, writeMembers_eq_map, List.map_map]
  exact congrArg (fun parts => '\x7b' :: inside depth ['\x7d'] true parts)
    (List.map_congr_left fun m _ => hmember m)

/-- The value is read from any text in which it is written, where `levels` containers may open. -/
structure Readable (levels : Nat) (v : Value) : Prop where
  begins : ∀ depth, Begins (v.write depth).toList
  takes : ∀ depth, Takes (value levels) (v.write depth).toList v

theorem readable_string (levels : Nat) (text : String) : Readable levels (string text) := by
  have hwrite : ∀ depth, ((string text).write depth).toList = (quote text).toList := by
    intro depth
    rw [write]
  refine ⟨fun depth => ?_, fun depth blanks hblanks s => ?_⟩
  · rw [hwrite, Quote.toList_quote]
    exact ⟨'"', _, rfl, rfl, by decide, by decide⟩
  · rw [hwrite, Quote.toList_quote, List.cons_append, List.append_assoc]
    unfold value
    refine (runs_peekSolid hblanks (c := '"') rfl _).bind ?_
    exact (runs_skip '"' _).bind ((Quote.runs_read text s).bind (runs_pure _ _))

theorem readable_array {levels : Nat} {vs : List Value} (h : ∀ v ∈ vs, v.Readable levels) :
    (array vs).Readable (levels + 1) := by
  refine ⟨fun depth => ?_, fun depth blanks hblanks s => ?_⟩
  · rw [toList_write_array]
    exact ⟨'[', _, rfl, rfl, by decide, by decide⟩
  · rw [toList_write_array, List.cons_append, value]
    refine (runs_peekSolid hblanks (c := '[') rfl _).bind ((runs_skip '[' _).bind ?_)
    have helements := runs_elements (fun v hv => ⟨(h v hv).begins (depth + 1),
      (h v hv).takes (depth + 1)⟩) depth s
    exact helements.bind (runs_pure _ _)

theorem runs_members_of_readable {levels : Nat} {ms : List (String × Value)} (hkeys : (Keyed.keys ms).Nodup)
    (h : ∀ m ∈ ms, m.2.Readable levels) (depth : Nat) (s : List Char) :
    Runs (members (value levels)) (inside depth ['\x7d'] true
      (ms.map fun m => memberText m.1 (m.2.write (depth + 1)).toList) ++ s) ms s :=
  runs_members (fun v => (v.write (depth + 1)).toList) hkeys
    (fun m hm => (h m hm).takes (depth + 1)) depth s

theorem readable_object {levels : Nat} {ms : List (String × Value)} (hkeys : (Keyed.keys ms).Nodup)
    (h : ∀ m ∈ ms, m.2.Readable levels) : (object ms).Readable (levels + 1) := by
  refine ⟨fun depth => ?_, fun depth blanks hblanks s => ?_⟩
  · rw [toList_write_object]
    exact ⟨'\x7b', _, rfl, rfl, by decide, by decide⟩
  · rw [toList_write_object, List.cons_append, value]
    refine (runs_peekSolid hblanks (c := '\x7b') rfl _).bind ((runs_skip '\x7b' _).bind ?_)
    exact (runs_members_of_readable hkeys h depth s).bind (runs_pure _ _)

/-! ## Values of a wanted kind -/

theorem takes_text (text : String) (depth : Nat) :
    Takes Reader.text ((string text).write depth).toList text := by
  intro blanks hblanks s
  rw [write, Quote.toList_quote, List.cons_append, List.append_assoc]
  refine (runs_peekSolid hblanks (c := '"') rfl _).bind ?_
  exact (runs_skip '"' _).bind (Quote.runs_read text s)

theorem takes_textOrNull (text : Option String) (depth : Nat) :
    Takes textOrNull ((text.elim null string).write depth).toList text := by
  intro blanks hblanks s
  cases text with
  | none =>
    rw [Option.elim_none, write]
    refine (runs_peekSolid hblanks (c := 'n') rfl _).bind ?_
    exact (runs_word "null" s).bind (runs_pure _ _)
  | some text =>
    have htext := (takes_text text depth).runs s
    rw [write, Quote.toList_quote, List.cons_append, List.append_assoc] at htext
    rw [Option.elim_some, write, Quote.toList_quote, List.cons_append, List.append_assoc]
    refine (runs_peekSolid hblanks (c := '"') rfl _).bind ?_
    exact htext.bind (runs_pure _ _)

theorem takes_map {levels : Nat} {ms : List (String × Value)} (hkeys : (Keyed.keys ms).Nodup)
    (h : ∀ m ∈ ms, m.2.Readable levels) (depth : Nat) :
    Takes (map levels) ((object ms).write depth).toList ms := by
  intro blanks hblanks s
  rw [toList_write_object, List.cons_append]
  refine (runs_peekSolid hblanks (c := '\x7b') rfl _).bind ((runs_skip '\x7b' _).bind ?_)
  exact runs_members_of_readable hkeys h depth s

end Value

end Json

end TopDown
