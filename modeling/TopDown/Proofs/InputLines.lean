-- The lines of an encoded text. A line feed is one byte, and no other character has that byte in its
-- encoding: to split the bytes and decode the pieces is to split the text.
import Mathlib.Tactic.Common
import TopDown.CommandLine.Lines
import TopDown.Proofs.Words

namespace TopDown.Lines

/-- The bytes of a text. -/
def encodeChars (cs : List Char) : List UInt8 := cs.flatMap String.utf8EncodeChar

/-- The lines of a text, each ended by a line feed or by the end of the text. -/
def ofText (text : String) : List String :=
  let pieces := text.toList.splitOn '\n'
  let ended := if pieces.getLast? = some [] then pieces.dropLast else pieces
  ended.map String.ofList

/-! ## Decoding -/

theorem toByteArray_ofList (cs : List Char) :
    (String.ofList cs).toByteArray = ⟨(encodeChars cs).toArray⟩ := by
  apply ByteArray.ext
  rw [String.toByteArray_ofList, List.utf8Encode, List.data_toByteArray]
  rfl

theorem decode_encodeChars (cs : List Char) :
    decode (encodeChars cs) = some (String.ofList cs) := by
  unfold decode String.fromUTF8?
  rw [← toByteArray_ofList, dif_pos (String.ofList cs).isValidUTF8]
  rfl

/-- What decodes is the encoding of a text. -/
theorem eq_encodeChars_of_decode {bytes : List UInt8} {text : String}
    (h : decode bytes = some text) : bytes = encodeChars text.toList := by
  unfold decode String.fromUTF8? at h
  split at h
  · next hvalid =>
    cases h
    have hbytes := toByteArray_ofList (String.fromUTF8 ⟨bytes.toArray⟩ hvalid).toList
    rw [String.ofList_toList] at hbytes
    have harray : bytes.toArray = (encodeChars _).toArray := congrArg ByteArray.data hbytes
    simpa using harray
  · cases h

/-! ## Splitting -/

theorem mod_eq_of_ofNat_eq {n : Nat} (h : UInt8.ofNat n = 10) : n % 256 = 10 := by
  simpa using congrArg UInt8.toNat h

/-- No character but the line feed has its byte: the others have the one byte of another code below
128, or bytes from 128 on. -/
theorem feed_not_mem {c : Char} (hc : c ≠ '\n') : 10 ∉ String.utf8EncodeChar c := by
  have hcode : c.val.toNat ≠ 10 := by
    intro h
    exact hc (Char.ext (UInt32.toNat_inj.mp h))
  intro hmem
  simp only [String.utf8EncodeChar] at hmem
  generalize c.val.toNat = n at hcode hmem
  split at hmem
  · have := mod_eq_of_ofNat_eq (List.mem_singleton.mp hmem).symm
    omega
  · split at hmem
    · simp only [List.mem_cons, List.not_mem_nil, or_false] at hmem
      rcases hmem with h | h <;> have := mod_eq_of_ofNat_eq h.symm <;> omega
    · split at hmem
      · simp only [List.mem_cons, List.not_mem_nil, or_false] at hmem
        rcases hmem with h | h | h <;> have := mod_eq_of_ofNat_eq h.symm <;> omega
      · simp only [List.mem_cons, List.not_mem_nil, or_false] at hmem
        rcases hmem with h | h | h | h <;> have := mod_eq_of_ofNat_eq h.symm <;> omega

theorem feed_not_mem_encodeChars {cs : List Char} (h : '\n' ∉ cs) : 10 ∉ encodeChars cs := by
  intro hmem
  obtain ⟨c, hc, hbyte⟩ := List.mem_flatMap.mp hmem
  exact feed_not_mem (fun heq => h (heq ▸ hc)) hbyte

theorem encodeChars_intercalate (pieces : List (List Char)) :
    encodeChars (['\n'].intercalate pieces) = [10].intercalate (pieces.map encodeChars) := by
  induction pieces with
  | nil => rfl
  | cons first rest ih =>
    by_cases hrest : rest = []
    · subst hrest
      simp
    · rw [List.intercalate_cons_of_ne_nil hrest, List.map_cons,
        List.intercalate_cons_of_ne_nil (by simpa using hrest), ← ih]
      unfold encodeChars
      rw [List.flatMap_append, List.flatMap_append]
      rfl

/-- The pieces of the bytes are the bytes of the pieces. -/
theorem splitOn_encodeChars (cs : List Char) :
    (encodeChars cs).splitOn 10 = (cs.splitOn '\n').map encodeChars := by
  have hwhole : ['\n'].intercalate (cs.splitOn '\n') = cs := List.intercalate_splitOn '\n'
  have hpieces : ∀ piece ∈ (cs.splitOn '\n').map encodeChars, 10 ∉ piece := by
    intro piece hpiece
    obtain ⟨chars, hchars, rfl⟩ := List.mem_map.mp hpiece
    apply feed_not_mem_encodeChars
    intro hfeed
    simpa using Text.eq_false_of_mem_splitOnP hchars '\n' hfeed
  rw [← List.splitOn_intercalate 10 hpieces (by simp), ← encodeChars_intercalate, hwhole]

theorem encodeChars_eq_nil {cs : List Char} : encodeChars cs = [] ↔ cs = [] := by
  cases cs with
  | nil => simp [encodeChars]
  | cons c cs => simp [encodeChars]

/-- The lines of encoded text are the lines of the text. -/
theorem ofBytes_of_decode {bytes : List UInt8} {text : String} (h : decode bytes = some text) :
    ofBytes bytes = (ofText text).map some := by
  rw [eq_encodeChars_of_decode h]
  have hdecode : ∀ pieces : List (List Char),
      (pieces.map encodeChars).map decode = (pieces.map String.ofList).map some := by
    intro pieces
    rw [List.map_map, List.map_map]
    exact List.map_congr_left fun piece _ => decode_encodeChars piece
  have hlast : ((text.toList.splitOn '\n').map encodeChars).getLast? = some [] ↔
      (text.toList.splitOn '\n').getLast? = some [] := by
    simp [List.getLast?_map, encodeChars_eq_nil]
  simp only [ofBytes, ofText]
  rw [splitOn_encodeChars]
  by_cases hempty : (text.toList.splitOn '\n').getLast? = some []
  · rw [if_pos hempty, if_pos (hlast.mpr hempty), ← List.map_dropLast, hdecode]
  · rw [if_neg hempty, if_neg (hlast.not.mpr hempty), hdecode]

end TopDown.Lines
