-- Loading a configuration from text or from a file.
import TopDown.Configuration.Basic
import TopDown.Document.Read

namespace TopDown.Configuration

def ofText (s : String) : Except GrammarError Configuration := do
  (← (Document.ofText s).mapError .json).configuration

/-- What a file holds, or why it cannot be read. -/
abbrev FileContent := Except FileFault ByteArray

/-- Load from a file, which must hold UTF-8. -/
def ofFile (content : FileContent) : Except GrammarError Configuration := do
  let bytes ← content.mapError .unreadable
  match String.fromUTF8? bytes with
  | some s => ofText s
  | none => throw (.unreadable .notText)

/-- Every text can be in a file. -/
theorem ofFile_toUTF8 (s : String) : ofFile (.ok s.toUTF8) = ofText s := by
  have hread : String.fromUTF8? s.toUTF8 = some s := by
    unfold String.fromUTF8?
    exact dif_pos s.isValidUTF8
  have hbytes : (.ok s.toUTF8 : FileContent).mapError GrammarError.unreadable = .ok s.toUTF8 := rfl
  unfold ofFile
  rw [hbytes]
  simp only [bind, Except.bind, hread]

end TopDown.Configuration
