import UnrolledList.Config.Basic
import UnrolledList.Toml.Document

/-!
# Settings in TOML

Settings are integers under their names at the top of a document. What else the document
holds is of no interest, but all of it has to be well formed.
-/

namespace UnrolledList

namespace Config

/-- The setting under a key of a document. There is none if the key is missing, and no
answer if what stands there cannot be a setting. -/
def settingOf? (root : Toml.Node) (key : Key) : Option (Option Int) :=
  match root.get? key.name.toList with
  | none => some none
  | some (.integer n) => if Fits n then some (some n) else none
  | some _ => none

/-- **The settings that a TOML document gives**, if the text is one. -/
def ofToml? (text : List Char) : Option Config := do
  let root ← Toml.parse? text
  let blockSize ← settingOf? root .blockSize
  let depth ← settingOf? root .depth
  return ofGiven blockSize depth

end Config

end UnrolledList
