import Cascade.Component.Basic
import Cascade.Text.LetterCase

/-! Values that every browser with the property understands. One that may be ignored leaves a fallback before it. -/
namespace Cascade

def plainFunctions : List Bytes :=
  [ascii "url",ascii "rgb",ascii "rgba",ascii "hsl",ascii "hsla"]

mutual

def Component.isPlain : Component → Bool
  | .expression terms => Term.arePlain terms
  | .call name none => plainFunctions.contains (lower name)
  | .call name (some args) => plainFunctions.contains (lower name) && Term.arePlain args
  | .ident name => name.head? != some 45 && !holds (ascii "var(") (lower name)
  | _ => true

def Term.arePlain : List Term → Bool
  | [] => true
  | ⟨_,value⟩ :: ts => value.isPlain && Term.arePlain ts

end

def Declaration.overridesFallbacks : Declaration → Bool
  | .property _ value _ slashNine => !slashNine && Term.arePlain value
  | .filter .. => false

end Cascade
