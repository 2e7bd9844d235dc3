import Cascade.Optimizer.Color
import Cascade.Optimizer.Unit

/-! Shorter values that depend on the property they belong to. -/
namespace Cascade

def boxProperties : List Bytes :=
  [ascii "border-color",ascii "-webkit-border-radius",ascii "-moz-border-radius",
    ascii "border-radius",ascii "border-style",ascii "border-width",ascii "margin",
    ascii "padding"]

def noneProperties : List Bytes :=
  [ascii "border",ascii "border-top",ascii "border-right",ascii "border-bottom",
    ascii "border-left",ascii "outline",ascii "background"]

def colorlessProperties : List Bytes :=
  [ascii "font",ascii "font-family",ascii "animation",ascii "animation-name",
    ascii "transition",ascii "transition-property",ascii "will-change",
    ascii "counter-reset",ascii "counter-increment",ascii "grid-area",
    ascii "grid-template-areas",ascii "list-style-type",ascii "-webkit-animation",
    ascii "-moz-animation",ascii "-o-animation",ascii "-webkit-transition",
    ascii "-moz-transition",ascii "-o-transition",ascii "-webkit-animation-name"]

def boxLength : List Bytes → Nat
  | [a,b,c,d] =>
    if b == a && c == a && d == a then 1 else if a == c && b == d then 2 else if b == d then 3 else 4
  | [a,b,c] => if b == a && c == a then 1 else if a == c then 2 else 3
  | [a,b] => if b == a then 1 else 2
  | keys => keys.length

def collapseBox (terms : List Term) : List Term :=
  terms.take (boxLength (terms.map fun t => t.value.text))

theorem collapseBoxPrefix (terms : List Term) : collapseBox terms <+: terms :=
  List.take_prefix _ _

def isSpaced (terms : List Term) : Bool := terms.tail.all fun t => t.op == 0

def weightOf (word : Bytes) : Option Float :=
  if word = ascii "normal" then some 400.0 else if word = ascii "bold" then some 700.0 else none

def optimizeWeight (terms : List Term) : List Term :=
  match terms with
  | [⟨op,.ident name⟩] =>
    match weightOf (lower name) with
    | some weight => [⟨op,.number weight⟩]
    | none => terms
  | _ => terms

inductive WeightSearch where
  | settled
  | found (place : Nat) (weight : Float)
  | absent

/-- The weight in a font shorthand. A lone `normal` is it if there is no other; it may also be the style. -/
def findWeight : Nat → Option Nat → List Term → WeightSearch
  | _,none,[] => .absent
  | _,some place,[] => .found place 400.0
  | i,normal,⟨op,value⟩ :: terms =>
    if op == 47 then findWeight (i + 1) normal terms
    else if op == 44 then findWeight i normal []
    else match value with
      | .number _ => .settled
      | .ident name =>
        let word := lower name
        if word = ascii "bold" then .found i 700.0
        else if word = ascii "bolder" || word = ascii "lighter" then .settled
        else if word = ascii "normal" then
          if normal.isSome then .settled else findWeight (i + 1) (some i) terms
        else findWeight (i + 1) normal terms
      | _ => findWeight (i + 1) normal terms

def optimizeFont (terms : List Term) : List Term :=
  match findWeight 0 none terms with
  | .found place weight => terms.modify place fun t => ⟨t.op,.number weight⟩
  | _ => terms

def optimizeNone (terms : List Term) : List Term :=
  match terms with
  | [⟨op,.ident name⟩] => if sameLetters name (ascii "none") then [⟨op,.number 0.0⟩] else terms
  | _ => terms

def shortenName (t : Term) : Term :=
  match t.value with
  | .ident name =>
    match shorterHex? (lower name) with
    | some hex => ⟨t.op,.hexColor hex⟩
    | none => t
  | _ => t

def refineTerms (property : Bytes) (terms : List Term) : List Term :=
  if property.isEmpty || terms.isEmpty then terms
  else
    let terms :=
      if boxProperties.contains property && 1 < terms.length && terms.length ≤ 4 && isSpaced terms
      then collapseBox terms
      else if property = ascii "font-weight" then optimizeWeight terms
      else if property = ascii "font" then optimizeFont terms
      else terms
    let terms := if noneProperties.contains property then optimizeNone terms else terms
    if colorlessProperties.contains property then terms else terms.map shortenName

end Cascade
