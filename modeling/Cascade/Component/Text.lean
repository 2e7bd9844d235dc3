import Cascade.Component.Basic
import Cascade.Component.Quoted
import Cascade.Decimal.Printed

/-! Components in their minimal spelling. -/
namespace Cascade

def joinTerms : List (UInt8 × Bytes) → Bytes
  | [] => []
  | (_,first) :: rest => first ++ rest.flatMap fun t => (if t.1 == 0 then 32 else t.1) :: t.2

def parenthesized (s : Bytes) : Bytes := 40 :: s ++ [41]

def stepText (step : Float) : Bytes :=
  if step == 0.0 then [48]
  else if step == 1.0 then ascii "n"
  else if step == -1.0 then ascii "-n"
  else compactNumber step ++ ascii "n"

def linearText (pad : Bytes) (step offset : Float) : Bytes :=
  stepText step ++ pad ++ (if offset < 0.0 then [45] else [43]) ++ pad ++
    compactNumber (magnitude offset)

def declarationEnd (pad : Bytes) (important slashNine : Bool) : Bytes :=
  (if important then pad ++ ascii "!important" else []) ++
    (if slashNine then pad ++ ascii "\\9" else [])

def attrText (name comparison flag : Bytes) : Option (Bool × Bytes) → Bytes
  | none => 91 :: name ++ [93]
  | some (isQuoted,value) =>
    91 :: name ++ comparison ++ value ++
      (if flag.isEmpty then [] else (if isQuoted then [] else [32]) ++ flag) ++ [93]

def needsParens (combinator : Bytes) : Component → Bool
  | .declaration (.property ..) => true
  | .conditions inner _ => inner ≠ combinator
  | .condition _ negated => negated
  | _ => false

def joinConditions (combinator : Bytes) (members : List Bytes) : Bytes :=
  (32 :: combinator ++ [32]).intercalate members

mutual

def Component.text : Component → Bytes
  | .number value => compactNumber value
  | .dimension value unit => compactNumber value ++ unit
  | .quoted value => quoteText value
  | .url location => urlText location
  | .ident name => name
  | .hexColor text => text
  | .call name none => name ++ ascii "()"
  | .call name (some args) => name ++ parenthesized (joinTerms (Term.texts args))
  | .sum left op right =>
    left.text ++ [32,op,32] ++ (if right.isSum then parenthesized right.text else right.text)
  | .product left op right =>
    (if left.isSum then parenthesized left.text else left.text) ++ [op] ++
      (if right.isSum || right.isProduct then parenthesized right.text else right.text)
  | .expression terms => joinTerms (Term.texts terms)
  | .declaration d => d.text
  | .list selectors => [44].intercalate (Component.texts selectors)
  | .compound conditions => (Component.texts conditions).flatten
  | .complex kind left right => left.text ++ [kind] ++ right.text
  | .id name => 35 :: name
  | .className name => 46 :: name
  | .element name ns hasNs => if hasNs then ns ++ 124 :: name else name
  | .attr name comparison none flag => attrText name comparison flag none
  | .attr name comparison (some value) flag =>
    attrText name comparison flag (some (value.isQuoted,value.text))
  | .pseudoElement name => 58 :: 58 :: name
  | .pseudoClass name => 58 :: name
  | .pseudoCall name args => 58 :: name ++ parenthesized (joinTerms (Term.texts args))
  | .negation selector => ascii ":not" ++ parenthesized selector.text
  | .selectorCall name selector => 58 :: name ++ parenthesized selector.text
  | .nth name formula => 58 :: name ++ parenthesized formula.text
  | .linear step offset => linearText [] step offset
  | .multiple step => stepText step
  | .conditions combinator members => joinConditions combinator (Component.memberTexts combinator members)
  | .condition inner negated =>
    (if negated then ascii "not " else []) ++ parenthesized inner.text

def Component.texts : List Component → List Bytes
  | [] => []
  | c :: cs => c.text :: Component.texts cs

def Component.memberTexts (combinator : Bytes) : List Component → List Bytes
  | [] => []
  | c :: cs =>
    (if needsParens combinator c then parenthesized c.text else c.text) ::
      Component.memberTexts combinator cs

def Term.texts : List Term → List (UInt8 × Bytes)
  | [] => []
  | ⟨op,value⟩ :: ts => (op,value.text) :: Term.texts ts

def Declaration.text : Declaration → Bytes
  | .property name value important slashNine =>
    name ++ 58 :: joinTerms (Term.texts value) ++ declarationEnd [] important slashNine
  | .filter name value => name ++ 58 :: value

end

def Term.textOf (terms : List Term) : Bytes := joinTerms (Term.texts terms)

theorem textsMap (cs : List Component) : Component.texts cs = cs.map Component.text := by
  induction cs with
  | nil => rfl
  | cons c cs ih => simp [Component.texts,ih]

theorem termTextsMap (ts : List Term) :
    Term.texts ts = ts.map fun t => (t.op,t.value.text) := by
  induction ts with
  | nil => rfl
  | cons t ts ih => cases t; simp [Term.texts,ih]

end Cascade
