import Cascade.Component.Basic

/-! What selectors say about the boxes they can match. -/
namespace Cascade

/-- The parts of a compound selector that exclude each other. -/
structure Compound where
  element : Bytes := []
  id : Bytes := []
  pseudoElement : Bytes := []
  deriving DecidableEq, Repr

def singleColonElements : List Bytes :=
  [ascii "before",ascii "after",ascii "first-line",ascii "first-letter"]

def Compound.add (c : Compound) : Component → Compound
  | .element name _ _ => if name = [42] then c else { c with element := name }
  | .id name => { c with id := name }
  | .pseudoElement name => { c with pseudoElement := name }
  | .pseudoClass name => if singleColonElements.contains name then { c with pseudoElement := name } else c
  | _ => c

def Compound.of : Component → Compound
  | .compound conditions => conditions.foldl Compound.add {}
  | condition => Compound.add {} condition

def differ (a b : Bytes) : Bool := !a.isEmpty && !b.isEmpty && a != b

def Compound.isDisjoint (a b : Compound) : Bool :=
  differ a.element b.element || differ a.id b.id || a.pseudoElement != b.pseudoElement

def areDisjoint (ss ts : List Component) : Bool :=
  ss.all fun s => ts.all fun t => (Compound.of s.subject).isDisjoint (Compound.of t.subject)

mutual

/-- Whether a selector uses a vendor's pseudo. A browser that does not know it drops the whole list. -/
def Component.hasVendorPseudo : Component → Bool
  | .list ss => Component.anyVendorPseudo ss
  | .compound cs => Component.anyVendorPseudo cs
  | .complex _ left right => left.hasVendorPseudo || right.hasVendorPseudo
  | .negation selector => selector.hasVendorPseudo
  | .selectorCall name selector => name.head? == some 45 || selector.hasVendorPseudo
  | .pseudoClass name => name.head? == some 45
  | .pseudoElement name => name.head? == some 45
  | .pseudoCall name _ => name.head? == some 45
  | _ => false

def Component.anyVendorPseudo : List Component → Bool
  | [] => false
  | c :: cs => c.hasVendorPseudo || Component.anyVendorPseudo cs

end

theorem anyVendorPseudoAny (cs : List Component) :
    Component.anyVendorPseudo cs = cs.any Component.hasVendorPseudo := by
  induction cs with
  | nil => rfl
  | cons c cs ih => simp [Component.anyVendorPseudo,ih]

end Cascade
