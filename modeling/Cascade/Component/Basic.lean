import Cascade.Text.Bytes

/-! The components of a rule: values, selectors, and the conditions of feature queries. Where one holds another, any
may stand, so that a tree can say what no well-formed stylesheet does. -/
namespace Cascade

mutual

/-- A value with the operator before it, zero for white space. That of the first term means nothing. -/
structure Term where
  op : UInt8
  value : Component

/-- A member of a declaration block. The value of a filter is kept as written. -/
inductive Declaration where
  | property (name : Bytes) (value : List Term) (important slashNine : Bool)
  | filter (name value : Bytes)

inductive Component where
  | number (value : Float)
  | dimension (value : Float) (unit : Bytes)
  | quoted (value : Bytes)
  | url (location : Bytes)
  | ident (name : Bytes)
  | hexColor (text : Bytes)
  /-- A function call; without arguments it has none at all. -/
  | call (name : Bytes) (args : Option (List Term))
  | sum (left : Component) (op : UInt8) (right : Component)
  | product (left : Component) (op : UInt8) (right : Component)
  | expression (terms : List Term)
  | declaration (d : Declaration)
  | list (selectors : List Component)
  | compound (conditions : List Component)
  | complex (kind : UInt8) (left right : Component)
  | id (name : Bytes)
  | className (name : Bytes)
  | element (name ns : Bytes) (hasNs : Bool)
  /-- An attribute selector; without a value it tests for presence. -/
  | attr (name comparison : Bytes) (value : Option Component) (flag : Bytes)
  | pseudoElement (name : Bytes)
  | pseudoClass (name : Bytes)
  | pseudoCall (name : Bytes) (args : List Term)
  | negation (selector : Component)
  | selectorCall (name : Bytes) (selector : Component)
  | nth (name : Bytes) (formula : Component)
  | linear (step offset : Float)
  | multiple (step : Float)
  | conditions (combinator : Bytes) (members : List Component)
  | condition (inner : Component) (negated : Bool)

end

namespace Declaration

def rawName : Declaration → Bytes
  | property name .. => name
  | filter name _ => name

def isImportant : Declaration → Bool
  | property _ _ important _ => important
  | filter .. => false

def isCustomName (name : Bytes) : Bool := (ascii "--").isPrefixOf name

end Declaration

namespace Component

def isSum : Component → Bool
  | sum .. => true
  | _ => false

def isProduct : Component → Bool
  | product .. => true
  | _ => false

def isQuoted : Component → Bool
  | quoted _ => true
  | _ => false

def selectors : Component → List Component
  | list ss => ss
  | s => [s]

def isList : Component → Bool
  | list _ => true
  | _ => false

def ofSelectors : List Component → Component
  | [s] => s
  | ss => list ss

def subject : Component → Component
  | complex _ _ right => right.subject
  | s => s

end Component

end Cascade
