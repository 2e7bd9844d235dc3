import Cascade.Component.Text

/-! Components in their readable spelling: exact numbers and blanks after commas. -/
namespace Cascade

def indentWidth : Nat := 2

def indentation (depth : Nat) : Bytes := spaces (indentWidth * depth)

def joinTermsPretty : List (UInt8 × Bytes) → Bytes
  | [] => []
  | (_,first) :: rest =>
    first ++ rest.flatMap fun t =>
      (if t.1 == 0 then [32] else if t.1 == 44 then [44,32] else [t.1]) ++ t.2

def listSeparator (depth : Nat) (text : Bytes) : Bytes :=
  if text.length < 80 then [44,32] else 44 :: 10 :: indentation depth

mutual

def Component.pretty (depth : Nat) : Component → Bytes
  | .number value => exactNumber value
  | .dimension value unit => exactNumber value ++ unit
  | .call name none => name ++ ascii "()"
  | .call name (some args) => name ++ parenthesized (joinTermsPretty (Term.pretties depth args))
  | .product left op right =>
    (if left.isSum then parenthesized left.text else left.text) ++ [32,op,32] ++
      (if right.isSum || right.isProduct then parenthesized right.text else right.text)
  | .expression terms => joinTermsPretty (Term.pretties depth terms)
  | .declaration d => d.pretty depth
  | .list selectors =>
    (listSeparator depth ([44].intercalate (Component.texts selectors))).intercalate
      (Component.pretties 0 selectors)
  | .compound conditions => (Component.pretties 0 conditions).flatten
  | .complex kind left right =>
    left.pretty depth ++ (if kind == 32 then [32] else [32,kind,32]) ++ right.pretty depth
  | .pseudoCall name args =>
    58 :: name ++ parenthesized (joinTermsPretty (Term.pretties depth args))
  | .negation selector => ascii ":not" ++ parenthesized (selector.pretty depth)
  | .selectorCall name selector => 58 :: name ++ parenthesized (selector.pretty depth)
  | .nth name formula => 58 :: name ++ parenthesized (formula.pretty depth)
  | .linear step offset => linearText [32] step offset
  | .conditions combinator members =>
    joinConditions combinator (Component.memberPretties combinator members)
  | .condition inner negated =>
    (if negated then ascii "not " else []) ++ parenthesized (inner.pretty depth)
  | c => c.text

def Component.pretties (depth : Nat) : List Component → List Bytes
  | [] => []
  | c :: cs => c.pretty depth :: Component.pretties depth cs

def Component.memberPretties (combinator : Bytes) : List Component → List Bytes
  | [] => []
  | c :: cs =>
    (if needsParens combinator c then parenthesized (c.pretty 0) else c.pretty 0) ::
      Component.memberPretties combinator cs

def Term.pretties (depth : Nat) : List Term → List (UInt8 × Bytes)
  | [] => []
  | ⟨op,value⟩ :: ts => (op,value.pretty depth) :: Term.pretties depth ts

def Declaration.pretty (depth : Nat) : Declaration → Bytes
  | .property name value important slashNine =>
    name ++ [58,32] ++ joinTermsPretty (Term.pretties depth value) ++
      declarationEnd [32] important slashNine
  | .filter name value => name ++ [58,32] ++ value

end

def Term.prettyOf (depth : Nat) (terms : List Term) : Bytes :=
  joinTermsPretty (Term.pretties depth terms)

end Cascade
