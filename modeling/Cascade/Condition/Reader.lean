import Cascade.Declaration.Reader

/-! The conditions of feature queries, read from tokens. -/
namespace Cascade

/-- Conditions read so far, the word that joins them, and whether the next one is negated. -/
structure Joined where
  members : List Component := []
  combinator : Bytes := []
  negate : Bool := false

def Joined.result (j : Joined) : Option Component :=
  match j.members with
  | [] => none
  | [.declaration (.property name value important slashNine)] =>
    some (.condition (.declaration (.property name value important slashNine)) false)
  | [c] => some c
  | cs => some (.conditions j.combinator cs)

def Joined.word (j : Joined) (word : Bytes) : Option Joined :=
  if word = ascii "not" then some { j with negate := true }
  else if word = ascii "and" ∨ word = ascii "or" then
    if j.combinator ≠ [] ∧ j.combinator ≠ word then none
    else some { j with combinator := word }
  else none

mutual

def readConditionFrom (j : Joined) (ts : List Token) : Option Component :=
  match ts with
  | [] => j.result
  | t :: rest =>
    if t.isBlank then readConditionFrom j rest
    else if t.kind = .ident then
      match j.word (lower t.text) with
      | some j => readConditionFrom j rest
      | none => none
    else if t.kind = .leftParen then
      match readInParens (untilClose 0 rest).1 with
      | none => none
      | some inner =>
        let inner := if j.negate then .condition inner true else inner
        readConditionFrom { j with members := j.members ++ [inner],negate := false }
          ((untilClose 0 rest).2.drop 1)
    else if t.kind = .function then
      readConditionFrom { j with members := j.members ++ [.ident (enclosedText t rest)] }
        ((untilClose 0 rest).2.drop 1)
    else none
termination_by 2 * ts.length
decreasing_by
  all_goals
    have inside := insideLength 0 rest
    have behind := behindLength 0 rest
    simp only [List.length_cons]
    omega

def readInParens (ts : List Token) : Option Component :=
  match trimTokens ts with
  | [] => none
  | t :: rest =>
    if t.kind = .leftParen ∨ (t.kind = .ident ∧ sameLetters t.text (ascii "not")) then
      readConditionFrom {} (trimTokens ts)
    else if t.kind = .ident then
      match trimTokens rest with
      | ⟨.colon,_⟩ :: value => some (.declaration (readDeclaration t.text value))
      | _ => none
    else none
termination_by 2 * ts.length + 1
decreasing_by
  have := trimTokensLength ts
  omega

end

def readCondition (ts : List Token) : Option Component := readConditionFrom {} ts

end Cascade
