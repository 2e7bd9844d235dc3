import Cascade.Component.Basic
import Cascade.Decimal.Reader
import Cascade.Text.LetterCase
import Cascade.Token.Brackets

/-! The formulas of pseudo-classes that count siblings. -/
namespace Cascade

def isNumberText (s : Bytes) : Bool := numberLength s == s.length

def readStep (s : Bytes) : Option Float :=
  if s = [] ∨ s = [43] then some 1.0
  else if s = [45] then some (-1.0)
  else if isNumberText s then some (numberOf s)
  else none

def nthOfText (s : Bytes) : Option Component :=
  if s = ascii "odd" ∨ s = ascii "even" then some (.ident s)
  else match s.dropWhile (· != 110) with
    | [] => if s ≠ [] ∧ isNumberText s then some (.number (numberOf s)) else none
    | _ :: rest =>
      match readStep (s.takeWhile (· != 110)) with
      | none => none
      | some step =>
        match rest with
        | [] => some (.multiple step)
        | b :: _ =>
          if (b == 43 || b == 45) && isNumberText rest then some (.linear step (numberOf rest))
          else none

def readNth (ts : List Token) : Option Component :=
  nthOfText (lower ((ts.filter fun t => !t.isBlank).flatMap Token.text))

end Cascade
