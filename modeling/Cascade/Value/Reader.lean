import Cascade.Component.Basic
import Cascade.Component.Quoted
import Cascade.Text.LetterCase
import Cascade.Token.Brackets

/-! Values read from tokens: terms with their operators, function calls, and the arithmetic of math functions. -/
namespace Cascade

def isHexColor (s : Bytes) : Bool :=
  [3,4,6,8].contains (s.length - 1) && (s.drop 1).all isHexDigit

def locationOf (s : Bytes) : Bytes :=
  let inner :=
    match s.dropWhile (· != 40) with
    | _ :: rest => if s.getLast? == some 41 then rest.dropLast else s
    | [] => s
  let inner := trim inner
  match inner with
  | b :: _ => if b == 34 || b == 39 then unquote inner else inner
  | [] => inner

def tokenValue (t : Token) : Component :=
  match t.kind with
  | .number => .number (numberOf t.text)
  | .percentage => .dimension (numberOf t.text.dropLast) [37]
  | .dimension =>
    let n := numberLength t.text
    .dimension (numberOf (t.text.take n)) (t.text.drop n)
  | .hash => if isHexColor t.text then .hexColor t.text else .ident t.text
  | .string => .quoted (unquote t.text)
  | .url => .url (locationOf t.text)
  | _ => .ident t.text

def mathFunctions : List Bytes :=
  [ascii "calc",ascii "-webkit-calc",ascii "-moz-calc",ascii "min",ascii "max",ascii "clamp"]

def closeSum (left : Option (Component × UInt8)) (last : Component) : Component :=
  match left with
  | none => last
  | some (l,op) => .sum l op last

/-- Products bind closer than sums, both group to the left, and commas separate arguments. -/
def arrange (left : Option (Component × UInt8)) (current : Component) :
    List (UInt8 × Component) → List Component
  | [] => [closeSum left current]
  | (op,c) :: rest =>
    if op == 42 || op == 47 then arrange left (.product current op c) rest
    else if op == 44 then closeSum left current :: arrange none c rest
    else arrange (some (closeSum left current,op)) c rest

def commaTerms : List Component → List Term
  | [] => []
  | c :: cs => ⟨0,c⟩ :: cs.map fun c => ⟨44,c⟩

/-- Where a calculation is read: in parentheses, in an argument, or at an end of one, where comments may stand. -/
inductive MathPlace where
  | parens
  | argument
  | edge
  deriving DecidableEq

def MathPlace.inner : MathPlace → MathPlace
  | .edge => .argument
  | place => place

mutual

/-- Terms behind a given operator. Of several in a row the last counts; behind the last value they are dropped. -/
def readTerms (op : UInt8) (ts : List Token) : List Term :=
  match ts with
  | [] => []
  | t :: rest =>
    if t.isBlank then readTerms op rest
    else if t.kind = .comma then readTerms 44 rest
    else if t.isDelim 47 then readTerms 47 rest
    else if t.isDelim 61 then readTerms 61 rest
    else if t.kind = .function then
      ⟨op,readCall t.functionName (untilClose 0 rest).1⟩ ::
        readTerms 0 ((untilClose 0 rest).2.drop 1)
    else if t.kind = .leftParen ∨ t.kind = .leftBracket then
      ⟨op,.ident (enclosedText t rest)⟩ :: readTerms 0 ((untilClose 0 rest).2.drop 1)
    else ⟨op,tokenValue t⟩ :: readTerms 0 rest
termination_by 2 * ts.length
decreasing_by
  all_goals
    have inside := insideLength 0 rest
    have behind := behindLength 0 rest
    simp only [List.length_cons]
    omega

def readCall (name : Bytes) (args : List Token) : Component :=
  let trimmed := trimTokens args
  match lower name == ascii "url",trimmed with
  | true,[⟨.string,s⟩] => .url (unquote s)
  | _,[] => .call name none
  | _,_ =>
    if mathFunctions.contains (lower name) then
      match readOperand .edge args with
      | some (first,rest) => .call name (some (commaTerms (arrange none first rest)))
      | none => .call name (some (readTerms 0 args))
    else .call name (some (readTerms 0 args))
termination_by 2 * args.length + 1

def readOperand (place : MathPlace) (ts : List Token) :
    Option (Component × List (UInt8 × Component)) :=
  match ts with
  | [] => none
  | t :: rest =>
    if t.kind = .whitespace ∨ t.kind = .comment ∧ place = .edge then readOperand place rest
    else if t.kind = .leftParen then
      match readOperand .parens (blockInside rest) with
      | none => none
      | some (first,more) =>
        match arrange none first more with
        | [c] => (readOperators place.inner ((untilClose 0 rest).2.drop 1)).map fun r => (c,r)
        | _ => none
    else if t.kind = .function then
      let c := readCall t.functionName (blockInside rest)
      (readOperators place.inner ((untilClose 0 rest).2.drop 1)).map fun r => (c,r)
    else if t.kind = .number ∨ t.kind = .percentage ∨ t.kind = .dimension ∨ t.kind = .ident then
      (readOperators place.inner rest).map fun r => (tokenValue t,r)
    else none
termination_by 2 * ts.length
decreasing_by
  all_goals
    have inside := blockInsideLength rest
    have behind := behindLength 0 rest
    simp only [List.length_cons]
    omega

/-- Operators with their operands. A comma at the very end is dropped. -/
def readOperators (place : MathPlace) (ts : List Token) : Option (List (UInt8 × Component)) :=
  match ts with
  | [] => some []
  | t :: rest =>
    if t.kind = .whitespace then readOperators place rest
    else if t.kind = .comment ∧ place ≠ .parens then readOperators .edge rest
    else if t.isOneOf [43,45,42,47] ∧ place ≠ .edge then
      (readOperand place rest).map fun r => (t.text.headD 0,r.1) :: r.2
    else if t.kind = .comma ∧ place ≠ .parens then
      if rest.isEmpty then some [] else (readOperand .edge rest).map fun r => (44,r.1) :: r.2
    else none
termination_by 2 * ts.length

end

def readValue (ts : List Token) : List Term := readTerms 0 ts

end Cascade
