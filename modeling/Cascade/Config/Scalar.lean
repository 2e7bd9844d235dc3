import Cascade.Config.Yaml
import Cascade.Decimal.Binary64

/-! What a plain scalar of a configuration stands for. -/
namespace Cascade

inductive Scalar where
  | nothing
  | truth (value : Bool)
  | whole (value : Int)
  | real (value : Float)
  | moment
  | text

def Scalar.tag : Scalar → Bytes
  | nothing => ascii "!!null"
  | truth _ => ascii "!!bool"
  | whole _ => ascii "!!int"
  | real _ => ascii "!!float"
  | moment => ascii "!!timestamp"
  | text => ascii "!!str"

def fixedWords : List (Bytes × Scalar) :=
  [(ascii "true",.truth true),(ascii "True",.truth true),(ascii "TRUE",.truth true),
    (ascii "false",.truth false),(ascii "False",.truth false),(ascii "FALSE",.truth false),
    ([],.nothing),(ascii "~",.nothing),(ascii "null",.nothing),(ascii "Null",.nothing),
    (ascii "NULL",.nothing),(ascii ".nan",.real notANumber),(ascii ".NaN",.real notANumber),
    (ascii ".NAN",.real notANumber),(ascii ".inf",.real (1.0 / 0.0)),(ascii ".Inf",.real (1.0 / 0.0)),
    (ascii ".INF",.real (1.0 / 0.0)),(ascii "+.inf",.real (1.0 / 0.0)),(ascii "+.Inf",.real (1.0 / 0.0)),
    (ascii "+.INF",.real (1.0 / 0.0)),(ascii "-.inf",.real (-1.0 / 0.0)),
    (ascii "-.Inf",.real (-1.0 / 0.0)),(ascii "-.INF",.real (-1.0 / 0.0))]

def digitValue (b : UInt8) : Nat := if isDigit b then b.toNat - 48 else (lowerByte b).toNat - 87

def valueInBase (base : Nat) (digits : Bytes) : Option Nat :=
  if !digits.isEmpty && digits.all fun b => isHexDigit b && digitValue b < base then
    some (digits.foldl (fun n b => n * base + digitValue b) 0)
  else none

def magnitudeOf (s : Bytes) : Option Nat :=
  match s with
  | 48 :: b :: rest =>
    let mark := lowerByte b
    if mark == 120 then valueInBase 16 rest
    else if mark == 111 then valueInBase 8 rest
    else if mark == 98 then valueInBase 2 rest
    else valueInBase 8 (b :: rest)
  | _ => valueInBase 10 s

def unsigned (s : Bytes) : Bytes := if s.head? == some 43 || s.head? == some 45 then s.tail else s

def wholeNumber? (s : Bytes) : Option Int :=
  match magnitudeOf (unsigned s) with
  | none => none
  | some n =>
    if s.head? == some 45 then if n ≤ signedLimit then some (-(n : Int)) else none
    else if s.head? == some 43 then if n < signedLimit then some n else none
    else if n < wordLimit then some n else none

def realNumber? (s : Bytes) : Option Float :=
  let body := unsigned s
  let whole := body.takeWhile isDigit
  let rest := body.drop whole.length
  let fraction := match rest with
    | 46 :: r => r.takeWhile isDigit
    | _ => []
  let rest := match rest with
    | 46 :: r => r.drop fraction.length
    | r => r
  let exponent : Option Int := match rest with
    | [] => some 0
    | e :: r =>
      let digits := unsigned r
      if (e == 101 || e == 69) && !digits.isEmpty && digits.all isDigit then
        let n := (valueInBase 10 digits).getD 0
        some (if r.head? == some 45 then -(n : Int) else n)
      else none
  let digits := whole ++ fraction
  match exponent,digits.isEmpty with
  | some e,false =>
    let m := (valueInBase 10 digits).getD 0
    let power := e - fraction.length
    if 400 < power || power < -(digits.length : Int) - 400 then
      if m = 0 || power < 0 then some 0.0 else none
    else
      let f := match power with
        | .ofNat k => Float.ofScientific m false k
        | .negSucc k => Float.ofScientific m true (k + 1)
      if isFinite f then some (withSign (s.head? == some 45) f) else none
  | _,_ => none

def isDate (s : Bytes) : Bool :=
  let parts := fields 45 (s.takeWhile fun b => isDigit b || b == 45)
  let rest := s.dropWhile fun b => isDigit b || b == 45
  match parts with
  | [year,month,day] =>
    year.length == 4 && (month.length == 1 || month.length == 2) && (day.length == 1 || day.length == 2) &&
      (rest.isEmpty || (rest.contains 58 && (rest.head? == some 84 || rest.head? == some 116 || rest.head? == some 32)))
  | _ => false

def Scalar.ofPlain (s : Bytes) : Scalar :=
  match fixedWords.lookup s with
  | some scalar => scalar
  | none =>
    match s with
    | [] => .nothing
    | b :: _ =>
      if b == 46 then
        match realNumber? s with
        | some f => .real f
        | none => .text
      else if isDigit b || b == 43 || b == 45 then
        if isDate s then .moment
        else
          let plain := s.filter (· != 95)
          match wholeNumber? plain,realNumber? plain with
          | some n,_ => .whole n
          | none,some f => .real f
          | none,none => .text
      else .text

end Cascade
