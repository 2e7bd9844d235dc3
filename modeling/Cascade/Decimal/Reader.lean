import Cascade.Decimal.Binary64
import Cascade.Text.Bytes

/-! Numbers read from text. The digits are gathered in one 64-bit word; behind that they only count as places. -/
namespace Cascade

def signLength : Bytes → Nat
  | 43 :: _ => 1
  | 45 :: _ => 1
  | _ => 0

def digitRun (s : Bytes) : Nat := (s.takeWhile isDigit).length

def fractionLength : Bytes → Nat
  | 46 :: d :: s => if isDigit d then digitRun (d :: s) + 1 else 0
  | _ => 0

def exponentLength : Bytes → Nat
  | b :: s =>
    if b == 101 || b == 69 then
      let sign := signLength s
      let digits := digitRun (s.drop sign)
      if digits = 0 then 0 else 1 + sign + digits
    else 0
  | [] => 0

def numberLength (s : Bytes) : Nat :=
  let sign := signLength s
  let whole := digitRun (s.drop sign)
  let fraction := fractionLength (s.drop (sign + whole))
  sign + whole + fraction + exponentLength (s.drop (sign + whole + fraction))

/-- The word, and the positions of the point and of the first digit that no longer counted. -/
structure Digits where
  word : Nat := 0
  point : Option Nat := none
  dropped : Option Nat := none
  position : Nat := 0

def Digits.push (d : Digits) (b : UInt8) : Digits :=
  if d.dropped.isSome then { d with position := d.position + 1 }
  else if d.word > (wordLimit - 1) / 10 then
    { d with dropped := some d.position,position := d.position + 1 }
  else { d with word := (d.word * 10 + (b.toNat - 48)) % wordLimit,position := d.position + 1 }

def gatherDigits : Digits → Bytes → Digits × Bytes
  | d,[] => (d,[])
  | d,b :: s =>
    if isDigit b then gatherDigits (d.push b) s
    else if b == 46 && d.point.isNone then
      gatherDigits { d with point := some d.position,position := d.position + 1 } s
    else (d,b :: s)

/-- The decimals the word stands for, negative when digits before the point were dropped. -/
def Digits.decimals (d : Digits) : Int :=
  match d.point,d.dropped with
  | some p,some k => (k : Int) - p - 1
  | some p,none => (d.position : Int) - p - 1
  | none,some k => (k : Int) - d.position
  | none,none => 0

def readExponent (s : Bytes) : Option (Int × Nat) :=
  let sign := signLength s
  let digits := (s.drop sign).takeWhile isDigit
  let n := digitsValue digits
  if digits.isEmpty then none
  else if s.head? == some 45 then
    if n ≤ signedLimit then some (-(n : Int),sign + digits.length) else none
  else if n < signedLimit then some (n,sign + digits.length) else none

def powerOfTen (n : Int) : Float :=
  if n < -323 then 0.0
  else if n > 308 then 1.0 / 0.0
  else
    let k := n.natAbs
    let rest := Float.ofScientific 1 false (k % 32)
    if n < 0 then Float.ofScientific 1 true (k / 32 * 32) / rest
    else Float.ofScientific 1 false (k / 32 * 32) * rest

def applyPower (f : Float) (decimals exponent : Int) : Float :=
  let power := exponent - decimals
  let general (f : Float) : Float := f * powerOfTen (-decimals) * powerOfTen exponent
  if power = 0 then f
  else if 0 < power ∧ power ≤ 37 then
    let g := if power > 22 then f * powerOfTen (power - 22) else f
    if magnitude g ≤ 1000000000000000.0 then g * powerOfTen (min power 22) else general g
  else if -22 ≤ power ∧ power < 0 then f / powerOfTen (-power)
  else general f

def readNumber (s : Bytes) : Float × Nat :=
  let sign := signLength s
  let (d,rest) := gatherDigits {} (s.drop sign)
  if d.position = 0 ∨ (d.position = 1 ∧ d.point = some 0) then (0.0,0)
  else
    let f := withSign (s.head? == some 45) (Float.ofNat d.word)
    let (exponent,length) : Int × Nat := match rest with
      | b :: more =>
        if b == 101 || b == 69 then
          match readExponent more with
          | some (e,n) => (e,n + 1)
          | none => (0,0)
        else (0,0)
      | [] => (0,0)
    (applyPower f d.decimals exponent,sign + d.position + length)

def numberOf (s : Bytes) : Float :=
  let r := readNumber s
  if r.2 = s.length then r.1 else 0.0

end Cascade
