import Cascade.Decimal.Binary64
import Cascade.Text.Scalars

/-! The line printed about each stylesheet: how long it took and what it saved. -/
namespace Cascade

def roundHalfEven (n d : Nat) : Nat :=
  let q := n / d
  let r := n % d
  if 2 * r < d then q else if d < 2 * r then q + 1 else if q % 2 = 0 then q else q + 1

def tenths (m : Nat) : Int → Nat
  | .ofNat k => m * 10 * Nat.pow 2 k
  | .negSucc k => roundHalfEven (m * 10) (Nat.pow 2 (k + 1))

def oneDecimal (f : Float) : Bytes :=
  match parts f with
  | .finite negative m e =>
    let t := tenths m e
    (if negative then [45] else []) ++ decimal (t / 10) ++ 46 :: decimal (t % 10)
  | _ => [48]

def wholePart (f : Float) : Nat :=
  match parts f with
  | .finite false m (.ofNat k) => m * Nat.pow 2 k
  | .finite false m (.negSucc k) => m / Nat.pow 2 (k + 1)
  | _ => 0

def sizeUnits : List Bytes :=
  [ascii "B",ascii "kB",ascii "MB",ascii "GB",ascii "TB",ascii "PB",ascii "EB"]

def thousands (size : Nat) : Nat :=
  ((List.range sizeUnits.length).filter fun e => Nat.pow 1000 e ≤ size).getLastD 0

def sizeText (size : Nat) : Bytes :=
  if size < 10 then decimal size ++ ascii " B"
  else
    let e := thousands size
    let t := wholePart (size.toFloat / (Nat.pow 1000 e).toFloat * 10.0 + 0.5)
    let amount := if t < 100 then decimal (t / 10) ++ 46 :: decimal (t % 10) else decimal (roundHalfEven t 10)
    amount ++ 32 :: sizeUnits.getD e []

def fractionText (n places : Nat) : Bytes :=
  let digits := decimal n
  let padded := List.replicate (places - digits.length) 48 ++ digits
  let kept := (padded.reverse.dropWhile (· == 48)).reverse
  if kept.isEmpty then [] else 46 :: kept

/-- Units given in parts of which `10 ^ places` make one. -/
def inUnits (n places : Nat) : Bytes :=
  decimal (n / Nat.pow 10 places) ++ fractionText (n % Nat.pow 10 places) places

def timeText (nanos : Int) : Bytes :=
  let n := nanos.natAbs
  let second := 1000000000
  let magnitude : Bytes :=
    if n = 0 then ascii "0s"
    else if n < 1000 then decimal n ++ ascii "ns"
    else if n < 1000000 then inUnits n 3 ++ [0xC2,0xB5,115]
    else if n < second then inUnits n 6 ++ ascii "ms"
    else
      let seconds := inUnits (n % (60 * second)) 9 ++ ascii "s"
      let minutes := n / (60 * second)
      if minutes = 0 then seconds
      else
        let hours := if minutes < 60 then [] else decimal (minutes / 60) ++ ascii "h"
        hours ++ decimal (minutes % 60) ++ ascii "m" ++ seconds
  if nanos < 0 then 45 :: magnitude else magnitude

def speedText (size nanos : Int) : Bytes :=
  if 0 < nanos then
    let n := nanos.toNat
    let seconds := (n / 1000000000).toFloat + (n % 1000000000).toFloat / 1000000000.0
    sizeText (wholePart (Float.ofInt size / seconds))
  else ascii "Inf MB"

def column (width : Nat) (s : Bytes) : Bytes := spaces (width - (scalars s).length) ++ s

def sizeWord (size : Int) : Nat := (size % (wordLimit : Int)).toNat

def percentText (size newSize : Int) : Bytes :=
  let ratio := if 0 < size then Float.ofInt newSize / Float.ofInt size else 1.0
  oneDecimal (ratio * 100.0) ++ [37]

def figures (time speed : Bytes) (size newSize : Int) : Bytes :=
  40 :: time ++ ascii ", " ++ column 6 (sizeText (sizeWord size)) ++ ascii ", " ++
    column 6 (sizeText (sizeWord newSize)) ++ ascii ", " ++ column 6 (percentText size newSize) ++
    ascii ", " ++ speed ++ ascii "/s)"

def itinerary (source destination : Bytes) : Bytes :=
  if source = destination then source else source ++ ascii " to " ++ destination

def reportText (source destination : Bytes) (size newSize nanos : Int) : Bytes :=
  figures (column 9 (timeText nanos)) (column 6 (speedText size nanos)) size newSize ++
    ascii " - " ++ itinerary source destination

end Cascade
