import Cascade.Decimal.Binary64
import Cascade.Text.Bytes

/-! The fewest decimal digits that read back as a given double, and of those the nearest. The double `m * 2 ^ q` owns
the reals that round to it; the ends belong to it when `m` is even. -/
namespace Cascade

/-- An interval of rationals over one denominator, around `value`. -/
structure Reach where
  low : Nat
  value : Nat
  high : Nat
  denominator : Nat
  closed : Bool

def reach (m : Nat) (q : Int) : Reach :=
  let scale := Nat.pow 2 (q - 2).toNat
  let below := if m = fractionLimit ∧ q > -1074 then 1 else 2
  ⟨(4 * m - below) * scale,4 * m * scale,(4 * m + 2) * scale,Nat.pow 2 (2 - q).toNat,m % 2 = 0⟩

def Reach.contains (r : Reach) (n : Nat) : Bool :=
  if r.closed then r.low ≤ n && n ≤ r.high else r.low < n && n < r.high

def leadingPlaces (d : Nat) : Nat → Nat → Nat
  | 0,_ => 0
  | fuel + 1,n => if d ≤ n then 0 else leadingPlaces d fuel (n * 10) + 1

def firstPower (n d : Nat) : Int :=
  if d ≤ n then ((Nat.toDigits 10 (n / d)).length : Int) - 1
  else -(leadingPlaces d 400 n : Int)

/-- A multiple of `10 ^ power` in the interval: of the two around the value the nearer. -/
def Reach.onGrid (r : Reach) (power : Int) : Option Nat :=
  let up := Nat.pow 10 (-power).toNat
  let unit := r.denominator * Nat.pow 10 power.toNat
  let scaled : Reach := ⟨r.low * up,r.value * up,r.high * up,1,r.closed⟩
  let d := scaled.value / unit
  let hitLow := d ≠ 0 && scaled.contains (d * unit)
  let hitHigh := scaled.contains ((d + 1) * unit)
  let distanceLow := scaled.value - d * unit
  let distanceHigh := (d + 1) * unit - scaled.value
  if hitLow && (!hitHigh || distanceLow < distanceHigh || (distanceLow = distanceHigh && d % 2 = 0))
  then some d
  else if hitHigh then some (d + 1)
  else none

def Reach.firstHit (r : Reach) : Nat → Int → Option (Nat × Int)
  | 0,_ => none
  | fuel + 1,power =>
    match r.onGrid power with
    | some d => some (d,power)
    | none => r.firstHit fuel (power - 1)

def shortest (m : Nat) (q : Int) : Nat × Int :=
  let r := reach m q
  ((r.firstHit 18 (firstPower r.value r.denominator)).getD (0,0))

def positional (digits : Nat) (power : Int) : Bytes :=
  let text := decimal digits
  match power with
  | .ofNat k => text ++ List.replicate k 48
  | .negSucc k =>
    let places := k + 1
    let padded := List.replicate (places + 1 - text.length) 48 ++ text
    let cut := padded.length - places
    let fraction := ((padded.drop cut).reverse.dropWhile (· == 48)).reverse
    if fraction.isEmpty then padded.take cut
    else padded.take cut ++ 46 :: fraction

end Cascade
