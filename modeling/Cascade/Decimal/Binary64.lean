/-! Doubles taken apart into exact integers, and rounding, remainder, least and greatest of them. -/
namespace Cascade

/-- What the bits of a double say; a finite one is `mantissa * 2 ^ exponent`. -/
inductive Parts where
  | nan
  | infinite (negative : Bool)
  | finite (negative : Bool) (mantissa : Nat) (exponent : Int)
  deriving DecidableEq, Repr

def fractionLimit : Nat := 0x10000000000000

def partsOfBits (bits : Nat) : Parts :=
  let negative := bits / 0x8000000000000000 % 2 == 1
  let exponent : Nat := bits / fractionLimit % 2048
  let fraction : Nat := bits % fractionLimit
  if exponent = 2047 then
    if fraction = 0 then .infinite negative else .nan
  else if exponent = 0 then .finite negative fraction (-1074)
  else .finite negative (fraction + fractionLimit) ((exponent : Int) - 1075)

def parts (f : Float) : Parts := partsOfBits f.toBits.toNat

def isFinite (f : Float) : Bool :=
  match parts f with
  | .finite .. => true
  | _ => false

def isNegative (f : Float) : Bool := f < 0.0

def withSign (negative : Bool) (f : Float) : Float := if negative then -f else f

/-- The magnitude of `m * 2 ^ e` to the nearest integer, halves away from zero. -/
def nearest (m : Nat) (e : Int) : Nat :=
  match e with
  | .ofNat k => m * Nat.pow 2 k
  | .negSucc k => (m + Nat.pow 2 k) / Nat.pow 2 (k + 1)

def roundAway (f : Float) : Float :=
  match parts f with
  | .finite negative m (.negSucc k) => withSign negative (Float.ofNat (nearest m (.negSucc k)))
  | _ => f

def roundInt (f : Float) : Int :=
  match parts f with
  | .finite negative m e => if negative then -(nearest m e : Int) else nearest m e
  | _ => 0

def magnitude (f : Float) : Float := Float.ofBits (f.toBits &&& 0x7FFFFFFFFFFFFFFF)

def notANumber : Float := 0.0 / 0.0

def scaled (m : Nat) (e : Int) : Float :=
  match e with
  | .ofNat k => Float.ofNat (m * Nat.pow 2 k)
  | .negSucc k =>
    if k < 1000 then Float.ofNat m / Float.ofNat (Nat.pow 2 (k + 1))
    else Float.ofNat m / Float.ofNat (Nat.pow 2 1000) / Float.ofNat (Nat.pow 2 (k + 1 - 1000))

def remainder (f unit : Float) : Float :=
  match parts f,parts unit with
  | .finite negative m e,.finite _ n d =>
    if n = 0 then notANumber
    else
      let low := min e d
      let whole := m * Nat.pow 2 (e - low).toNat
      let step := n * Nat.pow 2 (d - low).toNat
      withSign negative (scaled (whole % step) low)
  | .finite ..,.infinite _ => f
  | _,_ => notANumber

def lesser (a b : Float) : Float :=
  if a != a || b != b then notANumber else if a < b then a else b

def greater (a b : Float) : Float :=
  if a != a || b != b then notANumber else if b < a then a else b

end Cascade
