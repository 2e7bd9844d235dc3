import Cascade.Text.Scalars

/-! The text of a stylesheet from its bytes. A byte order mark chooses the encoding; without one the bytes are UTF-8, and
the longest beginning of a sequence that goes wrong becomes one replacement character. -/
namespace Cascade

def repairFrom : Nat → Bytes → Bytes
  | _,[] => []
  | skip + 1,_ :: s => repairFrom skip s
  | 0,lead :: s =>
    match sequence lead s with
    | (n,true) => lead :: s.take n ++ repairFrom n s
    | (n,false) => encode replacement ++ repairFrom n s

def repair (s : Bytes) : Bytes := repairFrom 0 s

def units (bigEndian : Bool) : Bytes → List (Option Nat)
  | [] => []
  | [_] => [none]
  | a :: b :: s =>
    some (if bigEndian then a.toNat * 256 + b.toNat else b.toNat * 256 + a.toNat) ::
      units bigEndian s

def isHighSurrogate (u : Nat) : Bool := 0xD800 ≤ u && u < 0xDC00

def isLowSurrogate (u : Nat) : Bool := 0xDC00 ≤ u && u < 0xE000

def isSurrogate (u : Nat) : Bool := isHighSurrogate u || isLowSurrogate u

def loneScalar (u : Nat) : Nat := if isSurrogate u then replacement else u

def pairScalar (u v : Nat) : Nat :=
  if isHighSurrogate u then 0x10000 + (u - 0xD800) * 1024 + (v - 0xDC00) else replacement

/-- The scalar values of 16-bit units. A low surrogate belongs to any surrogate before it; what makes no character is
replaced, two units by one mark. -/
def pairUnits : List (Option Nat) → List Nat
  | [] => []
  | none :: us => replacement :: pairUnits us
  | [some u] => [loneScalar u]
  | some u :: none :: us => loneScalar u :: pairUnits (none :: us)
  | some u :: some v :: us =>
    if isSurrogate u && isLowSurrogate v then pairScalar u v :: pairUnits us
    else loneScalar u :: pairUnits (some v :: us)

def sourceText : Bytes → Bytes
  | 0xFF :: 0xFE :: s => encodeAll (pairUnits (units false s))
  | 0xFE :: 0xFF :: s => encodeAll (pairUnits (units true s))
  | 0xEF :: 0xBB :: 0xBF :: s => s
  | s => repair s

end Cascade
