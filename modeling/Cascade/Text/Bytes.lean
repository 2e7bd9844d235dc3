/-! Text as a list of bytes. A cut can fall inside a character, so text need not be valid UTF-8. -/
namespace Cascade

abbrev Bytes := List UInt8

def ascii (text : String) : Bytes := text.toList.map fun c => c.toNat.toUInt8

def isDigit (b : UInt8) : Bool := 48 ≤ b && b ≤ 57

def digitsValue (digits : Bytes) : Nat := digits.foldl (fun n b => n * 10 + (b.toNat - 48)) 0

def wordLimit : Nat := 0x10000000000000000

/-- What a signed 64-bit word reaches below zero, and stays under above it. -/
def signedLimit : Nat := 0x8000000000000000

def isHexDigit (b : UInt8) : Bool :=
  isDigit b || (97 ≤ b && b ≤ 102) || (65 ≤ b && b ≤ 70)

def isLowerLetter (b : UInt8) : Bool := 97 ≤ b && b ≤ 122

def isUpperLetter (b : UInt8) : Bool := 65 ≤ b && b ≤ 90

def isLetter (b : UInt8) : Bool := isLowerLetter b || isUpperLetter b

def lowerByte (b : UInt8) : UInt8 := if isUpperLetter b then b + 32 else b

def lowerAscii (s : Bytes) : Bytes := s.map lowerByte

theorem lowerAsciiLength (s : Bytes) : (lowerAscii s).length = s.length := by
  simp [lowerAscii]

def sameLetters (a b : Bytes) : Bool := lowerAscii a == lowerAscii b

def before : Bytes → Bytes → Bool
  | _,[] => false
  | [],_ :: _ => true
  | a :: as,b :: bs => a < b || (a == b && before as bs)

def holds (part : Bytes) : Bytes → Bool
  | [] => part.isEmpty
  | b :: s => part.isPrefixOf (b :: s) || holds part s

def fields (sep : UInt8) : Bytes → List Bytes
  | [] => [[]]
  | b :: s =>
    if b == sep then [] :: fields sep s
    else match fields sep s with
      | [] => [[b]]
      | f :: fs => (b :: f) :: fs

theorem fieldsNotEmpty (sep : UInt8) (s : Bytes) : fields sep s ≠ [] := by
  cases s with
  | nil => simp [fields]
  | cons b s =>
    rw [fields]
    split
    · simp
    · split <;> simp

def spaces (n : Nat) : Bytes := List.replicate n 32

def padLeft (width : Nat) (s : Bytes) : Bytes := spaces (width - s.length) ++ s

def decimal (n : Nat) : Bytes := (Nat.toDigits 10 n).map fun c => c.toNat.toUInt8

def signedDecimal (n : Int) : Bytes :=
  if n < 0 then 45 :: decimal n.natAbs else decimal n.natAbs

def hexDigit (n : Nat) : UInt8 := if n < 10 then (48 + n).toUInt8 else (87 + n).toUInt8

def hexByte (n : Nat) : Bytes := [hexDigit (n / 16 % 16),hexDigit (n % 16)]

end Cascade
