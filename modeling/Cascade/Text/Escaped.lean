import Cascade.Text.Graphic

/-! Text between double quotes as messages show it: what cannot be printed is escaped. -/
namespace Cascade

def isPrintable (c : Nat) : Bool := c == 32 || (isGraphic c && !isSpace c)

def hexDigits : Nat → Nat → Bytes
  | 0,_ => []
  | width + 1,n => hexDigits width (n / 16) ++ [hexDigit (n % 16)]

def controlLetter (c : Nat) : Option UInt8 :=
  [(7,97),(8,98),(12,102),(10,110),(13,114),(9,116),(11,118)].lookup c

def escapedCharacter (c : Nat) : Bytes :=
  match controlLetter c with
  | some letter => [92,letter]
  | none =>
    if c < 32 || c == 127 then ascii "\\x" ++ hexDigits 2 c
    else if c < 0x10000 then ascii "\\u" ++ hexDigits 4 c
    else ascii "\\U" ++ hexDigits 8 c

def inQuotes (s : Bytes) : Bytes :=
  let shown := (characters s).flatMap fun (c,bytes) =>
    if c == replacement && bytes.length == 1 then ascii "\\x" ++ hexDigits 2 ((bytes.headD 0).toNat)
    else if c == 34 || c == 92 then 92 :: bytes
    else if isPrintable c then bytes
    else escapedCharacter c
  34 :: shown ++ [34]

end Cascade
