import Cascade.Text.Bytes

/-! UTF-8 sequences and the scalar values they stand for. A stray byte stands for the replacement character. -/
namespace Cascade

def replacement : Nat := 0xFFFD

/-- The bytes a lead byte calls for, and the bounds of the first of them. -/
def continuation (lead : UInt8) : Option (Nat × UInt8 × UInt8) :=
  if lead < 0x80 then some (0,0,0)
  else if lead < 0xC2 then none
  else if lead < 0xE0 then some (1,0x80,0xBF)
  else if lead == 0xE0 then some (2,0xA0,0xBF)
  else if lead == 0xED then some (2,0x80,0x9F)
  else if lead < 0xF0 then some (2,0x80,0xBF)
  else if lead == 0xF0 then some (3,0x90,0xBF)
  else if lead < 0xF4 then some (3,0x80,0xBF)
  else if lead == 0xF4 then some (3,0x80,0x8F)
  else none

def continued : Nat → UInt8 → UInt8 → Bytes → Nat
  | 0,_,_,_ => 0
  | _ + 1,_,_,[] => 0
  | need + 1,low,high,b :: s =>
    if low ≤ b && b ≤ high then continued need 0x80 0xBF s + 1 else 0

/-- How many bytes belong to a lead byte, and whether the sequence is complete. -/
def sequence (lead : UInt8) (s : Bytes) : Nat × Bool :=
  match continuation lead with
  | none => (0,false)
  | some (need,low,high) =>
    let found := continued need low high s
    (found,found == need)

def scalarOf (lead : UInt8) (tail : Bytes) : Nat :=
  let start := match tail.length with
    | 0 => lead.toNat
    | 1 => lead.toNat % 32
    | 2 => lead.toNat % 16
    | _ => lead.toNat % 8
  tail.foldl (fun n b => n * 64 + b.toNat % 64) start

def charactersFrom : Nat → Bytes → List (Nat × Bytes)
  | _,[] => []
  | skip + 1,_ :: s => charactersFrom skip s
  | 0,lead :: s =>
    match sequence lead s with
    | (n,true) => (scalarOf lead (s.take n),lead :: s.take n) :: charactersFrom n s
    | (_,false) => (replacement,[lead]) :: charactersFrom 0 s

def characters (s : Bytes) : List (Nat × Bytes) := charactersFrom 0 s

def scalars (s : Bytes) : List Nat := (characters s).map (·.1)

def encode (c : Nat) : Bytes :=
  if c < 0x80 then [c.toUInt8]
  else if c < 0x800 then [(0xC0 + c / 64).toUInt8,(0x80 + c % 64).toUInt8]
  else if c < 0x10000 then
    [(0xE0 + c / 4096).toUInt8,(0x80 + c / 64 % 64).toUInt8,(0x80 + c % 64).toUInt8]
  else
    [(0xF0 + c / 262144).toUInt8,(0x80 + c / 4096 % 64).toUInt8,
      (0x80 + c / 64 % 64).toUInt8,(0x80 + c % 64).toUInt8]

def encodeAll (cs : List Nat) : Bytes := cs.flatMap encode

def isText (s : Bytes) : Bool :=
  go 0 s
where
  go : Nat → Bytes → Bool
    | _,[] => true
    | skip + 1,_ :: s => go skip s
    | 0,lead :: s =>
      match sequence lead s with
      | (n,true) => go n s
      | (_,false) => false

def isSpace (c : Nat) : Bool :=
  (9 ≤ c && c ≤ 13) || c == 32 || c == 0x85 || c == 0xA0 || c == 0x1680 ||
  (0x2000 ≤ c && c ≤ 0x200A) || c == 0x2028 || c == 0x2029 || c == 0x202F ||
  c == 0x205F || c == 0x3000

def trim (s : Bytes) : Bytes :=
  let left := (characters s).dropWhile fun c => isSpace c.1
  let kept := (left.reverse.dropWhile fun c => isSpace c.1).reverse
  kept.flatMap (·.2)

end Cascade
