import Cascade.Text.Escaped

/-! Versions: up to three numbers, then the parts of a pre-release and a build, which is not compared. -/
namespace Cascade

structure Version where
  text : Bytes
  major : Nat
  minor : Nat
  patch : Nat
  pre : List Bytes
  deriving DecidableEq, Repr

inductive VersionFault where
  | malformed
  | tooLarge (digits : Bytes)
  | leadingZero
  deriving DecidableEq, Repr

def VersionFault.message : VersionFault → Bytes
  | malformed => ascii "Invalid Semantic Version"
  | tooLarge digits =>
    ascii "Error parsing version segment: strconv.ParseUint: parsing " ++ inQuotes digits ++
      ascii ": value out of range"
  | leadingZero => ascii "Version segment starts with 0"

def isPartByte (b : UInt8) : Bool := isDigit b || isLetter b || b == 45

def versionParts (s : Bytes) : Option (List Bytes) :=
  let parts := fields 46 s
  if parts.all fun p => !p.isEmpty && p.all isPartByte then some parts else none

def readTail (s : Bytes) : Option (List Bytes) :=
  let front := s.takeWhile (· != 43)
  let build := s.drop front.length
  let buildOk : Bool := match build with
    | [] => true
    | _ :: rest => (versionParts rest).isSome
  match buildOk,front with
  | false,_ => none
  | true,[] => some []
  | true,b :: rest => if b == 45 then versionParts rest else none

def readNumbers : Nat → Bytes → List Bytes × Bytes
  | more,s =>
    let digits := s.takeWhile isDigit
    let rest := s.drop digits.length
    match more,rest with
    | more + 1,46 :: d :: tail =>
      if isDigit d then
        let (numbers,left) := readNumbers more (d :: tail)
        (digits :: numbers,left)
      else ([digits],rest)
    | _,_ => ([digits],rest)

def isLeadingZero (part : Bytes) : Bool :=
  part.all isDigit && 1 < part.length && part.head? == some 48

def readVersion (text : Bytes) : Except VersionFault Version :=
  let body := if text.head? == some 118 then text.tail else text
  let (numbers,rest) := readNumbers 2 body
  match numbers,readTail rest with
  | [] :: _,_ => .error .malformed
  | _,none => .error .malformed
  | _,some pre =>
    match numbers.find? fun n => wordLimit ≤ digitsValue n with
    | some digits => .error (.tooLarge digits)
    | none =>
      if pre.any isLeadingZero then .error .leadingZero
      else
        let value (i : Nat) : Nat := ((numbers[i]?).map digitsValue).getD 0
        .ok ⟨text,value 0,value 1,value 2,pre⟩

def partNumber (part : Bytes) : Option Nat :=
  if part.all isDigit && digitsValue part < wordLimit then some (digitsValue part) else none

def comparePart (a b : Bytes) : Ordering :=
  if a = b then .eq
  else match partNumber a,partNumber b with
    | some m,some n => if n < m then .gt else .lt
    | some _,none => .lt
    | none,some _ => .gt
    | none,none => if before b a then .gt else .lt

def compareParts : List Bytes → List Bytes → Ordering
  | [],[] => .eq
  | [],_ :: _ => .lt
  | _ :: _,[] => .gt
  | a :: as,b :: bs => (comparePart a b).then (compareParts as bs)

def comparePre : List Bytes → List Bytes → Ordering
  | [],[] => .eq
  | [],_ :: _ => .gt
  | _ :: _,[] => .lt
  | as,bs => compareParts as bs

def Version.compare (a b : Version) : Ordering :=
  (Ord.compare a.major b.major).then <| (Ord.compare a.minor b.minor).then <|
    (Ord.compare a.patch b.patch).then (comparePre a.pre b.pre)

def Version.whole (n : Nat) : Version := ⟨decimal n,n,0,0,[]⟩

end Cascade
