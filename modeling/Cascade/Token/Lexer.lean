import Cascade.Token.Basic
import Cascade.Decimal.Reader

/-! The tokens a text is made of. Every scanner says how many bytes it takes, and counts the bytes of an escape that it
still has to skip, so that it walks the text once. -/
namespace Cascade

def isBlankByte (b : UInt8) : Bool := b == 32 || b == 9 || b == 10 || b == 13 || b == 12

def isNewline (b : UInt8) : Bool := b == 10 || b == 13 || b == 12

def isNameStart (b : UInt8) : Bool := isLetter b || b == 95 || b ≥ 0x80

def isNameByte (b : UInt8) : Bool := isNameStart b || isDigit b || b == 45

def blankRun (s : Bytes) : Nat := (s.takeWhile isBlankByte).length

def newlineLength : Bytes → Nat
  | 13 :: 10 :: _ => 2
  | b :: _ => if isNewline b then 1 else 0
  | [] => 0

def characterLength (b : UInt8) (s : Bytes) : Nat :=
  min (s.length + 1) (if b < 0xC0 then 1 else if b < 0xE0 then 2 else if b < 0xF0 then 3 else 4)

/-- The bytes behind a backslash: up to six hexadecimal digits and a blank, or any character but a newline. -/
def escapeLength : Bytes → Option Nat
  | [] => none
  | b :: s =>
    if isNewline b then none
    else if isHexDigit b then
      let digits := ((s.take 5).takeWhile isHexDigit).length
      let blank := match s.drop digits with
        | c :: _ => if isBlankByte c then 1 else 0
        | [] => 0
      some (1 + digits + blank)
    else some (characterLength b s)

def nameRun : Nat → Bytes → Nat
  | _,[] => 0
  | skip + 1,_ :: s => nameRun skip s + 1
  | 0,b :: s =>
    if isNameByte b then nameRun 0 s + 1
    else if b == 92 then
      match escapeLength s with
      | some n => nameRun n s + 1
      | none => 0
    else 0

def plainIdentLength : Bytes → Nat
  | [] => 0
  | b :: s =>
    if isNameStart b then nameRun 0 s + 1
    else if b == 92 then
      match escapeLength s with
      | some n => nameRun n s + 1
      | none => 0
    else 0

def identLength : Bytes → Nat
  | 45 :: s =>
    match plainIdentLength s with
    | 0 => 0
    | n + 1 => n + 2
  | s => plainIdentLength s

def isIdent (s : Bytes) : Bool := identLength s == s.length

def startsNumber (s : Bytes) : Bool :=
  match s.drop (signLength s) with
  | 46 :: d :: _ => isDigit d
  | d :: _ => isDigit d
  | [] => false

def numeric (s : Bytes) : Option (TokenKind × Nat) :=
  if startsNumber s then
    let n := numberLength s
    match s.drop n with
    | 37 :: _ => some (.percentage,n + 1)
    | rest =>
      match identLength rest with
      | 0 => some (.number,n)
      | k + 1 => some (.dimension,n + k + 1)
  else none

/-- The bytes behind an opening quote through the closing one, and whether a newline broke the string off. -/
def stringRun (quote : UInt8) : Nat → Bytes → Nat × Bool
  | _,[] => (0,false)
  | skip + 1,_ :: s => let r := stringRun quote skip s; (r.1 + 1,r.2)
  | 0,b :: s =>
    if isNewline b then (1,true)
    else if b == quote then (1,false)
    else
      let skip := if b == 92 then (escapeLength s).getD (newlineLength s) else 0
      let r := stringRun quote skip s
      (r.1 + 1,r.2)

/-- The bytes of an unquoted location, and whether a parenthesis or the end was reached. -/
def locationRun : Nat → Bytes → Nat × Bool
  | _,[] => (0,true)
  | skip + 1,_ :: s => let r := locationRun skip s; (r.1 + 1,r.2)
  | 0,b :: s =>
    if b == 41 then (0,true)
    else if b == 92 then
      match escapeLength s with
      | some n => let r := locationRun n s; (r.1 + 1,r.2)
      | none => (0,false)
    else if b == 34 || b == 39 || b == 40 || b ≤ 32 || b == 127 then (0,false)
    else let r := locationRun 0 s; (r.1 + 1,r.2)

def isUnquotedLocation (s : Bytes) : Bool := (locationRun 0 s).1 == s.length

def brokenRun : Nat → Bytes → Nat
  | _,[] => 0
  | skip + 1,_ :: s => brokenRun skip s + 1
  | 0,b :: s =>
    if b == 41 then 1
    else if b == 92 then brokenRun ((escapeLength s).getD 0) s + 1
    else brokenRun 0 s + 1

def brokenUrl (taken : Nat) (s : Bytes) : TokenKind × Nat :=
  (.badUrl,taken + brokenRun 0 (s.drop taken))

def urlEnd (taken : Nat) (s : Bytes) : TokenKind × Nat :=
  let n := taken + blankRun (s.drop taken)
  match s.drop n with
  | [] => (.url,n)
  | 41 :: _ => (.url,n + 1)
  | _ => brokenUrl n s

def urlRun (s : Bytes) : TokenKind × Nat :=
  let blanks := blankRun s
  match s.drop blanks with
  | [] => (.url,blanks)
  | b :: rest =>
    if b == 34 || b == 39 then
      let r := stringRun b 0 rest
      if r.2 then brokenUrl (blanks + 1 + r.1) s else urlEnd (blanks + 1 + r.1) s
    else
      let r := locationRun 0 (b :: rest)
      if r.2 then urlEnd (blanks + r.1) s
      else match s.drop (blanks + r.1) with
        | c :: _ => if isBlankByte c then urlEnd (blanks + r.1 + 1) s else brokenUrl (blanks + r.1) s
        | [] => brokenUrl (blanks + r.1) s

def isUrlName (name : Bytes) : Bool := lowerAscii (name.filter (· != 92)) == ascii "url"

def identLike (s : Bytes) : Option (TokenKind × Nat) :=
  match identLength s with
  | 0 => none
  | k + 1 =>
    let n := k + 1
    match s.drop n with
    | 40 :: rest =>
      if isUrlName (s.take n) then
        let r := urlRun rest
        some (r.1,n + 1 + r.2)
      else some (.function,n + 1)
    | _ => some (.ident,n)

def commentRun : Bytes → Nat
  | [] => 0
  | 42 :: 47 :: _ => 2
  | _ :: s => commentRun s + 1

def hexRun (s : Bytes) : Nat := (s.takeWhile isHexDigit).length

def questionRun (s : Bytes) : Nat := (s.takeWhile (· == 63)).length

/-- A range behind its `u+`: hexadecimal digits, then a second number or question marks, up to six places. -/
def unicodeRange (s : Bytes) : Option Nat :=
  let first := hexRun s
  match s.drop first with
  | 45 :: rest =>
    let second := hexRun rest
    if first = 0 ∨ 6 < first ∨ second = 0 ∨ 6 < second then none
    else some (first + 1 + second)
  | rest =>
    let places := first + questionRun rest
    if places = 0 ∨ 6 < places then none else some places

def orDelim (t : Option (TokenKind × Nat)) : TokenKind × Nat := t.getD (.delim,1)

def firstToken (b : UInt8) (s : Bytes) : TokenKind × Nat :=
  if isBlankByte b then (.whitespace,blankRun s + 1)
  else if b == 58 then (.colon,1)
  else if b == 59 then (.semicolon,1)
  else if b == 44 then (.comma,1)
  else if b == 40 then (.leftParen,1)
  else if b == 41 then (.rightParen,1)
  else if b == 91 then (.leftBracket,1)
  else if b == 93 then (.rightBracket,1)
  else if b == 123 then (.leftBrace,1)
  else if b == 125 then (.rightBrace,1)
  else if b == 35 then
    match nameRun 0 s with
    | 0 => (.delim,1)
    | n + 1 => (.hash,n + 2)
  else if b == 34 || b == 39 then
    let r := stringRun b 0 s
    (if r.2 then .badString else .string,r.1 + 1)
  else if b == 46 || b == 43 then orDelim (numeric (b :: s))
  else if b == 45 then
    match numeric (b :: s) with
    | some t => t
    | none => match identLike (b :: s) with
      | some t => t
      | none =>
        if (ascii "->").isPrefixOf s then (.cdc,3)
        else if s.head? == some 45 && identLength s ≠ 0 then (.customName,identLength s + 1)
        else (.delim,1)
  else if b == 64 then
    match identLength s with
    | 0 => (.delim,1)
    | n + 1 => (.atKeyword,n + 2)
  else if (b == 36 || b == 42 || b == 94 || b == 126 || b == 124) && s.head? == some 61 then
    (.matcher,2)
  else if b == 36 || b == 42 || b == 94 || b == 126 then (.delim,1)
  else if b == 124 then
    if s.head? == some 124 then (.column,2) else (.delim,1)
  else if b == 47 then
    match s with
    | 42 :: rest => (.comment,commentRun rest + 2)
    | _ => (.delim,1)
  else if b == 60 then
    if (ascii "!--").isPrefixOf s then (.cdo,4) else (.delim,1)
  else if b == 92 then orDelim (identLike (b :: s))
  else if b == 0 then (.delim,1)
  else if b == 117 || b == 85 then
    match s with
    | 43 :: rest => match unicodeRange rest with
      | some n => (.unicodeRange,n + 2)
      | none => orDelim (identLike (b :: s))
    | _ => orDelim (identLike (b :: s))
  else match numeric (b :: s) with
    | some t => t
    | none => orDelim (identLike (b :: s))

def tokensFrom : Nat → Bytes → List Token
  | _,[] => []
  | skip + 1,_ :: s => tokensFrom skip s
  | 0,b :: s =>
    let r := firstToken b s
    ⟨r.1,b :: s.take (r.2 - 1)⟩ :: tokensFrom (r.2 - 1) s

def tokens (s : Bytes) : List Token := tokensFrom 0 s

theorem tokensFromText (skip : Nat) (s : Bytes) :
    (tokensFrom skip s).flatMap Token.text = s.drop skip := by
  induction s generalizing skip with
  | nil => simp [tokensFrom]
  | cons b s ih =>
    cases skip with
    | zero => simp [tokensFrom,ih]
    | succ n => simp [tokensFrom,ih]

/-- No byte is lost: the texts of the tokens make up the text. -/
theorem tokensConcat (s : Bytes) : (tokens s).flatMap Token.text = s := by
  simp [tokens,tokensFromText]

end Cascade
