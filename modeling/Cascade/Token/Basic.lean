import Cascade.Text.Bytes

/-! The tokens of a stylesheet: what a piece of text is, and the text itself. -/
namespace Cascade

inductive TokenKind where
  | ident
  | function
  | atKeyword
  | hash
  | string
  | badString
  | url
  | badUrl
  | delim
  | number
  | percentage
  | dimension
  | unicodeRange
  | matcher
  | column
  | whitespace
  | comment
  | cdo
  | cdc
  | colon
  | semicolon
  | comma
  | leftParen
  | rightParen
  | leftBracket
  | rightBracket
  | leftBrace
  | rightBrace
  | customName
  | customValue
  deriving DecidableEq, Repr

structure Token where
  kind : TokenKind
  text : Bytes
  deriving DecidableEq, Repr

namespace Token

def space : Token := ⟨.whitespace,[32]⟩

def comma : Token := ⟨.comma,[44]⟩

def colon : Token := ⟨.colon,[58]⟩

def isBlank (t : Token) : Bool := t.kind = .whitespace || t.kind = .comment

def opens (t : Token) : Bool :=
  t.kind = .leftParen || t.kind = .leftBracket || t.kind = .leftBrace || t.kind = .function

def closes (t : Token) : Bool :=
  t.kind = .rightParen || t.kind = .rightBracket || t.kind = .rightBrace

theorem notClosesOfOpens {t : Token} (h : t.opens = true) : t.closes = false := by
  cases t with
  | mk kind text => cases kind <;> simp_all [opens,closes]

def isDelim (t : Token) (b : UInt8) : Bool := t.kind = .delim && t.text.head? == some b

def isOneOf (t : Token) (bs : Bytes) : Bool :=
  t.kind = .delim && match t.text with
    | b :: _ => bs.contains b
    | [] => false

def spells (t : Token) (bs : Bytes) : Bool :=
  match t.text with
  | [b] => bs.contains b
  | _ => false

def functionName (t : Token) : Bytes := t.text.dropLast

end Token

def trimEnd (ts : List Token) : List Token := (ts.reverse.dropWhile Token.isBlank).reverse

theorem trimEndLength (ts : List Token) : (trimEnd ts).length ≤ ts.length := by
  have drops := (List.dropWhile_sublist Token.isBlank (l := ts.reverse)).length_le
  simpa [trimEnd] using drops

def trimTokens (ts : List Token) : List Token := trimEnd (ts.dropWhile Token.isBlank)

theorem trimTokensLength (ts : List Token) : (trimTokens ts).length ≤ ts.length := by
  exact Nat.le_trans (trimEndLength _) (List.dropWhile_sublist _).length_le

def tokensText (ts : List Token) : Bytes :=
  ts.flatMap fun t =>
    if t.kind = .whitespace then [32] else if t.kind = .comment then [] else t.text

end Cascade
