import Cascade.Token.Lexer

/-! Quoted strings and locations: their contents and the way they are written. -/
namespace Cascade

def escapeQuote (quote : UInt8) (s : Bytes) : Bytes :=
  s.flatMap fun b => if b == quote then [92,quote] else [b]

def quoteText (s : Bytes) : Bytes :=
  if s.count 39 < s.count 34 then 39 :: escapeQuote 39 s ++ [39]
  else 34 :: escapeQuote 34 s ++ [34]

/-- Escaped quotes lose their backslash, an escaped newline goes, an escaped backslash stays as it is. -/
def unescape : Bytes → Bytes
  | 92 :: 34 :: s => 34 :: unescape s
  | 92 :: 39 :: s => 39 :: unescape s
  | 92 :: 10 :: s => unescape s
  | 92 :: 92 :: s => 92 :: 92 :: unescape s
  | b :: s => b :: unescape s
  | [] => []

/-- The contents of a string token; the last of two bytes or more is taken for the closing quote. -/
def unquote (s : Bytes) : Bytes :=
  match s with
  | q :: b :: rest =>
    if q == 34 || q == 39 then unescape (b :: rest).dropLast else unescape s
  | _ => unescape s

def urlText (location : Bytes) : Bytes :=
  if location ≠ [] ∧ isUnquotedLocation location then ascii "url(" ++ location ++ ascii ")"
  else ascii "url(" ++ quoteText location ++ ascii ")"

end Cascade
