import Cascade.Value.Reader

/-! Declarations from a name and the tokens of a value. -/
namespace Cascade

def takeImportant (ts : List Token) : List Token × Bool :=
  match ts.getLast? with
  | none => (ts,false)
  | some last =>
    let rest := trimTokens ts.dropLast
    let marked : Bool := match rest.getLast? with
      | some mark => mark.isDelim 33
      | none => false
    if last.kind = .ident ∧ sameLetters last.text (ascii "important") ∧ marked then
      (trimTokens rest.dropLast,true)
    else (ts,false)

def takeSlashNine (ts : List Token) : List Token × Bool :=
  match ts.getLast? with
  | none => (ts,false)
  | some last =>
    if (ascii "\\9").isSuffixOf last.text then
      let text := last.text.take (last.text.length - 2)
      if text.isEmpty then (trimTokens ts.dropLast,true)
      else (ts.dropLast ++ [⟨last.kind,text⟩],true)
    else (ts,false)

def isOldFilter (name text : Bytes) : Bool :=
  [ascii "filter",ascii "-ms-filter"].contains (lower name) &&
    (holds (ascii "progid:") (lower text) || (ascii "alpha(").isPrefixOf (lower text))

def readDeclaration (name : Bytes) (ts : List Token) : Declaration :=
  let (ts,important) := takeImportant (trimTokens ts)
  let (ts,slashNine) := takeSlashNine ts
  let text := trim (tokensText ts)
  if isOldFilter name text then .filter name text
  else .property name (readValue ts) important slashNine

def customDeclaration (name value : Bytes) : Declaration :=
  .property name [⟨0,.ident (trim value)⟩] false false

end Cascade
