import Cascade.Component.Quoted
import Cascade.Note.Basic
import Cascade.Selector.Nth

/-! Selectors read from tokens. One that makes no sense is skipped with a note, and so is what holds it. -/
namespace Cascade

def Token.isElementName (t : Token) : Bool := t.kind = .ident || t.isDelim 42

/-- A type selector, with a namespace if a bar stands beside it, and the tokens that follow. -/
def readElement (t : Token) (rest : List Token) : Component × List Token :=
  match rest with
  | [] => (.element t.text [] false,rest)
  | next :: more =>
    if t.isDelim 124 && next.isElementName then (.element next.text [] true,more)
    else match more with
      | [] => (.element t.text [] false,rest)
      | name :: behind =>
        if next.isDelim 124 && name.isElementName then (.element name.text t.text true,behind)
        else (.element t.text [] false,rest)

theorem readElementLength (t : Token) (rest : List Token) :
    (readElement t rest).2.length ≤ rest.length := by
  unfold readElement
  split
  · simp
  · split
    · simp
    · split
      · simp
      · split <;> simp
        omega

def attrValue (t : Token) : Option Component :=
  match t.kind with
  | .ident => some (.ident t.text)
  | .string => some (.quoted (unquote t.text))
  | .number => some (.quoted t.text)
  | _ => none

def attrFlag (ts : List Token) : Option Bytes :=
  match trimTokens ts with
  | [] => some []
  | [⟨.ident,flag⟩] => some flag
  | _ => none

def readAttr (ts : List Token) : Option Component :=
  match trimTokens ts with
  | ⟨.ident,name⟩ :: rest =>
    match trimTokens rest with
    | [] => some (.attr name [] none [])
    | comparison :: rest =>
      if comparison.kind = .ident ∨ comparison.kind = .string then none
      else match trimTokens rest with
        | [] => none
        | value :: rest => do
          let v ← attrValue value
          let flag ← attrFlag rest
          some (.attr name comparison.text (some v) flag)
  | _ => none

def selectorFunctions : List Bytes :=
  [ascii "is",ascii "where",ascii "has",ascii "matches",ascii "-webkit-any",
    ascii "-moz-any",ascii "host",ascii "host-context"]

def nthFunctions : List Bytes :=
  [ascii "nth-child",ascii "nth-last-child",ascii "nth-of-type",ascii "nth-last-of-type"]

def hasRelative (ts : List Token) : Bool :=
  (commaParts ts).any fun part =>
    match trimTokens part with
    | t :: _ => t.isOneOf [62,43,126]
    | [] => false

def plainPseudo (name : Bytes) (args : List Token) : Component :=
  .pseudoCall name [⟨0,.ident (tokensText args)⟩]

/-- What stands before the last combinator, the combinator, and the conditions being read. -/
structure Partial where
  sel : Option Component := none
  kind : UInt8 := 0
  conditions : List Component := []

namespace Partial

def add (p : Partial) (c : Component) : Partial := { p with conditions := p.conditions ++ [c] }

def complete (p : Partial) : Component :=
  match p.sel with
  | none => .compound p.conditions
  | some s => .complex p.kind s (.compound p.conditions)

def join (p : Partial) (kind : UInt8) : Partial :=
  if p.conditions.isEmpty then { p with kind := kind }
  else { sel := some p.complete,kind := kind,conditions := [] }

end Partial

def invalidSelector (ts : List Token) : Noted (Option Component) := do
  Noted.note (.invalidSelector (tokensText ts))
  return none

mutual

def readSelector (ts : List Token) : Noted (Option Component) := readSelectorFrom ts {} ts
termination_by 2 * ts.length + 1

def readSelectorFrom (whole : List Token) (p : Partial) (ts : List Token) :
    Noted (Option Component) :=
  match ts with
  | [] => if p.conditions.isEmpty then invalidSelector whole else pure (some p.complete)
  | t :: rest =>
    if t.isBlank then
      readSelectorFrom whole (if p.conditions.isEmpty then p else p.join 32) rest
    else if t.isOneOf [62,43,126] then
      if p.conditions.isEmpty && p.sel.isNone then invalidSelector whole
      else readSelectorFrom whole (p.join (t.text.headD 0)) rest
    else if t.isDelim 46 then
      match rest with
      | ⟨.ident,name⟩ :: more => readSelectorFrom whole (p.add (.className name)) more
      | _ => invalidSelector whole
    else if t.kind = .ident ∨ t.isOneOf [42,124] then
      readSelectorFrom whole (p.add (readElement t rest).1) (readElement t rest).2
    else if t.kind = .hash then readSelectorFrom whole (p.add (.id (t.text.drop 1))) rest
    else if t.kind = .leftBracket then
      match readAttr (untilClose 0 rest).1 with
      | some a => readSelectorFrom whole (p.add a) ((untilClose 0 rest).2.drop 1)
      | none => invalidSelector whole
    else if t.kind = .colon then
      match rest with
      | ⟨.colon,_⟩ :: ⟨.ident,name⟩ :: more =>
        readSelectorFrom whole (p.add (.pseudoElement name)) more
      | ⟨.colon,_⟩ :: ⟨.function,text⟩ :: more =>
        let name := text.dropLast
        let args := trimTokens (untilClose 0 more).1
        readSelectorFrom whole (p.add (.pseudoElement (name ++ 40 :: tokensText args ++ [41])))
          ((untilClose 0 more).2.drop 1)
      | ⟨.ident,name⟩ :: more => readSelectorFrom whole (p.add (.pseudoClass name)) more
      | ⟨.function,text⟩ :: more => do
        match ← readPseudoCall text.dropLast (trimTokens (untilClose 0 more).1) with
        | some c => readSelectorFrom whole (p.add c) ((untilClose 0 more).2.drop 1)
        | none => invalidSelector whole
      | _ => invalidSelector whole
    else invalidSelector whole
termination_by 2 * ts.length
decreasing_by
  all_goals simp_wf
  all_goals first
    | omega
    | (have short := readElementLength t rest; omega)
    | (have short := untilCloseLength 0 rest; omega)
    | (have short := untilCloseLength 0 more
       have := trimTokensLength (untilClose 0 more).1
       omega)

def readPseudoCall (name : Bytes) (args : List Token) : Noted (Option Component) :=
  let known := lower name
  if known = ascii "not" ∨ known ∈ selectorFunctions then
    if hasRelative args then
      pure (if known = ascii "not" then none else some (plainPseudo name args))
    else do
      match ← readSelectors (commaParts args) with
      | none | some [] => pure none
      | some ss =>
        if known = ascii "not" then pure (some (.negation (.ofSelectors ss)))
        else pure (some (.selectorCall name (.ofSelectors ss)))
  else if known ∈ nthFunctions then
    match readNth args with
    | some formula => pure (some (.nth name formula))
    | none => pure (some (plainPseudo name args))
  else pure (some (plainPseudo name args))
termination_by 2 * args.length + 3
decreasing_by
  have := splitTokensWeight .comma 0 args
  simp only [commaParts]
  omega

def readSelectors (parts : List (List Token)) : Noted (Option (List Component)) :=
  match parts with
  | [] => pure (some [])
  | part :: more => do
    match ← readSelector (trimTokens part) with
    | none => pure none
    | some s =>
      match ← readSelectors more with
      | none => pure none
      | some ss => pure (some (s :: ss))
termination_by 2 * partsWeight parts
decreasing_by
  · have := trimTokensLength part
    simp only [partsWeight]
    omega
  · simp only [partsWeight]
    omega

end

end Cascade
