import Cascade.Item.Basic
import Cascade.Token.Lexer

/-! Tokens cut into items, one after the other. What is gathered so far is a stage, and the blocks around it are
modes. One counter of open brackets runs through the whole text, and any closing bracket closes any opening one. -/
namespace Cascade

inductive Mode where
  | stylesheet
  | inline
  | rules
  | descriptors
  | declarations
  | raw
  deriving DecidableEq, Repr

inductive Stage where
  | idle
  | star
  | atRule (name : Bytes) (first skip : Bool) (gathered : List Token)
  | rule (skip bracketed : Bool) (gathered : List Token)
  | colon (name : Token)
  | value (name : Token) (skip : Bool) (gathered : List Token)
  | broken (fault : Fault) (gathered : List Token)
  | customColon (name : Bytes)
  | customValue (name value : Bytes)

structure Gap where
  space : Bool := false
  comment : Bool := false

structure Reader where
  modes : List Mode
  level : Int := 0
  keepBlanks : Bool := false
  source : Bytes
  stage : Stage := .idle

namespace Reader

def mode (r : Reader) : Mode := r.modes.head?.getD .stylesheet

def leave (r : Reader) : Reader :=
  match r.modes with
  | _ :: m :: ms => { r with modes := m :: ms }
  | _ => r

def enter (r : Reader) (m : Mode) : Reader := { r with modes := m :: r.modes,stage := .idle }

def toStage (r : Reader) (s : Stage) : Reader := { r with stage := s }

def up (r : Reader) : Reader := { r with level := r.level + 1 }

def down (r : Reader) : Reader := { r with level := r.level - 1 }

def fault (r : Reader) (kind : FaultKind) (position : Nat) : Fault := ⟨kind,position,r.source⟩

end Reader

def bareAtRule (name : Bytes) : Bytes :=
  match name with
  | _ :: 45 :: rest =>
    match rest.dropWhile (· != 45) with
    | _ :: bare => bare
    | [] => 45 :: rest
  | _ :: bare => bare
  | [] => []

def blockMode (name : Bytes) : Mode :=
  let bare := bareAtRule name
  if [ascii "font-face",ascii "page"].contains bare then .descriptors
  else if [ascii "document",ascii "keyframes",ascii "media",ascii "supports"].contains bare
  then .rules
  else .raw

def endsStatement (t : Token) : Bool := t.kind = .semicolon || t.kind = .rightBrace

/-- The reader behind a token, the items it completed, and whether it has to be looked at again. -/
structure Progress where
  reader : Reader
  items : List Item := []
  again : Bool := false

def startAtRule (r : Reader) (name : Bytes) : Progress :=
  ⟨r.toStage (.atRule (lowerAscii name) true false []),[],false⟩

def push (gathered : List Token) (spaced : Bool) (t : Token) : List Token :=
  gathered ++ (if spaced then [Token.space,t] else [t])

def Reader.past (r : Reader) (t : Token) : Reader :=
  if t.opens then r.up else if t.closes then r.down else r

def stepAtRule (r : Reader) (stop : Nat) (gap : Gap) (name : Bytes) (first skip : Bool)
    (gathered : List Token) (t : Token) : Progress :=
  if t.kind = .leftBrace ∧ r.level = 0 then
    ⟨r.enter (blockMode name),[.openAtRule name gathered],false⟩
  else if endsStatement t ∧ r.level = 0 then
    ⟨r.toStage .idle,[.atRule name gathered],t.kind = .rightBrace⟩
  else if t.closes ∧ r.level = 0 then
    ⟨r.leave.toStage .idle,[.fault (r.fault .atRuleEnd stop) (gathered ++ [t])],false⟩
  else
    let brackets := first && (t.kind = .leftParen || t.kind = .leftBracket)
    let separates := t.spells [44,58]
    let spaced := gap.space && !brackets && !separates && !skip && t.kind ≠ .rightParen
    let skip := separates || t.kind = .leftParen
    ⟨(r.past t).toStage (.atRule name false skip (push gathered spaced t)),[],false⟩

def stepRule (r : Reader) (stop : Nat) (gap : Gap) (skip bracketed : Bool)
    (gathered : List Token) (t : Token) : Progress :=
  if t.kind = .leftBrace ∧ r.level = 0 then
    ⟨r.enter .declarations,[.openRule gathered],false⟩
  else if t.closes ∧ r.level = 0 then
    ⟨r.leave.toStage .idle,[.fault (r.fault .ruleEnd stop) (gathered ++ [t])],false⟩
  else if t.spells [44] then ⟨(r.past t).toStage .idle,[.selectorPart gathered],false⟩
  else
    let joins := t.spells [62,43,126]
    let spaced := gap.space && !joins && !skip && !bracketed
    let bracketed :=
      if t.kind = .leftBracket then true
      else if t.kind = .rightBracket then false else bracketed
    ⟨(r.past t).toStage (.rule joins bracketed (push gathered spaced t)),[],false⟩

def stepBroken (r : Reader) (gap : Gap) (fault : Fault) (gathered : List Token) (t : Token) :
    Progress :=
  if endsStatement t ∧ r.level = 0 then
    let gathered := if t.kind = .semicolon then gathered ++ [t] else gathered
    ⟨r.toStage .idle,[.fault fault gathered],t.kind = .rightBrace⟩
  else ⟨(r.past t).toStage (.broken fault (push gathered gap.space t)),[],false⟩

def stepColon (r : Reader) (start : Nat) (gap : Gap) (name t : Token) : Progress :=
  if t.kind = .colon then ⟨r.toStage (.value name true []),[],false⟩
  else stepBroken r gap (r.fault .colonExpected start) [name] t

def stepValue (r : Reader) (stop : Nat) (gap : Gap) (name : Token) (skip : Bool)
    (gathered : List Token) (t : Token) : Progress :=
  if endsStatement t ∧ r.level = 0 then
    ⟨r.toStage .idle,[.declaration name.text gathered],t.kind = .rightBrace⟩
  else if t.closes ∧ r.level = 0 then
    stepBroken r gap (r.fault .declarationEnd stop) (gathered ++ [name,Token.colon]) t
  else
    let separates := t.spells [44,47,58,33,61]
    let spaced := (gap.space || gap.comment) && !separates && !skip
    ⟨(r.past t).toStage (.value name separates (push gathered spaced t)),[],false⟩

def stepCustomColon (r : Reader) (start : Nat) (name : Bytes) (t : Token) : Progress :=
  if t.kind = .colon then ⟨r.toStage (.customValue name []),[],false⟩
  else ⟨r.toStage .idle,[.fault (r.fault .customColonExpected start) []],false⟩

def stepCustomValue (r : Reader) (stop : Nat) (name value : Bytes) (t : Token) : Progress :=
  if endsStatement t ∧ r.level = 0 then
    ⟨r.toStage .idle,[.custom name value],t.kind = .rightBrace⟩
  else if t.closes ∧ r.level = 0 then
    ⟨r.toStage .idle,[.fault (r.fault .customEnd stop) [t]],false⟩
  else ⟨(r.past t).toStage (.customValue name (value ++ t.text)),[],false⟩

def startDeclaration (r : Reader) (stop : Nat) (gap : Gap) (t : Token) : Progress :=
  if t.kind = .atKeyword then startAtRule r t.text
  else if t.kind = .ident ∨ t.kind = .delim then
    ⟨r.toStage (.colon ⟨t.kind,lowerAscii t.text⟩),[],false⟩
  else if t.kind = .customName then ⟨r.toStage (.customColon t.text),[],false⟩
  else
    let fault := r.fault (.unexpectedToken t.text) (stop - t.text.length)
    if t.kind = .rightBrace then ⟨r.toStage .idle,[.fault fault [t]],false⟩
    else stepBroken r gap fault [] t

def startItem (r : Reader) (stop : Nat) (gap : Gap) (t : Token) : Progress :=
  match r.mode with
  | .stylesheet =>
    if t.kind = .cdo ∨ t.kind = .cdc then ⟨r,[.text t.text],false⟩
    else if t.kind = .atKeyword then startAtRule r t.text
    else stepRule r stop {} true false [] t
  | .rules =>
    if t.kind = .rightBrace then ⟨r.leave,[.close],false⟩
    else if t.kind = .atKeyword then startAtRule r t.text
    else stepRule r stop {} true false [] t
  | .raw =>
    if t.kind = .rightBrace ∧ r.level = 0 then
      ⟨{ r.leave with keepBlanks := false },[.close],false⟩
    else ⟨{ r.past t with keepBlanks := true },[.text t.text],false⟩
  | .inline =>
    if t.kind = .semicolon then ⟨r,[],false⟩
    else if t.isDelim 42 then ⟨r.toStage .star,[],false⟩
    else startDeclaration r stop gap t
  | _ =>
    if t.kind = .semicolon then ⟨r,[],false⟩
    else if t.kind = .rightBrace then ⟨r.leave,[.close],false⟩
    else if t.isDelim 42 then ⟨r.toStage .star,[],false⟩
    else startDeclaration r stop gap t

/-- In the block of an unknown at-rule white space is text, in a custom property comments are too. -/
def stepBlank (r : Reader) (t : Token) : Progress :=
  match r.stage with
  | .idle => ⟨r,if t.kind = .whitespace ∧ r.keepBlanks then [.text t.text] else [],false⟩
  | .customValue name value => ⟨r.toStage (.customValue name (value ++ t.text)),[],false⟩
  | _ => ⟨r,[],false⟩

def stepToken (r : Reader) (start stop : Nat) (gap : Gap) (t : Token) : Progress :=
  match r.stage with
  | .idle => startItem r stop gap t
  | .star => startDeclaration r stop gap ⟨t.kind,42 :: t.text⟩
  | .atRule name first skip gathered => stepAtRule r stop gap name first skip gathered t
  | .rule skip bracketed gathered => stepRule r stop gap skip bracketed gathered t
  | .colon name => stepColon r start gap name t
  | .value name skip gathered => stepValue r stop gap name skip gathered t
  | .broken fault gathered => stepBroken r gap fault gathered t
  | .customColon name => stepCustomColon r start name t
  | .customValue name value => stepCustomValue r stop name value t

def closings (r : Reader) : List Item :=
  List.replicate (r.modes.length - 1) .close ++ [.endOfInput]

def lastItem (r : Reader) (stop : Nat) : List Item :=
  match r.stage with
  | .idle => []
  | .star => [.endOfInput]
  | .atRule name _ _ gathered => [.atRule name gathered]
  | .rule _ _ gathered => [.fault (r.fault .ruleEnd stop) gathered]
  | .colon name => [.fault (r.fault .colonExpected stop) [name]]
  | .value name _ gathered => [.declaration name.text gathered]
  | .broken fault gathered => [.fault fault gathered]
  | .customColon _ => [.fault (r.fault .customColonExpected stop) []]
  | .customValue name value => [.custom name value]

def step (r : Reader) (start : Nat) (gap : Gap) (t : Token) : Reader × List Item :=
  let stop := start + t.text.length
  if t.isBlank then
    let p := stepBlank r t
    (p.reader,p.items)
  else
    let p := stepToken r start stop gap t
    if p.again then
      let q := startItem p.reader stop {} t
      (q.reader,p.items ++ q.items)
    else (p.reader,p.items)

def Gap.after (gap : Gap) (t : Token) : Gap :=
  if t.kind = .whitespace then { gap with space := true }
  else if t.kind = .comment then { gap with comment := true }
  else {}

def read (r : Reader) (start : Nat) (gap : Gap) : List Token → List Item
  | [] => lastItem r start ++ closings r
  | t :: ts =>
    let s := step r start gap t
    s.2 ++ read s.1 (start + t.text.length) (gap.after t) ts

def items (mode : Mode) (source : Bytes) : List Item :=
  read { modes := [mode],source := source } 0 {} (tokens source)

end Cascade
