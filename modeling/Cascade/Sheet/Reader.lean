import Cascade.Item.Reader
import Cascade.Selector.Reader
import Cascade.Sheet.AtRule
import Cascade.Text.Source

/-! Stylesheets from items. The open blocks form a stack; an item that closes one hands its contents to the block
around it. The text of a block that the items did not cut up is read once more on its own. -/
namespace Cascade

inductive Opening where
  | outermost
  | rule
  | atRule (header : Header)

/-- A block being read. A selector cut at a comma inside parentheses is `pending`, and `raw` is text still to be read. -/
structure Frame where
  opening : Opening := .outermost
  keyframes : Bool := false
  rules : List Rule := []
  declarations : List Declaration := []
  selectors : List Component := []
  stops : List Bytes := []
  pending : List Token := []
  raw : Bytes := []

abbrev Contents := List Rule × List Declaration

/-- A piece of a selector behind others, incomplete while a bracket is open: selectors are cut at every comma. -/
def joinPiece (pending piece : List Token) : List Token × Bool :=
  let all := pending ++ piece
  if isUnclosed all then (all ++ [Token.comma],false) else (all,true)

namespace Frame

def addSelector (f : Frame) (ts : List Token) : Noted Frame :=
  if f.keyframes then
    pure { f with stops := f.stops ++ [trim (tokensText ts)],pending := [] }
  else do
    match ← readSelector (trimTokens ts) with
    | some s => return { f with selectors := f.selectors ++ [s],pending := [] }
    | none => return { f with pending := [] }

def addPiece (f : Frame) (piece : List Token) : Noted Frame :=
  match joinPiece f.pending piece with
  | (all,true) => f.addSelector all
  | (all,false) => pure { f with pending := all }

def addRule (f : Frame) (rule : Option Rule) : Frame := { f with rules := f.rules ++ rule.toList }

def addDeclaration (f : Frame) (d : Declaration) : Frame :=
  { f with declarations := f.declarations ++ [d] }

def contents (f : Frame) (reread : Bytes → Noted Contents) : Noted Contents :=
  if f.raw.isEmpty then pure (f.rules,f.declarations)
  else do
    let more ← reread f.raw
    return (f.rules ++ more.1,f.declarations ++ more.2)

def accept (f : Frame) (opening : Opening) (inner : Contents) : Noted Frame :=
  match opening with
  | .outermost => pure f
  | .rule =>
    let rule : Option Rule :=
      if f.keyframes then some (.keyframe ⟨f.stops,inner.2⟩)
      else if f.selectors.isEmpty then none
      else some (.ruleset (.ofSelectors f.selectors) inner.2)
    pure { f.addRule rule with selectors := [],stops := [] }
  | .atRule h => do
    let rule := h.rule inner.1 inner.2
    if rule.isNone then Noted.note (.skippedAtRule h.name)
    return f.addRule rule

end Frame

def closeAll (reread : Bytes → Noted Contents) (f : Frame) : List Frame → Noted Contents
  | [] => f.contents reread
  | outer :: stack => do
    let inner ← f.contents reread
    let outer ← outer.accept f.opening inner
    closeAll reread outer stack

def assemble (reread : Bytes → Noted Contents) (f : Frame) (stack : List Frame) :
    List Item → Noted Contents
  | [] => closeAll reread f stack
  | item :: items =>
    match item with
    | .fault fault skipped => do
      Noted.note (.syntaxError fault (trim (tokensText skipped)))
      assemble reread f stack items
    | .endOfInput | .close =>
      match stack with
      | [] => f.contents reread
      | outer :: stack => do
        let inner ← f.contents reread
        let outer ← outer.accept f.opening inner
        assemble reread outer stack items
    | .text text => assemble reread { f with raw := f.raw ++ text } stack items
    | .atRule name prelude => do
      let rule ← readAtRule name prelude
      assemble reread (f.addRule rule) stack items
    | .openAtRule name prelude => do
      let h ← readHeader name prelude
      assemble reread { opening := .atRule h,keyframes := h.base = ascii "keyframes" } (f :: stack)
        items
    | .selectorPart piece => do
      let f ← f.addPiece piece
      assemble reread f stack items
    | .openRule piece => do
      let f ← f.addSelector (f.pending ++ piece)
      assemble reread { opening := .rule } (f :: stack) items
    | .declaration name value =>
      assemble reread (f.addDeclaration (readDeclaration name value)) stack items
    | .custom name value =>
      assemble reread (f.addDeclaration (customDeclaration name value)) stack items

/-- The contents of a text. The depth bounds how often a part is read again; each is shorter than the one before. -/
def readContents : Nat → Mode → Bytes → Noted Contents
  | 0,_,_ => pure ([],[])
  | depth + 1,mode,text =>
    assemble (readContents depth .inline) {} [] (items mode text)

/-- Rules sorted into the parts of a stylesheet. The encoding counts only at the start. -/
def Stylesheet.add (s : Stylesheet) : Rule → Stylesheet
  | .charset name =>
    if s.charset.isNone && s.imports.isEmpty && s.namespaces.isEmpty && s.content.isEmpty then
      { s with charset := some name }
    else s
  | .importRule i => { s with imports := s.imports ++ [i] }
  | .namespaceRule n => { s with namespaces := s.namespaces ++ [n] }
  | rule => { s with content := s.content ++ [rule] }

def Stylesheet.ofText (text : Bytes) : Noted Stylesheet := do
  let (rules,ds) ← readContents (text.length + 2) .stylesheet text
  unless ds.isEmpty do Noted.note (.looseDeclarations ds.length)
  let s := rules.foldl Stylesheet.add {}
  Noted.note (.readStylesheet text.length s.content.length)
  return s

/-- The stylesheet that bytes spell. Reading always succeeds. -/
def Stylesheet.read (bytes : Bytes) : Noted Stylesheet := Stylesheet.ofText (sourceText bytes)

end Cascade
