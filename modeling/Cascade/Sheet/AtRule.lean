import Cascade.Condition.Reader
import Cascade.Media.Reader
import Cascade.Property.Vendor

/-! At-rules: those that are one statement, and those that open a block. -/
namespace Cascade

def splitAtRule (name : Bytes) : Bytes × Bytes :=
  match lower name with
  | 64 :: rest =>
    if rest.contains 10 then ([],[])
    else
      let vendor := vendorMark rest
      (vendor,rest.drop vendor.length)
  | _ => ([],[])

def readLocation (ts : List Token) : Option (Component × List Token) :=
  match ts with
  | [] => none
  | t :: rest =>
    match t.kind with
    | .string => some (.quoted (unquote t.text),rest)
    | .url => some (.url (locationOf t.text),rest)
    | .function =>
      match readCall t.functionName (untilClose 0 rest).1 with
      | .url location => some (.url location,(untilClose 0 rest).2.drop 1)
      | _ => none
    | _ => none

def readCharset (ts : List Token) : Option Rule :=
  match ts with
  | [⟨.string,s⟩] => some (.charset (unquote s))
  | _ => none

def readImport (ts : List Token) : Noted (Option Rule) :=
  match readLocation ts with
  | none => pure none
  | some (location,rest) => do
    let media ← readQueries rest
    return some (.importRule ⟨location,media⟩)

def readNamespace (ts : List Token) : Option Rule :=
  let (name,ts) : Bytes × List Token := match ts with
    | ⟨.ident,name⟩ :: rest => (name,trimTokens rest)
    | ts => ([],ts)
  match readLocation ts with
  | some (location,rest) =>
    if (trimTokens rest).isEmpty then some (.namespaceRule ⟨location,name⟩) else none
  | none => none

def readAtRule (name : Bytes) (prelude : List Token) : Noted (Option Rule) := do
  let base := (splitAtRule name).2
  let ts := trimTokens prelude
  let rule ←
    if base = ascii "charset" then pure (readCharset ts)
    else if base = ascii "import" then readImport ts
    else if base = ascii "namespace" then pure (readNamespace ts)
    else pure none
  if rule.isNone then Noted.note (.skippedAtRule name)
  return rule

structure Header where
  name : Bytes
  vendor : Bytes
  base : Bytes
  prelude : Bytes
  queries : List MediaQuery := []
  condition : Option Component := none

def readHeader (name : Bytes) (prelude : List Token) : Noted Header := do
  let (vendor,base) := splitAtRule name
  let ts := trimTokens prelude
  let text := trim (tokensText ts)
  if base = ascii "media" then
    let queries ← readQueries ts
    return { name,vendor,base,prelude := text,queries }
  else if base = ascii "supports" then
    let condition := readCondition ts
    if condition.isNone then Noted.note (.invalidCondition text)
    return { name,vendor,base,prelude := text,condition }
  else return { name,vendor,base,prelude := text }

def pageMargins : List Bytes :=
  [ascii "top-left-corner",ascii "top-left",ascii "top-center",ascii "top-right",
    ascii "top-right-corner",ascii "bottom-left-corner",ascii "bottom-left",
    ascii "bottom-center",ascii "bottom-right",ascii "bottom-right-corner",ascii "left-top",
    ascii "left-middle",ascii "left-bottom",ascii "right-top",ascii "right-middle",
    ascii "right-bottom"]

def featureKinds : List Bytes :=
  [ascii "swash",ascii "annotation",ascii "ornaments",ascii "stylistic",ascii "styleset",
    ascii "character-variant",ascii "historical-forms"]

def Rule.asMargin : Rule → Option Block
  | margin b => some b
  | _ => none

def Rule.asFeatureBlock : Rule → Option Block
  | featureBlock b => some b
  | _ => none

def Rule.asKeyframe : Rule → Option Keyframe
  | keyframe k => some k
  | _ => none

def Header.rule (h : Header) (rules : List Rule) (ds : List Declaration) : Option Rule :=
  if h.base = ascii "keyframes" then
    some (.keyframes h.prelude h.vendor (rules.filterMap Rule.asKeyframe))
  else if h.base = ascii "viewport" then some (.viewport h.vendor ds)
  else if h.vendor ≠ [] then none
  else if h.base = ascii "media" then some (.media h.queries rules)
  else if h.base = ascii "supports" then h.condition.map fun c => .supports c rules
  else if h.base = ascii "page" then
    some (.page h.prelude ds (rules.filterMap Rule.asMargin))
  else if pageMargins.contains h.base then some (.margin ⟨h.base,ds⟩)
  else if h.base = ascii "font-face" then some (.fontFace ds)
  else if h.base = ascii "font-feature-values" then
    some (.fontFeatures h.prelude (rules.filterMap Rule.asFeatureBlock))
  else if featureKinds.contains h.base then some (.featureBlock ⟨h.base,ds⟩)
  else if h.base = ascii "counter-style" then some (.counterStyle h.prelude ds)
  else none

end Cascade
