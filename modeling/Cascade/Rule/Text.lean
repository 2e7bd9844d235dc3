import Cascade.Rule.Basic
import Cascade.Component.Text

/-! Rules in their minimal spelling. -/
namespace Cascade

def declarationsText (ds : List Declaration) : Bytes := [59].intercalate (ds.map Declaration.text)

/-- A header and a block; the last declaration ends without a semicolon unless rules follow it. -/
def blockText (header : Bytes) (ds : List Declaration) (rules : List Bytes) : Bytes :=
  header ++ 123 :: declarationsText ds ++
    (if ds.isEmpty || rules.isEmpty then [] else [59]) ++ rules.flatten ++ [125]

def MediaFeature.text (f : MediaFeature) : Bytes :=
  match f.value with
  | none => parenthesized f.name
  | some value => parenthesized (f.name ++ 58 :: Term.textOf value)

def MediaQuery.write (q : MediaQuery) (features : List Bytes) : Bytes :=
  let medium : List Bytes :=
    if q.medium.isEmpty then []
    else (if q.restrictor.isEmpty then [] else [q.restrictor]) ++ [q.medium] ++
      (if features.isEmpty then [] else [ascii "and"])
  let tested := if features.isEmpty then [] else [(ascii " and ").intercalate features]
  [32].intercalate (medium ++ tested)

def MediaQuery.text (q : MediaQuery) : Bytes := q.write (q.features.map MediaFeature.text)

def queryList (sep : Bytes) (queries : List Bytes) : Bytes :=
  if queries.isEmpty then [] else 32 :: sep.intercalate queries

def Import.text (i : Import) : Bytes :=
  ascii "@import " ++ i.location.text ++ queryList [44] (i.media.map MediaQuery.text) ++ [59]

def Namespace.text (n : Namespace) : Bytes :=
  ascii "@namespace " ++ (if n.name.isEmpty then [] else n.name ++ [32]) ++ n.location.text ++ [59]

def charsetText (name : Bytes) : Bytes := ascii "@charset \"" ++ name ++ ascii "\";"

def Block.text (b : Block) : Bytes := blockText (64 :: b.name) b.content []

def Keyframe.stopsText (k : Keyframe) : Bytes := [44].intercalate k.stops

def Keyframe.text (k : Keyframe) : Bytes := blockText k.stopsText k.content []

def pageHeader (name : Bytes) : Bytes :=
  if name.isEmpty then ascii "@page" else ascii "@page " ++ name

def keyframesHeader (name vendor : Bytes) : Bytes :=
  64 :: vendor ++ ascii "keyframes " ++ name

def viewportHeader (vendor : Bytes) : Bytes := 64 :: vendor ++ ascii "viewport"

mutual

def Rule.text : Rule → Bytes
  | .ruleset selector content => blockText selector.text content []
  | .media queries content =>
    blockText (ascii "@media" ++ queryList [44] (queries.map MediaQuery.text)) [] (Rule.texts content)
  | .supports condition content =>
    blockText (ascii "@supports " ++ condition.text) [] (Rule.texts content)
  | .page name content margins => blockText (pageHeader name) content (margins.map Block.text)
  | .margin block => block.text
  | .fontFace content => blockText (ascii "@font-face") content []
  | .fontFeatures font blocks =>
    blockText (ascii "@font-feature-values " ++ font) [] (blocks.map Block.text)
  | .featureBlock block => block.text
  | .keyframes name vendor frames =>
    blockText (keyframesHeader name vendor) [] (frames.map Keyframe.text)
  | .keyframe frame => frame.text
  | .stop text => text
  | .viewport vendor content => blockText (viewportHeader vendor) content []
  | .counterStyle name content => blockText (ascii "@counter-style " ++ name) content []
  | .charset name => charsetText name
  | .importRule rule => rule.text
  | .namespaceRule rule => rule.text
  | .query q => q.text
  | .feature f => f.text
  | .component c => c.text

def Rule.texts : List Rule → List Bytes
  | [] => []
  | r :: rs => r.text :: Rule.texts rs

end

theorem ruleTextsMap (rs : List Rule) : Rule.texts rs = rs.map Rule.text := by
  induction rs with
  | nil => rfl
  | cons r rs ih => simp [Rule.texts,ih]

def Stylesheet.text (s : Stylesheet) : Bytes :=
  (s.charset.map charsetText).getD [] ++ (s.imports.map Import.text).flatten ++
    (s.namespaces.map Namespace.text).flatten ++ (s.content.map Rule.text).flatten

end Cascade
