import Cascade.Rule.Text
import Cascade.Component.Pretty

/-! Rules in their readable spelling: one declaration a line, blocks indented. -/
namespace Cascade

def prettyBlock (depth : Nat) (header : Bytes) (ds : List Declaration) (rules : List Bytes) : Bytes :=
  indentation depth ++ header ++ [32,123,10] ++
    (ds.flatMap fun d => indentation (depth + 1) ++ d.pretty (depth + 1) ++ [59,10]) ++
    rules.flatten ++ indentation depth ++ [125,10]

def MediaFeature.pretty (depth : Nat) (f : MediaFeature) : Bytes :=
  match f.value with
  | none => parenthesized f.name
  | some value => parenthesized (f.name ++ [58,32] ++ Term.prettyOf depth value)

def MediaQuery.pretty (q : MediaQuery) : Bytes := q.write (q.features.map (MediaFeature.pretty 0))

def Import.pretty (depth : Nat) (i : Import) : Bytes :=
  indentation depth ++ ascii "@import " ++ i.location.pretty depth ++
    queryList [44,32] (i.media.map MediaQuery.pretty) ++ [59,10]

def Namespace.pretty (depth : Nat) (n : Namespace) : Bytes := indentation depth ++ n.text ++ [10]

def prettyCharset (depth : Nat) (name : Bytes) : Bytes :=
  indentation depth ++ charsetText name ++ [10]

def Block.pretty (depth : Nat) (b : Block) : Bytes := prettyBlock depth (64 :: b.name) b.content []

def Keyframe.prettyStops (k : Keyframe) : Bytes :=
  k.stopsText.flatMap fun b => if b == 44 then [44,32] else [b]

def Keyframe.pretty (depth : Nat) (k : Keyframe) : Bytes :=
  prettyBlock depth k.prettyStops k.content []

mutual

def Rule.pretty (depth : Nat) : Rule → Bytes
  | .ruleset selector content => prettyBlock depth (selector.pretty depth) content []
  | .media queries content =>
    prettyBlock depth (ascii "@media" ++ queryList [44,32] (queries.map MediaQuery.pretty)) []
      (Rule.pretties (depth + 1) content)
  | .supports condition content =>
    prettyBlock depth (ascii "@supports " ++ condition.pretty depth) []
      (Rule.pretties (depth + 1) content)
  | .page name content margins =>
    prettyBlock depth (pageHeader name) content (margins.map (Block.pretty (depth + 1)))
  | .margin block => block.pretty depth
  | .fontFace content => prettyBlock depth (ascii "@font-face") content []
  | .fontFeatures font blocks =>
    prettyBlock depth (ascii "@font-feature-values " ++ font) []
      (blocks.map (Block.pretty (depth + 1)))
  | .featureBlock block => block.pretty depth
  | .keyframes name vendor frames =>
    prettyBlock depth (keyframesHeader name vendor) [] (frames.map (Keyframe.pretty (depth + 1)))
  | .keyframe frame => frame.pretty depth
  | .stop text => text
  | .viewport vendor content => prettyBlock depth (viewportHeader vendor) content []
  | .counterStyle name content => prettyBlock depth (ascii "@counter-style " ++ name) content []
  | .charset name => prettyCharset depth name
  | .importRule rule => rule.pretty depth
  | .namespaceRule rule => rule.pretty depth
  | .query q => q.pretty
  | .feature f => f.pretty depth
  | .component c => c.pretty depth

def Rule.pretties (depth : Nat) : List Rule → List Bytes
  | [] => []
  | r :: rs => r.pretty depth :: Rule.pretties depth rs

end

def Stylesheet.pretty (depth : Nat) (s : Stylesheet) : Bytes :=
  (s.charset.map (prettyCharset depth)).getD [] ++ (s.imports.map (Import.pretty depth)).flatten ++
    (s.namespaces.map (Namespace.pretty depth)).flatten ++
    (s.content.map (Rule.pretty depth)).flatten

/-- Text with another width of indentation: the blanks that start a line are taken for levels. -/
def reindent (width : Nat) (s : Bytes) : Bytes :=
  if width = indentWidth then s
  else [10].intercalate ((fields 10 s).map fun line =>
    let n := (line.takeWhile (· == 32)).length
    spaces (n / indentWidth * width) ++ line.drop n)

end Cascade
