import Cascade.Optimizer.Animation
import Cascade.Optimizer.Rulesets

/-! Rules and stylesheets optimized from the inside out. -/
namespace Cascade

def MediaFeature.optimize (ctx : Context) (f : MediaFeature) : Noted MediaFeature :=
  match f.value with
  | none => pure ⟨lower f.name,none⟩
  | some terms => do
    let terms ← Term.optimize ctx terms
    pure ⟨lower f.name,some terms⟩

def MediaQuery.optimize (ctx : Context) (q : MediaQuery) : Noted MediaQuery := do
  let features ← q.features.mapM (MediaFeature.optimize ctx)
  pure ⟨lower q.restrictor,lower q.medium,distinctBy MediaFeature.text features⟩

def optimizeQueries (ctx : Context) (queries : List MediaQuery) : Noted (List MediaQuery) := do
  let queries ← queries.mapM (MediaQuery.optimize ctx)
  pure (distinctBy MediaQuery.text queries)

/-- An import may name its location by a plain string, which is never longer. -/
def Import.optimize (ctx : Context) (i : Import) : Noted Import := do
  let location := match i.location with
    | .url location => .quoted location
    | other => other
  let media ← optimizeQueries ctx i.media
  pure ⟨location,media⟩

def Namespace.optimize (ctx : Context) (n : Namespace) : Noted Namespace := do
  let location ← n.location.optimize ctx
  pure { n with location := location.component }

def Block.optimize (ctx : Context) (b : Block) : Noted (Option Block) := do
  let content ← optimizeDeclarations ctx b.content
  pure (if content.isEmpty then none else some { b with content := content })

def Block.optimizeAll (ctx : Context) : List Block → Noted (List Block)
  | [] => pure []
  | b :: bs => do
    let b ← b.optimize ctx
    let rest ← Block.optimizeAll ctx bs
    pure (b.toList ++ rest)

def Block.lowerNamed (b : Block) : Block := { b with name := lower b.name }

def keepContent (rule : List Declaration → Rule) (content : List Declaration) : Option Rule :=
  if content.isEmpty then none else some (rule content)

def isHackedSelector (ctx : Context) (selector : Component) : Bool :=
  !selector.isList && !ctx.keepHacks && isHtmlHack selector.text

def Ruleset.optimize (ctx : Context) (r : Ruleset) : Noted (Option Rule) :=
  if isHackedSelector ctx r.selector then do
    Noted.note (.hackedSelector r.selector.text)
    pure none
  else do
    let o ← r.selector.optimize ctx
    if o.kept then do
      let content ← optimizeDeclarations ctx r.content
      pure (keepContent (.ruleset o.component) content)
    else pure none

mutual

def Rule.optimize (ctx : Context) : Rule → Noted (Option Rule)
  | .ruleset selector content => Ruleset.optimize ctx ⟨selector,content⟩
  | .media queries content => do
    let queries ← optimizeQueries ctx queries
    let content ← Rule.optimizeAll ctx content
    let content ← arrangeRules ctx content
    pure (if content.isEmpty then none else some (.media queries content))
  | .supports condition content => do
    let condition ← optimizeQueryCondition ctx condition
    let content ← Rule.optimizeAll ctx content
    let content ← arrangeRules ctx content
    pure (if content.isEmpty then none else some (.supports condition content))
  | .page name content margins => do
    let content ← optimizeDeclarations ctx content
    let margins ← Block.optimizeAll ctx margins
    pure (if content.isEmpty && margins.isEmpty then none else some (.page name content margins))
  | .margin block => do
    let block ← block.optimize ctx
    pure (block.map .margin)
  | .fontFace content => do
    let content ← optimizeDeclarations ctx content
    pure (keepContent .fontFace content)
  | .fontFeatures font blocks => do
    let blocks ← Block.optimizeAll ctx (blocks.map Block.lowerNamed)
    pure (if blocks.isEmpty then none else some (.fontFeatures font blocks))
  | .featureBlock block => do
    let block ← block.lowerNamed.optimize ctx
    pure (block.map .featureBlock)
  | .keyframes name vendor frames => optimizeAnimation ctx name vendor frames
  | .keyframe frame => do
    let frame ← frame.optimize ctx
    pure (frame.map .keyframe)
  | .stop text => pure (some (.stop (optimizeStop text)))
  | .viewport vendor content => do
    let content ← optimizeDeclarations (ctx.inVendor (lower vendor)) content
    pure (keepContent (.viewport (lower vendor)) content)
  | .counterStyle name content => do
    let content ← optimizeDeclarations ctx content
    pure (keepContent (.counterStyle name) content)
  | .charset name => pure (some (.charset name))
  | .importRule rule => do
    let rule ← rule.optimize ctx
    pure (some (.importRule rule))
  | .namespaceRule rule => do
    let rule ← rule.optimize ctx
    pure (some (.namespaceRule rule))
  | .query q => do
    let q ← q.optimize ctx
    pure (some (.query q))
  | .feature f => do
    let f ← f.optimize ctx
    pure (some (.feature f))
  | .component c => do
    let o ← c.optimize ctx
    pure (if o.kept then some (.component o.component) else none)

def Rule.optimizeAll (ctx : Context) : List Rule → Noted (List Rule)
  | [] => pure []
  | r :: rs => do
    let r ← r.optimize ctx
    let rest ← Rule.optimizeAll ctx rs
    pure (r.toList ++ rest)

end

def Stylesheet.optimize (ctx : Context) (s : Stylesheet) : Noted Stylesheet := do
  let imports ← s.imports.mapM (Import.optimize ctx)
  let namespaces ← s.namespaces.mapM (Namespace.optimize ctx)
  let content ← Rule.optimizeAll ctx s.content
  let content ← arrangeRules ctx content
  pure ⟨s.charset,distinctBy Import.text imports,namespaces,content⟩

end Cascade
