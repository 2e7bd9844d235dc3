import Cascade.Optimizer.Selectors
import Cascade.Optimizer.Terms
import Cascade.Property.Vendor

/-! Components optimized from the inside out. -/
namespace Cascade

def propertyName (name : Bytes) : Bytes :=
  if Declaration.isCustomName name then name else lower name

def isHackedDeclaration (name : Bytes) (slashNine : Bool) : Bool := name.head? == some 42 || slashNine

def isForeign (vendor name : Bytes) : Bool :=
  !vendor.isEmpty && isVendored name && !vendor.isPrefixOf name

/-- The value of a property; that of a custom one is kept as written. -/
def finishValue (name : Bytes) (written : List Term) (optimized : Noted (List Term)) :
    Noted (List Term) :=
  if Declaration.isCustomName name then pure written
  else do
    let terms ← optimized
    pure (refineTerms (lower name) terms)

mutual

def Component.optimize (ctx : Context) : Component → Noted Outcome
  | .dimension value unit => pure ⟨optimizeDimension ctx value unit,true⟩
  | .hexColor text => pure ⟨optimizeHex text,true⟩
  | .call name none => pure ⟨.call (lower name) none,true⟩
  | .call name (some args) => do
    let args ← Term.optimize (ctx.inFunction (lower name)) args
    pure ⟨(colorCall? (lower name) args).getD (.call (lower name) (some args)),true⟩
  | .sum left op right => do
    let left ← left.optimize ctx
    let right ← right.optimize ctx
    pure ⟨.sum left.component op right.component,true⟩
  | .product left op right => do
    let left ← left.optimize ctx
    let right ← right.optimize ctx
    pure ⟨.product left.component op right.component,true⟩
  | .expression terms => do
    let terms ← Term.optimize ctx terms
    let terms := refineTerms ctx.declaration terms
    pure ⟨.expression terms,!terms.isEmpty⟩
  | .declaration d => do
    let (d,kept) ← d.optimize ctx
    pure ⟨.declaration d,kept⟩
  | .list selectors => do
    let os ← Component.optimizeAll ctx selectors
    finishList ctx os
  | .compound conditions => do
    let os ← Component.optimizeAll ctx conditions
    pure (finishCompound ctx os)
  | .complex kind left right => do
    let l ← left.optimize ctx
    if l.kept then do
      let r ← right.optimize ctx
      pure ⟨.complex kind l.component r.component,r.kept⟩
    else pure ⟨.complex kind l.component right,false⟩
  | .element name ns hasNs => pure ⟨.element (lower name) (lower ns) hasNs,true⟩
  | .attr name comparison (some (.quoted value)) flag =>
    let value := if isIdent value then .ident value else .quoted value
    pure ⟨.attr (lower name) comparison (some value) (lower flag),true⟩
  | .attr name comparison value flag => pure ⟨.attr (lower name) comparison value (lower flag),true⟩
  | .pseudoElement name => pure ⟨.pseudoElement (lower name),true⟩
  | .pseudoClass name => pure ⟨.pseudoClass (lower name),true⟩
  | .pseudoCall name args => do
    let args ← Term.optimize (ctx.inFunction (lower name)) args
    pure ⟨.pseudoCall (lower name) args,true⟩
  | .negation selector => do
    let s ← selector.optimize ctx
    pure ⟨.negation s.component,s.kept⟩
  | .selectorCall name selector => do
    let s ← selector.optimize ctx
    pure ⟨.selectorCall (lower name) s.component,s.kept⟩
  | .nth name formula => do
    let f ← formula.optimize ctx
    pure ⟨.nth (lower name) (finishFormula f.component),true⟩
  | .linear step offset => pure ⟨if offset == 0.0 then .multiple step else .linear step offset,true⟩
  | .conditions combinator members => do
    let members ← Component.optimizeConditions ctx members
    pure ⟨finishConditions combinator members,true⟩
  | .condition (.declaration (.property name value important slashNine)) negated => do
    let value ← finishValue name value (Term.optimize (ctx.inDeclaration (lower name)) value)
    pure ⟨.condition (.declaration (.property (propertyName name) value important slashNine)) negated,true⟩
  | .condition inner negated => do
    let o ← inner.optimize ctx
    pure ⟨finishCondition o.component negated,true⟩
  | c => pure ⟨c,true⟩

def Component.optimizeAll (ctx : Context) : List Component → Noted (List Outcome)
  | [] => pure []
  | c :: cs => do
    let o ← c.optimize ctx
    let os ← Component.optimizeAll ctx cs
    pure (o :: os)

/-- Members of joined conditions. A declaration is a question to the browser there, so it stays. -/
def Component.optimizeConditions (ctx : Context) : List Component → Noted (List Component)
  | [] => pure []
  | .declaration (.property name value important slashNine) :: cs => do
    let value ← finishValue name value (Term.optimize (ctx.inDeclaration (lower name)) value)
    let rest ← Component.optimizeConditions ctx cs
    pure (.declaration (.property (propertyName name) value important slashNine) :: rest)
  | c :: cs => do
    let o ← c.optimize ctx
    let rest ← Component.optimizeConditions ctx cs
    pure (o.component :: rest)

def Term.optimize (ctx : Context) : List Term → Noted (List Term)
  | [] => pure []
  | ⟨op,value⟩ :: ts => do
    let o ← value.optimize ctx
    let rest ← Term.optimize ctx ts
    pure (if o.kept then ⟨op,o.component⟩ :: rest else rest)

def Declaration.optimize (ctx : Context) : Declaration → Noted (Declaration × Bool)
  | .property written value important slashNine =>
    let name := propertyName written
    if !ctx.keepHacks && isHackedDeclaration name slashNine then do
      let d := Declaration.property name value important slashNine
      Noted.note (.hackedDeclaration d.text)
      pure (d,false)
    else if !ctx.minimums.needsDeclaration name then do
      Noted.note (.unsupportedDeclaration name ctx.minimums.text)
      pure (.property name value important slashNine,false)
    else do
      let value ← finishValue name value (Term.optimize (ctx.inDeclaration (lower name)) value)
      let d := Declaration.property name value important slashNine
      if value.isEmpty then pure (d,false)
      else if isForeign ctx.vendor name then do
        Noted.note (.foreignVendor name ctx.vendor)
        pure (d,false)
      else pure (d,true)
  | .filter name value => do
    if ctx.minimums.needsFilters then pure (.filter name value,true)
    else do
      Noted.note (.droppedFilter value)
      pure (.filter name value,false)

end

def optimizeQueryCondition (ctx : Context) (c : Component) : Noted Component :=
  match c with
  | .declaration (.property name value important slashNine) => do
    let value ← finishValue name value (Term.optimize (ctx.inDeclaration (lower name)) value)
    pure (.declaration (.property (propertyName name) value important slashNine))
  | c => do
    let o ← c.optimize ctx
    pure o.component

end Cascade
