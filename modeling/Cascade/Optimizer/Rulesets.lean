import Cascade.Optimizer.Declarations
import Cascade.Optimizer.Plain
import Cascade.Property.Family
import Cascade.Rule.Text
import Cascade.Selector.Compound

/-! Rulesets side by side: joined where that is safe, and freed of what a later one overrides. -/
namespace Cascade

structure Ruleset where
  selector : Component
  content : List Declaration

namespace Ruleset

def rule (r : Ruleset) : Rule := .ruleset r.selector r.content

def ofRule? : Rule → Option Ruleset
  | .ruleset selector content => some ⟨selector,content⟩
  | _ => none

def body (r : Ruleset) : Bytes := declarationsText r.content

def selectors (r : Ruleset) : List Component := r.selector.selectors

def hasVendorPseudo (r : Ruleset) : Bool := r.selector.hasVendorPseudo

def isMergeable (a b : Ruleset) : Bool :=
  a.body == b.body && !a.hasVendorPseudo && !b.hasVendorPseudo

def union (ctx : Context) (a b : Ruleset) : Noted Ruleset := do
  let o ← (Component.list (a.selectors ++ b.selectors)).optimize ctx
  pure { a with selector := o.component }

def extend (ctx : Context) (a b : Ruleset) : Noted Ruleset := do
  let content ← optimizeDeclarations ctx (a.content ++ b.content)
  pure { a with content := content }

/-- The names that a ruleset sets in every browser, and whether it does so importantly. -/
def certain (r : Ruleset) : Declared :=
  let names := (r.content.filter Declaration.overridesFallbacks).map fun d => (d.key,d.isImportant)
  names.map fun n => (n.1,names.any fun m => m.1 == n.1 && m.2)

def withoutCovered (earlier later : Ruleset) : Ruleset :=
  if earlier.selector.isList then earlier
  else
    let certain := later.certain
    { earlier with content := earlier.content.filter fun d =>
        match certain.lookup d.key with
        | some important => !(important || !d.isImportant)
        | none => true }

end Ruleset

/-- A rule put down, with the selectors of a ruleset. It is empty once all of it is overridden. -/
structure Slot where
  rule : Option Rule
  keys : List Bytes := []

def Slot.coveredBy (later : Ruleset) (slot : Slot) : Slot :=
  match slot.rule.bind Ruleset.ofRule? with
  | none => slot
  | some earlier =>
    if (later.selectors.map Component.text).any fun key => slot.keys.contains key then
      let left := earlier.withoutCovered later
      { slot with rule := if left.content.isEmpty then none else some left.rule }
    else slot

structure OpenRuleset where
  ruleset : Ruleset
  keys : List Bytes

def OpenRuleset.of (r : Ruleset) : OpenRuleset := ⟨r,r.selectors.map Component.text⟩

def OpenRuleset.slot (r : OpenRuleset) : Slot := ⟨some r.ruleset.rule,r.keys⟩

def putDown (done : List Slot) (current : Option OpenRuleset) : List Slot :=
  match current with
  | none => done
  | some r => r.slot :: done

/-- Joins a ruleset to the one before it if they share body or selector; otherwise what it overrides earlier goes. -/
def combineFrom (ctx : Context) (done : List Slot) (current : Option OpenRuleset) :
    List Rule → Noted (List Slot)
  | [] => pure (putDown done current).reverse
  | rule :: rules =>
    match Ruleset.ofRule? rule with
    | none => combineFrom ctx (⟨some rule,[]⟩ :: putDown done current) none rules
    | some r =>
      let begin (_ : Unit) : Noted (List Slot) :=
        combineFrom ctx ((putDown done current).map (Slot.coveredBy r)) (some (.of r)) rules
      match current with
      | none => begin ()
      | some last =>
        if last.ruleset.isMergeable r then do
          let joined ← last.ruleset.union ctx r
          combineFrom ctx done (some { last with ruleset := joined }) rules
        else if last.ruleset.selector.text == r.selector.text then do
          let joined ← last.ruleset.extend ctx r
          combineFrom ctx done (some { last with ruleset := joined }) rules
        else begin ()

def combineAdjacent (ctx : Context) (rules : List Rule) : Noted (List Rule) := do
  let slots ← combineFrom ctx [] none rules
  pure (slots.filterMap Slot.rule)

def declarationsInteract (ds es : List Declaration) : Bool :=
  ds.any fun d => es.any fun e => propertiesInteract d.key e.key

def mayPass (r : Ruleset) (rule : Rule) : Bool :=
  match Ruleset.ofRule? rule with
  | none => false
  | some other =>
    !declarationsInteract other.content r.content || areDisjoint other.selectors r.selectors

/-- Moves later rulesets with the same body up into this one, if they may pass what stands between, and returns what is
left behind. What has been passed is kept with the last rule first. -/
def absorb (ctx : Context) (r : Ruleset) (passed : List Rule) : List Rule → Noted (Ruleset × List Rule)
  | [] => pure (r,passed.reverse)
  | rule :: rules =>
    match Ruleset.ofRule? rule with
    | none => absorb ctx r (rule :: passed) rules
    | some other =>
      if r.isMergeable other && passed.all (mayPass other) then do
        let joined ← r.union ctx other
        absorb ctx joined passed rules
      else absorb ctx r (rule :: passed) rules

/-- Joins rulesets with one body across others; `count` bounds the rules. -/
def mergeUpTo (ctx : Context) : Nat → List Rule → Noted (List Rule)
  | 0,rules => pure rules
  | _,[] => pure []
  | count + 1,rule :: rules =>
    match Ruleset.ofRule? rule with
    | none => do
      let rest ← mergeUpTo ctx count rules
      pure (rule :: rest)
    | some r => do
      let (joined,left) ← absorb ctx r [] rules
      let rest ← mergeUpTo ctx count left
      pure (joined.rule :: rest)

def mergeRulesets (ctx : Context) (rules : List Rule) : Noted (List Rule) :=
  mergeUpTo ctx rules.length rules

def withoutRepeated (rules : List Rule) : List Rule := lastBy Rule.text rules

def arrangeRules (ctx : Context) (rules : List Rule) : Noted (List Rule) := do
  let rules ← if ctx.aggressive then mergeRulesets ctx (withoutRepeated rules) else pure rules
  combineAdjacent ctx rules

end Cascade
