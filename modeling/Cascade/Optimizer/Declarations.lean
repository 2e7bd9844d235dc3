import Cascade.Optimizer.Component
import Cascade.Property.Shorthand
import Cascade.Text.Collation

/-! Blocks of declarations: what a later shorthand overrides goes, of equal ones the last stays, the rest is sorted. -/
namespace Cascade

def Declaration.key : Declaration → Bytes
  | .property name .. => name
  | .filter name _ => lower name

def Declaration.optimizeAll (ctx : Context) : List Declaration → Noted (List Declaration)
  | [] => pure []
  | d :: ds => do
    let (d,kept) ← d.optimize ctx
    let rest ← Declaration.optimizeAll ctx ds
    pure (if kept then d :: rest else rest)

/-- The names declared behind some place, and whether the last of each is important. -/
abbrev Declared := List (Bytes × Bool)

def isOverridden (later : Declared) (d : Declaration) : Bool :=
  (shorthandsOf d.key).any fun shorthand =>
    match later.lookup shorthand with
    | some important => important || !d.isImportant
    | none => false

/-- Drops the longhands that a later shorthand overrides, unless they are declared again behind. -/
def withoutOverridden : List Declaration → List Declaration × Declared
  | [] => ([],[])
  | d :: ds =>
    let rest := withoutOverridden ds
    if (rest.2.lookup d.key).isSome then (d :: rest.1,rest.2)
    else if isOverridden rest.2 d then rest
    else (d :: rest.1,(d.key,d.isImportant) :: rest.2)

def nameAtMost (a b : Declaration) : Bool := collate a.key b.key != .gt

/-- Declarations by name; those of one name keep their order, since the last one wins. -/
def sortDeclarations (ds : List Declaration) : List Declaration := ds.mergeSort nameAtMost

def arrangeDeclarations (ds : List Declaration) : List Declaration :=
  sortDeclarations (lastBy Declaration.text (withoutOverridden ds).1)

def optimizeDeclarations (ctx : Context) (ds : List Declaration) : Noted (List Declaration) := do
  let ds ← Declaration.optimizeAll ctx ds
  pure (arrangeDeclarations ds)

end Cascade
