import Cascade.Item.Window

/-! What there is to say about a stylesheet, and results with such notes in the order they were made. -/
namespace Cascade

inductive Note where
  | syntaxError (fault : Fault) (text : Bytes)
  | looseDeclarations (count : Nat)
  | readStylesheet (bytes rules : Nat)
  | skippedAtRule (name : Bytes)
  | invalidCondition (condition : Bytes)
  | invalidQuery (query : Bytes)
  | invalidSelector (selector : Bytes)
  | hackedDeclaration (declaration : Bytes)
  | hackedSelector (selector : Bytes)
  | unsupportedDeclaration (name browsers : Bytes)
  | foreignVendor (name vendor : Bytes)
  | droppedFilter (filter : Bytes)
  | unsupportedKeyframes (vendor name : Bytes)
  deriving DecidableEq, Repr

inductive Level where
  | debug
  | warn
  deriving DecidableEq, Repr

inductive FieldValue where
  | text (s : Bytes)
  | count (n : Nat)
  | flag (b : Bool)
  deriving DecidableEq, Repr

namespace Note

def isReading : Note → Bool
  | syntaxError .. | looseDeclarations _ | readStylesheet .. | skippedAtRule _
  | invalidCondition _ | invalidQuery _ | invalidSelector _ => true
  | _ => false

def level : Note → Level
  | readStylesheet .. => .debug
  | n => if n.isReading then .warn else .debug

def message : Note → Bytes
  | syntaxError .. => ascii "syntax error"
  | looseDeclarations _ => ascii "declarations outside of a rule"
  | readStylesheet .. => ascii "parsed stylesheet"
  | skippedAtRule _ => ascii "skip at-rule"
  | invalidCondition _ => ascii "invalid @supports condition"
  | invalidQuery _ => ascii "invalid media query"
  | invalidSelector _ => ascii "skip invalid selector"
  | hackedDeclaration _ | hackedSelector _ => ascii "remove IE hack"
  | unsupportedDeclaration .. => ascii "remove unsupported declaration"
  | foreignVendor .. => ascii "remove mismatched vendor prefix"
  | droppedFilter _ => ascii "remove IE filter"
  | unsupportedKeyframes .. => ascii "remove unsupported keyframes"

def fields : Note → List (Bytes × FieldValue)
  | syntaxError fault text => [(ascii "error",.text fault.message),(ascii "text",.text text)]
  | looseDeclarations count => [(ascii "count",.count count)]
  | readStylesheet bytes rules => [(ascii "bytes",.count bytes),(ascii "rules",.count rules)]
  | skippedAtRule name => [(ascii "name",.text name)]
  | invalidCondition condition => [(ascii "condition",.text condition)]
  | invalidQuery query => [(ascii "query",.text query)]
  | invalidSelector selector => [(ascii "selector",.text selector)]
  | hackedDeclaration declaration => [(ascii "declaration",.text declaration)]
  | hackedSelector selector => [(ascii "selector",.text selector)]
  | unsupportedDeclaration name browsers =>
    [(ascii "declaration",.text name),(ascii "browsers",.text browsers)]
  | foreignVendor name vendor => [(ascii "declaration",.text name),(ascii "prefix",.text vendor)]
  | droppedFilter filter => [(ascii "filter",.text filter)]
  | unsupportedKeyframes vendor name => [(ascii "prefix",.text vendor),(ascii "name",.text name)]

end Note

structure Noted (α : Type) where
  value : α
  notes : List Note := []

namespace Noted

def note (n : Note) : Noted Unit := ⟨(),[n]⟩

instance : Monad Noted where
  pure a := ⟨a,[]⟩
  bind x f := let y := f x.value; ⟨y.value,x.notes ++ y.notes⟩

instance : LawfulMonad Noted :=
  LawfulMonad.mk' Noted (fun _ => by simp [Functor.map]) (fun _ _ => by simp [bind,pure])
    (fun _ _ _ => by simp [bind])

@[simp] theorem valuePure (a : α) : (pure a : Noted α).value = a := rfl

@[simp] theorem valueBind (x : Noted α) (f : α → Noted β) : (x >>= f).value = (f x.value).value := rfl

@[simp] theorem valueMapM (f : α → Noted β) (as : List α) :
    (as.mapM f).value = as.map fun a => (f a).value := by
  induction as with
  | nil => rfl
  | cons a as ih => simp only [List.mapM_cons,valueBind,valuePure,ih,List.map_cons]

end Noted

end Cascade
