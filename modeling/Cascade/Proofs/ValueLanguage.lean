import Cascade.Value.Reader
import Cascade.Proofs.Closed

/-! The language of values: terms of single tokens, function calls, and calculations. What each
value is written before is kept track of, since a token may go on into it. -/
namespace Cascade

def operatorByte (op : UInt8) : UInt8 := if op == 0 then 32 else op

/- What stands behind a value, given the terms that follow and what stands behind them. -/
def following (after : Bytes) : List Term → Bytes
  | [] => after
  | t :: _ => [operatorByte t.op]

def isMath (name : Bytes) : Bool := mathFunctions.contains (lower name)

structure FunctionName (name : Bytes) : Prop where
  ends : EndsName name [40]
  call : isUrlName name = false
  other : (lower name == ascii "url") = false

def valueKinds : List TokenKind := [.number,.percentage,.dimension,.hash,.string,.url,.ident,.customName]

def operandKinds : List TokenKind := [.number,.percentage,.dimension,.ident]

def isPlusOrMinus (op : UInt8) : Prop := op = 43 ∨ op = 45

def isTimesOrOver (op : UInt8) : Prop := op = 42 ∨ op = 47

mutual

inductive ValueIn (leaf : List TokenKind → Bytes → Component → Prop) : Bytes → Component → Prop where
  | single {after : Bytes} {v : Component} (fits : leaf valueKinds after v) : ValueIn leaf after v
  | call {after name : Bytes} {v : Component} {ts : List Term} (function : FunctionName name)
      (plain : isMath name = false) (first : ValueIn leaf (following [41] ts) v) (rest : TermsIn leaf [41] ts) :
      ValueIn leaf after (.call name (some (⟨0,v⟩ :: ts)))
  | math {after name : Bytes} {c : Component} {ts : List Term} (function : FunctionName name)
      (math : isMath name = true) (first : MathIn leaf (following [41] ts) c) (rest : ArgumentsIn leaf ts) :
      ValueIn leaf after (.call name (some (⟨0,c⟩ :: ts)))

inductive TermsIn (leaf : List TokenKind → Bytes → Component → Prop) : Bytes → List Term → Prop where
  | nil {after : Bytes} : TermsIn leaf after []
  | cons {after : Bytes} {op : UInt8} {v : Component} {ts : List Term} (joins : op ∈ [0,44,47,61])
      (value : ValueIn leaf (following after ts) v) (rest : TermsIn leaf after ts) : TermsIn leaf after (⟨op,v⟩ :: ts)

inductive MathIn (leaf : List TokenKind → Bytes → Component → Prop) : Bytes → Component → Prop where
  | single {after : Bytes} {v : Component} (fits : leaf operandKinds after v) : MathIn leaf after v
  | call {after name : Bytes} {args : List Term} (value : ValueIn leaf after (.call name (some args))) :
      MathIn leaf after (.call name (some args))
  | sum {after : Bytes} {l r : Component} {op : UInt8} (joins : isPlusOrMinus op) (left : MathIn leaf [32] l)
      (right : MathIn leaf (if r.isSum then [41] else after) r) : MathIn leaf after (.sum l op r)
  | product {after : Bytes} {l r : Component} {op : UInt8} (joins : isTimesOrOver op)
      (left : MathIn leaf (if l.isSum then [41] else [op]) l)
      (right : MathIn leaf (if r.isSum || r.isProduct then [41] else after) r) :
      MathIn leaf after (.product l op r)

inductive ArgumentsIn (leaf : List TokenKind → Bytes → Component → Prop) : List Term → Prop where
  | nil : ArgumentsIn leaf []
  | cons {c : Component} {ts : List Term} (first : MathIn leaf (following [41] ts) c)
      (rest : ArgumentsIn leaf ts) : ArgumentsIn leaf (⟨44,c⟩ :: ts)

end

inductive WholeValue (leaf : List TokenKind → Bytes → Component → Prop) : List Term → Prop where
  | cons {v : Component} {ts : List Term} (first : ValueIn leaf (following [] ts) v) (rest : TermsIn leaf [] ts) :
      WholeValue leaf (⟨0,v⟩ :: ts)

def IsSingle (kinds : List TokenKind) (v : Component) : Prop :=
  ∃ t, tokens v.text = [t] ∧ t.kind ∈ kinds ∧ tokenValue t = v

def IsApart (kinds : List TokenKind) (after : Bytes) (v : Component) : Prop :=
  IsSingle kinds v ∧ Closed v.text after

def operands : Component → Component × List (UInt8 × Component)
  | .sum l op r =>
    ((operands l).1,(operands l).2 ++ (if r.isSum then [(op,r)] else (op,(operands r).1) :: (operands r).2))
  | .product l op r =>
    if l.isSum then (l,[(op,r)]) else ((operands l).1,(operands l).2 ++ [(op,r)])
  | c => (c,[])

theorem singleAtom {kinds v} (single : IsSingle kinds v) :
    v.isSum = false ∧ v.isProduct = false ∧ operands v = (v,[]) := by
  obtain ⟨t,_,_,rfl⟩ := single
  rw [tokenValue.eq_def]
  split
  any_goals exact ⟨rfl,rfl,rfl⟩
  split <;> exact ⟨rfl,rfl,rfl⟩

theorem singleCall {kinds name args} (single : IsSingle kinds (.call name args)) : False := by
  obtain ⟨t,_,_,same⟩ := single
  rw [tokenValue.eq_def] at same
  split at same
  any_goals cases same
  split at same <;> cases same

variable {after : Bytes} {c : Component} (left : Option (Component × UInt8)) (rest : List (UInt8 × Component))

theorem arrangeTimes {op} (joins : isTimesOrOver op) (current c) :
    arrange left current ((op,c) :: rest) = arrange left (.product current op c) rest := by
  rcases joins with rfl | rfl <;> rfl

theorem arrangePlus {op} (joins : isPlusOrMinus op) (current c) :
    arrange left current ((op,c) :: rest) = arrange (some (closeSum left current,op)) c rest := by
  rcases joins with rfl | rfl <;> rfl

theorem arrangeFactor {after c} (left)
    (rest) : MathIn IsApart after c → c.isSum = false →
    arrange left (operands c).1 ((operands c).2 ++ rest) = arrange left c rest
  | .single fits,_ => by rw [(singleAtom fits.1).2.2]; rfl
  | .call _,_ => rfl
  | .product (l := l) (r := r) joins first _,_ => by
    rw [operands]
    split
    · exact arrangeTimes left rest joins l r
    · rename_i factor
      rw [List.append_assoc]
      exact (arrangeFactor left _ first (by simpa using factor)).trans (arrangeTimes left rest joins l r)

def pendingSum : Component → Option (Component × UInt8) × Component
  | .sum l op r => (some (l,op),r)
  | c => (none,c)

theorem closePending (c) : closeSum (pendingSum c).1 (pendingSum c).2 = c := by
  cases c <;> rfl

theorem pendingFactor {c} (factor : c.isSum = false) : pendingSum c = (none,c) := by
  cases c with
  | sum => cases factor
  | _ => rfl

theorem arrangeSum {after c} (rest) : MathIn IsApart after c →
    arrange none (operands c).1 ((operands c).2 ++ rest) = arrange (pendingSum c).1 (pendingSum c).2 rest
  | .single fits => by
    have factor := (singleAtom fits.1).1
    rw [pendingFactor factor]
    exact arrangeFactor none rest (.single fits) factor
  | .call _ => rfl
  | .product joins first second => arrangeFactor none rest (.product joins first second) rfl
  | .sum (l := l) (r := r) joins first second => by
    rw [operands,List.append_assoc,arrangeSum _ first]
    split
    · refine (arrangePlus _ _ joins _ r).trans ?_
      rw [closePending]
      rfl
    · rename_i factor
      refine (arrangePlus _ _ joins _ _).trans ?_
      rw [closePending]
      exact arrangeFactor _ rest second (by simpa using factor)

def argumentOperands : List Term → List (UInt8 × Component)
  | [] => []
  | t :: ts => (44,(operands t.value).1) :: ((operands t.value).2 ++ argumentOperands ts)

theorem arrangeArguments {after} {c} {ts} (first : MathIn IsApart after c) :
    ArgumentsIn IsApart ts →
    arrange none (operands c).1 ((operands c).2 ++ argumentOperands ts) = c :: ts.map Term.value
  | .nil => by
    rw [arrangeSum _ first]
    exact congrArg (fun d => [d]) (closePending c)
  | .cons second rest => by
    rw [arrangeSum _ first]
    exact congrArg₂ List.cons (closePending c) (arrangeArguments second rest)

end Cascade
