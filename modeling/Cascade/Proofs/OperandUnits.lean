import Cascade.Proofs.Lasting
import Cascade.Proofs.ValueLanguage

/-! Units in calculations, and which zeros lose them. -/
namespace Cascade
open List Component

inductive Branch where
  | left
  | right
  | argument (place : Nat)
  deriving DecidableEq

def EndsAtOperand (way : List Branch) : Prop := way.getLast? = some .left ∨ way.getLast? = some .right

def Component.along (function : Bytes) : List Branch → Component → Option (Bytes × Component)
  | [],c => some (function,c)
  | .left :: way,.sum l _ _ => l.along function way
  | .right :: way,.sum _ _ r => r.along function way
  | .left :: way,.product l _ _ => l.along function way
  | .right :: way,.product _ _ r => r.along function way
  | .argument i :: way,.call name (some args) => args[i]?.bind fun t => t.value.along (lower name) way
  | _,_ => none

mutual

def Component.isReckoned : Component → Bool
  | .number _ | .dimension .. | .quoted _ | .url _ | .ident _ | .hexColor _ | .call _ none => true
  | .call _ (some args) => Term.areReckoned args
  | .sum l _ r | .product l _ r => l.isReckoned && r.isReckoned
  | _ => false

def Term.areReckoned : List Term → Bool
  | [] => true
  | ⟨_,value⟩ :: ts => value.isReckoned && Term.areReckoned ts

def Component.isPlaced (math : Bool) : Component → Bool
  | .call name (some args) => Term.arePlaced (isMath name) args
  | .sum l _ r | .product l _ r => math && l.isPlaced math && r.isPlaced math
  | _ => true

def Term.arePlaced (math : Bool) : List Term → Bool
  | [] => true
  | ⟨_,value⟩ :: ts => value.isPlaced math && Term.arePlaced math ts

end

section
variable {function inner : Bytes} {way : List Branch} {c d : Component}

theorem operandBehind {branch} (ends : EndsAtOperand (branch :: way)) : way = [] ∨ EndsAtOperand way := by
  cases way with
  | nil => exact .inl rfl
  | cons next way => exact .inr ends

theorem argumentBehind {i} (ends : EndsAtOperand (.argument i :: way)) : way ≠ [] := by
  rintro rfl
  rcases ends with ends | ends <;> cases ends

theorem alongCases {branch} (here : c.along function (branch :: way) = some (inner,d)) :
    (∃ l op r, (c = .sum l op r ∨ c = .product l op r) ∧
      (branch = .left ∧ l.along function way = some (inner,d) ∨ branch = .right ∧ r.along function way = some (inner,d))) ∨
    ∃ i name args t, c = .call name (some args) ∧ branch = .argument i ∧ args[i]? = some t ∧
      t.value.along (lower name) way = some (inner,d) := by
  rw [Component.along.eq_def] at here
  split at here
  · rename_i bare
    cases bare
  all_goals
    rename_i first
    try cases first
  · exact .inl ⟨_,_,_,.inl rfl,.inl ⟨rfl,here⟩⟩
  · exact .inl ⟨_,_,_,.inl rfl,.inr ⟨rfl,here⟩⟩
  · exact .inl ⟨_,_,_,.inr rfl,.inl ⟨rfl,here⟩⟩
  · exact .inl ⟨_,_,_,.inr rfl,.inr ⟨rfl,here⟩⟩
  · obtain ⟨t,there,leads⟩ := Option.bind_eq_some_iff.mp here
    exact .inr ⟨_,_,_,t,rfl,rfl,there,leads⟩
  · cases here

end

section
variable {ctx : Context}

theorem reckonedSteady {c : Component} (reckoned : c.isReckoned) : c.isSteady := by
  cases c <;> first | rfl | cases reckoned

theorem reckonedTerms {ts} : Term.areReckoned ts ↔ ∀ t ∈ ts, t.value.isReckoned := by
  induction ts with
  | nil => simp [Term.areReckoned]
  | cons t ts ih =>
    cases t
    simp [Term.areReckoned,ih]

theorem steadyTerms {ts} (steady : ∀ t ∈ ts, t.value.isSteady) :
    (Term.optimize ctx ts).value = ts.map fun t => ⟨t.op,t.value.again ctx⟩ := by
  induction ts with
  | nil => rfl
  | cons t ts ih =>
    obtain ⟨op,value⟩ := t
    obtain ⟨first,rest⟩ := forall_mem_cons.mp steady
    have kept : (value.optimize ctx).value.kept := steadyLasts ctx first
    rw [Term.optimize,Noted.valueBind,Noted.valueBind,Noted.valuePure,if_pos kept,ih rest]
    rfl

theorem alongNoArgument {function inner branch way} {c d : Component}
    (here : c.along function (branch :: way) = some (inner,d)) : colorArgument? (c.again ctx) = none := by
  rcases alongCases here with ⟨l,op,r,rfl | rfl,_⟩ | ⟨_,name,args,_,rfl,_⟩
  · rfl
  · rfl
  · rw [again,optimize,Noted.valueBind,Noted.valuePure]
    dsimp only
    cases found : colorCall? (lower name) (Term.optimize (ctx.inFunction (lower name)) args).value with
    | none => rfl
    | some color => cases colorMade found <;> rfl

theorem mapMissing {α β : Type} {f : α → Option β} {xs : List α} {x} (mem : x ∈ xs) (missing : f x = none) :
    xs.mapM f = none := by
  induction xs with
  | nil => cases mem
  | cons y ys ih =>
    rw [mapM_cons]
    rcases mem_cons.mp mem with rfl | there
    · rw [missing]
      rfl
    · rw [ih there]
      cases f y <;> rfl

theorem colorCallNone {args t} (mem : t ∈ args) (missing : colorArgument? t.value = none)
    (name) : colorCall? name args = none := by
  have spoiled : colorArguments? args = none := by
    rw [colorArguments?,mapMissing mem missing,ite_self]
  simp only [colorCall?,spoiled,ite_self]

theorem alongAgain {function inner way} {c d : Component} (reckoned : c.isReckoned)
    (ends : way = [] ∨ EndsAtOperand way) (here : c.along function way = some (inner,d)) :
    (c.again (ctx.inFunction function)).along function way = some (inner,d.again (ctx.inFunction inner)) := by
  induction way generalizing c function with
  | nil =>
    obtain ⟨rfl,rfl⟩ := Prod.mk.inj (Option.some.inj here)
    rfl
  | cons branch way ih =>
    have ends : EndsAtOperand (branch :: way) := ends.resolve_left (cons_ne_nil branch way)
    rcases alongCases here with ⟨l,op,r,joined,side⟩ | ⟨i,name,args,t,rfl,rfl,there,leads⟩
    · have both : l.isReckoned ∧ r.isReckoned := by
        rcases joined with rfl | rfl <;> exact Bool.and_eq_true_iff.mp reckoned
      rcases joined with rfl | rfl <;> rcases side with ⟨rfl,leads⟩ | ⟨rfl,leads⟩
      · exact ih both.1 (operandBehind ends) leads
      · exact ih both.2 (operandBehind ends) leads
      · exact ih both.1 (operandBehind ends) leads
      · exact ih both.2 (operandBehind ends) leads
    · have each := reckonedTerms.mp reckoned
      have further := each t (mem_of_getElem? there)
      obtain ⟨next,rest,rfl⟩ := exists_cons_of_ne_nil (argumentBehind ends)
      have args' := @steadyTerms (ctx.inFunction (lower name)) args fun u mem => reckonedSteady (each u mem)
      have mem : ⟨t.op,t.value.again (ctx.inFunction (lower name))⟩ ∈
          (Term.optimize (ctx.inFunction (lower name)) args).value := by
        rw [args']
        exact mem_map.mpr ⟨t,mem_of_getElem? there,rfl⟩
      have whole : (call name (some args)).again (ctx.inFunction function) =
          .call (lower name) (some (Term.optimize (ctx.inFunction (lower name)) args).value) := by
        rw [again,optimize,Noted.valueBind,Noted.valuePure]
        exact congrArg (Option.getD · _) (colorCallNone mem (alongNoArgument leads) (lower name))
      rw [whole,along,args',getElem?_map,there,lowerTwice]
      exact ih further (operandBehind ends) leads

end

theorem placedTerms {math ts} : Term.arePlaced math ts ↔ ∀ t ∈ ts, t.value.isPlaced math := by
  induction ts with
  | nil => simp [Term.arePlaced]
  | cons t ts ih =>
    cases t
    simp [Term.arePlaced,ih]

theorem tokenPlaced (math t) : (tokenValue t).isPlaced math := by
  rw [tokenValue]
  split
  case h_4 => split <;> rfl
  all_goals rfl

theorem sumPlaced {left last} (before : ∀ p ∈ left, p.1.isPlaced true) (here : last.isPlaced true) :
    (closeSum left last).isPlaced true := by
  cases left with
  | none => exact here
  | some p => exact Bool.and_eq_true_iff.mpr ⟨before p rfl,here⟩

theorem arrangePlaced {left current rest}
    (before : ∀ p ∈ left, p.1.isPlaced true) (here : current.isPlaced true)
    (behind : ∀ p ∈ rest, p.2.isPlaced true) : ∀ c ∈ arrange left current rest, c.isPlaced true := by
  induction rest generalizing left current with
  | nil =>
    intro c mem
    rw [mem_singleton.mp mem]
    exact sumPlaced before here
  | cons p rest ih =>
    obtain ⟨op,c⟩ := p
    obtain ⟨next,others⟩ := forall_mem_cons.mp behind
    rw [arrange]
    split
    · exact ih before (Bool.and_eq_true_iff.mpr ⟨here,next⟩) others
    split
    · exact forall_mem_cons.mpr ⟨sumPlaced before here,@ih none c (fun _ mem => by cases mem) next others⟩
    · refine ih ?_ next others
      rintro _ ⟨⟩
      exact sumPlaced before here

theorem operandsPlaced {first rest} (here : first.isPlaced true)
    (behind : ∀ p ∈ rest, p.2.isPlaced true) : ∀ c ∈ arrange none first rest, c.isPlaced true :=
  @arrangePlaced none first rest (fun _ mem => by cases mem) here behind

theorem commaPlaced {cs} (each : ∀ c ∈ cs, c.isPlaced true) : Term.arePlaced true (commaTerms cs) := by
  refine placedTerms.mpr ?_
  cases cs with
  | nil => exact forall_mem_nil _
  | cons c cs =>
    obtain ⟨here,others⟩ := forall_mem_cons.mp each
    exact forall_mem_cons.mpr ⟨here,forall_mem_map.mpr others⟩

mutual

theorem readTermsPlaced (math op ts) : ∀ t ∈ readTerms op ts, t.value.isPlaced math := by
  cases ts with
  | nil =>
    rw [readTerms]
    exact forall_mem_nil _
  | cons u rest =>
    have inside := insideLength 0 rest
    have behind := behindLength 0 rest
    rw [readTerms]
    repeat' split
    · exact readTermsPlaced math op rest
    · exact readTermsPlaced math 44 rest
    · exact readTermsPlaced math 47 rest
    · exact readTermsPlaced math 61 rest
    · exact forall_mem_cons.mpr ⟨readCallPlaced math ..,readTermsPlaced math 0 _⟩
    · exact forall_mem_cons.mpr ⟨rfl,readTermsPlaced math 0 _⟩
    · exact forall_mem_cons.mpr ⟨tokenPlaced math u,readTermsPlaced math 0 rest⟩
termination_by 2 * ts.length
decreasing_by
  all_goals
    simp only [length_cons]
    omega

theorem readCallPlaced (math name args) : (readCall name args).isPlaced math := by
  have terms := fun math => placedTerms.mpr (readTermsPlaced math 0 args)
  rw [readCall.eq_def]
  dsimp only
  split
  · rfl
  · rfl
  · split
    · rename_i reckons
      split
      · rename_i first rest found
        obtain ⟨here,others⟩ := readOperandPlaced .edge args _ found
        rw [isPlaced,show isMath name from reckons]
        exact commaPlaced (operandsPlaced here others)
      · exact terms _
    · exact terms _
termination_by 2 * args.length + 1

theorem readOperandPlaced (place ts) : ∀ r ∈ readOperand place ts,
    r.1.isPlaced true ∧ ∀ p ∈ r.2, p.2.isPlaced true := by
  cases ts with
  | nil =>
    rw [readOperand]
    exact fun _ found => by cases found
  | cons t rest =>
    intro r found
    have inside := blockInsideLength rest
    have behind := behindLength 0 rest
    rw [readOperand] at found
    split at found
    · exact readOperandPlaced place rest r found
    split at found
    · split at found
      · cases found
      rename_i first more group
      split at found
      · rename_i c whole
        obtain ⟨ops,others,rfl⟩ := Option.map_eq_some_iff.mp found
        obtain ⟨here,next⟩ := readOperandPlaced .parens _ _ group
        refine ⟨operandsPlaced here next c ?_,readOperatorsPlaced place.inner _ ops others⟩
        rw [whole]
        exact mem_singleton_self c
      · cases found
    · split at found
      · obtain ⟨ops,others,rfl⟩ := Option.map_eq_some_iff.mp found
        exact ⟨readCallPlaced true _ _,readOperatorsPlaced place.inner _ ops others⟩
      split at found
      · obtain ⟨ops,others,rfl⟩ := Option.map_eq_some_iff.mp found
        exact ⟨tokenPlaced true t,readOperatorsPlaced place.inner _ ops others⟩
      · cases found
termination_by 2 * ts.length
decreasing_by
  all_goals
    simp only [length_cons]
    omega

theorem readOperatorsPlaced (place ts) : ∀ r ∈ readOperators place ts, ∀ p ∈ r, p.2.isPlaced true := by
  cases ts with
  | nil =>
    rw [readOperators]
    rintro _ ⟨⟩
    exact forall_mem_nil _
  | cons t rest =>
    intro r found
    have next : ∀ place op, (readOperand place rest).map (fun r => (op,r.1) :: r.2) = some r →
        ∀ p ∈ r, p.2.isPlaced true := by
      intro place op found
      obtain ⟨operand,others,rfl⟩ := Option.map_eq_some_iff.mp found
      exact forall_mem_cons.mpr (readOperandPlaced place rest operand others)
    rw [readOperators] at found
    split at found
    · exact readOperatorsPlaced place rest r found
    split at found
    · exact readOperatorsPlaced .edge rest r found
    split at found
    · exact next _ _ found
    split at found
    · split at found
      · cases found
        exact forall_mem_nil _
      · exact next _ _ found
    · cases found
termination_by 2 * ts.length

end

theorem placedAlong {function inner math way} {c d : Component}
    (placed : c.isPlaced math) (around : math → mathFunctions.contains function)
    (ends : EndsAtOperand way) (here : c.along function way = some (inner,d)) : mathFunctions.contains inner := by
  induction way generalizing c function math with
  | nil => rcases ends with ends | ends <;> cases ends
  | cons branch way ih =>
    rcases alongCases here with ⟨l,op,r,joined,side⟩ | ⟨i,name,args,t,rfl,rfl,there,leads⟩
    · have parts : math ∧ l.isPlaced math ∧ r.isPlaced math := by
        rcases joined with rfl | rfl <;> simpa [isPlaced,and_assoc] using placed
      have along : (∃ e : Component, e.isPlaced math ∧ e.along function way = some (inner,d)) := by
        rcases side with ⟨_,leads⟩ | ⟨_,leads⟩
        · exact ⟨l,parts.2.1,leads⟩
        · exact ⟨r,parts.2.2,leads⟩
      obtain ⟨e,further,leads⟩ := along
      rcases operandBehind ends with rfl | ends
      · rw [← (Prod.mk.inj (Option.some.inj leads)).1]
        exact around parts.1
      · exact ih further around ends leads
    · have further := placedTerms.mp placed t (mem_of_getElem? there)
      exact ih further id ((operandBehind ends).resolve_left (argumentBehind ends)) leads

theorem dimensionBare (ctx value unit) :
    (∃ n, optimizeDimension ctx value unit = .number n) ↔ unit = [] ∨ compactNumber value = [48] ∧
      isZeroBound (canonicalUnit unit) = false ∧ keepsZeroUnit ctx.function = false := by
  rw [optimizeDimension]
  by_cases bare : unit = []
  · simp [bare]
  by_cases zero : compactNumber value = [48] ∧ isZeroBound (canonicalUnit unit) = false ∧
      keepsZeroUnit ctx.function = false
  · simp [bare,zero]
  · have kept : (compactNumber value == [48] && !isZeroBound (canonicalUnit unit) && !keepsZeroUnit ctx.function) = false := by
      simpa [and_assoc] using zero
    simp [bare,kept,zero]

theorem mathKeepers {function} (math : mathFunctions.contains function) :
    keepsZeroUnit function = false ↔ function = ascii "-webkit-calc" ∨ function = ascii "-moz-calc" := by
  rw [contains_iff_mem] at math
  simp only [mathFunctions,mem_cons,not_mem_nil,or_false] at math
  rcases math with rfl | rfl | rfl | rfl | rfl | rfl <;> decide

/- An operand of a sum or product keeps its place at any depth of a call. It becomes a bare number if it has no unit, and
else exactly if it is a zero, no percentage or time, and the innermost function around it does not keep such units. -/
theorem operandUnitsKept (ctx : Context) {name : Bytes} {args : List Term} (reckoned : Term.areReckoned args = true)
    {way : List Branch} (operand : EndsAtOperand way) {function unit : Bytes} {value : Float}
    (here : (call name (some args)).along [] way = some (function,.dimension value unit)) :
    ∃ c, ((call name (some args)).optimize ctx).value.component.along [] way = some (function,c) ∧
      ((∃ n, c = .number n) ↔ unit = [] ∨ compactNumber value = [48] ∧ isZeroBound (canonicalUnit unit) = false ∧
        keepsZeroUnit function = false) ∧
      ∀ ts, readCall name ts = .call name (some args) →
        (keepsZeroUnit function = false ↔ function = ascii "-webkit-calc" ∨ function = ascii "-moz-calc") := by
  refine ⟨optimizeDimension (ctx.inFunction function) value unit,?_,dimensionBare _ value unit,fun ts read => ?_⟩
  · exact @alongAgain ctx [] function way (.call name (some args)) _ reckoned (Or.inr operand) here
  · have placed := readCallPlaced false name ts
    rw [read] at placed
    exact mathKeepers (placedAlong placed (fun math => by cases math) operand here)

def zeroSum : List Term := [⟨0,.sum (.dimension 0.0 (ascii "px")) 43 (.dimension 1.0 (ascii "em"))⟩]

theorem prefixedZeroBare :
    (∃ n, ((call (ascii "-webkit-calc") (some zeroSum)).optimize {}).value.component.along []
      [.argument 0,.left] = some (ascii "-webkit-calc",.number n)) ∧
    ∃ c, ((call (ascii "calc") (some zeroSum)).optimize {}).value.component.along []
      [.argument 0,.left] = some (ascii "calc",c) ∧ ¬∃ n, c = .number n := by
  have zero : compactNumber 0.0 = [48] := by decide +kernel
  obtain ⟨c,there,bare,_⟩ := @operandUnitsKept {} (ascii "-webkit-calc") zeroSum rfl [.argument 0,.left] (Or.inl rfl)
    (ascii "-webkit-calc") (ascii "px") 0.0 rfl
  obtain ⟨d,beside,kept,_⟩ := @operandUnitsKept {} (ascii "calc") zeroSum rfl [.argument 0,.left] (Or.inl rfl)
    (ascii "calc") (ascii "px") 0.0 rfl
  obtain ⟨n,rfl⟩ := bare.mpr (Or.inr ⟨zero,by decide,by decide⟩)
  refine ⟨⟨n,there⟩,d,beside,fun lost => ?_⟩
  rcases kept.mp lost with void | ⟨_,_,leaves⟩
  · exact absurd void (by decide)
  · exact absurd leaves (by decide)

end Cascade
