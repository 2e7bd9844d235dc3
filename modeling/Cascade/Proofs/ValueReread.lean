import Cascade.Proofs.ValueText

/-! Values are read as they were written. -/
namespace Cascade
open List
open Component (text)
open Token (isBlank space comma isDelim)
open Term (textOf)

variable {name : Bytes} {op : UInt8}

section
variable {op : UInt8} {rest : List Token}

theorem readToken {t} (kind : t.kind ∈ valueKinds) :
    readTerms op (t :: rest) = ⟨op,tokenValue t⟩ :: readTerms 0 rest := by
  rw [readTerms]
  simp only [valueKinds,mem_cons,not_mem_nil,or_false] at kind
  rcases kind with h | h | h | h | h | h | h | h <;> simp [isBlank,isDelim,h]

theorem readSingle {v} (single : IsSingle valueKinds v) :
    readTerms op (tokens v.text ++ rest) = ⟨op,v⟩ :: readTerms 0 rest := by
  obtain ⟨t,spelled,kind,rfl⟩ := single
  rw [spelled]
  exact readToken kind

theorem readFunction {ts} (balanced : Balanced ts) :
    readTerms op (⟨.function,name ++ [40]⟩ :: (ts ++ rightParen :: rest)) =
      ⟨op,readCall name ts⟩ :: readTerms 0 rest := by
  rw [readTerms]
  simp [isBlank,isDelim,Token.functionName,untilCloseParen balanced]

theorem readOperatorToken (joins : op ∈ [0,44,47,61]) : readTerms 0 (operatorToken op :: rest) = readTerms op rest := by
  simp only [mem_cons,not_mem_nil,or_false] at joins
  rcases joins with rfl | rfl | rfl | rfl <;> rw [readTerms] <;>
    simp [operatorToken,isBlank,isDelim,space,comma]

end

section
variable {name : Bytes} {ts : List Token} (function : FunctionName name)
  (solid : ∃ t us, ts = t :: us ∧ t.isBlank = false)
include function solid

theorem readPlainCall (plain : isMath name = false) : readCall name ts = .call name (some (readTerms 0 ts)) := by
  obtain ⟨t,us,rfl,solid⟩ := solid
  rw [isMath] at plain
  rw [readCall,function.other,trimTokensSolid solid,plain]
  simp

theorem readMathCall (math : isMath name) {first more} (operands : readOperand .edge ts = some (first,more)) :
    readCall name ts = .call name (some (commaTerms (arrange none first more))) := by
  obtain ⟨t,us,rfl,solid⟩ := solid
  rw [isMath] at math
  rw [readCall,function.other,trimTokensSolid solid,math,operands]
  simp

end

section
variable {place : MathPlace} {rest : List Token}

theorem innerTwice (place : MathPlace) : place.inner.inner = place.inner := by
  cases place <;> rfl

theorem innerWithin (place : MathPlace) : place.inner ≠ .edge := by
  cases place <;> exact nofun

theorem operandSingle {v} (single : IsSingle operandKinds v) :
    readOperand place (tokens v.text ++ rest) = (readOperators place.inner rest).map fun r => (v,r) := by
  obtain ⟨t,spelled,kind,rfl⟩ := single
  rw [spelled,cons_append,nil_append,readOperand]
  simp only [operandKinds,mem_cons,not_mem_nil,or_false] at kind
  rcases kind with h | h | h | h <;> simp [h]

theorem operandFunction {ts} (balanced : Balanced ts) :
    readOperand place (⟨.function,name ++ [40]⟩ :: (ts ++ rightParen :: rest)) =
      (readOperators place.inner rest).map fun r => (readCall name ts,r) := by
  rw [readOperand]
  simp [Token.functionName,blockInside,untilCloseParen balanced]

theorem operandParens {c ts} (balanced : Balanced ts) {first}
    {more} (inside : readOperand .parens ts = some (first,more)) (whole : arrange none first more = [c]) :
    readOperand place (leftParen :: (ts ++ rightParen :: rest)) =
      (readOperators place.inner rest).map fun r => (c,r) := by
  rw [readOperand]
  simp [leftParen,blockInside,untilCloseParen balanced,inside,whole]

theorem operandSpace : readOperand place (space :: rest) = readOperand place rest := by
  rw [readOperand,if_pos (.inl rfl)]

theorem operatorsSpace : readOperators place (space :: rest) = readOperators place rest := by
  rw [readOperators]
  exact if_pos rfl

theorem operatorsSign (joins : isPlusOrMinus op ∨ isTimesOrOver op) (within : place ≠ .edge) :
    readOperators place (⟨.delim,[op]⟩ :: rest) = (readOperand place rest).map fun r => (op,r.1) :: r.2 := by
  rw [readOperators]
  rcases joins with (rfl | rfl) | (rfl | rfl) <;> simp [Token.isOneOf,within]

theorem operatorsComma (full : rest ≠ []) :
    readOperators .argument (comma :: rest) = (readOperand .edge rest).map fun r => (44,r.1) :: r.2 := by
  rw [readOperators]
  simp [comma,Token.isOneOf,full]

end

def Rereads (v : Component) : Prop :=
  IsSingle valueKinds v ∨ ∃ name inner, tokens v.text = ⟨.function,name ++ [40]⟩ :: (inner ++ [rightParen]) ∧
    Balanced inner ∧ readCall name inner = v

theorem rereadTerm {v} (rereads : Rereads v) (op rest) :
    readTerms op (tokens v.text ++ rest) = ⟨op,v⟩ :: readTerms 0 rest := by
  rcases rereads with single | ⟨name,inner,spelled,balanced,rfl⟩
  · exact readSingle single
  · rw [spelled,cons_append,append_assoc]
    exact readFunction balanced

theorem rereadOperand {args} (rereads : Rereads (.call name args)) (place) (rest) :
    readOperand place (tokens (Component.call name args).text ++ rest) =
      (readOperators place.inner rest).map fun r => (.call name args,r) := by
  rcases rereads with single | ⟨other,inner,spelled,balanced,same⟩
  · exact (singleCall single).elim
  · rw [spelled,cons_append,append_assoc,← same]
    exact operandFunction balanced

theorem termsTokens {after s ts} (ops : ∀ t ∈ ts, t.op ∈ [0,44,47,61])
    (first : Spelled (following after ts) s) : tokens (s ++ tailText ts) = tokens s ++ tokens (tailText ts) := by
  cases ts with
  | nil => exact closedNil s
  | cons t ts => exact first.closed _ rfl fun b mem => by cases mem; exact operatorStop (ops t mem_cons_self)

theorem termTokens {after v ts} (joins : op ∈ [0,44,47,61]) (spelled : Spelled after (v.text ++ tailText ts)) :
    tokens (tailText (⟨op,v⟩ :: ts)) = operatorToken op :: tokens (v.text ++ tailText ts) :=
  operatorTokens op joins spelled.starts

theorem commaTermsSelf {c ts} (commas : ∀ t ∈ ts, t.op = 44) : commaTerms (c :: ts.map Term.value) = ⟨0,c⟩ :: ts := by
  rw [commaTerms,map_map]
  have each : ∀ t ∈ ts, (Term.mk 44 ∘ Term.value) t = id t := by
    rintro ⟨op,value⟩ mem
    exact congrArg (Term.mk · value) (commas _ mem).symm
  exact congrArg (_ :: ·) ((map_congr_left each).trans (map_id ts))

theorem rereadsCall {v ts} (function : FunctionName name)
    (spelled : Spelled [41] (v.text ++ tailText ts))
    (read : readCall name (tokens (v.text ++ tailText ts)) = .call name (some (⟨0,v⟩ :: ts))) :
    Rereads (.call name (some (⟨0,v⟩ :: ts))) := by
  refine .inr ⟨name,tokens (v.text ++ tailText ts),?_,spelled.balanced,read⟩
  rw [text,termsText]
  exact callAlone function spelled

theorem sumTokens {after s t} (joins : isPlusOrMinus op) (left : Spelled [32] s) (right : Spelled after t) :
    tokens (s ++ [32,op,32] ++ t) = tokens s ++ space :: ⟨.delim,[op]⟩ :: space :: tokens t := by
  rw [append_assoc]
  have apart : Closed s (32 :: op :: 32 :: t) := left.closed _ rfl fun b mem => by cases mem; rfl
  exact apart.trans (by rw [plusTokens joins right.starts]; rfl)

theorem productTokens {after s t} (joins : isTimesOrOver op) (left : Spelled [op] s) (right : Spelled after t) :
    tokens (s ++ [op] ++ t) = tokens s ++ ⟨.delim,[op]⟩ :: tokens t := by
  rw [append_assoc]
  have apart : Closed s (op :: t) :=
    left.closed _ rfl fun b mem => by cases mem; rcases joins with rfl | rfl <;> rfl
  exact apart.trans (by rw [timesTokens joins right.starts])

def ReadsOperands (c : Component) : Prop := ∀ place rest, readOperand place (tokens c.text ++ rest) =
  (readOperators place.inner rest).map fun r => ((operands c).1,(operands c).2 ++ r)

theorem argumentsOperand {c ts} (args : ArgumentsIn IsApart ts)
    (spelled : Spelled (following [41] ts) c.text) (first : ReadsOperands c)
    (rest : readOperators .argument (tokens (tailText ts)) = some (argumentOperands ts)) :
    readOperand .edge (tokens (c.text ++ tailText ts)) = some ((operands c).1,(operands c).2 ++ argumentOperands ts) := by
  rw [termsTokens (argumentsOperators args) spelled,first,MathPlace.inner,rest]
  rfl

def operandsIn (parens : Bool) (c : Component) : Component × List (UInt8 × Component) :=
  if parens then (c,[]) else operands c

theorem operandRead {after c} {parens : Bool}
    (math : MathIn IsApart (if parens then [41] else after) c) (inner : ReadsOperands c) (place) (rest) :
    readOperand place (tokens (if parens then parenthesized c.text else c.text) ++ rest) =
      (readOperators place.inner rest).map fun r => ((operandsIn parens c).1,(operandsIn parens c).2 ++ r) := by
  cases parens with
  | false => exact inner place rest
  | true =>
    have spelled := mathSpelled math
    have whole := inner .parens []
    have bare : readOperators MathPlace.parens.inner [] = some [] := by rw [readOperators]
    have once := arrangeArguments math .nil
    rw [argumentOperands,append_nil] at once
    rw [append_nil,bare,Option.map_some,append_nil] at whole
    rw [if_pos rfl,parenthesizedAlone (beforeParen spelled.toTrails []),cons_append,append_assoc]
    exact operandParens spelled.balanced whole once

theorem operandsSum (l r op) : operands (.sum l op r) =
    ((operands l).1,(operands l).2 ++ (op,(operandsIn r.isSum r).1) :: (operandsIn r.isSum r).2) := by
  rw [operands,operandsIn]
  split <;> rfl

theorem operandsProduct (l r op) : operands (.product l op r) =
    ((operandsIn l.isSum l).1,(operandsIn l.isSum l).2 ++ [(op,r)]) := by
  rw [operands,operandsIn]
  split <;> rfl

theorem operandsFactor {after c} (math : MathIn IsApart after c) : operandsIn (c.isSum || c.isProduct) c = (c,[]) := by
  cases math with
  | single fits =>
    obtain ⟨sum,product,atom⟩ := singleAtom fits.1
    rw [sum,product]
    exact atom
  | _ => rfl

mutual

theorem valueRead {after v} : ValueIn IsApart after v → Rereads v
  | .single fits => .inl fits.1
  | .call function plain first rest => by
    have spelled := spelledTerms (termsJoin rest) (valueSpelled first) (termsTrail rest)
    refine rereadsCall function spelled ?_
    rw [readPlainCall function spelled.solid plain,termsTokens (termsJoin rest) (valueSpelled first),
      rereadTerm (valueRead first),termsRead rest]
  | .math function math first rest => by
    have spelled := spelledTerms (argumentsOperators rest) (mathSpelled first) (argumentsTrail rest)
    have read := argumentsOperand rest (mathSpelled first) (mathRead first) (argumentsRead rest)
    refine rereadsCall function spelled ?_
    rw [readMathCall function spelled.solid math read,arrangeArguments first rest,commaTermsSelf (argumentsJoin rest)]

theorem termsRead {after ts} : TermsIn IsApart after ts → readTerms 0 (tokens (tailText ts)) = ts
  | .nil => by
    rw [tailText,flatMap_nil,tokens,tokensFrom,readTerms]
  | .cons joins value rest => by
    have spelled := spelledTerms (termsJoin rest) (valueSpelled value) (termsTrail rest)
    rw [termTokens joins spelled,readOperatorToken joins,termsTokens (termsJoin rest) (valueSpelled value),
      rereadTerm (valueRead value),termsRead rest]

theorem mathRead {after c} : MathIn IsApart after c → ReadsOperands c
  | .single fits => fun place rest => by
    rw [(singleAtom fits.1).2.2]
    exact operandSingle fits.1
  | .call value => rereadOperand (valueRead value)
  | .sum joins left right => fun place rest => by
    have second := operandRead right (mathRead right) place.inner rest
    rw [text,sumTokens joins (mathSpelled left) (spelledOperand (mathSpelled right)),append_assoc,
      mathRead left,cons_append,operatorsSpace,cons_append,operatorsSign (.inl joins) (innerWithin place),
      cons_append,operandSpace,second,innerTwice,operandsSum,Option.map_map,Option.map_map]
    simp [Function.comp_def]
  | .product joins left right => fun place rest => by
    have second := operandRead right (mathRead right) place.inner rest
    rw [operandsFactor right] at second
    rw [text,productTokens joins (spelledOperand (mathSpelled left)) (spelledOperand (mathSpelled right)),
      append_assoc,operandRead left (mathRead left),cons_append,operatorsSign (.inr joins) (innerWithin place),
      second,innerTwice,operandsProduct,Option.map_map,Option.map_map]
    simp [Function.comp_def]

theorem argumentsRead {ts} : ArgumentsIn IsApart ts →
    readOperators .argument (tokens (tailText ts)) = some (argumentOperands ts)
  | .nil => by
    rw [tailText,flatMap_nil,tokens,tokensFrom,readOperators,argumentOperands]
  | .cons first rest => by
    have spelled := spelledTerms (argumentsOperators rest) (mathSpelled first) (argumentsTrail rest)
    have read := argumentsOperand rest (mathSpelled first) (mathRead first) (argumentsRead rest)
    obtain ⟨t,us,heads,_⟩ := spelled.solid
    rw [termTokens (by decide) spelled]
    refine (operatorsComma (by rw [heads]; exact cons_ne_nil t us)).trans ?_
    rw [read]
    rfl

end

/- A value is read as it was written, with its operators and groups, if each of its tokens is
told apart from what stands behind it. -/
theorem valueReread {e : List Term} (whole : WholeValue IsApart e) : readValue (tokens (Term.textOf e)) = e := by
  obtain ⟨first,rest⟩ := whole
  rw [Term.textOf,termsText,termsTokens (termsJoin rest) (valueSpelled first),readValue,rereadTerm (valueRead first),
    termsRead rest]

def nestedValue : List Term :=
  [⟨0,.call (ascii "calc") (some [⟨0,.product (.product (.ident (ascii "a")) 47 (.sum (.ident (ascii "b")) 45
      (.sum (.ident (ascii "c")) 43 (.call (ascii "var") (some [⟨0,.ident (ascii "d")⟩,⟨47,.ident (ascii "e")⟩]))))) 42
        (.product (.ident (ascii "f")) 42 (.ident (ascii "g")))⟩,⟨44,.ident (ascii "h")⟩])⟩,
    ⟨61,.ident (ascii "i")⟩]

theorem nestedValueApart : WholeValue IsApart nestedValue := by
  have reckons : FunctionName (ascii "calc") := ⟨by decide,by decide,by decide⟩
  have refers : FunctionName (ascii "var") := ⟨by decide,by decide,by decide⟩
  refine .cons (.math reckons (by decide) ?_ (.cons (.single ⟨⟨_,rfl,by decide,rfl⟩,rfl⟩) .nil))
    (.cons (by decide) (.single ⟨⟨_,rfl,by decide,rfl⟩,rfl⟩) .nil)
  refine .product (.inl rfl) (.product (.inr rfl) (.single ⟨⟨_,rfl,by decide,rfl⟩,rfl⟩) ?_)
    (.product (.inl rfl) (.single ⟨⟨_,rfl,by decide,rfl⟩,rfl⟩) (.single ⟨⟨_,rfl,by decide,rfl⟩,rfl⟩))
  refine .sum (.inr rfl) (.single ⟨⟨_,rfl,by decide,rfl⟩,rfl⟩) (.sum (.inl rfl) (.single ⟨⟨_,rfl,by decide,rfl⟩,rfl⟩) ?_)
  exact .call (.call refers (by decide) (.single ⟨⟨_,rfl,by decide,rfl⟩,rfl⟩)
    (.cons (by decide) (.single ⟨⟨_,rfl,by decide,rfl⟩,rfl⟩) .nil))

def openEscape : List Term := [⟨0,.ident (ascii "\\61")⟩,⟨0,.ident (ascii "b")⟩]

theorem openEscapeSingle : WholeValue (fun kinds _ => IsSingle kinds) openEscape :=
  .cons (.single ⟨_,rfl,by decide,rfl⟩) (.cons (by decide) (.single ⟨_,rfl,by decide,rfl⟩) .nil)

theorem openEscapeJoined : readValue (tokens (textOf openEscape)) ≠ openEscape := by
  rw [show readValue (tokens (textOf openEscape)) = [⟨0,.ident (ascii "\\61 b")⟩] by with_unfolding_all rfl]
  exact fun same => nomatch same

def escapedUrl : List Term := [⟨0,.call (ascii "u\\rl") (some [⟨0,.ident (ascii "a")⟩])⟩]

theorem escapedUrlLost : readValue (tokens (textOf escapedUrl)) ≠ escapedUrl := by
  rw [show readValue (tokens (textOf escapedUrl)) = [⟨0,.url (ascii "a")⟩] by with_unfolding_all rfl]
  exact fun same => nomatch same

theorem nestedValueReread :
    (WholeValue IsApart nestedValue ∧ readValue (tokens (Term.textOf nestedValue)) = nestedValue) ∧
    (WholeValue (fun kinds _ => IsSingle kinds) openEscape ∧ readValue (tokens (Term.textOf openEscape)) ≠ openEscape) ∧
    (EndsName (ascii "u\\rl") [40] ∧ lower (ascii "u\\rl") ≠ ascii "url" ∧
      readValue (tokens (Term.textOf escapedUrl)) ≠ escapedUrl) :=
  ⟨⟨nestedValueApart,valueReread nestedValueApart⟩,⟨openEscapeSingle,openEscapeJoined⟩,
    by decide,by decide,escapedUrlLost⟩

end Cascade
