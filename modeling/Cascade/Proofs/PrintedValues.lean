import Cascade.Proofs.OpenValues
import Cascade.Proofs.ValueLanguage

/-! Values as they are printed, cut up by the tokens they come from. A calculation is printed in the order of
its operands, with parentheses only where the operators next to a group need them. -/
namespace Cascade
open List Term

def Token.isSeparator (t : Token) : Bool := t.kind = .comma || t.isDelim 47 || t.isDelim 61

def Token.operator (t : Token) : UInt8 := if t.kind = .comma then 44 else t.text.headD 0

abbrev Separator := { t : Token // t.isSeparator = true }

inductive Chunk where
  | blank
  | separator (t : Token)
  | sign (t : Token)
  | value (t : Token)
  | link (function location : Token)
  | opening (function : Token)
  | group
  | closing
  | kept (t : Token)
  | shut (opening : Token)
  deriving DecidableEq

def Chunk.text : Chunk → Bytes
  | .blank => [32]
  | .separator t | .sign t => [t.operator]
  | .value t => (tokenValue t).text
  | .link _ location => urlText (unquote location.text)
  | .opening function => function.functionName ++ [40]
  | .group => [40]
  | .closing => [41]
  | .kept t => tokensText [t]
  | .shut start => closingText start

open Chunk (text)

def Chunk.tokens : Chunk → List Token
  | .blank => []
  | .separator t | .sign t | .value t | .kept t => [t]
  | .link function location => [function,location,⟨.rightParen,[41]⟩]
  | .opening function => [function]
  | .group => [⟨.leftParen,[40]⟩]
  | .closing => [⟨.rightParen,[41]⟩]
  | .shut start => [⟨.rightParen,closingText start⟩]

structure Layout where
  component : Component
  chunks : List Chunk
  same : chunks.flatMap text = component.text

namespace Layout

def word (t : Token) : Layout := ⟨tokenValue t,[.value t],by simp [text]⟩

def blockChunks (opening : Token) (ts : List Token) : List Chunk :=
  (opening :: (untilClose 0 ts).1).map .kept ++
    match (untilClose 0 ts).2 with
    | [] => [.shut opening]
    | t :: _ => [.kept t]

theorem keptText (ts) : (ts.map Chunk.kept).flatMap text = tokensText ts := by
  induction ts with
  | nil => rfl
  | cons t ts ih =>
    rw [map_cons,flatMap_cons,ih]
    simp [text,tokensText]

theorem blockKept (opening ts) : (blockChunks opening ts).flatMap text = enclosedText opening ts := by
  rw [blockChunks,enclosedText,flatMap_append,keptText]
  cases (untilClose 0 ts).2 <;> simp [text]

def block (opening : Token) (ts : List Token) : Layout :=
  ⟨.ident (enclosedText opening ts),blockChunks opening ts,blockKept opening ts⟩

end Layout

abbrev Row := List (Option Separator × Layout)

def glue : Option Separator → Chunk
  | none => .blank
  | some s => .separator s.1

def glueByte (s : Option Separator) : UInt8 := s.elim 0 (·.1.operator)

def Row.terms (row : Row) : List Term := row.map fun r => ⟨glueByte r.1,r.2.component⟩

def Row.behind (row : Row) : List Chunk := row.flatMap fun r => glue r.1 :: r.2.chunks

def Row.chunks : Row → List Chunk
  | [] => []
  | (_,first) :: rest => first.chunks ++ Row.behind rest

theorem separatorCases {t : Token} (separates : t.isSeparator) :
    t.kind = .comma ∧ t.operator = 44 ∨ t.isDelim 47 ∧ t.operator = 47 ∨ t.isDelim 61 ∧ t.operator = 61 := by
  have head : ∀ b, t.isDelim b → t.operator = b := by
    intro b delim
    obtain ⟨kind,first⟩ := Bool.and_eq_true_iff.mp delim
    have other : t.kind ≠ .comma := by simp [of_decide_eq_true kind]
    rw [Token.operator,if_neg other]
    cases same : t.text with
    | nil => simp [same] at first
    | cons c rest => simpa [same] using first
  simp only [Token.isSeparator,Bool.or_eq_true,decide_eq_true_eq] at separates
  rcases separates with (comma | slash) | equals
  · exact .inl ⟨comma,by rw [Token.operator,if_pos comma]⟩
  · exact .inr (.inl ⟨slash,head 47 slash⟩)
  · exact .inr (.inr ⟨equals,head 61 equals⟩)

theorem glueText (s) : (glue s).text = [if glueByte s == 0 then 32 else glueByte s] := by
  cases s with
  | none => rfl
  | some s =>
    have other : s.1.operator ≠ 0 := by
      rcases separatorCases s.2 with ⟨_,byte⟩ | ⟨_,byte⟩ | ⟨_,byte⟩ <;> simp [byte]
    simp [glue,text,glueByte,other]

theorem rowBehindText (row) : (Row.behind row).flatMap text =
    (texts (Row.terms row)).flatMap fun t => (if t.1 == 0 then 32 else t.1) :: t.2 := by
  induction row with
  | nil => rfl
  | cons r row ih =>
    simp only [Row.behind,Row.terms] at ih
    simp [Row.behind,Row.terms,texts,glueText,r.2.same,ih]

theorem rowText (row : Row) : row.chunks.flatMap text = textOf row.terms := by
  cases row with
  | nil => rfl
  | cons r row =>
    have behind := rowBehindText row
    simp only [Row.terms] at behind
    simp [Row.chunks,Row.terms,textOf,texts,joinTerms,r.2.same,behind]

abbrev Operands := List (Token × Layout)

def Operands.components (rest : Operands) : List (UInt8 × Component) := rest.map fun r => (r.1.operator,r.2.component)

def isFactor (op : UInt8) : Bool := op == 42 || op == 47

def needsGroup (before : Option UInt8) (c : Component) (after : Option UInt8) : Bool :=
  c.isSum && (before.any (· != 44) || after.any isFactor) || c.isProduct && before.any isFactor

def bracketed (group : Bool) (chunks : List Chunk) : List Chunk := if group then .group :: chunks ++ [.closing] else chunks

def operatorChunks (t : Token) : List Chunk :=
  if t.operator == 44 || t.operator == 47 then [.separator t]
  else if t.operator == 42 then [.sign t]
  else [.blank,.sign t,.blank]

def Operands.next (rest : Operands) : Option UInt8 := rest.head?.map (·.1.operator)

def Operands.behind : Operands → List Chunk
  | [] => []
  | (t,l) :: rest =>
    operatorChunks t ++ bracketed (needsGroup (some t.operator) l.component (Operands.next rest)) l.chunks ++ behind rest

open Operands (components behind)

def Operands.chunks (first : Layout) (rest : Operands) : List Chunk :=
  bracketed (needsGroup none first.component rest.next) first.chunks ++ rest.behind

theorem bracketedText (group) (l : Layout) : (bracketed group l.chunks).flatMap text =
    if group then parenthesized l.component.text else l.component.text := by
  cases group <;> simp [bracketed,parenthesized,text,l.same]

theorem argumentsText (c d cs) :
    textOf (commaTerms (c :: d :: cs)) = c.text ++ 44 :: textOf (commaTerms (d :: cs)) := by
  simp [commaTerms,textOf,texts,joinTerms]

theorem arrangeHead (left current rest) : ∃ c cs, arrange left current rest = c :: cs := by
  induction rest generalizing left current with
  | nil => exact ⟨_,_,rfl⟩
  | cons p rest ih =>
    rw [arrange]
    split
    · exact ih ..
    · split
      · exact ⟨_,_,rfl⟩
      · exact ih ..

def pendingText (left : Option (Component × UInt8)) (current : Component) (after : Option UInt8) : Bytes :=
  left.elim [] (fun l => l.1.text ++ [32,l.2,32]) ++
    if current.isSum && (left.isSome || after.any isFactor) then parenthesized current.text else current.text

theorem closeSumText (left current) {after}
    (other : after.any isFactor = false) : (closeSum left current).text = pendingText left current after := by
  cases left with
  | none => simp [closeSum,pendingText,other]
  | some l => simp [closeSum,pendingText,Component.text]

/- The text of the arranged operands. The induction is along the operators, over the sum and the product that are
still open. -/
theorem arrangedText (left current) (rest : Operands) :
    textOf (commaTerms (arrange left current rest.components)) =
      pendingText left current rest.next ++ rest.behind.flatMap text := by
  induction rest generalizing left current with
  | nil =>
    have one : textOf (commaTerms [closeSum left current]) = (closeSum left current).text := by
      simp [commaTerms,textOf,texts,joinTerms]
    rw [components,map_nil,arrange,one,behind,flatMap_nil,append_nil]
    exact closeSumText left current rfl
  | cons p rest ih =>
    obtain ⟨t,l⟩ := p
    rw [components,map_cons,arrange,behind,flatMap_append,flatMap_append,bracketedText]
    by_cases factor : (t.operator == 42 || t.operator == 47)
    · have chunk : (operatorChunks t).flatMap text = [t.operator] := by
        rcases Bool.or_eq_true_iff.mp factor with byte | byte <;>
          simp [operatorChunks,eq_of_beq byte,text]
      have other : t.operator ≠ 44 := by
        rcases Bool.or_eq_true_iff.mp factor with byte | byte <;> simp [eq_of_beq byte]
      rw [if_pos factor,← components,ih,chunk]
      have bound : isFactor t.operator := factor
      have product : (Component.product current t.operator l.component).isSum = false := rfl
      simp [pendingText,Operands.next,bound,needsGroup,other,Component.text,product]
    · rw [if_neg factor]
      have loose : isFactor t.operator = false := Bool.eq_false_iff.mpr factor
      have after : (Operands.next ((t,l) :: rest)).any isFactor = false := loose
      by_cases comma : t.operator = 44
      · obtain ⟨d,ds,arranged⟩ := arrangeHead none l.component (components rest)
        have later := ih none l.component
        rw [if_pos (by simp [comma]),← components,arranged,argumentsText,← arranged,later,closeSumText left current after]
        simp [operatorChunks,comma,text,pendingText,needsGroup,isFactor]
      rw [if_neg (by simp [comma]),← components,ih]
      have chunk : (operatorChunks t).flatMap text = [32,t.operator,32] := by
        simp only [Bool.or_eq_true,beq_iff_eq,not_or] at factor
        simp [operatorChunks,factor,comma,text]
      rw [chunk,pendingText,Option.elim_some,closeSumText left current after]
      simp [needsGroup,loose,comma]

theorem operandsText (first) (rest : Operands) : (rest.chunks first).flatMap text =
    textOf (commaTerms (arrange none first.component rest.components)) := by
  rw [Operands.chunks,flatMap_append,bracketedText,arrangedText]
  simp [pendingText,needsGroup]

def Operands.whole (first : Layout) (rest : Operands) : Option Layout :=
  match whole : arrange none first.component rest.components with
  | [c] => some ⟨c,rest.chunks first,by rw [operandsText,whole]; simp [commaTerms,textOf,texts,joinTerms]⟩
  | _ => none

def Layout.call (function : Token) (chunks : List Chunk) (args : List Term)
    (same : chunks.flatMap text = textOf args) : Layout :=
  ⟨.call function.functionName (some args),.opening function :: chunks ++ [.closing],by
    simpa [text,Component.text,parenthesized,textOf] using same⟩

mutual

def layTerms (s : Option Separator) (ts : List Token) : Row :=
  match ts with
  | [] => []
  | t :: rest =>
    if t.isBlank then layTerms s rest
    else if separates : t.isSeparator then layTerms (some ⟨t,separates⟩) rest
    else if t.kind = .function then
      (s,layCall t (untilClose 0 rest).1) :: layTerms none ((untilClose 0 rest).2.drop 1)
    else if t.kind = .leftParen ∨ t.kind = .leftBracket then
      (s,.block t rest) :: layTerms none ((untilClose 0 rest).2.drop 1)
    else (s,.word t) :: layTerms none rest
termination_by 2 * ts.length
decreasing_by
  all_goals
    have inside := insideLength 0 rest
    have behind := behindLength 0 rest
    simp only [length_cons]
    omega

def layCall (function : Token) (args : List Token) : Layout :=
  match lower function.functionName == ascii "url",trimTokens args with
  | true,[⟨.string,s⟩] => ⟨.url (unquote s),[.link function ⟨.string,s⟩],by simp [text,Component.text]⟩
  | _,[] => ⟨.call function.functionName none,[.opening function,.closing],by
      simp [text,Component.text,ascii]⟩
  | _,_ =>
    match if isMath function.functionName then layOperand .edge args else none with
    | some (first,rest) =>
      .call function (rest.chunks first) (commaTerms (arrange none first.component rest.components)) (operandsText first rest)
    | none => .call function (layTerms none args).chunks (layTerms none args).terms (rowText _)
termination_by 2 * args.length + 1

def layOperand (place : MathPlace) (ts : List Token) : Option (Layout × Operands) :=
  match ts with
  | [] => none
  | t :: rest =>
    if t.kind = .whitespace ∨ t.kind = .comment ∧ place = .edge then layOperand place rest
    else if t.kind = .leftParen then
      ((layOperand .parens (blockInside rest)).bind fun r => r.2.whole r.1).bind fun l =>
        (layOperators place.inner ((untilClose 0 rest).2.drop 1)).map fun r => (l,r)
    else if t.kind = .function then
      (layOperators place.inner ((untilClose 0 rest).2.drop 1)).map fun r => (layCall t (blockInside rest),r)
    else if t.kind = .number ∨ t.kind = .percentage ∨ t.kind = .dimension ∨ t.kind = .ident then
      (layOperators place.inner rest).map fun r => (.word t,r)
    else none
termination_by 2 * ts.length
decreasing_by
  all_goals
    have inside := blockInsideLength rest
    have behind := behindLength 0 rest
    simp only [length_cons]
    omega

def layOperators (place : MathPlace) (ts : List Token) : Option Operands :=
  match ts with
  | [] => some []
  | t :: rest =>
    if t.kind = .whitespace then layOperators place rest
    else if t.kind = .comment ∧ place ≠ .parens then layOperators .edge rest
    else if t.isOneOf [43,45,42,47] ∧ place ≠ .edge then (layOperand place rest).map fun r => (t,r.1) :: r.2
    else if t.kind = .comma ∧ place ≠ .parens then
      if rest.isEmpty then some [] else (layOperand .edge rest).map fun r => (t,r.1) :: r.2
    else none
termination_by 2 * ts.length

end

def layArguments (function : Token) (args : List Token) : Layout :=
  match if isMath function.functionName then layOperand .edge args else none with
  | some (first,rest) =>
    .call function (rest.chunks first) (commaTerms (arrange none first.component rest.components)) (operandsText first rest)
  | none => .call function (layTerms none args).chunks (layTerms none args).terms (rowText _)

section
variable {args : List Token}

theorem callShape (name args) :
    ((lower name == ascii "url") ∧ ∃ s, trimTokens args = [⟨.string,s⟩]) ∨ trimTokens args = [] ∨
      (∀ s, (lower name == ascii "url") → trimTokens args ≠ [⟨.string,s⟩]) ∧ trimTokens args ≠ [] := by
  by_cases located : (lower name == ascii "url") ∧ ∃ s, trimTokens args = [⟨.string,s⟩]
  · exact .inl located
  by_cases empty : trimTokens args = []
  · exact .inr (.inl empty)
  · exact .inr (.inr ⟨fun s url string => located ⟨url,s,string⟩,empty⟩)

theorem layCallLocation {function s} (url : (lower function.functionName == ascii "url"))
    (string : trimTokens args = [⟨.string,s⟩]) : (layCall function args).chunks = [.link function ⟨.string,s⟩] := by
  rw [layCall,url,string]

theorem layCallEmpty {function} (empty : trimTokens args = []) :
    (layCall function args).chunks = [.opening function,.closing] := by
  rw [layCall,empty]
  cases lower function.functionName == ascii "url" <;> rfl

theorem layCallFilled {function}
    (other : ∀ s, (lower function.functionName == ascii "url") → trimTokens args ≠ [⟨.string,s⟩])
    (filled : trimTokens args ≠ []) : layCall function args = layArguments function args := by
  rw [layCall,layArguments]
  split
  · rename_i url string
    exact (other _ url string).elim
  · rename_i empty
    exact (filled empty).elim
  · rfl

theorem readCallFilled {name} (other : ∀ s, (lower name == ascii "url") → trimTokens args ≠ [⟨.string,s⟩])
    (filled : trimTokens args ≠ []) : readCall name args = callValue name args := by
  rw [readCall,callValue]
  split
  · rename_i url string
    exact (other _ url string).elim
  · rename_i empty
    exact (filled empty).elim
  · rfl

end

def Component.isSingle (c : Component) : Bool := !c.isSum && !c.isProduct

theorem tokenSingle (t) : (tokenValue t).isSingle := by
  rw [tokenValue]
  split
  case h_4 => split <;> rfl
  all_goals rfl

theorem layCallSingle (function args) : (layCall function args).component.isSingle := by
  rw [layCall]
  split
  · rfl
  · rfl
  · split <;> rfl

theorem separatorRead {t} (separates : t.isSeparator) (blank : t.isBlank = false) (op rest) :
    readTerms op (t :: rest) = readTerms t.operator rest := by
  rw [readTerms,if_neg (Bool.eq_false_iff.mp blank)]
  rcases separatorCases separates with ⟨comma,byte⟩ | ⟨slash,byte⟩ | ⟨equals,byte⟩
  · rw [if_pos comma,byte]
  · have kind : t.kind = .delim := of_decide_eq_true (Bool.and_eq_true_iff.mp slash).1
    rw [if_neg (by simp [kind]),if_pos slash,byte]
  · have kind : t.kind = .delim := of_decide_eq_true (Bool.and_eq_true_iff.mp equals).1
    have first : t.text.head? = some 61 := eq_of_beq (Bool.and_eq_true_iff.mp equals).2
    rw [if_neg (by simp [kind]),if_neg (by simp [Token.isDelim,first]),if_pos equals,byte]

theorem wholeCases {first l} {rest : Operands} (whole : rest.whole first = some l) :
    l.chunks = rest.chunks first ∧ arrange none first.component rest.components = [l.component] := by
  rw [Operands.whole] at whole
  split at whole
  · rename_i arranged
    cases whole
    exact ⟨rfl,arranged⟩
  · cases whole

theorem wholeRead (first) (rest : Operands) : (rest.whole first).map (·.component) =
    match arrange none first.component rest.components with
    | [c] => some c
    | _ => none := by
  rw [Operands.whole]
  split <;> rename_i whole <;> simp [whole]

mutual

theorem layTermsRead (s ts) : (layTerms s ts).terms = readTerms (glueByte s) ts := by
  cases ts with
  | nil => rw [layTerms,readTerms,Row.terms,map_nil]
  | cons t rest =>
    have inside := insideLength 0 rest
    have behind := behindLength 0 rest
    rw [layTerms]
    split
    · rename_i blank
      rw [readTerms,if_pos blank]
      exact layTermsRead s rest
    rename_i blank
    split
    · rename_i separates
      rw [separatorRead separates (Bool.eq_false_iff.mpr blank)]
      exact layTermsRead (some ⟨t,separates⟩) rest
    rename_i separates
    simp only [Token.isSeparator,Bool.or_eq_true,decide_eq_true_eq,not_or] at separates
    rw [readTerms,if_neg blank,if_neg separates.1.1,if_neg separates.1.2,if_neg separates.2]
    split
    · rw [← layCallRead]
      exact congrArg _ (layTermsRead none _)
    · split
      · exact congrArg _ (layTermsRead none _)
      · exact congrArg _ (layTermsRead none rest)
termination_by 2 * ts.length
decreasing_by
  all_goals
    simp only [length_cons]
    omega

theorem layCallRead (function args) : (layCall function args).component = readCall function.functionName args := by
  have operand := layOperandRead .edge args
  have terms := layTermsRead none args
  rcases callShape function.functionName args with ⟨url,s,string⟩ | empty | ⟨other,filled⟩
  · rw [layCall,readCall,url,string]
  · rw [layCall,readCall,empty]
    cases lower function.functionName == ascii "url" <;> rfl
  · rw [layCallFilled other filled,readCallFilled other filled,layArguments,callValue,← isMath,← operand]
    cases isMath function.functionName with
    | false => exact congrArg (fun ts => Component.call _ (some ts)) terms
    | true =>
      rw [if_pos rfl,if_pos rfl]
      cases layOperand .edge args with
      | none => exact congrArg (fun ts => Component.call _ (some ts)) terms
      | some r => rfl
termination_by 2 * args.length + 1

theorem layOperandRead (place ts) :
    (layOperand place ts).map (fun r => (r.1.component,r.2.components)) = readOperand place ts := by
  cases ts with
  | nil => rw [layOperand,readOperand]; rfl
  | cons t rest =>
    have inside := blockInsideLength rest
    have behind := behindLength 0 rest
    have operators := layOperatorsRead place.inner ((untilClose 0 rest).2.drop 1)
    rw [layOperand,readOperand]
    split
    · exact layOperandRead place rest
    split
    · rw [← layOperandRead .parens,← operators]
      cases layOperand .parens (blockInside rest) with
      | none => rfl
      | some r =>
        have whole := wholeRead r.1 r.2
        simp only [Option.map_some,Option.bind_some]
        cases found : r.2.whole r.1 with
        | none =>
          rw [found] at whole
          split
          · rename_i c arranged
            simp [arranged] at whole
          · rfl
        | some l =>
          rw [found] at whole
          split
          · rename_i c arranged
            rw [arranged] at whole
            simp only [Option.map_some,Option.some.injEq] at whole
            simp [Function.comp_def,whole]
          · rename_i other
            split at whole
            · rename_i c arranged
              exact (other c arranged).elim
            · cases whole
    split
    · rw [← operators,← layCallRead]
      simp [Function.comp_def]
    split
    · rw [← layOperatorsRead place.inner rest]
      simp [Function.comp_def,Layout.word]
    · rfl
termination_by 2 * ts.length
decreasing_by
  all_goals
    simp only [length_cons]
    omega

theorem layOperatorsRead (place ts) : (layOperators place ts).map components = readOperators place ts := by
  cases ts with
  | nil => rw [layOperators,readOperators]; rfl
  | cons t rest =>
    rw [layOperators,readOperators]
    split
    · exact layOperatorsRead place rest
    split
    · exact layOperatorsRead .edge rest
    split
    · rename_i sign
      have kind : t.kind ≠ .comma := by
        have delim := of_decide_eq_true (Bool.and_eq_true_iff.mp sign.1).1
        simp [delim]
      simp [← layOperandRead place rest,Function.comp_def,components,Token.operator,kind]
    split
    · rename_i comma
      split
      · rfl
      · simp [← layOperandRead .edge rest,Function.comp_def,components,Token.operator,comma.1]
    · rfl
termination_by 2 * ts.length

end

def printed (ts : List Token) : List Chunk := (layTerms none ts).chunks

theorem printedText (ts) : (printed ts).flatMap text = textOf (readValue ts) := by
  rw [printed,rowText,layTermsRead]
  rfl

end Cascade
