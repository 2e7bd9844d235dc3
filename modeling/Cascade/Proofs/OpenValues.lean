import Cascade.Declaration.Reader
import Cascade.Proofs.Closed

/-! Values that leave blocks open. Reading goes through closed blocks to the one that is open, and
what is inside it is read as if it were closed if nothing but functions is open around it. -/
namespace Cascade
open List
open Token (opens isBlank)

variable {ts inside before : List Token} {opening t : Token} {math : Bool} {m : Nat}

inductive Nested : List Token → Prop where
  | nil : Nested []
  | plain {t : Token} {ts : List Token} (opens : t.opens = false) (closes : t.closes = false) (rest : Nested ts) :
      Nested (t :: ts)
  | block {opening closing : Token} {inside behind : List Token} (opens : opening.opens = true)
      (closes : closing.closes = true) (balanced : Balanced inside) (inner : Nested inside) (rest : Nested behind) :
      Nested (opening :: (inside ++ closing :: behind))

theorem blockSplit {n k} (level : levelOver (fun _ => false) (k + 1 + n) ts = some m) (low : m ≤ n) :
    ∃ inside closing behind, ts = inside ++ closing :: behind ∧
      levelOver (fun _ => false) k inside = some 0 ∧ closing.closes ∧
      levelOver (fun _ => false) n behind = some m := by
  induction ts generalizing k with
  | nil =>
    have same : k + 1 + n = m := Option.some.inj level
    omega
  | cons t ts ih =>
    rcases levelCases level with ⟨opens,_,deeper⟩ | ⟨opens,closes,j,up,back⟩ | ⟨opens,closes,_,stays⟩
    · rw [show k + 1 + n + 1 = k + 1 + 1 + n by omega] at deeper
      obtain ⟨inside,closing,behind,rfl,inner,shuts,rest⟩ := ih deeper
      exact ⟨t :: inside,closing,behind,rfl,by simp [levelOver,opens,inner],shuts,rest⟩
    · cases k with
      | zero =>
        have same : j = n := by omega
        rw [same] at back
        exact ⟨[],t,ts,rfl,rfl,closes,back⟩
      | succ k =>
        rw [show j = k + 1 + n by omega] at back
        obtain ⟨inside,closing,behind,rfl,inner,shuts,rest⟩ := ih back
        exact ⟨t :: inside,closing,behind,rfl,by simp [levelOver,opens,closes,inner],shuts,rest⟩
    · obtain ⟨inside,closing,behind,rfl,inner,shuts,rest⟩ := ih stays
      exact ⟨t :: inside,closing,behind,rfl,by simp [levelOver,opens,closes,inner],shuts,rest⟩

theorem balancedNested (balanced : Balanced ts) : Nested ts := by
  induction size : ts.length using Nat.strong_induction_on generalizing ts with
  | _ size ih =>
    cases ts with
    | nil => exact .nil
    | cons t ts =>
      rcases levelCases balanced with ⟨opens,_,deeper⟩ | ⟨_,_,j,up,_⟩ | ⟨opens,closes,_,stays⟩
      · obtain ⟨inside,closing,behind,rfl,inner,shuts,rest⟩ := blockSplit deeper (Nat.le_refl 0)
        simp only [length_cons,length_append] at size
        exact .block opens shuts inner (ih _ (by omega) inner rfl) (ih _ (by omega) rest rfl)
      · cases up
      · exact .plain opens closes (ih _ (by rw [← size]; exact Nat.lt_succ_self _) stays rfl)

theorem termsPlain (opens : t.opens = false) (op) :
    ∃ us op', ∀ rest, readTerms op (t :: rest) = us ++ readTerms op' rest := by
  simp only [Token.opens,Bool.or_eq_false_iff,decide_eq_false_iff_not] at opens
  by_cases blank : t.isBlank
  · exact ⟨[],op,fun rest => by rw [readTerms,if_pos blank]; rfl⟩
  by_cases comma : t.kind = .comma
  · exact ⟨[],44,fun rest => by rw [readTerms,if_neg blank,if_pos comma]; rfl⟩
  by_cases slash : t.isDelim 47
  · exact ⟨[],47,fun rest => by rw [readTerms,if_neg blank,if_neg comma,if_pos slash]; rfl⟩
  by_cases equals : t.isDelim 61
  · exact ⟨[],61,fun rest => by rw [readTerms,if_neg blank,if_neg comma,if_neg slash,if_pos equals]; rfl⟩
  refine ⟨[⟨op,tokenValue t⟩],0,fun rest => ?_⟩
  rw [readTerms,if_neg blank,if_neg comma,if_neg slash,if_neg equals,if_neg opens.2,
    if_neg (not_or.mpr ⟨opens.1.1.1,opens.1.1.2⟩)]
  rfl

def blockValue (opening : Token) (rest : List Token) : Component :=
  if opening.kind = .function then readCall opening.functionName (untilClose 0 rest).1
  else .ident (enclosedText opening rest)

theorem termsBlock (kind : opening.kind = .function ∨ opening.kind = .leftParen ∨ opening.kind = .leftBracket)
    (op rest) :
    readTerms op (opening :: rest) = ⟨op,blockValue opening rest⟩ :: readTerms 0 ((untilClose 0 rest).2.drop 1) := by
  rw [readTerms,blockValue]
  rcases kind with kind | kind | kind <;> simp [isBlank,Token.isDelim,kind]

theorem opensKind (opens : t.opens) :
    (t.kind = .function ∨ t.kind = .leftParen ∨ t.kind = .leftBracket) ∨ t.kind = .leftBrace := by
  simp only [Token.opens,Bool.or_eq_true,decide_eq_true_eq] at opens
  tauto

theorem termsThrough (nested : Nested before) (op) :
    ∃ us op', ∀ rest, readTerms op (before ++ rest) = us ++ readTerms op' rest := by
  induction nested generalizing op with
  | nil => exact ⟨[],op,fun rest => rfl⟩
  | @plain t ts opens _ _ ih =>
    obtain ⟨us,op₁,first⟩ := termsPlain opens op
    obtain ⟨vs,op₂,others⟩ := ih op₁
    exact ⟨us ++ vs,op₂,fun rest => by rw [cons_append,first,others,append_assoc]⟩
  | @block opening closing inside behind opens closes balanced _ _ ih ih' =>
    rcases opensKind opens with kind | brace
    · obtain ⟨us,op₁,others⟩ := ih' 0
      refine ⟨⟨op,blockValue opening (inside ++ [closing])⟩ :: us,op₁,fun rest => ?_⟩
      have cut : ∀ more, untilClose 0 (inside ++ closing :: more) = (inside,closing :: more) :=
        untilCloseBalanced balanced closes
      have value : blockValue opening (inside ++ closing :: (behind ++ rest)) = blockValue opening (inside ++ [closing]) := by
        simp only [blockValue,enclosedText,cut]
      rw [cons_append,append_assoc,cons_append,termsBlock kind,value,cut]
      exact congrArg (_ :: ·) (others rest)
    · have value : ∀ rest, readTerms op (opening :: rest) = ⟨op,tokenValue opening⟩ :: readTerms 0 rest := by
        intro rest
        rw [readTerms]
        simp [isBlank,Token.isDelim,brace]
      obtain ⟨us,op₁,inner⟩ := ih 0
      obtain ⟨vs,op₂,last⟩ := termsPlain (notOpens closes) op₁
      obtain ⟨ws,op₃,others⟩ := ih' op₂
      refine ⟨⟨op,tokenValue opening⟩ :: (us ++ vs ++ ws),op₃,fun rest => ?_⟩
      rw [cons_append,value,append_assoc,inner,cons_append,last,others]
      simp

def readMath (operand : Bool) (place : MathPlace) (ts : List Token) : Option (List (UInt8 × Component)) :=
  if operand then (readOperand place ts).map fun r => (0,r.1) :: r.2 else readOperators place ts

def reoperated (op : UInt8) : List (UInt8 × Component) → List (UInt8 × Component)
  | [] => []
  | r :: rs => (op,r.2) :: rs

/- Tokens that a calculation is read through: what follows them is read on its own, unless they
end with a comma and nothing follows. -/
def ReadsThrough (before : List Token) : Prop :=
  ∀ operand place, ∃ (operand' : Bool) (place' : MathPlace) (go : List (UInt8 × Component) → Option (List (UInt8 × Component))),
    ∀ rest, (rest = [] → ∀ t ∈ before.getLast?, t.kind ≠ .comma) →
      readMath operand place (before ++ rest) = (readMath operand' place' rest).bind go

theorem mathSpace (kind : t.kind = .whitespace) (operand place rest) :
    readMath operand place (t :: rest) = readMath operand place rest := by
  cases operand with
  | true => rw [readMath,if_pos rfl,readOperand,if_pos (.inl kind)]; rfl
  | false => rw [readMath,if_neg Bool.false_ne_true,readOperators,if_pos kind]; rfl

theorem throughPlain (opens : t.opens = false) : ReadsThrough [t] := by
  intro operand place
  simp only [Token.opens,Bool.or_eq_false_iff,decide_eq_false_iff_not] at opens
  by_cases space : t.kind = .whitespace
  · exact ⟨operand,place,some,fun rest _ => (mathSpace space operand place rest).trans (Option.bind_fun_some _).symm⟩
  cases operand with
  | true =>
    by_cases comment : t.kind = .comment ∧ place = .edge
    · refine ⟨true,place,some,fun rest _ => ?_⟩
      rw [singleton_append,readMath,if_pos rfl,readOperand,if_pos (.inr comment)]
      exact (Option.bind_fun_some _).symm
    by_cases value : t.kind = .number ∨ t.kind = .percentage ∨ t.kind = .dimension ∨ t.kind = .ident
    · refine ⟨false,place.inner,fun rs => some ((0,tokenValue t) :: rs),fun rest _ => ?_⟩
      simp only [readMath,singleton_append,readOperand,space,comment,opens,value]
      cases readOperators place.inner rest <;> rfl
    · exact ⟨false,place,fun _ => none,fun rest _ => by simp [readMath,readOperand,space,comment,opens,value]⟩
  | false =>
    by_cases comment : t.kind = .comment ∧ place ≠ .parens
    · refine ⟨false,.edge,some,fun rest _ => ?_⟩
      rw [singleton_append,readMath,if_neg Bool.false_ne_true,readOperators,if_neg space,if_pos comment]
      exact (Option.bind_fun_some _).symm
    by_cases sign : t.isOneOf [43,45,42,47] ∧ place ≠ .edge
    · refine ⟨true,place,fun rs => some (reoperated (t.text.headD 0) rs),fun rest _ => ?_⟩
      rw [singleton_append,readMath,if_neg Bool.false_ne_true,readOperators,if_neg space,if_neg comment,if_pos sign]
      simp only [readMath]
      cases readOperand place rest <;> rfl
    by_cases comma : t.kind = .comma ∧ place ≠ .parens
    · refine ⟨true,.edge,fun rs => some (reoperated 44 rs),fun rest follows => ?_⟩
      have more : rest.isEmpty = false := by
        cases rest with
        | nil => exact absurd comma.1 (follows rfl t (by simp))
        | cons => rfl
      rw [singleton_append,readMath,if_neg Bool.false_ne_true,readOperators,if_neg space,if_neg comment,if_neg sign,
        if_pos comma,more]
      simp only [readMath]
      cases readOperand .edge rest <;> rfl
    · exact ⟨false,place,fun _ => none,fun rest _ => by simp [readMath,readOperators,space,comment,sign,comma]⟩

theorem throughJoin {us} (first : ReadsThrough ts) (second : ReadsThrough us) : ReadsThrough (ts ++ us) := by
  intro operand place
  obtain ⟨between,middle,go,read⟩ := first operand place
  obtain ⟨last,final,go',read'⟩ := second between middle
  refine ⟨last,final,fun rs => (go' rs).bind go,fun rest follows => ?_⟩
  have inner : us ++ rest = [] → ∀ t ∈ ts.getLast?, t.kind ≠ .comma := by
    intro void
    obtain ⟨rfl,rfl⟩ := append_eq_nil_iff.mp void
    rw [append_nil] at follows
    exact follows rfl
  have outer : rest = [] → ∀ t ∈ us.getLast?, t.kind ≠ .comma := by
    intro void t mem
    refine follows void t ?_
    rw [getLast?_append,Option.mem_def.mp mem]
    rfl
  rw [append_assoc,read _ inner,read' rest outer,Option.bind_assoc]

def blockOperand (opening : Token) (inside : List Token) : Option Component :=
  if opening.kind = .function then some (readCall opening.functionName inside)
  else if opening.kind = .leftParen then
    (readOperand .parens inside).bind fun r =>
      match arrange none r.1 r.2 with
      | [c] => some c
      | _ => none
  else none

theorem insideClosed {closing behind rest} (cut : untilClose 0 rest = (inside,closing :: behind)) : blockInside rest = inside := by
  rw [blockInside,cut]

theorem operandBlock (opens : opening.opens) (place rest) :
    readOperand place (opening :: rest) = (blockOperand opening (blockInside rest)).bind fun c =>
      (readOperators place.inner ((untilClose 0 rest).2.drop 1)).map fun r => (c,r) := by
  rcases opensKind opens with (kind | kind | kind) | kind <;>
    simp only [readOperand,blockOperand,kind,reduceCtorEq,false_and,or_self,if_false,if_true]
  · rfl
  · cases readOperand .parens (blockInside rest) with
    | none => rfl
    | some r =>
      simp only [Option.bind_some]
      cases arrange none r.1 r.2 with
      | nil => rfl
      | cons c more => cases more <;> rfl
  · rfl
  · rfl

theorem mathBlock (opens : opening.opens) (operand place rest) :
    readMath operand place (opening :: rest) = if operand then
      (blockOperand opening (blockInside rest)).bind fun c =>
        (readMath false place.inner ((untilClose 0 rest).2.drop 1)).map ((0,c) :: ·) else none := by
  cases operand with
  | false =>
    rcases opensKind opens with (kind | kind | kind) | kind <;>
      simp [readMath,readOperators,Token.isOneOf,kind]
  | true =>
    rw [readMath,operandBlock opens]
    cases blockOperand opening (blockInside rest) with
    | none => rfl
    | some c => exact Option.map_map ..

theorem throughBlock {closing} (opens : opening.opens) (closes : closing.closes)
    (balanced : Balanced inside) : ReadsThrough (opening :: (inside ++ [closing])) := by
  intro operand place
  refine ⟨false,place.inner,fun rs => if operand then (blockOperand opening inside).map fun c => (0,c) :: rs else none,
    fun rest _ => ?_⟩
  have cut : untilClose 0 (inside ++ closing :: rest) = (inside,closing :: rest) := untilCloseBalanced balanced closes rest
  rw [cons_append,append_assoc,singleton_append,mathBlock opens,insideClosed cut,cut,drop_one,tail_cons]
  cases operand with
  | false => cases readMath false place.inner rest <;> rfl
  | true => cases blockOperand opening inside <;> cases readMath false place.inner rest <;> rfl

theorem nestedThrough (nested : Nested before) : ReadsThrough before := by
  induction nested with
  | nil => exact fun operand place => ⟨operand,place,some,fun rest _ => (Option.bind_fun_some _).symm⟩
  | plain opens _ _ ih => exact throughJoin (throughPlain opens) ih
  | @block opening closing inside behind opens closes balanced _ _ _ ih =>
    have whole : opening :: (inside ++ closing :: behind) = opening :: (inside ++ [closing]) ++ behind := by simp
    rw [whole]
    exact throughJoin (throughBlock opens closes balanced) ih

def openings : List Token → List Token → List Token
  | stack,[] => stack
  | stack,t :: ts => openings (if t.opens then t :: stack else if t.closes then stack.tail else stack) ts

def closingToken (opening : Token) : Token :=
  if opening.kind = .leftBracket then ⟨.rightBracket,[93]⟩
  else if opening.kind = .leftBrace then ⟨.rightBrace,[125]⟩
  else rightParen

def closers (ts : List Token) : List Token := (openings [] ts).map closingToken

def shutBehind (pad ts : List Token) : List Token := ts ++ pad ++ closers ts

section
variable {n m : Nat} {ts : List Token}

theorem closingCases (opening) : closingToken opening = ⟨.rightBracket,[93]⟩ ∨
    closingToken opening = ⟨.rightBrace,[125]⟩ ∨ closingToken opening = rightParen := by
  rw [closingToken]
  split
  · exact .inl rfl
  · split
    · exact .inr (.inl rfl)
    · exact .inr (.inr rfl)

theorem closingCloses (opening) : (closingToken opening).closes := by
  rcases closingCases opening with same | same | same <;> rw [same] <;> rfl

theorem closingTokenText (opening) : tokensText [closingToken opening] = closingText opening := by
  rw [closingToken,closingText]
  split
  · rfl
  · split <;> rfl

theorem openingsLevel (level : levelOver (fun _ => false) n ts = some m) (stack) (deep : stack.length = n) (base) :
    openings (stack ++ base) ts = openings stack ts ++ base ∧ (openings stack ts).length = m := by
  induction ts generalizing n stack with
  | nil => exact ⟨rfl,deep.trans (Option.some.inj level)⟩
  | cons t ts ih =>
    simp only [openings]
    rcases levelCases level with ⟨opens,_,deeper⟩ | ⟨opens,closes,k,rfl,back⟩ | ⟨opens,closes,_,stays⟩
    · simpa [opens] using ih deeper (t :: stack) (by simp [deep])
    · cases stack with
      | nil => cases deep
      | cons u stack => simpa [opens,closes] using ih back stack (by simpa using deep)
    · simpa [opens,closes] using ih stays stack deep

theorem openingsMem {stack} (mem : t ∈ openings stack ts) : t ∈ stack ∨ t ∈ ts ∧ t.opens := by
  induction ts generalizing stack with
  | nil => exact .inl mem
  | cons u ts ih =>
    rw [openings] at mem
    rcases ih mem with there | ⟨there,opens⟩
    · cases opens : u.opens with
      | true =>
        rw [if_pos opens] at there
        rcases mem_cons.mp there with rfl | there
        · exact .inr ⟨mem_cons_self,opens⟩
        · exact .inl there
      | false =>
        rw [opens,if_neg Bool.false_ne_true] at there
        split at there
        · exact .inl (mem_of_mem_tail there)
        · exact .inl there
    · exact .inr ⟨mem_cons_of_mem u there,opens⟩

theorem openingsAppend (stack us) : openings stack (ts ++ us) = openings (openings stack ts) us := by
  induction ts generalizing stack with
  | nil => rfl
  | cons t ts ih => exact ih _

theorem openingsBalanced (balanced : Balanced ts) : openings [] ts = [] :=
  length_eq_zero_iff.mp (openingsLevel balanced [] rfl []).2

theorem closersBalanced (balanced : Balanced ts) : closers ts = [] := by
  rw [closers,openingsBalanced balanced,map_nil]

section
variable (balanced : Balanced before) (opens : opening.opens = true) (level : levelOver (fun _ => false) 0 inside = some m)
include balanced opens level

theorem openLevel : levelOver (fun _ => false) 0 (before ++ opening :: inside) = some (m + 1) := by
  rw [levelAppend,balanced,Option.bind_some,levelOver,if_pos opens]
  exact levelInside level

theorem openingsOpen : openings [] (before ++ opening :: inside) = openings [] inside ++ [opening] := by
  rw [openingsAppend,openingsBalanced balanced,openings,if_pos opens]
  exact (openingsLevel level [] rfl [opening]).1

theorem shutOpen (pad) :
    shutBehind pad (before ++ opening :: inside) = before ++ opening :: (shutBehind pad inside ++ [closingToken opening]) := by
  have closing : closers (before ++ opening :: inside) = closers inside ++ [closingToken opening] := by
    rw [closers,openingsOpen balanced opens level,map_append]
    rfl
  rw [shutBehind,closing]
  simp [shutBehind]

end

theorem closingLevel (k) (stack : List Token) (deep : stack.length = k) :
    levelOver (fun _ => false) k (stack.map closingToken) = some 0 := by
  induction stack generalizing k with
  | nil => cases deep; rfl
  | cons t stack ih =>
    subst deep
    have closes := closingCloses t
    have opens := notOpens closes
    simp [levelOver,opens,closes,ih]

theorem shutLevel {pad} (blank : Blanks pad) (level : levelOver (fun _ => false) 0 ts = some m) :
    Balanced (shutBehind pad ts) := by
  have length : (openings [] ts).length = m := (openingsLevel level [] rfl []).2
  have padded : levelOver (fun _ => false) 0 (ts ++ pad) = some m := by
    have stays : levelOver (fun _ => false) (0 + m) pad = some (0 + m) := levelRaised m (fun _ _ => rfl) (blanksBalanced blank)
    rw [Nat.zero_add] at stays
    rw [levelAppend,level]
    exact stays
  rw [Balanced,shutBehind,levelAppend,padded]
  exact closingLevel m _ length

theorem untilCloseOpen (level : levelOver (fun _ => false) 0 ts = some m) : untilClose 0 ts = (ts,[]) := by
  have cut := untilCloseLevel level []
  rwa [untilClose,append_nil] at cut

theorem insideOpen (level : levelOver (fun _ => false) 0 ts = some m) (solid : ∀ t ∈ ts.getLast?, t.isBlank = false) :
    blockInside ts = ts := by
  rw [blockInside,untilCloseOpen level]
  cases ts using reverseRecOn with
  | nil => rfl
  | append_singleton front last => exact (trimEndConcat last front).trans (if_neg (by simp [solid last (by simp)]))

end

section
variable {name : Bytes} {args args' : List Token}

def callValue (name : Bytes) (args : List Token) : Component :=
  if mathFunctions.contains (lower name) then
    match readOperand .edge args with
    | some (first,rest) => .call name (some (commaTerms (arrange none first rest)))
    | none => .call name (some (readTerms 0 args))
  else .call name (some (readTerms 0 args))

theorem memTrimmed (mem : t ∈ ts) (solid : t.isBlank = false) : t ∈ trimTokens ts := by
  obtain ⟨before,behind,rfl⟩ := append_of_mem mem
  induction before with
  | nil =>
    rw [nil_append,trimTokensSolid solid]
    exact mem_cons_self
  | cons u before ih =>
    cases blank : u.isBlank with
    | true =>
      rw [cons_append,trimTokensBlank blank]
      exact ih (by simp)
    | false =>
      rw [cons_append,trimTokensSolid blank,trimEndSolid solid]
      simp

theorem readCallBusy (busy : ∃ t ∈ args, t.opens) : readCall name args = callValue name args := by
  obtain ⟨t,mem,opens⟩ := busy
  have solid : t.isBlank = false := by
    rcases opensKind opens with (kind | kind | kind) | kind <;> simp [isBlank,kind]
  have there := memTrimmed mem solid
  rw [readCall]
  split
  · rename_i one
    rw [one,mem_singleton] at there
    rw [there] at opens
    cases opens
  · rename_i void
    rw [void] at there
    cases there
  · rfl

theorem callValueSame (operands : readOperand .edge args = readOperand .edge args')
    (terms : readTerms 0 args = readTerms 0 args' ∨
      mathFunctions.contains (lower name) ∧ (readOperand .edge args).isSome) :
    callValue name args = callValue name args' := by
  rw [callValue,callValue]
  rcases terms with terms | ⟨math,legible⟩
  · rw [operands,terms]
  · obtain ⟨r,read⟩ := Option.isSome_iff_exists.mp legible
    rw [← operands,read,if_pos math,if_pos math]

theorem readCallSame (shape : trimTokens args = trimTokens args' ∨
      (∃ t ∈ args, t.opens) ∧ ∃ t ∈ args', t.opens)
    (same : callValue name args = callValue name args') : readCall name args = readCall name args' := by
  rcases shape with alike | ⟨first,second⟩
  · rw [readCall,readCall,alike]
    split
    · rfl
    · rfl
    · exact same
  · rw [readCallBusy first,readCallBusy second,same]

end

/- Values whose open blocks may be closed behind blanks, among terms or in a calculation: functions
inside functions, parentheses inside calculations, and a block of mere text without a blank at its end. -/
inductive Closable (pad : List Token) : Bool → List Token → Prop where
  | closed {math : Bool} {ts : List Token} (balanced : Balanced ts) : Closable pad math ts
  | call {math : Bool} {before inside : List Token} {opening : Token} (balanced : Balanced before)
      (kind : opening.kind = .function) (inner : Closable pad false inside) :
      Closable pad math (before ++ opening :: inside)
  | calculation {math : Bool} {before inside : List Token} {opening : Token} (balanced : Balanced before)
      (kind : opening.kind = .function) (known : mathFunctions.contains (lower opening.functionName) = true)
      (legible : (readOperand .edge inside).isSome = true) (inner : Closable pad true inside) :
      Closable pad math (before ++ opening :: inside)
  | block {math : Bool} {before inside : List Token} {opening : Token} (balanced : Balanced before)
      (kind : opening.kind = .leftParen ∨ opening.kind = .leftBracket) (inner : Balanced inside) (bare : pad = []) :
      Closable pad math (before ++ opening :: inside)
  | paren {before inside : List Token} {opening : Token} (balanced : Balanced before)
      (kind : opening.kind = .leftParen) (inner : Closable pad true inside) :
      Closable pad true (before ++ opening :: inside)

structure ReadsShut (pad : List Token) (math : Bool) (ts : List Token) : Prop where
  terms : math = false → ∀ op, readTerms op (shutBehind pad ts) = readTerms op ts
  operands : ∀ operand place, readMath operand place (shutBehind pad ts) = readMath operand place ts

section
variable {pad : List Token}

theorem textOpens (kind : opening.kind = .leftParen ∨ opening.kind = .leftBracket) : opening.opens := by
  rcases kind with kind | kind <;> simp [opens,kind]

theorem closableLevel (closable : Closable pad math ts) : ∃ m, levelOver (fun _ => false) 0 ts = some m := by
  induction closable with
  | closed balanced => exact ⟨0,balanced⟩
  | call balanced kind _ ih | calculation balanced kind _ _ _ ih | paren balanced kind _ ih =>
    obtain ⟨m,level⟩ := ih
    exact ⟨m + 1,openLevel balanced (by simp [opens,kind]) level⟩
  | block balanced kind inner _ => exact ⟨1,openLevel balanced (textOpens kind) inner⟩

theorem closableOpenings (closable : Closable pad math ts) : ∀ t ∈ openings [] ts, t.kind ≠ .leftBrace := by
  induction closable with
  | closed balanced =>
    rw [openingsBalanced balanced]
    exact forall_mem_nil _
  | call balanced kind inner ih | calculation balanced kind _ _ inner ih | paren balanced kind inner ih =>
    obtain ⟨m,level⟩ := closableLevel inner
    rw [openingsOpen balanced (by simp [opens,kind]) level]
    exact forall_mem_append.mpr ⟨ih,forall_mem_singleton.mpr (by simp [kind])⟩
  | block balanced kind inner _ =>
    rw [openingsOpen balanced (textOpens kind) inner,openingsBalanced inner]
    exact forall_mem_singleton.mpr (by rcases kind with kind | kind <;> simp [kind])

theorem operandShut (reads : ReadsShut pad math ts) (place) :
    readOperand place (shutBehind pad ts) = readOperand place ts := by
  have same := reads.operands true place
  refine Option.map_injective ?_ same
  intro r r' alike
  cases r
  cases r'
  simpa using alike

theorem cutOpen (blank : Blanks pad) (level : levelOver (fun _ => false) 0 inside = some m) (opening) :
    untilClose 0 inside = (inside,[]) ∧
    untilClose 0 (shutBehind pad inside ++ [closingToken opening]) = (shutBehind pad inside,[closingToken opening]) :=
  ⟨untilCloseOpen level,untilCloseBalanced (shutLevel blank level) (closingCloses opening) []⟩

section
variable (bare : pad = [] ∨ pad = [Token.space])
include bare

theorem bareBlanks : Blanks pad := by
  rcases bare with rfl | rfl
  · exact forall_mem_nil _
  · exact forall_mem_singleton.mpr rfl

theorem termsBare (op) : readTerms op pad = readTerms op [] := by
  rcases bare with rfl | rfl
  · rfl
  · exact (readTerms.eq_2 op _ []).trans (if_pos rfl)

theorem mathBare (operand place) : readMath operand place pad = readMath operand place [] := by
  rcases bare with rfl | rfl
  · rfl
  · exact mathSpace rfl operand place []

theorem closedReadsShut (balanced : Balanced ts) (ends : pad ≠ [] → ∀ t ∈ ts.getLast?, t.kind ≠ .comma) :
    ReadsShut pad math ts := by
  have nested := balancedNested balanced
  have whole : shutBehind pad ts = ts ++ pad := by rw [shutBehind,closersBalanced balanced,append_nil]
  refine ⟨fun _ op => ?_,fun operand place => ?_⟩
  · obtain ⟨us,op',read⟩ := termsThrough nested op
    have alone := read []
    rw [append_nil] at alone
    rw [whole,alone,read,termsBare bare]
  · by_cases unpadded : pad = []
    · rw [whole,unpadded,append_nil]
    obtain ⟨operand',place',go,read⟩ := nestedThrough nested operand place
    have alone := read [] fun _ => ends unpadded
    rw [append_nil] at alone
    rw [whole,alone,read pad fun void => absurd void unpadded,mathBare bare]

theorem callShut (level : levelOver (fun _ => false) 0 inside = some m) (reads : ReadsShut pad math inside)
    {name} (terms : math = false ∨ mathFunctions.contains (lower name) ∧ (readOperand .edge inside).isSome) :
    readCall name (shutBehind pad inside) = readCall name inside := by
  have operands := operandShut reads .edge
  refine readCallSame ?_ (callValueSame operands ?_)
  · cases m with
    | zero =>
      left
      rw [shutBehind,closersBalanced level,append_nil,trimmedPad (bareBlanks bare)]
    | succ m =>
      right
      obtain ⟨t,mem⟩ : ∃ t, t ∈ openings [] inside := by
        have deep := (openingsLevel level [] rfl []).2
        exact exists_mem_of_length_pos (by omega)
      rcases openingsMem mem with void | ⟨there,opens⟩
      · cases void
      · exact ⟨⟨t,by simp [shutBehind,there],opens⟩,t,there,opens⟩
  · rcases terms with plain | ⟨known,legible⟩
    · exact .inl (reads.terms plain 0)
    · exact .inr ⟨known,by rw [operands]; exact legible⟩

section
variable {math : Bool} {before inside : List Token} {opening : Token} {m : Nat} (balanced : Balanced before)
  (opens : opening.opens = true) (level : levelOver (fun _ => false) 0 inside = some m)
  (solid : ∀ t ∈ inside.getLast?, t.isBlank = false)
include balanced opens level solid

theorem openReadsShut (value : math = false →
      (opening.kind = .function ∨ opening.kind = .leftParen ∨ opening.kind = .leftBracket) ∧
      blockValue opening (shutBehind pad inside ++ [closingToken opening]) = blockValue opening inside)
    (operand : blockOperand opening (shutBehind pad inside) = blockOperand opening inside) :
    ReadsShut pad math (before ++ opening :: inside) := by
  have nested := balancedNested balanced
  obtain ⟨left,right⟩ := cutOpen (bareBlanks bare) level opening
  refine ⟨fun plain op => ?_,fun start place => ?_⟩
  · obtain ⟨us,op',read⟩ := termsThrough nested op
    obtain ⟨kind,same⟩ := value plain
    rw [shutOpen balanced opens level,read,read,termsBlock kind,termsBlock kind,same,left,right]
    rfl
  · obtain ⟨start',place',go,read⟩ := nestedThrough nested start place
    have follows : ∀ us, opening :: us = [] → ∀ t ∈ before.getLast?, t.kind ≠ .comma :=
      fun us void => absurd void (cons_ne_nil opening us)
    rw [shutOpen balanced opens level,read _ (follows _),read _ (follows _),mathBlock opens,mathBlock opens,
      insideOpen level solid,insideClosed right,left,right,operand]
    rfl

theorem callReadsShut (kind : opening.kind = .function)
    (same : readCall opening.functionName (shutBehind pad inside) = readCall opening.functionName inside) :
    ReadsShut pad math (before ++ opening :: inside) := by
  obtain ⟨left,right⟩ := cutOpen (bareBlanks bare) level opening
  refine openReadsShut bare balanced opens level solid (fun _ => ⟨.inl kind,?_⟩) ?_
  · rw [blockValue,blockValue,if_pos kind,if_pos kind,left,right]
    exact same
  · rw [blockOperand,blockOperand,if_pos kind,if_pos kind,same]

end

theorem closableReadsShut (closable : Closable pad math ts) (solid : ∀ t ∈ ts.getLast?, t.isBlank = false)
    (ends : pad ≠ [] → ∀ t ∈ ts.getLast?, t.kind ≠ .comma) : ReadsShut pad math ts := by
  have inner : ∀ {p : Token → Prop} {before inside : List Token} {opening : Token},
      (∀ t ∈ (before ++ opening :: inside).getLast?, p t) → ∀ t ∈ inside.getLast?, p t := by
    intro p before inside opening ends t mem
    refine ends t ?_
    rw [getLast?_append,getLast?_cons,Option.mem_def.mp mem]
    rfl
  induction closable with
  | closed balanced => exact closedReadsShut bare balanced ends
  | call balanced kind inside ih =>
    obtain ⟨m,level⟩ := closableLevel inside
    exact callReadsShut bare balanced (by simp [opens,kind]) level (inner solid) kind
      (callShut bare level (ih (inner solid) (inner ∘ ends)) (.inl rfl))
  | calculation balanced kind known legible inside ih =>
    obtain ⟨m,level⟩ := closableLevel inside
    exact callReadsShut bare balanced (by simp [opens,kind]) level (inner solid) kind
      (callShut bare level (ih (inner solid) (inner ∘ ends)) (.inr ⟨known,legible⟩))
  | @block math before inside opening balanced kind within unpadded =>
    subst unpadded
    have opens := textOpens kind
    have whole : shutBehind [] inside = inside := by rw [shutBehind,closersBalanced within]; simp
    obtain ⟨left,right⟩ := cutOpen (bareBlanks bare) within opening
    rw [whole] at right
    refine openReadsShut bare balanced opens within (inner solid) (fun _ => ⟨.inr kind,?_⟩) (by rw [whole])
    have other : opening.kind ≠ .function := by rcases kind with kind | kind <;> simp [kind]
    rw [whole,blockValue,blockValue,if_neg other,if_neg other,enclosedText,enclosedText,left,right]
    exact congrArg (fun text => Component.ident (_ ++ text)) (closingTokenText opening)
  | @paren before inside opening balanced kind within ih =>
    obtain ⟨m,level⟩ := closableLevel within
    refine openReadsShut bare balanced (by simp [opens,kind]) level (inner solid) (fun void => by cases void) ?_
    have other : opening.kind ≠ .function := by simp [kind]
    rw [blockOperand,blockOperand,if_neg other,if_neg other,operandShut (ih (inner solid) (inner ∘ ends))]

end

end

structure Unmarked (name : Bytes) (ts : List Token) : Prop where
  unimportant : (takeImportant ts).2 = false
  unhacked : (takeSlashNine ts).2 = false
  modern : isOldFilter name (trim (tokensText ts)) = false

section
variable {name : Bytes} {ts : List Token}

theorem unmarkedPair {marked} [Decidable marked] {rest}
    (unmarked : (if marked then (rest,true) else (ts,false)).2 = false) :
    (if marked then (rest,true) else (ts,false)) = (ts,false) := by
  by_cases there : marked
  · rw [if_pos there] at unmarked
    cases unmarked
  · exact if_neg there

theorem unimportantRest (unimportant : (takeImportant ts).2 = false) : takeImportant ts = (ts,false) := by
  rw [takeImportant] at unimportant ⊢
  split
  · rfl
  · rename_i last found
    simp only [found] at unimportant
    exact unmarkedPair unimportant

theorem unhackedRest (unhacked : (takeSlashNine ts).2 = false) : takeSlashNine ts = (ts,false) := by
  rw [takeSlashNine] at unhacked ⊢
  split
  · rfl
  rename_i last found
  simp only [found] at unhacked
  split
  · rename_i hacked
    rw [if_pos hacked] at unhacked
    split at unhacked <;> cases unhacked
  · rfl

theorem unmarkedDeclaration (trimmed : trimTokens ts = ts) (unmarked : Unmarked name ts) :
    readDeclaration name ts = .property name (readValue ts) false false := by
  rw [readDeclaration,trimmed,unimportantRest unmarked.unimportant]
  simp only [unhackedRest unmarked.unhacked,unmarked.modern]
  rfl

theorem lastUnmarked (before) {last} (kind : last.kind ≠ .ident) (other : last.text.getLast? ≠ some 57) :
    (takeImportant (before ++ [last])).2 = false ∧ (takeSlashNine (before ++ [last])).2 = false := by
  have free : (ascii "\\9").isSuffixOf last.text = false := by
    rw [Bool.eq_false_iff,Ne,isSuffixOf_iff_suffix]
    rintro ⟨text,same⟩
    exact other (by rw [← same]; exact getLast?_append_of_ne_nil text (cons_ne_nil _ _))
  simp [takeImportant,takeSlashNine,kind,free]

theorem closingOther (opening) :
    (closingToken opening).kind ≠ .ident ∧ (closingToken opening).text.getLast? ≠ some 57 := by
  rcases closingCases opening with same | same | same <;> rw [same] <;> decide

theorem closersConcat (missing : closers ts ≠ []) : ∃ us opening, closers ts = us ++ [closingToken opening] := by
  rcases eq_nil_or_concat (openings [] ts) with void | ⟨opened,last,full⟩
  · exact absurd (by rw [closers,void]; rfl) missing
  · exact ⟨opened.map closingToken,last,by simp [closers,full]⟩

theorem trimmedSolid (trimmed : trimTokens (t :: ts) = t :: ts) : t.isBlank = false := by
  cases blank : t.isBlank with
  | false => rfl
  | true =>
    rw [trimTokensBlank blank] at trimmed
    have short := trimTokensLength ts
    rw [trimmed,length_cons] at short
    omega

theorem trimmedFirst (trimmed : trimTokens ts = ts) (full : ts ≠ []) (us) :
    ∀ t ∈ (ts ++ us).head?, t.isBlank = false := by
  cases ts with
  | nil => exact absurd rfl full
  | cons t ts =>
    rintro u ⟨⟩
    exact trimmedSolid trimmed

theorem trimmedConcat (solid : t.isBlank = false) (first : ∀ u ∈ ts.head?, u.isBlank = false) :
    trimTokens (ts ++ [t]) = ts ++ [t] := by
  cases ts with
  | nil => rw [nil_append,trimTokensSolid solid]; rfl
  | cons u ts =>
    rw [cons_append,trimTokensSolid (first u rfl),trimEndConcat,solid]
    rfl

theorem trimmedLastSolid (trimmed : trimTokens ts = ts) : ∀ t ∈ ts.getLast?, t.isBlank = false := by
  intro t last
  obtain ⟨front,rfl⟩ := getLast?_eq_some_iff.mp last
  cases blank : t.isBlank with
  | false => rfl
  | true =>
    have short := trimTokensLength front
    rw [← trimmedPad (forall_mem_singleton.mpr blank),trimmed,length_append,length_singleton] at short
    omega

theorem closesSolid (closes : t.closes) : t.isBlank = false := by
  simp only [Token.closes,Bool.or_eq_true,decide_eq_true_eq] at closes
  rcases closes with (kind | kind) | kind <;> simp [isBlank,kind]

theorem declarationShut {pad} (bare : pad = [] ∨ pad = [Token.space]) (closable : Closable pad false ts)
    (ends : pad ≠ [] → ∀ t ∈ ts.getLast?, t.kind ≠ .comma) (trimmed : trimTokens ts = ts) (missing : closers ts ≠ [])
    (unmarked : Unmarked name ts) (modern : isOldFilter name (trim (tokensText (shutBehind pad ts))) = false) :
    readDeclaration name (shutBehind pad ts) = readDeclaration name ts := by
  obtain ⟨us,last,stack⟩ := closersConcat missing
  have whole : shutBehind pad ts = ts ++ pad ++ us ++ [closingToken last] := by simp [shutBehind,stack]
  have full : ts ≠ [] := by
    rintro rfl
    exact missing rfl
  have solid : trimTokens (shutBehind pad ts) = shutBehind pad ts := by
    have first := trimmedFirst trimmed full (pad ++ us)
    rw [← append_assoc] at first
    rw [whole]
    exact trimmedConcat (closesSolid (closingCloses last)) first
  have shut : Unmarked name (shutBehind pad ts) := by
    obtain ⟨kind,other⟩ := closingOther last
    obtain ⟨unimportant,unhacked⟩ := lastUnmarked (ts ++ pad ++ us) kind other
    rw [← whole] at unimportant unhacked
    exact ⟨unimportant,unhacked,modern⟩
  rw [unmarkedDeclaration solid shut,unmarkedDeclaration trimmed unmarked,readValue,readValue,
    (closableReadsShut bare closable (trimmedLastSolid trimmed) ends).terms rfl]

end

end Cascade
