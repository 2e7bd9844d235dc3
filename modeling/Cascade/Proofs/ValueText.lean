import Cascade.Proofs.ValueLanguage

/-! The tokens of values. A value as it is written goes on into nothing it may stand before, so
the tokens of a value are those of its parts. -/
namespace Cascade
open List
open Token (space)

variable {s text name : Bytes} {op : UInt8}

def startsValue (b : UInt8) : Bool := !isBlankByte b && b != 42 && b != 61

structure Trails (after text : Bytes) : Prop where
  closed : ∀ rest : Bytes, rest.take 1 = after → (∀ b ∈ rest.head?, isStop b = true) → Closed text rest
  balanced : Balanced (tokens text)

structure Spelled (after text : Bytes) : Prop extends Trails after text where
  starts : ∃ b u, text = b :: u ∧ startsValue b = true
  solid : ∃ t ts, tokens text = t :: ts ∧ t.isBlank = false

theorem beforeParen (trails : Trails [41] text) (rest : Bytes) : Closed text (41 :: rest) := by
  refine trails.closed (41 :: rest) rfl fun b here => ?_
  rw [← Option.some.inj here]
  rfl

theorem equalsDelim (s) : firstToken 61 s = (.delim,1) := by
  have number : numeric (61 :: s) = none := by
    have starts : startsNumber (61 :: s) = false := rfl
    rw [numeric,starts]
    rfl
  have word : identLike (61 :: s) = none := identLikeNone rfl
  simp [firstToken,isBlankByte,number,word,orDelim]

theorem starDelim (s) : (firstToken 42 s).1 = .matcher ∨ (firstToken 42 s).1 = .delim := by
  cases equals : s.head? == some 61 <;> simp [firstToken,isBlankByte,equals]

theorem singleStarts {kinds} (full : ∀ k ∈ kinds, k ∈ valueKinds) {v}
    (single : IsSingle kinds v) : ∃ b u, v.text = b :: u ∧ startsValue b := by
  obtain ⟨t,spelled,kind,_⟩ := single
  cases text : v.text with
  | nil => rw [text] at spelled; cases spelled
  | cons b u =>
    rw [text,tokensCons] at spelled
    have first : (firstToken b u).1 ∈ valueKinds := by
      rw [← (List.cons.inj spelled).1] at kind
      exact full _ kind
    refine ⟨b,u,rfl,?_⟩
    rw [startsValue,Bool.and_eq_true,Bool.and_eq_true,Bool.not_eq_true',bne_iff_ne,bne_iff_ne]
    refine ⟨⟨?_,?_⟩,?_⟩
    · cases blank : isBlankByte b with
      | false => rfl
      | true =>
        simp only [firstToken,blank,if_true] at first
        exact absurd first (by decide)
    · rintro rfl
      rcases starDelim u with kind | kind <;> rw [kind] at first <;> exact absurd first (by decide)
    · rintro rfl
      rw [equalsDelim] at first
      exact absurd first (by decide)

theorem valueKindPlain {t : Token} (kind : t.kind ∈ valueKinds) :
    t.isBlank = false ∧ t.opens = false ∧ t.closes = false := by
  simp only [valueKinds,mem_cons,not_mem_nil,or_false] at kind
  rcases kind with h | h | h | h | h | h | h | h <;> simp [Token.isBlank,Token.opens,Token.closes,h]

theorem spelledSingle {kinds} (full : ∀ k ∈ kinds, k ∈ valueKinds) {after v}
    (apart : IsApart kinds after v) : Spelled after v.text := by
  obtain ⟨single,closed⟩ := apart
  have starts := singleStarts full single
  obtain ⟨t,spelled,kind,_⟩ := single
  have plain := valueKindPlain (full _ kind)
  refine ⟨⟨fun rest before stop => closedBy stop (before ▸ closed),?_⟩,starts,⟨t,[],spelled,plain.1⟩⟩
  rw [spelled,Balanced,levelOver]
  simp [plain,levelOver]

theorem spelledParens (spelled : Spelled [41] text) (after) : Spelled after (parenthesized text) := by
  have closed : Closed text [41] := beforeParen spelled.toTrails []
  refine ⟨⟨fun rest _ _ => ?_,?_⟩,⟨40,_,rfl,rfl⟩,⟨_,_,parenthesizedAlone closed,rfl⟩⟩
  · rw [Closed,parenthesizedTokens closed,parenthesizedAlone closed]
    simp
  · rw [parenthesizedAlone closed]
    exact levelBlock rfl rfl spelled.balanced

theorem callTokens (function : FunctionName name) (spelled : Spelled [41] text) (rest) :
    tokens (name ++ parenthesized text ++ rest) =
      ⟨.function,name ++ [40]⟩ :: (tokens text ++ rightParen :: tokens rest) := by
  have closed : Closed text (41 :: rest) := beforeParen spelled.toTrails rest
  rw [append_assoc,parenthesized,cons_append,cons_append,functionToken function.ends function.call,
    append_assoc]
  exact congrArg (_ :: ·) closed

theorem callAlone (function : FunctionName name) (spelled : Spelled [41] text) :
    tokens (name ++ parenthesized text) = ⟨.function,name ++ [40]⟩ :: (tokens text ++ [rightParen]) := by
  simpa [tokens,tokensFrom] using callTokens function spelled []

theorem nameStarts {rest} (ends : EndsName name rest) : ∃ b u, name = b :: u ∧ startsValue b := by
  have full := endsNameSome ends
  cases name with
  | nil => exact absurd rfl ends.1
  | cons b u =>
    refine ⟨b,u,rfl,?_⟩
    by_cases hyphen : b = 45
    · rw [hyphen]
      rfl
    rw [cons_append,identLengthPlain hyphen] at full
    by_cases escape : b = 92
    · rw [escape]
      rfl
    · have other := startOther (x := b) (by simpa [escape] using plainIdentStart full)
      simp only [otherStarts,forall_mem_cons] at other
      simp [startsValue,isBlankByte,other]

theorem spelledCall (function : FunctionName name) (spelled : Spelled [41] text) (after) :
    Spelled after (name ++ parenthesized text) := by
  obtain ⟨b,u,same,starts⟩ := nameStarts function.ends
  refine ⟨⟨fun rest _ _ => ?_,?_⟩,⟨b,_,by rw [same]; rfl,starts⟩,⟨_,_,callAlone function spelled,rfl⟩⟩
  · rw [Closed,callTokens function spelled,callAlone function spelled]
    simp
  · rw [callAlone function spelled]
    exact levelBlock rfl rfl spelled.balanced

def operatorToken (op : UInt8) : Token :=
  if op == 0 then Token.space else if op == 44 then Token.comma else ⟨.delim,[op]⟩

theorem operatorTokens (op) (joins : op ∈ [0,44,47,61]) (starts : ∃ b u, s = b :: u ∧ startsValue b) :
    tokens (operatorByte op :: s) = operatorToken op :: tokens s := by
  obtain ⟨b,u,rfl,starts⟩ := starts
  simp only [startsValue,Bool.and_eq_true,Bool.not_eq_true',bne_iff_ne] at starts
  obtain ⟨⟨solid,noStar⟩,_⟩ := starts
  simp only [mem_cons,not_mem_nil,or_false] at joins
  rcases joins with rfl | rfl | rfl | rfl
  · exact tokensSpace fun c mem => by cases mem; exact solid
  · rfl
  · have slash : firstToken 47 (b :: u) = (.delim,1) := by simp [firstToken,isBlankByte,noStar]
    exact (tokensCons 47 (b :: u)).trans (by rw [slash]; rfl)
  · exact (tokensCons 61 (b :: u)).trans (by rw [equalsDelim]; rfl)

theorem plusTokens (joins : isPlusOrMinus op) (starts : ∃ b u, s = b :: u ∧ startsValue b) :
    tokens (32 :: op :: 32 :: s) = [space,⟨.delim,[op]⟩,space] ++ tokens s := by
  have space : tokens (32 :: s) = space :: tokens s := operatorTokens 0 (by decide) starts
  have sign : tokens (op :: 32 :: s) = ⟨.delim,[op]⟩ :: tokens (32 :: s) := by
    rcases joins with rfl | rfl <;> rfl
  have solid : ∀ b ∈ (op :: 32 :: s).head?, isBlankByte b = false := by
    rcases joins with rfl | rfl <;> simp <;> decide
  rw [tokensSpace solid,sign,space]
  rfl

theorem timesTokens (joins : isTimesOrOver op) (starts : ∃ b u, s = b :: u ∧ startsValue b) :
    tokens (op :: s) = ⟨.delim,[op]⟩ :: tokens s := by
  rcases joins with rfl | rfl
  · obtain ⟨b,u,rfl,starts⟩ := starts
    simp only [startsValue,Bool.and_eq_true,bne_iff_ne] at starts
    have star : firstToken 42 (b :: u) = (.delim,1) := by simp [firstToken,isBlankByte,starts.2]
    exact (tokensCons 42 (b :: u)).trans (by rw [star]; rfl)
  · exact operatorTokens 47 (by decide) starts

theorem trailsOperator {lead ts} (plain : Balanced ts)
    (spells : ∀ s, (∃ b u, s = b :: u ∧ startsValue b) → tokens (lead ++ s) = ts ++ tokens s) {after}
    (spelled : Spelled after s) : Trails after (lead ++ s) := by
  obtain ⟨b,u,text,starts⟩ := spelled.starts
  refine ⟨fun rest before stop => ?_,?_⟩
  · have closed := spelled.closed rest before stop
    rw [Closed,append_assoc,spells (s ++ rest) ⟨b,u ++ rest,by rw [text]; rfl,starts⟩,closed,
      spells s spelled.starts,append_assoc]
  · rw [spells s spelled.starts]
    exact levelJoin plain spelled.balanced

theorem spelledAppend {after u : Bytes} {b} (stop : isStop b) (first : Spelled [b] s)
    (second : Trails after (b :: u)) : Spelled after (s ++ b :: u) := by
  have stops : ∀ rest, ∀ c ∈ (b :: rest).head?, isStop c := fun rest c mem => by cases mem; exact stop
  have apart : tokens (s ++ b :: u) = tokens s ++ tokens (b :: u) := first.closed (b :: u) rfl (stops u)
  obtain ⟨c,v,text,starts⟩ := first.starts
  obtain ⟨t,ts,heads,solid⟩ := first.solid
  refine ⟨⟨fun rest before ends => ?_,?_⟩,⟨c,_,by rw [text]; rfl,starts⟩,⟨t,_,by rw [apart,heads]; rfl,solid⟩⟩
  · have whole : tokens (s ++ b :: (u ++ rest)) = tokens s ++ tokens (b :: (u ++ rest)) :=
      first.closed (b :: (u ++ rest)) rfl (stops (u ++ rest))
    have tail : tokens (b :: (u ++ rest)) = tokens (b :: u) ++ tokens rest := second.closed rest before ends
    rw [Closed,append_assoc,cons_append,whole,tail,apart,append_assoc]
  · rw [apart]
    exact levelJoin first.balanced second.balanced

def tailText (ts : List Term) : Bytes := ts.flatMap fun t => operatorByte t.op :: t.value.text

theorem termsText (t ts) : joinTerms (Term.texts (t :: ts)) = t.value.text ++ tailText ts := by
  rw [termTextsMap,map_cons,joinTerms,flatMap_map]
  rfl

theorem operatorStop (joins : op ∈ [0,44,47,61]) : isStop (operatorByte op) := by
  simp only [mem_cons,not_mem_nil,or_false] at joins
  rcases joins with rfl | rfl | rfl | rfl <;> rfl

theorem spelledTerms {after ts} (ops : ∀ t ∈ ts, t.op ∈ [0,44,47,61])
    (first : Spelled (following after ts) s) (rest : Trails after (tailText ts)) : Spelled after (s ++ tailText ts) := by
  cases ts with
  | nil =>
    rw [tailText,flatMap_nil,append_nil]
    exact first
  | cons t ts => exact spelledAppend (operatorStop (ops t mem_cons_self)) first rest

variable {leaf : List TokenKind → Bytes → Component → Prop}

theorem termsJoin {after ts} : TermsIn leaf after ts → ∀ t ∈ ts, t.op ∈ [0,44,47,61]
  | .nil => forall_mem_nil _
  | .cons joins _ rest => forall_mem_cons.mpr ⟨joins,termsJoin rest⟩

theorem argumentsJoin {ts} : ArgumentsIn leaf ts → ∀ t ∈ ts, t.op = 44
  | .nil => forall_mem_nil _
  | .cons _ rest => forall_mem_cons.mpr ⟨rfl,argumentsJoin rest⟩

theorem argumentsOperators {ts} (args : ArgumentsIn leaf ts) : ∀ t ∈ ts, t.op ∈ [0,44,47,61] := by
  intro t mem
  rw [argumentsJoin args t mem]
  decide

theorem operatorBalanced (joins : op ∈ [0,44,47,61]) : Balanced [operatorToken op] := by
  simp only [mem_cons,not_mem_nil,or_false] at joins
  rcases joins with rfl | rfl | rfl | rfl <;> rfl

theorem trailsTerm {after v ts} (joins : op ∈ [0,44,47,61])
    (spelled : Spelled after (v.text ++ tailText ts)) : Trails after (tailText (⟨op,v⟩ :: ts)) := by
  have spells : ∀ s, (∃ b u, s = b :: u ∧ startsValue b) →
      tokens ([operatorByte op] ++ s) = [operatorToken op] ++ tokens s := fun s => operatorTokens op joins
  exact trailsOperator (operatorBalanced joins) spells spelled

theorem spelledSum {after t} (joins : isPlusOrMinus op) (left : Spelled [32] s) (right : Spelled after t) :
    Spelled after (s ++ [32,op,32] ++ t) := by
  have spells : ∀ s, (∃ b u, s = b :: u ∧ startsValue b) →
      tokens ([32,op,32] ++ s) = [space,⟨.delim,[op]⟩,space] ++ tokens s := fun s => plusTokens joins
  have plain : Balanced [space,⟨.delim,[op]⟩,space] := rfl
  rw [append_assoc]
  exact spelledAppend rfl left (trailsOperator plain spells right)

theorem spelledProduct {after t} (joins : isTimesOrOver op) (left : Spelled [op] s) (right : Spelled after t) :
    Spelled after (s ++ [op] ++ t) := by
  have spells : ∀ s, (∃ b u, s = b :: u ∧ startsValue b) →
      tokens ([op] ++ s) = [⟨.delim,[op]⟩] ++ tokens s := fun s => timesTokens joins
  have plain : Balanced [⟨.delim,[op]⟩] := rfl
  have stop : isStop op := by rcases joins with rfl | rfl <;> rfl
  rw [append_assoc]
  exact spelledAppend stop left (trailsOperator plain spells right)

theorem spelledOperand {after} {parens : Bool} (spelled : Spelled (if parens then [41] else after) text) :
    Spelled after (if parens then parenthesized text else text) := by
  cases parens with
  | true => exact spelledParens spelled after
  | false => exact spelled

mutual

theorem valueSpelled {after} {v} : ValueIn IsApart after v → Spelled after v.text
  | .single fits => spelledSingle (fun _ kind => kind) fits
  | .call function _ first rest => by
    rw [Component.text,termsText]
    exact spelledCall function (spelledTerms (termsJoin rest) (valueSpelled first) (termsTrail rest)) after
  | .math function _ first rest => by
    rw [Component.text,termsText]
    exact spelledCall function (spelledTerms (argumentsOperators rest) (mathSpelled first) (argumentsTrail rest)) after

theorem termsTrail {after} {ts} : TermsIn IsApart after ts → Trails after (tailText ts)
  | .nil => ⟨fun _ _ _ => rfl,rfl⟩
  | .cons joins value rest =>
    trailsTerm joins (spelledTerms (termsJoin rest) (valueSpelled value) (termsTrail rest))

theorem mathSpelled {after} {c} : MathIn IsApart after c → Spelled after c.text
  | .single fits => spelledSingle (by decide) fits
  | .call value => valueSpelled value
  | .sum joins left right => spelledSum joins (mathSpelled left) (spelledOperand (mathSpelled right))
  | .product joins left right =>
    spelledProduct joins (spelledOperand (mathSpelled left)) (spelledOperand (mathSpelled right))

theorem argumentsTrail {ts} : ArgumentsIn IsApart ts → Trails [41] (tailText ts)
  | .nil => ⟨fun _ _ _ => rfl,rfl⟩
  | .cons first rest =>
    trailsTerm (by decide) (spelledTerms (argumentsOperators rest) (mathSpelled first) (argumentsTrail rest))

end

end Cascade
