import Cascade.Proofs.FormulaSpellings

/-! The places that counting formulas select. With a factor of zero a formula is written as two numbers. -/
namespace Cascade
open List Counting

section
variable {b : UInt8} {s : Bytes}

theorem digitOther (digit : isDigit b) : ∀ c ∈ 85 :: 117 :: otherStarts, b ≠ c := by
  have bare : (85 :: 117 :: otherStarts).all (fun c => !isDigit c) := rfl
  rintro c mem rfl
  simpa [digit] using all_eq_true.mp bare b mem

theorem firstTokenNumber (byte : isIntegerByte b) {r} (found : numeric (b :: s) = some r) : firstToken b s = r := by
  simp only [isIntegerByte,Bool.or_eq_true,beq_iff_eq] at byte
  rcases byte with (digit | rfl) | rfl
  · have other := digitOther digit
    simp only [otherStarts,forall_mem_cons] at other
    simp [firstToken,isBlankByte,other,found]
  · simp [firstToken,isBlankByte,found,orDelim]
  · simp [firstToken,isBlankByte,found]

theorem numeralToken (i : Numeral) {unit rest} (ends : EndsDigits (unit ++ rest))
    (percent : (unit ++ rest).head? ≠ some 37) (length : identLength (unit ++ rest) = unit.length) :
    tokens (i.text ++ (unit ++ rest)) =
      ⟨if unit = [] then .number else .dimension,i.text ++ unit⟩ :: tokens rest := by
  have size := numeralLength i (unit ++ rest) ends
  have found : numeric (i.text ++ (unit ++ rest)) =
      some (if unit = [] then .number else .dimension,i.text.length + unit.length) := by
    rw [numericPlain (numeralStarts i _),size,drop_left,length]
    · cases unit <;> rfl
    · intro u whole
      rw [size,drop_left] at whole
      exact percent (by rw [whole]; rfl)
  obtain ⟨b,u,text⟩ := exists_cons_of_ne_nil (numeralNoSign i).1
  have byte := numeralBytes i b (by simp [text])
  rw [text,cons_append] at found
  rw [text,cons_append,tokensCons,firstTokenNumber byte found,← append_assoc]
  have count : (b :: u).length + unit.length - 1 = (u ++ unit).length := by
    rw [length_append,length_cons]
    omega
  simp only [count,take_left,drop_left,cons_append]

end

section
variable {s u rest : Bytes}

theorem lowComplete (low : ∀ b ∈ s, b < 0x80) : Complete s := by
  induction s with
  | nil => exact .nil
  | cons b s ih =>
    obtain ⟨here,others⟩ := forall_mem_cons.mp low
    exact singleComplete (UInt8.lt_trans here (by decide)) (ih others)

def CountingBytes (s : Bytes) : Prop := ∀ b ∈ s, isDigit b = true ∨ b = 45 ∨ b = 110

theorem countingByte {b} (byte : isDigit b ∨ b = 45 ∨ b = 110) : isNameByte b ∧ b < 0x80 ∧
    b ≠ 92 ∧ lowerByte b = b := by
  rcases byte with digit | rfl | rfl
  · have integer := integerByte (b := b) (by simp [isIntegerByte,digit])
    exact ⟨by simp [isNameByte,digit],integer.2.1,integer.2.2.1,integer.1⟩
  · decide
  · decide

theorem countingSaid (bytes : CountingBytes s) : wordOf s = s := by
  have plain : 92 ∉ s := fun mem => (countingByte (bytes 92 mem)).2.2.1 rfl
  rw [wordPlain plain]
  exact (map_congr_left fun b mem => (countingByte (bytes b mem)).2.2.2).trans (map_id _)

theorem countingEnds (bytes : CountingBytes s) (starts : startsName s) (ends : ∀ b ∈ rest.head?, b = 43) :
    EndsName s rest := by
  have pieces : Pieces nameRule (s ++ []) := bytesPieces (fun b mem => (countingByte (bytes b mem)).1) .nil
  rw [append_nil] at pieces
  have name : Identifier s := ⟨pieces,starts,lowComplete fun b mem => (countingByte (bytes b mem)).2.1⟩
  exact identifierEnds name (fun b first => ends b first ▸ ⟨rfl,rfl⟩) (fun b first => ends b first ▸ rfl)

theorem factorTokens {a} (factor : FactorText s a) (bytes : CountingBytes (110 :: u))
    (ends : ∀ b ∈ rest.head?, b = 43) :
    ∃ ts, tokens (s ++ ((110 :: u) ++ rest)) = ts ++ tokens rest ∧ Factor ts a (110 :: u) := by
  have said := countingSaid bytes
  have plain := countingEnds bytes rfl ends
  have call : rest.head? ≠ some 40 := by
    intro same
    cases ends 40 same
  have word : tokens ((110 :: u) ++ rest) = ⟨.ident,110 :: u⟩ :: tokens rest := wordToken plain call rfl
  cases factor with
  | number i =>
    refine ⟨[⟨.dimension,i.text ++ 110 :: u⟩],?_,.number i said⟩
    refine numeralToken i ?_ (by simp) (endsNameLength plain)
    rintro _ ⟨⟩
    decide
  | one => exact ⟨[⟨.ident,110 :: u⟩],word,.one said⟩
  | minus =>
    have signed : CountingBytes (45 :: 110 :: u) := forall_mem_cons.mpr ⟨.inr (.inl rfl),bytes⟩
    exact ⟨[⟨.ident,45 :: 110 :: u⟩],wordToken (countingEnds signed rfl ends) call rfl,.minus (countingSaid signed)⟩
  | plus =>
    refine ⟨[⟨.delim,[43]⟩,⟨.ident,110 :: u⟩],?_,.plus (forall_mem_nil _) said⟩
    have first : firstToken 43 ((110 :: u) ++ rest) = (.delim,1) := by
      simp [firstToken,isBlankByte,numeric,startsNumber,signLength,isDigit,orDelim]
    rw [singleton_append,tokensCons,first]
    exact congrArg (_ :: ·) word

theorem numeralAlone (i : Numeral) : tokens i.text = [⟨.number,i.text⟩] := by
  have token : tokens (i.text ++ []) = [⟨.number,i.text ++ []⟩] :=
    @numeralToken i [] [] (by rintro _ ⟨⟩) (by simp) rfl
  rwa [append_nil] at token

theorem formulaTokens {c} (text : FormulaText s c) : Formula (tokens s) c := by
  have letter : CountingBytes [110] := forall_mem_singleton.mpr (.inr (.inr rfl))
  cases text with
  | even => exact .even rfl
  | odd => exact .odd rfl
  | fixed i =>
    rw [numeralAlone]
    exact .fixed i
  | multiple factor =>
    obtain ⟨ts,found,made⟩ := @factorTokens _ [] [] _ factor letter (by simp)
    rw [append_nil] at found
    rw [found]
    exact .multiple ((append_nil ts).symm ▸ made)
  | linear factor i sign =>
    rcases numeralMark i sign with ⟨mark,text⟩ | ⟨_,text⟩
    · have bytes : CountingBytes (110 :: i.text) := by
        rw [text]
        exact forall_mem_cons.mpr ⟨.inr (.inr rfl),forall_mem_cons.mpr
          ⟨.inr (.inl rfl),fun b mem => .inl (i.plain b mem)⟩⟩
      obtain ⟨ts,found,made⟩ := @factorTokens _ _ [] _ factor bytes (by simp)
      rw [append_nil] at found
      rw [found]
      exact .joined i mark ((append_nil ts).symm ▸ made)
    · obtain ⟨ts,found,made⟩ := @factorTokens _ [] i.text _ factor letter (by simp [text])
      have whole := Formula.signed i sign made (forall_mem_nil _)
      rw [nil_append,← numeralAlone,← found] at whole
      exact whole

end

namespace Counting

def writtenStep (a : Int) : Bytes :=
  if a = 0 then [48] else if a = 1 then ascii "n" else if a = -1 then ascii "-n" else signedDecimal a ++ ascii "n"

def written : Counting → Bytes
  | even => ascii "even"
  | odd => ascii "odd"
  | fixed b => signedDecimal b
  | multiple a => writtenStep a
  | linear a b => writtenStep a ++ (if b < 0 then 45 else 43) :: decimal b.natAbs

def finished : Counting → Counting
  | linear a b => if b = 0 then multiple a else if a = 2 ∧ b = 1 then odd else linear a b
  | c => c

def Matches (c d : Counting) : Prop := c.step = d.step ∧ c.offset = d.offset

end Counting

section
variable {n : Nat} (small : n < 2 ^ 53) (negative : Bool)

theorem signedZero : signedWhole negative n = 0 ↔ n = 0 := by
  cases negative <;> simp [signedWhole]

theorem signedBelow : signedWhole negative n < 0 ↔ negative ∧ n ≠ 0 := by
  cases negative
  · simp [signedWhole]
  · simp [signedWhole]
    omega

theorem signedUnit (minus) : signedWhole negative n = signedWhole minus 1 ↔ n = 1 ∧ negative = minus := by
  cases negative <;> cases minus <;> simp [signedWhole]
  omega

include small

theorem stepWritten : stepText (withSign negative (Float.ofNat n)) = writtenStep (signedWhole negative n) := by
  have one : (withSign negative (Float.ofNat n) == 1.0) = (decide (n = 1) && negative == false) :=
    isUnitWhole small negative false
  have minus : (withSign negative (Float.ofNat n) == -1.0) = (decide (n = 1) && negative == true) :=
    isUnitWhole small negative true
  have unit : signedWhole negative n = 1 ↔ n = 1 ∧ negative = false := signedUnit negative false
  have unitBelow : signedWhole negative n = -1 ↔ n = 1 ∧ negative := signedUnit negative true
  rw [stepText,writtenStep,isZeroWhole small,one,minus,wholePrinted small]
  simp only [signedZero,unit,unitBelow,decide_eq_true_eq,Bool.and_eq_true,beq_iff_eq]

theorem magnitudeWritten : compactNumber (magnitude (withSign negative (Float.ofNat n))) = decimal n := by
  rw [magnitudeWhole small]
  exact wholePrinted small false

end

section
variable {f : Component} {c : Counting}

theorem formulaSpelling {ts} (formula : Formula ts c) : Spelling ts c :=
  ⟨[],ts,[],by simp,forall_mem_nil _,formula,forall_mem_nil _⟩

theorem denotesWritten (denotes : Denotes f c) : f.text = c.written := by
  cases denotes with
  | even => rfl
  | odd => rfl
  | fixed negative small => exact wholePrinted small negative
  | multiple negative small => exact stepWritten small negative
  | linear negative minus small few =>
    show linearText [] _ _ = _
    rw [linearText,stepWritten small,magnitudeWritten few,written,signedAbs]
    simp only [isNegativeWhole few,signedBelow,append_nil,append_assoc]
    split <;> rfl

theorem numeralValue {plus} (other : plus ≠ some true) (b) :
    (Numeral.of (if b < 0 then some true else plus) b.natAbs).value = b := by
  rw [Numeral.ofValue]
  split
  · show -(b.natAbs : Int) = b
    omega
  · rw [beq_eq_false_iff_ne.mpr other]
    show (b.natAbs : Int) = b
    omega

theorem numeralWritten (b) : ∃ i : Numeral, i.text = signedDecimal b ∧ i.value = b := by
  refine ⟨_,?_,@numeralValue none (by decide) b⟩
  rw [signedDecimal,Numeral.text,Numeral.of]
  split <;> rfl

theorem offsetWritten (b) : ∃ i : Numeral, i.sign ≠ none ∧
    i.text = (if b < 0 then 45 else 43) :: decimal b.natAbs ∧ i.value = b := by
  refine ⟨_,?_,?_,@numeralValue (some false) (by decide) b⟩
  · rw [Numeral.of]
    split <;> simp
  · rw [Numeral.text,Numeral.of]
    split <;> rfl

theorem factorWritten {a} (nonzero : a ≠ 0) : ∃ s, writtenStep a = s ++ [110] ∧ FactorText s a := by
  rw [writtenStep,if_neg nonzero]
  split
  · rename_i one
    exact ⟨[],rfl,one ▸ .one⟩
  split
  · rename_i minus
    exact ⟨[45],rfl,minus ▸ .minus⟩
  · obtain ⟨i,text,value⟩ := numeralWritten a
    exact ⟨i.text,by rw [text]; rfl,value ▸ .number i⟩

theorem writtenFormula (kept : ∀ b, c ≠ .linear 0 b) : ∃ d, FormulaText c.written d ∧ d.Matches c := by
  cases c with
  | even => exact ⟨.even,.even,rfl,rfl⟩
  | odd => exact ⟨.odd,.odd,rfl,rfl⟩
  | fixed b =>
    obtain ⟨i,text,value⟩ := numeralWritten b
    refine ⟨.fixed i.value,?_,rfl,value⟩
    rw [written,← text]
    exact .fixed i
  | multiple a =>
    by_cases zero : a = 0
    · subst zero
      exact ⟨.fixed 0,.fixed (.of none 0),rfl,rfl⟩
    obtain ⟨s,text,factor⟩ := factorWritten zero
    refine ⟨.multiple a,?_,rfl,rfl⟩
    rw [written,text]
    exact .multiple factor
  | linear a b =>
    have nonzero : a ≠ 0 := fun zero => kept b (zero ▸ rfl)
    obtain ⟨s,step,factor⟩ := factorWritten nonzero
    obtain ⟨i,sign,text,value⟩ := offsetWritten b
    refine ⟨.linear a i.value,?_,rfl,value⟩
    rw [written,step,← text,append_assoc]
    exact .linear factor i sign

theorem oddWritten (a b) : (linear a b).written = ascii "2n+1" ↔ a = 2 ∧ b = 1 := by
  constructor
  · intro same
    obtain ⟨j,_,offset,rfl⟩ := offsetWritten b
    rw [written,← offset] at same
    by_cases zero : a = 0
    · rw [zero] at same
      exact absurd (List.cons.inj same).1 (by decide)
    obtain ⟨s,step,factor⟩ := factorWritten zero
    have before : ∀ b ∈ s, (b != 110) :=
      fun b mem => bne_iff_ne.mpr (integerByte (factorBytes factor b mem)).2.2.2.2.1
    rw [step,append_assoc] at same
    have front : s = [50] := by
      have cut := congrArg (List.takeWhile (· != 110)) same
      rwa [takeWhile_append_of_pos before,singleton_append,takeWhile_cons_of_neg (by decide),
        append_nil] at cut
    have back : j.text = [43,49] := by
      rw [front] at same
      exact (List.cons.inj (List.cons.inj same).2).2
    refine ⟨?_,by rw [numeralTextValue,back]; rfl⟩
    cases factor with
    | number i => rw [numeralTextValue,front]; rfl
    | one | minus | plus => cases front
  · rintro ⟨rfl,rfl⟩
    rfl

theorem finishedDenotes (ctx) (denotes : Denotes f c) : Denotes (finishFormula (f.again ctx)) c.finished := by
  have text := denotesWritten denotes
  cases denotes with
  | even => exact .even
  | odd => exact .odd
  | fixed negative small => exact .fixed negative small
  | multiple negative small => exact .multiple negative small
  | linear negative minus small few =>
    have once : ∀ step offset, (Component.linear step offset).again ctx =
        if offset == 0.0 then .multiple step else .linear step offset := fun _ _ => rfl
    have whole : ∀ step offset, finishFormula (.linear step offset) = if (Component.linear step offset).text ==
        ascii "2n+1" then .ident (ascii "odd") else .linear step offset := fun _ _ => rfl
    rw [once,isZeroWhole few,finished]
    simp only [signedZero,decide_eq_true_eq]
    split
    · exact .multiple negative small
    rw [whole,text]
    simp only [beq_iff_eq,oddWritten]
    split
    · exact .odd
    · exact .linear negative minus small few

theorem finishedMatches (c : Counting) : c.finished.Matches c := by
  unfold finished
  split
  · split
    · rename_i bare
      exact ⟨rfl,bare.symm⟩
    split
    · rename_i odd
      exact ⟨odd.1.symm,odd.2.symm⟩
    · exact ⟨rfl,rfl⟩
  · exact ⟨rfl,rfl⟩

theorem finishedZero (c : Counting) (b) : c.finished = .linear 0 b ↔ c = .linear 0 b ∧ b ≠ 0 := by
  cases c with
  | linear a offset =>
    rw [finished]
    split
    · rename_i bare
      simp only [reduceCtorEq,Counting.linear.injEq,false_iff]
      omega
    split
    · simp only [reduceCtorEq,Counting.linear.injEq,false_iff]
      omega
    · rw [Counting.linear.injEq]
      omega
  | _ => simp [finished]

theorem matchesSelects {d} (same : c.Matches d) (place) : c.Selects place ↔ d.Selects place := by
  rw [Counting.Selects,Counting.Selects,same.1,same.2]

theorem factorFirst {ts a w} (factor : Factor ts a w) : ∃ t more, ts = t :: more ∧ t.kind ≠ .number := by
  cases factor <;> exact ⟨_,_,rfl,by simp⟩

theorem numbersUnspelt (s t) : ¬Spelling [⟨.number,s⟩,⟨.number,t⟩] c := by
  rintro ⟨before,formula,after,whole,left,made,right⟩
  have first : ∃ u more, formula = u :: more ∧ (more = [] ∨ u.kind ≠ .number) := by
    cases made with
    | even | odd | fixed => exact ⟨_,_,rfl,.inl rfl⟩
    | multiple factor | joined _ _ factor =>
      obtain ⟨u,more,rfl,kind⟩ := factorFirst factor
      exact ⟨u,more,rfl,.inr kind⟩
    | dashed _ _ factor | signed _ _ factor | apart _ _ _ factor =>
      obtain ⟨u,more,rfl,kind⟩ := factorFirst factor
      exact ⟨u,_,rfl,.inr kind⟩
  obtain ⟨u,more,rfl,kind⟩ := first
  cases before with
  | cons t before =>
    obtain ⟨rfl,_⟩ := List.cons.inj whole
    cases left _ mem_cons_self
  | nil =>
    obtain ⟨rfl,behind⟩ := List.cons.inj whole
    rcases kind with rfl | kind
    · subst behind
      cases right _ mem_cons_self
    · exact kind rfl

theorem signedNoName (i : Numeral) (sign : i.sign ≠ none) :
    identLength i.text = 0 ∧ ∀ b ∈ i.text.head?, b = 43 ∨ b = 45 := by
  obtain ⟨b,u,digits,_,_,_,digit⟩ := numeralFirst i
  rcases numeralMark i sign with ⟨_,text⟩ | ⟨_,text⟩
  · have bare : plainIdentLength (b :: u) = 0 := by
      refine Decidable.byContradiction fun word => ?_
      rw [(startNoDigit (plainIdentStart word)).1] at digit
      cases digit
    rw [text]
    refine ⟨?_,by rintro _ ⟨⟩; exact .inr rfl⟩
    rw [digits,identLengthHyphen,bare]
    rfl
  · rw [text]
    exact ⟨rfl,by rintro _ ⟨⟩; exact .inl rfl⟩

theorem zeroUnspelt (b) : ¬Spelling (tokens (linear 0 b).written) c := by
  obtain ⟨i,sign,offset,_⟩ := offsetWritten b
  obtain ⟨name,first⟩ := signedNoName i sign
  have ends : EndsDigits i.text := by
    intro b mem
    rcases first b mem with rfl | rfl <;> decide
  have percent : i.text.head? ≠ some 37 := by
    intro same
    rcases first 37 same with other | other <;> cases other
  have zero : tokens ([48] ++ i.text) = ⟨.number,[48]⟩ :: tokens i.text :=
    @numeralToken (.of none 0) [] i.text ends percent name
  rw [written,← offset]
  show ¬Spelling (tokens ([48] ++ i.text)) c
  rw [zero,numeralAlone]
  exact numbersUnspelt _ _

end

/- A formula is read unless a token of it is written with an escape, and what is written for it is a formula for
the same places unless its factor is zero and its offset is not. -/
theorem countedPlacesKept {ts : List Token} {c : Counting} (spelling : Spelling ts c) (small : c.IsSmall) :
    ((readNth ts).isSome = true ↔ ∀ t ∈ ts, t.isBlank = false → 92 ∉ t.text) ∧
    ∀ formula, readNth ts = some formula → ∀ ctx name, ∃ w,
      ((Component.nth name formula).again ctx).text = 58 :: lower name ++ parenthesized w ∧
      ((∃ d, Spelling (tokens w) d ∧ ∀ place, d.Selects place ↔ c.Selects place) ↔ ∀ b, c = .linear 0 b → b = 0) := by
  rw [← gaplessEscape]
  by_cases plain : 92 ∈ gaplessText ts
  · have bare := escapeUnread plain
    rw [bare]
    exact ⟨by simp [plain],fun formula read => by cases read⟩
  obtain ⟨f,read,denotes⟩ : ∃ f, readNth ts = some f ∧ Denotes f c := formulaRead (spellingText spelling plain) small
  rw [read]
  refine ⟨by simp [plain],?_⟩
  rintro formula ⟨⟩ ctx name
  have finished := finishedDenotes ctx denotes
  refine ⟨c.finished.written,?_,?_⟩
  · rw [← denotesWritten finished]
    rfl
  · constructor
    · rintro ⟨d,spelt,_⟩ b zero
      refine Decidable.byContradiction fun full => ?_
      rw [(finishedZero c b).mpr ⟨zero,full⟩] at spelt
      exact zeroUnspelt b spelt
    · intro kept
      obtain ⟨d,text,same⟩ := writtenFormula fun b zero =>
        have lost := (finishedZero c b).mp zero
        lost.2 (kept b lost.1)
      refine ⟨d,formulaSpelling (formulaTokens text),fun place => ?_⟩
      rw [matchesSelects same,matchesSelects (finishedMatches c)]

theorem placesKeptAndLost :
    (Spelling (tokens (ascii " +3N - 07")) (.linear 3 (-7)) ∧
      ∃ formula, readNth (tokens (ascii " +3N - 07")) = some formula ∧ ∀ ctx name, ∃ w,
        ((Component.nth name formula).again ctx).text = 58 :: lower name ++ parenthesized w ∧
        ∃ d, Spelling (tokens w) d ∧ ∀ place, d.Selects place ↔ (linear 3 (-7)).Selects place) ∧
    (Spelling (tokens (ascii "0n+5")) (.linear 0 5) ∧
      ∃ formula, readNth (tokens (ascii "0n+5")) = some formula ∧ ∀ ctx name, ∃ w,
        ((Component.nth name formula).again ctx).text = 58 :: lower name ++ parenthesized w ∧
        ¬∃ d, Spelling (tokens w) d ∧ ∀ place, d.Selects place ↔ (linear 0 5).Selects place) ∧
    Spelling (tokens (ascii "\\odd")) .odd ∧ readNth (tokens (ascii "\\odd")) = none := by
  have apart : Spelling (tokens (ascii " +3N - 07")) (.linear 3 (-7)) :=
    ⟨[Token.space],_,[],rfl,forall_mem_singleton.mpr rfl,.apart true ⟨none,[48,55],by decide,by simp [isDigit]⟩ rfl
      (.number (.of (some false) 3) rfl) (forall_mem_singleton.mpr rfl) (forall_mem_singleton.mpr rfl),
      forall_mem_nil _⟩
  have zero : Spelling (tokens (ascii "0n+5")) (.linear 0 5) := formulaSpelling
    (.signed (.of (some false) 5) (by decide) (.number (.of none 0) rfl) (forall_mem_nil _))
  have escaped : Spelling (tokens (ascii "\\odd")) .odd := formulaSpelling (.odd rfl)
  have plain {ts : List Token} (all : ts.all (fun t => !t.text.contains 92) = true) :
      ∀ t ∈ ts, t.isBlank = false → 92 ∉ t.text := fun t mem _ => by simpa using all_eq_true.mp all t mem
  have kept := countedPlacesKept apart ⟨by decide,by decide⟩
  have lost := countedPlacesKept zero ⟨by decide,by decide⟩
  have unread := countedPlacesKept escaped ⟨by decide,by decide⟩
  refine ⟨⟨apart,?_⟩,⟨zero,?_⟩,escaped,?_⟩
  · obtain ⟨formula,read⟩ := Option.isSome_iff_exists.mp (kept.1.mpr (plain rfl))
    refine ⟨formula,read,fun ctx name => ?_⟩
    obtain ⟨w,text,places⟩ := kept.2 formula read ctx name
    exact ⟨w,text,places.mpr fun b same => by cases same⟩
  · obtain ⟨formula,read⟩ := Option.isSome_iff_exists.mp (lost.1.mpr (plain rfl))
    refine ⟨formula,read,fun ctx name => ?_⟩
    obtain ⟨w,text,places⟩ := lost.2 formula read ctx name
    exact ⟨w,text,fun same => absurd (places.mp same 5 rfl) (by decide)⟩
  · refine Option.not_isSome_iff_eq_none.mp fun read => ?_
    exact unread.1.mp read ⟨.ident,ascii "\\odd"⟩ mem_cons_self rfl mem_cons_self

end Cascade
