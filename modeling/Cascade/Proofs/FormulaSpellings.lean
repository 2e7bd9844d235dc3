import Cascade.Proofs.InnerTokens
import Cascade.Proofs.SharedBoxes
import Cascade.Proofs.WholeNumbers

/-! The spellings of formulas that count siblings, and what is read from them. -/
namespace Cascade
open List

inductive Counting where
  | even
  | odd
  | fixed (offset : Int)
  | multiple (step : Int)
  | linear (step offset : Int)

namespace Counting

def step : Counting → Int
  | even => 2
  | odd => 2
  | fixed _ => 0
  | multiple step => step
  | linear step _ => step

def offset : Counting → Int
  | even => 0
  | odd => 1
  | fixed offset => offset
  | multiple _ => 0
  | linear _ offset => offset

def Selects (c : Counting) (place : Int) : Prop := ∃ n : Nat, place = c.step * n + c.offset

def IsSmall (c : Counting) : Prop := c.step.natAbs < 10 ^ 9 ∧ c.offset.natAbs < 10 ^ 9

end Counting

def wordOf (name : Bytes) : Bytes := lowerAscii (decoded name)

/- Tokens from the factor of a formula through its `n`, and the word that starts with the `n`. A plus sign may
stand before a name, and nothing but comments between them. -/
inductive Factor : List Token → Int → Bytes → Prop where
  | number (i : Numeral) {unit word : Bytes} (said : wordOf unit = word) :
      Factor [⟨.dimension,i.text ++ unit⟩] i.value word
  | one {name word : Bytes} (said : wordOf name = word) : Factor [⟨.ident,name⟩] 1 word
  | minus {name word : Bytes} (said : wordOf name = 45 :: word) : Factor [⟨.ident,name⟩] (-1) word
  | plus {comments : List Token} {name word : Bytes} (only : ∀ t ∈ comments, t.kind = .comment)
      (said : wordOf name = word) : Factor (⟨.delim,[43]⟩ :: (comments ++ [⟨.ident,name⟩])) 1 word

/- Tokens that make a counting formula. The offset is part of the word behind the factor, or its digits are, or
it follows with its sign, or its sign is a token of its own. -/
inductive Formula : List Token → Counting → Prop where
  | even {name : Bytes} (said : wordOf name = ascii "even") : Formula [⟨.ident,name⟩] .even
  | odd {name : Bytes} (said : wordOf name = ascii "odd") : Formula [⟨.ident,name⟩] .odd
  | fixed (i : Numeral) : Formula [⟨.number,i.text⟩] (.fixed i.value)
  | multiple {ts : List Token} {a : Int} (factor : Factor ts a (ascii "n")) : Formula ts (.multiple a)
  | joined {ts : List Token} {a : Int} (i : Numeral) (minus : i.sign = some true)
      (factor : Factor ts a (ascii "n" ++ i.text)) : Formula ts (.linear a i.value)
  | dashed {ts gap : List Token} {a : Int} (i : Numeral) (bare : i.sign = none) (factor : Factor ts a (ascii "n-"))
      (blank : Blanks gap) : Formula (ts ++ (gap ++ [⟨.number,i.text⟩])) (.linear a (-i.value))
  | signed {ts gap : List Token} {a : Int} (i : Numeral) (sign : i.sign ≠ none) (factor : Factor ts a (ascii "n"))
      (blank : Blanks gap) : Formula (ts ++ (gap ++ [⟨.number,i.text⟩])) (.linear a i.value)
  | apart {ts left right : List Token} {a : Int} (minus : Bool) (i : Numeral) (bare : i.sign = none)
      (factor : Factor ts a (ascii "n")) (before : Blanks left) (after : Blanks right) :
      Formula (ts ++ (left ++ ⟨.delim,signText (some minus)⟩ :: (right ++ [⟨.number,i.text⟩])))
        (.linear a (if minus then -i.value else i.value))

def Spelling (ts : List Token) (c : Counting) : Prop :=
  ∃ before formula after, ts = before ++ (formula ++ after) ∧ Blanks before ∧ Formula formula c ∧ Blanks after

inductive FactorText : Bytes → Int → Prop where
  | number (i : Numeral) : FactorText i.text i.value
  | one : FactorText [] 1
  | minus : FactorText [45] (-1)
  | plus : FactorText [43] 1

inductive FormulaText : Bytes → Counting → Prop where
  | even : FormulaText (ascii "even") .even
  | odd : FormulaText (ascii "odd") .odd
  | fixed (i : Numeral) : FormulaText i.text (.fixed i.value)
  | multiple {s : Bytes} {a : Int} (factor : FactorText s a) : FormulaText (s ++ [110]) (.multiple a)
  | linear {s : Bytes} {a : Int} (factor : FactorText s a) (i : Numeral) (sign : i.sign ≠ none) :
      FormulaText (s ++ 110 :: i.text) (.linear a i.value)

inductive Denotes : Component → Counting → Prop where
  | even : Denotes (.ident (ascii "even")) .even
  | odd : Denotes (.ident (ascii "odd")) .odd
  | fixed {n : Nat} (negative : Bool) (small : n < 2 ^ 53) :
      Denotes (.number (withSign negative (Float.ofNat n))) (.fixed (signedWhole negative n))
  | multiple {n : Nat} (negative : Bool) (small : n < 2 ^ 53) :
      Denotes (.multiple (withSign negative (Float.ofNat n))) (.multiple (signedWhole negative n))
  | linear {n m : Nat} (negative minus : Bool) (small : n < 2 ^ 53) (few : m < 2 ^ 53) :
      Denotes (.linear (withSign negative (Float.ofNat n)) (withSign minus (Float.ofNat m)))
        (.linear (signedWhole negative n) (signedWhole minus m))

def isIntegerByte (b : UInt8) : Bool := isDigit b || b == 43 || b == 45

def gaplessText (ts : List Token) : Bytes := (ts.filter fun t => !t.isBlank).flatMap Token.text

section
variable {ts us : List Token} {s w : Bytes} {a : Int} {c : Counting}

theorem gaplessAppend (ts us) : gaplessText (ts ++ us) = gaplessText ts ++ gaplessText us := by
  rw [gaplessText,filter_append,flatMap_append]
  rfl

theorem gaplessBlanks (blank : Blanks ts) : gaplessText ts = [] := by
  have bare : ts.filter (fun t => !t.isBlank) = [] :=
    filter_eq_nil_iff.mpr fun t mem => by simp [blank t mem]
  rw [gaplessText,bare]
  rfl

theorem gaplessCons {t} (solid : t.isBlank = false) (ts) : gaplessText (t :: ts) = t.text ++ gaplessText ts := by
  rw [gaplessText,filter_cons_of_pos (by simp [solid]),flatMap_cons]
  rfl

theorem gaplessOne {t} (solid : t.isBlank = false) : gaplessText [t] = t.text := by
  rw [gaplessCons solid]
  exact append_nil _

theorem gaplessEscape : 92 ∉ gaplessText ts ↔ ∀ t ∈ ts, t.isBlank = false → 92 ∉ t.text := by
  simp [gaplessText,mem_flatMap,mem_filter]

theorem lowerAsciiAppend (s t) : lowerAscii (s ++ t) = lowerAscii s ++ lowerAscii t := map_append

theorem integerByte {b} (byte : isIntegerByte b) : lowerByte b = b ∧ b < 0x80 ∧
    b ≠ 92 ∧ b ≠ 101 ∧ b ≠ 110 ∧ b ≠ 111 := by
  simp only [isIntegerByte,lowerByte,isUpperLetter,isDigit] at *
  grind

theorem signBytesInteger (sign) : ∀ b ∈ signText sign, isIntegerByte b := by
  rcases sign with _ | _ | _
  · exact forall_mem_nil _
  · exact forall_mem_singleton.mpr rfl
  · exact forall_mem_singleton.mpr rfl

theorem numeralBytes (i : Numeral) : ∀ b ∈ i.text, isIntegerByte b := by
  refine forall_mem_append.mpr ⟨signBytesInteger i.sign,fun b mem => ?_⟩
  simp [isIntegerByte,i.plain b mem]

theorem numeralLower (i : Numeral) : lowerAscii i.text = i.text :=
  (map_congr_left fun b mem => (integerByte (numeralBytes i b mem)).1).trans (map_id _)

theorem wordPlain (plain : 92 ∉ s) : wordOf s = lowerAscii s := by rw [wordOf,decodedPlain plain]

theorem lowerLow (low : ∀ b ∈ lowerAscii s, b < 0x80) : lower s = lowerAscii s := by
  have plain : ∀ b ∈ s, b < 0x80 := by
    intro b mem
    have below := low (lowerByte b) (mem_map_of_mem mem)
    simp only [lowerByte,isUpperLetter] at below
    grind
  obtain ⟨rest,whole,lowered⟩ := loweredPlain plain (s := []) (by rw [append_nil]; exact lowerLowered s)
  cases lowered
  rw [whole,append_nil]
  rfl

theorem numeralSigned (i : Numeral) (bare : i.sign = none) (minus) : ∃ j : Numeral, j.sign = some minus ∧
    j.text = signText (some minus) ++ i.text ∧ j.value = if minus then -i.value else i.value := by
  refine ⟨{ i with sign := some minus },rfl,?_,?_⟩
  · rw [Numeral.text,Numeral.text,bare]
    rfl
  · rw [Numeral.value,Numeral.value,Numeral.isMinus,Numeral.isMinus,bare]
    cases minus <;> rfl

theorem factorSaid (factor : Factor ts a w) (plain : 92 ∉ gaplessText ts) :
    ∃ s, lowerAscii (gaplessText ts) = s ++ w ∧ FactorText s a := by
  cases factor with
  | @number i unit _ said =>
    rw [gaplessOne rfl] at plain ⊢
    have clear : 92 ∉ unit := fun mem => plain (mem_append_right _ mem)
    refine ⟨i.text,?_,.number i⟩
    rw [lowerAsciiAppend,numeralLower,← wordPlain clear,said]
  | @one name _ said =>
    rw [gaplessOne rfl] at plain ⊢
    exact ⟨[],(wordPlain plain).symm.trans said,.one⟩
  | @minus name _ said =>
    rw [gaplessOne rfl] at plain ⊢
    exact ⟨[45],(wordPlain plain).symm.trans said,.minus⟩
  | @plus comments name _ only said =>
    have blank : Blanks comments := fun t mem => by simp [Token.isBlank,only t mem]
    rw [gaplessCons rfl,gaplessAppend,gaplessBlanks blank,gaplessOne rfl,nil_append] at plain ⊢
    have clear : 92 ∉ name := fun mem => plain (mem_append_right _ mem)
    refine ⟨[43],?_,.plus⟩
    rw [lowerAsciiAppend,← wordPlain clear,said]
    rfl

theorem factorBehind (factor : Factor ts a w) (plain : 92 ∉ gaplessText (ts ++ us)) :
    ∃ s, lowerAscii (gaplessText (ts ++ us)) = s ++ (w ++ lowerAscii (gaplessText us)) ∧ FactorText s a := by
  rw [gaplessAppend] at plain ⊢
  obtain ⟨s,said,text⟩ := factorSaid factor fun mem => plain (mem_append_left _ mem)
  exact ⟨s,by rw [lowerAsciiAppend,said,append_assoc],text⟩

theorem formulaSaid (formula : Formula ts c) (plain : 92 ∉ gaplessText ts) : FormulaText (lowerAscii (gaplessText ts)) c := by
  cases formula with
  | even said =>
    rw [gaplessOne rfl] at plain ⊢
    rw [← wordPlain plain,said]
    exact .even
  | odd said =>
    rw [gaplessOne rfl] at plain ⊢
    rw [← wordPlain plain,said]
    exact .odd
  | fixed i =>
    rw [gaplessOne rfl,numeralLower]
    exact .fixed i
  | multiple factor =>
    obtain ⟨s,said,text⟩ := factorSaid factor plain
    rw [said]
    exact .multiple text
  | joined i minus factor =>
    obtain ⟨s,said,text⟩ := factorSaid factor plain
    rw [said]
    exact .linear text i (by simp [minus])
  | dashed i bare factor blank =>
    obtain ⟨s,said,text⟩ := factorBehind factor plain
    obtain ⟨j,sign,joined,value⟩ := numeralSigned i bare true
    rw [said,gaplessAppend,gaplessBlanks blank,nil_append,gaplessOne rfl,numeralLower]
    have linear := FormulaText.linear text j (by simp [sign])
    rw [joined,value] at linear
    exact linear
  | signed i sign factor blank =>
    obtain ⟨s,said,text⟩ := factorBehind factor plain
    rw [said,gaplessAppend,gaplessBlanks blank,nil_append,gaplessOne rfl,numeralLower]
    exact .linear text i sign
  | apart minus i bare factor before after =>
    obtain ⟨s,said,text⟩ := factorBehind factor plain
    obtain ⟨j,sign,joined,value⟩ := numeralSigned i bare minus
    have linear := FormulaText.linear text j (by simp [sign])
    rw [joined,value] at linear
    rw [said,gaplessAppend,gaplessBlanks before,nil_append,gaplessCons rfl,gaplessAppend,gaplessBlanks after,nil_append,
      gaplessOne rfl,lowerAsciiAppend,numeralLower]
    cases minus <;> exact linear

end

section
variable {s : Bytes} {a : Int} {c : Counting}

theorem signedAbs (negative n) : (signedWhole negative n).natAbs = n := by
  cases negative
  · exact Int.natAbs_natCast n
  · exact (Int.natAbs_neg n).trans (Int.natAbs_natCast n)

theorem factorBytes (factor : FactorText s a) : ∀ b ∈ s, isIntegerByte b := by
  cases factor with
  | number i => exact numeralBytes i
  | one => exact signBytesInteger none
  | minus => exact signBytesInteger (some true)
  | plus => exact signBytesInteger (some false)

theorem numeralNoSign (i : Numeral) : i.text ≠ [] ∧ i.text ≠ [43] ∧ i.text ≠ [45] := by
  obtain ⟨b,u,digits,plus,minus,_⟩ := numeralFirst i
  rw [Numeral.text,digits]
  rcases i.sign with _ | _ | _ <;> simp [signText,plus,minus]

theorem numeralMark (i : Numeral) (sign : i.sign ≠ none) :
    i.sign = some true ∧ i.text = 45 :: i.digits ∨ i.sign = some false ∧ i.text = 43 :: i.digits := by
  rw [Numeral.text]
  rcases mark : i.sign with _ | _ | _
  · exact absurd mark sign
  · exact .inr ⟨rfl,rfl⟩
  · exact .inl ⟨rfl,rfl⟩

theorem numeralFew (i : Numeral) (small : i.value.natAbs < 10 ^ 9) : digitsValue i.digits < 2 ^ 53 := by
  rw [Numeral.value,signedAbs] at small
  omega

theorem factorRead (factor : FactorText s a) (small : a.natAbs < 10 ^ 9) : ∃ (negative : Bool) (n : Nat),
    n < 2 ^ 53 ∧ readStep s = some (withSign negative (Float.ofNat n)) ∧ a = signedWhole negative n := by
  cases factor with
  | number i =>
    obtain ⟨filled,plus,minus⟩ := numeralNoSign i
    have few := numeralFew i small
    refine ⟨i.isMinus,digitsValue i.digits,few,?_,rfl⟩
    rw [readStep,if_neg (by simp [filled,plus]),if_neg minus,if_pos (numeralIsNumber i),numeralRead i few]
    rfl
  | one => exact ⟨false,1,by decide,rfl,rfl⟩
  | minus => exact ⟨true,1,by decide,rfl,rfl⟩
  | plus => exact ⟨false,1,by decide,rfl,rfl⟩

theorem noWord {b} (other : b ≠ 101 ∧ b ≠ 111) (s : Bytes) : ¬(b :: s = ascii "odd" ∨ b :: s = ascii "even") := by
  rintro (same | same)
  · exact other.2 (List.cons.inj same).1
  · exact other.1 (List.cons.inj same).1

theorem nthNumber (i : Numeral) : nthOfText i.text = some (.number (numberOf i.text)) := by
  have bytes := numeralBytes i
  have bare : i.text.dropWhile (· != 110) = [] :=
    dropWhile_eq_nil_iff.mpr fun b mem => bne_iff_ne.mpr (integerByte (bytes b mem)).2.2.2.2.1
  have word : ¬(i.text = ascii "odd" ∨ i.text = ascii "even") := by
    obtain ⟨b,u,text⟩ := exists_cons_of_ne_nil (numeralNoSign i).1
    have other := integerByte (bytes b (by simp [text]))
    rw [text]
    exact noWord ⟨other.2.2.2.1,other.2.2.2.2.2⟩ u
  rw [nthOfText,if_neg word,bare]
  exact if_pos ⟨(numeralNoSign i).1,numeralIsNumber i⟩

theorem nthFactor (factor : FactorText s a) {step} (read : readStep s = some step) (rest : Bytes) :
    nthOfText (s ++ 110 :: rest) = match rest with
      | [] => some (.multiple step)
      | b :: _ => if (b == 43 || b == 45) && isNumberText rest then some (.linear step (numberOf rest)) else none := by
  have bytes := factorBytes factor
  have before : ∀ b ∈ s, (b != 110) := fun b mem => bne_iff_ne.mpr (integerByte (bytes b mem)).2.2.2.2.1
  have word : ¬(s ++ 110 :: rest = ascii "odd" ∨ s ++ 110 :: rest = ascii "even") := by
    cases s with
    | nil => exact noWord (by decide) rest
    | cons b s =>
      have other := integerByte (bytes b mem_cons_self)
      exact noWord ⟨other.2.2.2.1,other.2.2.2.2.2⟩ _
  rw [nthOfText,if_neg word,dropWhile_append_of_pos before,takeWhile_append_of_pos before,
    takeWhile_cons_of_neg (by decide),dropWhile_cons_of_neg (by decide),append_nil]
  simp only [read]
  cases rest <;> rfl

theorem nthLinear (factor : FactorText s a) {step} (read : readStep s = some step) (i : Numeral)
    (sign : i.sign ≠ none) : nthOfText (s ++ 110 :: i.text) = some (.linear step (numberOf i.text)) := by
  have number := numeralIsNumber i
  rw [nthFactor factor read]
  rcases numeralMark i sign with ⟨_,text⟩ | ⟨_,text⟩
  · rw [text] at number ⊢
    exact if_pos number
  · rw [text] at number ⊢
    exact if_pos number

theorem formulaRead (text : FormulaText s c) (small : c.IsSmall) : ∃ f, nthOfText s = some f ∧ Denotes f c := by
  cases text with
  | even => exact ⟨_,rfl,.even⟩
  | odd => exact ⟨_,rfl,.odd⟩
  | fixed i =>
    refine ⟨_,nthNumber i,?_⟩
    rw [numeralRead i (numeralFew i small.2)]
    exact .fixed i.isMinus (numeralFew i small.2)
  | multiple factor =>
    obtain ⟨negative,n,bound,read,rfl⟩ := factorRead factor small.1
    exact ⟨_,nthFactor factor read [],.multiple negative bound⟩
  | linear factor i sign =>
    obtain ⟨negative,n,bound,read,rfl⟩ := factorRead factor small.1
    refine ⟨_,nthLinear factor read i sign,?_⟩
    rw [numeralRead i (numeralFew i small.2)]
    exact .linear negative i.isMinus bound (numeralFew i small.2)

theorem formulaLow (text : FormulaText s c) : ∀ b ∈ s, b < 0x80 := by
  have low {u : Bytes} (bytes : ∀ b ∈ u, isIntegerByte b) : ∀ b ∈ u, b < 0x80 :=
    fun b mem => (integerByte (bytes b mem)).2.1
  have word {u : Bytes} (all : u.all (fun b => decide (b < 0x80))) : ∀ b ∈ u, b < 0x80 :=
    fun b mem => of_decide_eq_true (all_eq_true.mp all b mem)
  cases text with
  | even => exact word rfl
  | odd => exact word rfl
  | fixed i => exact low (numeralBytes i)
  | multiple factor =>
    exact forall_mem_append.mpr ⟨low (factorBytes factor),forall_mem_singleton.mpr (by decide)⟩
  | linear factor i sign =>
    exact forall_mem_append.mpr ⟨low (factorBytes factor),forall_mem_cons.mpr ⟨by decide,low (numeralBytes i)⟩⟩

theorem lowerEscape (mem : 92 ∈ s) : 92 ∈ lower s := by
  have kept {s t : Bytes} (lowered : Lowered s t) : 92 ∈ s → 92 ∈ t := by
    induction lowered with
    | nil => exact id
    | byte low rest ih =>
      intro mem
      rcases mem_cons.mp mem with rfl | mem
      · exact mem_cons_self
      · exact mem_cons_of_mem _ (ih mem)
    | @run b c p q s t left right rest ih =>
      intro mem
      rw [← cons_append] at mem ⊢
      rcases mem_append.mp mem with mem | mem
      · exact absurd rfl (highPlain left 92 mem)
      · exact mem_append_right _ (ih mem)
  exact kept (lowerLowered s) mem

theorem numberTextPlain (number : isNumberText s) : 92 ∉ s := by
  have bytes := numberBytes s
  rw [beq_iff_eq.mp number,take_length] at bytes
  exact fun mem => (numberPlain (bytes 92 mem)).2.1 rfl

theorem stepPlain {step} (read : readStep s = some step) : 92 ∉ s := by
  unfold readStep at read
  split at read
  · rename_i sign
    rcases sign with rfl | rfl <;> decide
  split at read
  · rename_i sign
    subst sign
    decide
  · split at read
    · rename_i number
      exact numberTextPlain number
    · cases read

theorem nthPlain {f} (read : nthOfText s = some f) : 92 ∉ s := by
  unfold nthOfText at read
  split at read
  · rename_i word
    rcases word with rfl | rfl <;> decide
  split at read
  · split at read
    · rename_i number
      exact numberTextPlain number.2
    · cases read
  rename_i b rest last
  have parts := takeWhile_append_dropWhile (p := (· != 110)) (l := s)
  have letter : b = 110 := by
    have stops := head_dropWhile_not (· != 110) (l := s) (by simp [last])
    simpa [last] using stops
  rw [last,letter] at parts
  split at read
  · cases read
  rename_i step factor
  have joined (back : 92 ∉ rest) : 92 ∉ s := by
    rw [← parts]
    simp [stepPlain factor,back]
  split at read
  · exact joined (not_mem_nil)
  split at read
  · rename_i number
    exact joined (numberTextPlain (Bool.and_eq_true_iff.mp number).2)
  · cases read

end

section
variable {ts : List Token} {c : Counting}

theorem escapeUnread (escape : 92 ∈ gaplessText ts) : readNth ts = none := by
  cases read : readNth ts with
  | none => rfl
  | some f => exact absurd (lowerEscape escape) (nthPlain read)

theorem spellingText (spelling : Spelling ts c) (plain : 92 ∉ gaplessText ts) : FormulaText (lower (gaplessText ts)) c := by
  obtain ⟨before,formula,after,rfl,left,whole,right⟩ := spelling
  rw [gaplessAppend,gaplessAppend,gaplessBlanks left,gaplessBlanks right,nil_append,append_nil] at plain ⊢
  have said := formulaSaid whole plain
  rw [lowerLow (formulaLow said)]
  exact said

end

end Cascade
