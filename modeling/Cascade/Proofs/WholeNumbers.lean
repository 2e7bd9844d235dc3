import Cascade.Proofs.NumberTexts
import Cascade.Proofs.ShortestDecimals
import Cascade.Proofs.WholeDoubles
import Cascade.Selector.Nth

/-! Whole numbers and their digits: what is written for a double that holds one, and what the digits of one are
read as. -/
namespace Cascade
open List

theorem digitByte : ∀ d < 10, (Nat.digitChar d).toNat.toUInt8 = (48 + d).toUInt8 := by decide

theorem digitKind : ∀ d < 10, isDigit (48 + d).toUInt8 ∧ (48 + d).toUInt8.toNat - 48 = d := by decide

theorem decimalSmall {n} (small : n < 10) : decimal n = [(48 + n).toUInt8] := by
  rw [decimal,Nat.toDigits_of_lt_base small,map_singleton,digitByte n small]

theorem decimalStep {n} (large : 10 ≤ n) : decimal n = decimal (n / 10) ++ [(48 + n % 10).toUInt8] := by
  have last : n % 10 < 10 := Nat.mod_lt n (by decide)
  rw [decimal,Nat.toDigits_of_base_le (by decide) large,map_append,map_singleton,digitByte _ last]
  rfl

theorem digitsValueAppend (s b) : digitsValue (s ++ [b]) = digitsValue s * 10 + (b.toNat - 48) := by
  rw [digitsValue,foldl_append]
  rfl

theorem decimalFilled (n) : decimal n ≠ [] := by
  rw [decimal,ne_eq,map_eq_nil_iff]
  exact Nat.toDigits_ne_nil

theorem decimalDigits (n) : (∀ b ∈ decimal n, isDigit b) ∧ digitsValue (decimal n) = n := by
  induction n using Nat.strongRecOn with
  | ind n ih =>
    by_cases small : n < 10
    · have kind := digitKind n small
      rw [decimalSmall small]
      exact ⟨forall_mem_singleton.mpr kind.1,(Nat.zero_add _).trans kind.2⟩
    have last : n % 10 < 10 := Nat.mod_lt n (by decide)
    have front := ih (n / 10) (by omega)
    have kind := digitKind _ last
    rw [decimalStep (by omega)]
    refine ⟨forall_mem_append.mpr ⟨front.1,forall_mem_singleton.mpr kind.1⟩,?_⟩
    rw [digitsValueAppend,front.2,kind.2]
    omega

theorem decimalPlain (n) : ∀ b ∈ decimal n, isDigit b := (decimalDigits n).1

theorem decimalTens {d} (full : d ≠ 0) (k) : decimal (d * 10 ^ k) = decimal d ++ List.replicate k 48 := by
  induction k with
  | zero => simp
  | succ k ih =>
    have filled : 0 < d * 10 ^ k := Nat.mul_pos (Nat.pos_of_ne_zero full) (Nat.pow_pos (by decide))
    have tens : d * 10 ^ (k + 1) = d * 10 ^ k * 10 := by rw [Nat.pow_succ,Nat.mul_assoc]
    rw [tens,decimalStep (by omega),Nat.mul_div_cancel _ (by decide),Nat.mul_mod_left,ih,replicate_succ',
      append_assoc]
    rfl

theorem nearestZero (k) : nearest 0 (.negSucc k) = 0 := by
  show (0 + 2 ^ k) / 2 ^ (k + 1) = 0
  rw [Nat.zero_add]
  exact Nat.div_eq_of_lt (Nat.pow_lt_pow_right (by decide) (Nat.lt_succ_self k))

section
variable {n : Nat} (small : n < 2 ^ 53)
include small

theorem wholeShortest (nonzero : n ≠ 0) : ∃ d k : Nat, d * 10 ^ k = n ∧
    shortest (wholeMantissa n) (wholeExponent n) = (d,(k : Int)) := by
  have value := wholeValue small
  obtain ⟨d,p,found,_,low,high,whole⟩ := shortestFound (wholeHeld small nonzero) (wholePos nonzero).ne'
  obtain ⟨k,rfl⟩ := Int.eq_ofNat_of_zero_le (whole ⟨n,value⟩)
  have unit : (2 ^ wholeExponent n : ℚ) ≤ 1 :=
    zpow_le_one_of_nonpos₀ (by norm_num) (by rw [wholeExponent]; have := wholeLog small; omega)
  have least := lowParted (wholeMantissa n) (wholeExponent n)
  rw [highParted] at high
  rw [value,zpow_natCast] at *
  have above : (n : ℚ) < d * 10 ^ k + 1 := by linarith
  have below : (d * 10 ^ k : ℚ) < n + 1 := by linarith
  refine ⟨d,k,le_antisymm ?_ ?_,found⟩
  · exact Nat.le_of_lt_succ (by exact_mod_cast below)
  · exact Nat.le_of_lt_succ (by exact_mod_cast above)

theorem wholeText (nonzero : n ≠ 0) : magnitudeText (wholeMantissa n) (wholeExponent n) = decimal n := by
  obtain ⟨d,k,rfl,short⟩ := wholeShortest small nonzero
  rw [magnitudeText,if_neg (wholePos nonzero).ne']
  show positional (shortest _ _).1 (shortest _ _).2 = _
  rw [short]
  exact (decimalTens (Nat.ne_zero_of_mul_ne_zero_left nonzero) k).symm

theorem wholeRound (negative) : roundAway (withSign negative (Float.ofNat n)) = withSign negative (Float.ofNat n) := by
  have log := wholeLog small
  by_cases zero : n = 0
  · subst zero
    rw [roundAway,partsZero]
    show withSign negative (Float.ofNat (nearest 0 (.negSucc 1073))) = _
    rw [nearestZero]
  rw [roundAway,partsWhole small negative zero]
  by_cases full : n.log2 = 52
  · rw [wholeExponent,full]
    rfl
  have exponent : wholeExponent n = .negSucc (51 - n.log2) := by
    rw [wholeExponent,Int.negSucc_eq]
    omega
  have near : nearest (wholeMantissa n) (.negSucc (51 - n.log2)) = n := by
    show (n * 2 ^ (52 - n.log2) + 2 ^ (51 - n.log2)) / 2 ^ (51 - n.log2 + 1) = n
    rw [show 52 - n.log2 = 51 - n.log2 + 1 by omega,Nat.mul_comm,Nat.mul_add_div (Nat.two_pow_pos _),
      Nat.div_eq_of_lt (Nat.pow_lt_pow_right (by decide) (by omega)),Nat.add_zero]
  rw [exponent]
  show withSign negative (Float.ofNat (nearest (wholeMantissa n) (.negSucc (51 - n.log2)))) = _
  rw [near]

end

def signedWhole (negative : Bool) (n : Nat) : Int := if negative then -n else n

theorem wholePrinted {n} (small : n < 2 ^ 53) (negative) :
    compactNumber (withSign negative (Float.ofNat n)) = signedDecimal (signedWhole negative n) := by
  have near : magnitude (0.0 : Float) < closeness := by
    show decide (magnitude (0.0 : Float) < closeness)
    rfl
  have zeros : (withSign negative (Float.ofNat n) == 0.0) = decide (n = 0) := isZeroWhole small negative
  by_cases zero : n = 0
  · subst zero
    rw [compactNumber,partsZero]
    simp only [wholeRound small,selfDifference small,near,zeros,if_true,decide_true]
    cases negative <;> rfl
  rw [compactNumber,partsWhole small negative zero]
  simp only [wholeRound small,selfDifference small,near,zeros,if_true,decide_eq_false zero,Bool.false_eq_true,if_false]
  rw [exactNumber,partsWhole small negative zero]
  simp only [wholeText small zero]
  cases negative with
  | true =>
    rw [signedDecimal,signedWhole,if_pos rfl,if_pos rfl,if_pos (by omega),Int.natAbs_neg]
    rfl
  | false =>
    rw [signedDecimal,signedWhole,if_neg Bool.false_ne_true,if_neg Bool.false_ne_true,if_neg (by omega)]
    rfl

/- An integer as it is written: a sign or none, and digits. -/
structure Numeral where
  sign : Option Bool
  digits : Bytes
  filled : digits ≠ []
  plain : ∀ b ∈ digits, isDigit b = true

def signText : Option Bool → Bytes
  | none => []
  | some true => [45]
  | some false => [43]

namespace Numeral

def text (i : Numeral) : Bytes := signText i.sign ++ i.digits

def isMinus (i : Numeral) : Bool := i.sign == some true

def value (i : Numeral) : Int := signedWhole i.isMinus (digitsValue i.digits)

def double (i : Numeral) : Float := withSign i.isMinus (Float.ofNat (digitsValue i.digits))

def of (sign : Option Bool) (n : Nat) : Numeral := ⟨sign,decimal n,decimalFilled n,decimalPlain n⟩

theorem ofValue (sign n) : (of sign n).value = signedWhole (sign == some true) n := by
  show signedWhole _ (digitsValue (decimal n)) = _
  rw [(decimalDigits n).2]
  rfl

end Numeral

def EndsDigits (rest : Bytes) : Prop := ∀ b ∈ rest.head?, isDigit b = false ∧ b ≠ 46 ∧ b ≠ 69 ∧ b ≠ 101

section

theorem valueGrows (n) (s : Bytes) : n ≤ s.foldl (fun n b => n * 10 + (b.toNat - 48)) n := by
  induction s generalizing n with
  | nil => exact Nat.le_refl n
  | cons b s ih => exact Nat.le_trans (by omega) (ih (n * 10 + (b.toNat - 48)))

theorem digitsGathered (s) (plain : ∀ b ∈ s, isDigit b) (d) (dropped : d.dropped = none)
    (small : s.foldl (fun n b => n * 10 + (b.toNat - 48)) d.word < 2 ^ 53) : gatherDigits d s =
      ({ d with word := s.foldl (fun n b => n * 10 + (b.toNat - 48)) d.word,position := d.position + s.length },[]) := by
  induction s generalizing d with
  | nil => rfl
  | cons b s ih =>
    have grows := valueGrows (d.word * 10 + (b.toNat - 48)) s
    have room : d.word * 10 + (b.toNat - 48) < 2 ^ 53 := Nat.lt_of_le_of_lt grows small
    have push : d.push b = { d with word := d.word * 10 + (b.toNat - 48),position := d.position + 1 } := by
      have fits : (d.word * 10 + (b.toNat - 48)) % wordLimit = d.word * 10 + (b.toNat - 48) :=
        Nat.mod_eq_of_lt (Nat.lt_trans room (by decide))
      have below : ¬d.word > (wordLimit - 1) / 10 := by
        show ¬d.word > 1844674407370955161
        omega
      rw [Digits.push,if_neg (by simp [dropped]),if_neg below,fits]
    have tail := ih (fun c mem => plain c (mem_cons_of_mem b mem))
      { d with word := d.word * 10 + (b.toNat - 48),position := d.position + 1 } dropped small
    rw [gatherDigits,if_pos (plain b mem_cons_self),push,tail]
    simp only [foldl_cons,length_cons,Prod.mk.injEq,Digits.mk.injEq,and_true,true_and]
    omega

variable (i : Numeral) (rest : Bytes)

theorem numeralFirst : ∃ b u, i.digits = b :: u ∧ b ≠ 43 ∧ b ≠ 45 ∧ b ≠ 46 ∧ isDigit b := by
  obtain ⟨b,u,digits⟩ := exists_cons_of_ne_nil i.filled
  have digit := i.plain b (by simp [digits])
  refine ⟨b,u,digits,?_,?_,?_,digit⟩
  all_goals
    rintro rfl
    cases digit

theorem signTextSigned (sign) : IsSign (signText sign) := by rcases sign with _ | _ | _ <;> simp [IsSign,signText]

theorem numeralSign : signLength (i.text ++ rest) = (signText i.sign).length := by
  obtain ⟨b,u,digits,plus,minus,_⟩ := numeralFirst i
  rw [Numeral.text,append_assoc,digits]
  exact signRun (signTextSigned i.sign) fun _ first => Option.some.inj first ▸ ⟨plus,minus⟩

theorem numeralDigits : (i.text ++ rest).drop (signText i.sign).length = i.digits ++ rest := by
  rw [Numeral.text,append_assoc,drop_left]

def Numeral.number : NumberText :=
  ⟨signText i.sign,i.digits,[],[],signTextSigned i.sign,i.plain,.inl rfl,.inl i.filled,.inl rfl⟩

theorem numeralLength (ends : EndsDigits rest) : numberLength (i.text ++ rest) = i.text.length := by
  have text : i.number.text = i.text := by simp [NumberText.text,Numeral.number,Numeral.text]
  rw [← text]
  refine i.number.length ⟨fun b head => (ends b head).1,fun _ _ d u same => ?_,fun _ e u raised same => ?_⟩
  · subst same
    exact absurd rfl (ends 46 rfl).2.1
  · obtain ⟨mark,_,_,marks,_,_,rfl⟩ := raised
    subst same
    exact marks.elim (ends mark rfl).2.2.2 (ends mark rfl).2.2.1

theorem numeralStarts : startsNumber (i.text ++ rest) := by
  obtain ⟨b,u,digits,_,_,point,digit⟩ := numeralFirst i
  rw [startsNumber,numeralSign,numeralDigits,digits,cons_append]
  simp [point,digit]

theorem numeralIsNumber : isNumberText i.text := by
  have length := numeralLength i [] (fun b mem => nomatch mem)
  rw [append_nil] at length
  rw [isNumberText,length,beq_self_eq_true]

theorem numeralMinus : (i.text.head? == some 45) = i.isMinus := by
  obtain ⟨b,u,digits,_,minus,_⟩ := numeralFirst i
  rw [Numeral.text,Numeral.isMinus,digits]
  rcases i.sign with _ | _ | _
  · simpa [signText] using minus
  · rfl
  · rfl

theorem numeralTextValue :
    i.value = signedWhole (i.text.head? == some 45) (digitsValue (i.text.drop (signLength i.text))) := by
  have sign := numeralSign i []
  have digits := numeralDigits i []
  rw [append_nil] at sign digits
  rw [numeralMinus,sign,digits,append_nil]
  rfl

theorem numeralRead (small : digitsValue i.digits < 2 ^ 53) : numberOf i.text = i.double := by
  have sign := numeralSign i []
  have digits := numeralDigits i []
  rw [append_nil] at sign digits
  have gathered := digitsGathered i.digits i.plain {} rfl small
  have found : readNumber i.text = (i.double,i.text.length) := by
    rw [readNumber,sign,digits,append_nil,gathered]
    simp only [numeralMinus,Nat.zero_add]
    rw [if_neg (by simp [i.filled]),Numeral.text,length_append]
    rfl
  rw [numberOf,found]
  exact if_pos rfl

end

end Cascade
