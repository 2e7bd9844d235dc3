import Mathlib.Data.List.DropRight
import Cascade.Proofs.WholeNumbers

/-! What is printed of a number: no zero that is not needed, at most four decimals, and a value that is close to that of
the exact text. -/
namespace Cascade
open List

theorem digitMost {b} (digit : isDigit b) : b.toNat - 48 ≤ 9 := by
  have most : b.toNat ≤ 57 := UInt8.le_iff_toNat_le.mp (of_decide_eq_true (Bool.and_eq_true_iff.mp digit).2)
  omega

theorem digitLeast {b} (digit : isDigit b) (other : b ≠ 48) : 1 ≤ b.toNat - 48 := by
  have least : 48 ≤ b.toNat := UInt8.le_iff_toNat_le.mp (of_decide_eq_true (Bool.and_eq_true_iff.mp digit).1)
  have apart : b.toNat ≠ 48 := fun same => other (UInt8.toNat_inj.mp same)
  omega

theorem digitsJoined (s t) : digitsValue (s ++ t) = digitsValue s * 10 ^ t.length + digitsValue t := by
  induction t using List.reverseRecOn with
  | nil => simp [digitsValue]
  | append_singleton t b ih =>
    rw [← append_assoc,digitsValueAppend,digitsValueAppend,ih,length_append,length_singleton]
    ring

theorem digitsBelow {s} (digits : ∀ b ∈ s, isDigit b) : digitsValue s < 10 ^ s.length := by
  induction s using List.reverseRecOn with
  | nil => decide
  | append_singleton s b ih =>
    obtain ⟨front,last⟩ := forall_mem_append.mp digits
    have most := digitMost (last b mem_cons_self)
    have below := ih front
    rw [digitsValueAppend,length_append,length_singleton]
    omega

theorem trimmedValue (t) : (digitsValue (t.rdropWhile (· == 48)) / 10 ^ (t.rdropWhile (· == 48)).length : ℚ) =
    digitsValue t / 10 ^ t.length := by
  induction t using List.reverseRecOn with
  | nil => rfl
  | append_singleton t b ih =>
    by_cases zero : b = 48
    · subst zero
      rw [rdropWhile_concat_pos _ _ _ rfl,ih,digitsValueAppend,length_append,length_singleton,pow_succ]
      field_simp
      simp
    · rw [rdropWhile_concat_neg _ _ _ (by simpa using zero)]

theorem zerosValue (n) : digitsValue (List.replicate n 48) = 0 := by
  induction n with
  | zero => rfl
  | succ n ih => rw [replicate_succ',digitsValueAppend,ih]; rfl

theorem decimalFirst {n} (full : n ≠ 0) : ∃ b t, decimal n = b :: t ∧ b ≠ 48 := by
  induction n using Nat.strongRecOn with
  | ind n ih =>
    by_cases small : n < 10
    · refine ⟨_,[],decimalSmall small,fun zero => ?_⟩
      have digit := (digitKind n small).2
      rw [zero] at digit
      exact full digit.symm
    · obtain ⟨b,t,front,first⟩ := ih (n / 10) (by omega) (by omega)
      exact ⟨b,t ++ [_],by rw [decimalStep (by omega),front]; rfl,first⟩

structure DecimalText where
  whole : Bytes
  fraction : Bytes
  wholeDigits : ∀ b ∈ whole, isDigit b = true
  fractionDigits : ∀ b ∈ fraction, isDigit b = true
  first : whole = [48] ∨ ∃ b t, whole = b :: t ∧ b ≠ 48
  last : fraction.getLast? ≠ some 48

namespace DecimalText

def text (s : DecimalText) : Bytes := if s.fraction.isEmpty then s.whole else s.whole ++ 46 :: s.fraction

def value (s : DecimalText) : ℚ := digitsValue s.whole + digitsValue s.fraction / 10 ^ s.fraction.length

def ofWhole (n : Nat) : DecimalText where
  whole := decimal n
  fraction := []
  wholeDigits := decimalPlain n
  fractionDigits := forall_mem_nil _
  first := by
    by_cases zero : n = 0
    · exact .inl (by rw [zero]; rfl)
    · exact .inr (decimalFirst zero)
  last := by simp

theorem ofWholeValue (n) : (ofWhole n).value = n := by
  have bare : digitsValue [] = 0 := rfl
  simp [value,ofWhole,(decimalDigits n).2,bare]

section
variable (whole fraction : Bytes) (wholeDigits : ∀ b ∈ whole, isDigit b = true)
  (fractionDigits : ∀ b ∈ fraction, isDigit b = true) (first : whole = [48] ∨ ∃ b t, whole = b :: t ∧ b ≠ 48)

def trimmed : DecimalText where
  whole
  fraction := fraction.rdropWhile (· == 48)
  wholeDigits
  fractionDigits b mem := fractionDigits b (( rdropWhile_prefix _ _).subset mem)
  first
  last zero := by
    have full : fraction.rdropWhile (· == 48) ≠ [] := by
      intro bare
      rw [bare] at zero
      cases zero
    rw [getLast?_eq_some_getLast full,Option.some.injEq] at zero
    exact rdropWhile_last_not _ _ full (by rw [zero]; rfl)

theorem trimmedWritten : (trimmed whole fraction wholeDigits fractionDigits first).value =
    digitsValue whole + digitsValue fraction / 10 ^ fraction.length := by
  rw [← trimmedValue fraction]
  rfl

end

end DecimalText

open DecimalText (ofWhole trimmed ofWholeValue value trimmedWritten)

theorem positionalSpelled {d} (full : d ≠ 0) (p) : ∃ s : DecimalText, positional d p = s.text ∧
    s.value = d * 10 ^ p ∧ (0 ≤ p → s.fraction = []) := by
  cases p with
  | ofNat k =>
    refine ⟨ofWhole (d * 10 ^ k),(decimalTens full k).symm,?_,fun _ => rfl⟩
    rw [ofWholeValue]
    push_cast
    rfl
  | negSucc k =>
    obtain ⟨padded,filled⟩ : ∃ padded, padded = List.replicate (k + 1 + 1 - (decimal d).length) 48 ++ decimal d := ⟨_,rfl⟩
    have zeros (n : Nat) : ∀ b ∈ List.replicate n (48 : UInt8), isDigit b :=
      fun b mem => (eq_of_mem_replicate mem).symm ▸ rfl
    have digits : ∀ b ∈ padded, isDigit b := filled ▸ forall_mem_append.mpr ⟨zeros _,decimalPlain d⟩
    have long : k + 1 < padded.length := by
      rw [filled,length_append,length_replicate]
      omega
    have first : padded.take (padded.length - (k + 1)) = [48] ∨
        ∃ b t, padded.take (padded.length - (k + 1)) = b :: t ∧ b ≠ 48 := by
      rcases Nat.lt_or_ge (k + 1) (decimal d).length with more | less
      · obtain ⟨b,t,front,leads⟩ := decimalFirst full
        rw [show k + 1 + 1 - (decimal d).length = 0 by omega,front] at filled
        obtain ⟨n,cut⟩ : ∃ n, padded.length - (k + 1) = n + 1 := ⟨padded.length - (k + 1) - 1,by omega⟩
        exact .inr ⟨b,t.take n,by rw [cut,filled]; rfl,leads⟩
      · obtain ⟨n,count⟩ : ∃ n, k + 1 + 1 - (decimal d).length = n + 1 := ⟨k + 1 - (decimal d).length,by omega⟩
        have cut : padded.length - (k + 1) = 1 := by
          rw [filled,length_append,length_replicate]
          omega
        exact .inl (by rw [cut,filled,count]; rfl)
    have value : digitsValue padded = d := by rw [filled,digitsJoined,zerosValue,zero_mul,zero_add,(decimalDigits d).2]
    refine ⟨trimmed _ (padded.drop (padded.length - (k + 1))) (fun b mem => digits b (mem_of_mem_take mem))
      (fun b mem => digits b (mem_of_mem_drop mem)) first,?_,?_,fun least => ?_⟩
    · rw [positional,← filled]
      rfl
    · have joined := digitsJoined (padded.take (padded.length - (k + 1))) (padded.drop (padded.length - (k + 1)))
      have places : (padded.drop (padded.length - (k + 1))).length = k + 1 := by
        rw [length_drop]
        omega
      rw [take_append_drop,value,places] at joined
      rw [trimmedWritten,places,joined,zpow_negSucc]
      push_cast
      field_simp
    · cases least

theorem magnitudeSpelled {m e} (held : Held m e) : ∃ s : DecimalText, magnitudeText m e = s.text ∧
    lowEnd m e ≤ s.value ∧ s.value ≤ highEnd m e ∧ ((∃ k : Nat, (m * 2 ^ e : ℚ) = k) → s.fraction = []) := by
  rw [magnitudeText]
  by_cases zero : m = 0
  · refine ⟨ofWhole 0,if_pos zero,?_,?_,fun _ => rfl⟩
    · rw [ofWholeValue,lowEnd,zero,Nat.zero_sub,Nat.cast_zero,zero_mul]
    · rw [ofWholeValue,highEnd]
      positivity
  obtain ⟨d,p,short,full,low,high,whole⟩ := shortestFound held zero
  obtain ⟨s,text,value,integer⟩ := positionalSpelled full p
  rw [← value] at low high
  refine ⟨s,?_,low,high,fun exact => integer (whole exact)⟩
  rw [if_neg zero,← text]
  rw [short]

section
variable (s : DecimalText)

theorem wholeTaken : s.text.takeWhile (· != 46) = s.whole ∧ s.text.drop (s.whole.length + 1) = s.fraction := by
  have stays : ∀ b ∈ s.whole, (b != 46) := by
    intro b mem
    have digit := s.wholeDigits b mem
    rw [bne_iff_ne]
    rintro rfl
    cases digit
  rw [DecimalText.text]
  split
  · rename_i bare
    rw [List.isEmpty_iff.mp bare]
    exact ⟨by simpa using stays,by simp⟩
  · rw [takeWhile_append_of_pos stays]
    exact ⟨by simp,by simp⟩

theorem fractionCut : (digitsValue (s.fraction.take keptDecimals) / 10 ^ (s.fraction.take keptDecimals).length : ℚ) ≤
      digitsValue s.fraction / 10 ^ s.fraction.length ∧
    (digitsValue s.fraction / 10 ^ s.fraction.length : ℚ) <
      digitsValue (s.fraction.take keptDecimals) / 10 ^ (s.fraction.take keptDecimals).length + 1 / 10 ^ keptDecimals := by
  have joined := digitsJoined (s.fraction.take keptDecimals) (s.fraction.drop keptDecimals)
  have below := digitsBelow fun b mem => s.fractionDigits b (mem_of_mem_drop (i := keptDecimals) mem)
  have length : s.fraction.length = (s.fraction.take keptDecimals).length + (s.fraction.drop keptDecimals).length := by
    rw [← length_append,take_append_drop]
  have full : (s.fraction.take keptDecimals).length = keptDecimals ∨ (s.fraction.drop keptDecimals).length = 0 := by
    rw [length_take,length_drop]
    omega
  rw [take_append_drop] at joined
  rw [joined,length]
  generalize digitsValue (s.fraction.take keptDecimals) = a at *
  generalize digitsValue (s.fraction.drop keptDecimals) = b at *
  generalize (s.fraction.take keptDecimals).length = i at *
  generalize (s.fraction.drop keptDecimals).length = j at *
  have parted : ((a * 10 ^ j + b : Nat) / 10 ^ (i + j) : ℚ) = a / 10 ^ i + b / 10 ^ (i + j) := by
    rw [pow_add]
    push_cast
    field_simp
  have small : (b / 10 ^ (i + j) : ℚ) < 1 / 10 ^ keptDecimals := by
    have less : (b : ℚ) < 10 ^ j := by exact_mod_cast below
    rw [div_lt_div_iff₀ (by positivity) (by positivity),pow_add]
    rcases full with rfl | rfl
    · nlinarith [show (0 : ℚ) < 10 ^ keptDecimals by positivity]
    · have bare : b = 0 := by omega
      rw [bare,Nat.cast_zero,zero_mul]
      positivity
  have least : (0 : ℚ) ≤ b / 10 ^ (i + j) := div_nonneg (by positivity) (by positivity)
  constructor <;> linarith

theorem truncatedSpelled : ∃ c : DecimalText, truncated s.text = c.text ∧ c.fraction.length ≤ keptDecimals ∧
    c.value ≤ s.value ∧ s.value < c.value + 1 / 10 ^ keptDecimals := by
  obtain ⟨whole,fraction⟩ := wholeTaken s
  obtain ⟨least,most⟩ := fractionCut s
  refine ⟨trimmed s.whole (s.fraction.take keptDecimals) s.wholeDigits
    (fun b mem => s.fractionDigits b (mem_of_mem_take mem)) s.first,?_,?_,?_⟩
  · rw [truncated]
    simp only [whole,fraction]
    rw [← isEmpty_reverse]
    rfl
  · exact (( rdropWhile_prefix _ _).length_le).trans (length_take_le ..)
  · rw [trimmedWritten,value]
    constructor <;> linarith

theorem leastValue (visible : s.text ≠ [48]) : (1 / 10 ^ s.fraction.length : ℚ) ≤ s.value := by
  rw [value]
  rcases eq_nil_or_concat s.fraction with bare | ⟨t,b,ends⟩
  · rw [DecimalText.text,bare] at visible
    obtain ⟨b,t,whole,leads⟩ := s.first.resolve_left visible
    have joined := digitsJoined [b] t
    have single : digitsValue [b] = b.toNat - 48 := Nat.zero_add _
    have least := digitLeast (s.wholeDigits b (by simp [whole])) leads
    have filled : 1 ≤ digitsValue s.whole := by
      rw [whole]
      refine le_trans ?_ joined.ge
      rw [single]
      exact Nat.le_add_right_of_le (Nat.mul_pos least (Nat.pow_pos (by decide)))
    rw [bare]
    have cast : (1 : ℚ) ≤ digitsValue s.whole := by exact_mod_cast filled
    simpa [digitsValue] using cast
  · have other : b ≠ 48 := by
      rintro rfl
      exact s.last (by simp [ends])
    have least := digitLeast (s.fractionDigits b (by simp [ends])) other
    have filled : (1 : ℚ) ≤ digitsValue s.fraction := by
      rw [ends,concat_eq_append,digitsValueAppend]
      exact_mod_cast Nat.le_add_left_of_le least
    have wholes : (0 : ℚ) ≤ digitsValue s.whole := by positivity
    calc (1 / 10 ^ s.fraction.length : ℚ) ≤ digitsValue s.fraction / 10 ^ s.fraction.length := by gcongr
      _ ≤ _ := le_add_of_nonneg_left wholes

theorem textZero : s.text = [48] ↔ s.value = 0 := by
  constructor
  · intro zero
    have bare : s.fraction = [] := by
      by_contra full
      rw [DecimalText.text,if_neg (by simpa using full)] at zero
      have length := congrArg List.length zero
      rcases s.first with whole | ⟨b,t,whole,_⟩ <;> simp [whole] at length
    rw [DecimalText.text,bare] at zero
    have nothing : digitsValue [] = 0 ∧ digitsValue [48] = 0 := ⟨rfl,rfl⟩
    rw [value,bare,show s.whole = [48] from zero]
    simp [nothing]
  · intro zero
    by_contra visible
    have least := leastValue s visible
    have pos : (0 : ℚ) < 1 / 10 ^ s.fraction.length := div_pos (by norm_num) (by positivity)
    linarith

theorem withoutLeading : s.whole = [48] ∧ s.fraction ≠ [] ∧ withoutLeadingZero s.text = 46 :: s.fraction ∨
    (s.fraction = [] ∨ ∃ b t, s.whole = b :: t ∧ b ≠ 48) ∧ withoutLeadingZero s.text = s.text := by
  rcases s.first with zero | ⟨b,t,whole,leads⟩
  · by_cases bare : s.fraction = []
    · refine .inr ⟨.inl bare,?_⟩
      rw [DecimalText.text,bare,zero]
      rfl
    · refine .inl ⟨zero,bare,?_⟩
      rw [DecimalText.text,if_neg (by simpa using bare),zero]
      rfl
  · refine .inr ⟨.inr ⟨b,t,whole,leads⟩,?_⟩
    obtain ⟨u,text⟩ : ∃ u, s.text = b :: u := by
      rw [DecimalText.text,whole]
      split <;> exact ⟨_,rfl⟩
    rw [text]
    unfold withoutLeadingZero
    split
    · rename_i same
      exact absurd (List.cons.inj same).1 leads
    · rfl

theorem wholeWithout (bare : s.fraction = []) : withoutLeadingZero s.text = s.text := by
  rcases withoutLeading s with ⟨_,full,_⟩ | ⟨_,text⟩
  · exact absurd bare full
  · exact text

end

def minusText (negative : Bool) : Bytes := if negative then [45] else []

def plainValue (t : Bytes) : ℚ :=
  digitsValue (t.takeWhile (· != 46)) +
    digitsValue (t.drop ((t.takeWhile (· != 46)).length + 1)) / 10 ^ (t.drop ((t.takeWhile (· != 46)).length + 1)).length

def decimalValue : Bytes → ℚ
  | 45 :: t => -plainValue t
  | t => plainValue t

theorem signedValue (negative) {b} {t : Bytes} (plain : b ≠ 45) :
    decimalValue (minusText negative ++ b :: t) = signed negative (plainValue (b :: t)) := by
  cases negative with
  | true => rfl
  | false =>
    unfold decimalValue
    split
    · rename_i same
      exact absurd (List.cons.inj same).1 plain
    · rfl

section
variable (s : DecimalText)

theorem plainText : plainValue s.text = s.value := by
  obtain ⟨whole,fraction⟩ := wholeTaken s
  rw [plainValue,whole,fraction,value]

theorem plainWithout : plainValue (withoutLeadingZero s.text) = s.value := by
  rcases withoutLeading s with ⟨whole,_,text⟩ | ⟨_,text⟩
  · rw [text,value,whole]
    rfl
  · rw [text,plainText]

theorem textStarts : ∃ b t, s.text = b :: t ∧ isDigit b := by
  obtain ⟨b,t,whole⟩ : ∃ b t, s.whole = b :: t := by
    rcases s.first with zero | ⟨b,t,whole,_⟩
    · exact ⟨48,[],zero⟩
    · exact ⟨b,t,whole⟩
  have digit := s.wholeDigits b (by simp [whole])
  rw [DecimalText.text,whole]
  split <;> exact ⟨b,_,rfl,digit⟩

theorem signedText (negative) : decimalValue (minusText negative ++ s.text) = signed negative s.value := by
  obtain ⟨b,t,text,digit⟩ := textStarts s
  rw [← plainText,text,signedValue negative (by rintro rfl; cases digit)]

theorem signedWithout (negative) :
    decimalValue (minusText negative ++ withoutLeadingZero s.text) = signed negative s.value := by
  rw [← plainWithout]
  rcases withoutLeading s with ⟨_,_,text⟩ | ⟨_,text⟩
  · rw [text,signedValue negative (by decide)]
  · obtain ⟨b,t,starts,digit⟩ := textStarts s
    rw [text,starts,signedValue negative (by rintro rfl; cases digit)]

theorem zeroValue : decimalValue [48] = 0 := by
  have zero := signedText (ofWhole 0) false
  rwa [ofWholeValue,Nat.cast_zero] at zero

end

def LeadsDigits (s : Bytes) : Prop := (∀ b ∈ s, isDigit b = true) ∧ ∃ b t, s = b :: t ∧ b ≠ 48

inductive CompactText : Bytes → Prop
  | zero : CompactText [48]
  | whole (negative : Bool) {s : Bytes} (leads : LeadsDigits s) : CompactText (minusText negative ++ s)
  | fraction (negative : Bool) {s t : Bytes} (leads : s = [] ∨ LeadsDigits s) (digits : ∀ b ∈ t, isDigit b = true)
      (filled : t ≠ []) (short : t.length ≤ keptDecimals) (last : t.getLast? ≠ some 48) :
      CompactText (minusText negative ++ (s ++ 46 :: t))

theorem compactShaped (negative) {s : DecimalText} (short : s.fraction.length ≤ keptDecimals) (visible : s.text ≠ [48]) :
    CompactText (minusText negative ++ withoutLeadingZero s.text) := by
  rcases withoutLeading s with ⟨_,filled,text⟩ | ⟨form,text⟩
  · rw [text]
    exact .fraction negative (s := []) (.inl rfl) s.fractionDigits filled short s.last
  rw [text]
  by_cases bare : s.fraction = []
  · rw [DecimalText.text,bare] at visible ⊢
    exact .whole negative ⟨s.wholeDigits,s.first.resolve_left visible⟩
  · rw [DecimalText.text,if_neg (by simpa using bare)]
    exact .fraction negative (.inr ⟨s.wholeDigits,form.resolve_left bare⟩) s.fractionDigits bare short s.last

theorem compactLength {t} (compact : CompactText t) : numberLength t = t.length := by
  have signed (negative) : IsSign (minusText negative) := by cases negative <;> simp [IsSign,minusText]
  cases compact with
  | zero => rfl
  | @whole negative s leads =>
    obtain ⟨digits,b,u,rfl,_⟩ := leads
    have read := NumberText.alone ⟨_,b :: u,[],[],signed negative,digits,.inl rfl,.inl (cons_ne_nil b u),.inl rfl⟩
    simpa only [NumberText.text,append_nil] using read
  | @fraction negative s t leads digits filled _ _ =>
    have whole : ∀ b ∈ s, isDigit b := by
      rcases leads with rfl | leads
      · exact forall_mem_nil _
      · exact leads.1
    have read := NumberText.alone ⟨_,s,46 :: t,[],signed negative,whole,.inr ⟨t,⟨filled,digits⟩,rfl⟩,.inr (cons_ne_nil _ _),.inl rfl⟩
    simpa only [NumberText.text,append_nil] using read

theorem nearestBetween (m k) : nearest m (.negSucc k) * 2 ^ (k + 1) ≤ m + 2 ^ k ∧
    m + 2 ^ k < nearest m (.negSucc k) * 2 ^ (k + 1) + 2 ^ (k + 1) := by
  have parted := Nat.div_add_mod' (m + 2 ^ k) (2 ^ (k + 1))
  show (m + 2 ^ k) / 2 ^ (k + 1) * 2 ^ (k + 1) ≤ _ ∧ _ < (m + 2 ^ k) / 2 ^ (k + 1) * 2 ^ (k + 1) + _
  omega

theorem signedDistance (negative x y) : |signed negative x - signed negative y| = |x - y| := by
  cases negative with
  | false => rfl
  | true =>
    show |-x - -y| = |x - y|
    rw [neg_sub_neg,abs_sub_comm]

theorem distanceParted (n m k : Nat) : |(n : ℚ) - m * 2 ^ (Int.negSucc k)| =
    ((n * 2 ^ (k + 1) : Nat) - m : Int).natAbs * 2 ^ (Int.negSucc k) := by
  have parted : (n : ℚ) - m * 2 ^ (Int.negSucc k) = (((n * 2 ^ (k + 1) : Nat) - m : Int) : ℚ) * 2 ^ (Int.negSucc k) := by
    rw [zpow_negSucc]
    push_cast
    field_simp
  rw [parted,abs_mul,abs_of_pos (show (0 : ℚ) < 2 ^ (Int.negSucc k) by positivity),Nat.cast_natAbs,Int.cast_abs]

section
variable {f : Float} {negative : Bool} {m k : Nat} (found : parts f = .finite negative m (.negSucc k))
include found

theorem nearestSmall : nearest m (.negSucc k) < 2 ^ 53 ∧
    ((nearest m (.negSucc k) * 2 ^ (k + 1) : Nat) - m : Int).natAbs < 2 ^ 53 := by
  have most := (finiteHeld found).most
  obtain ⟨low,high⟩ := nearestBetween m k
  generalize nearest m (.negSucc k) = n at *
  have double : n * 2 ^ (k + 1) = 2 * (n * 2 ^ k) := by rw [Nat.pow_succ',Nat.mul_left_comm]
  have least : n * 1 ≤ n * 2 ^ k := Nat.mul_le_mul_left n (Nat.two_pow_pos k)
  have one : n * 2 ^ k = 0 ∨ 1 * 2 ^ k ≤ n * 2 ^ k :=
    (Nat.eq_zero_or_pos n).imp (by rintro rfl; exact Nat.zero_mul _) (Nat.mul_le_mul_right _)
  omega

theorem nearestDistance :
    (parts (roundAway f - f)).size = (|(nearest m (.negSucc k) : ℚ) - m * 2 ^ (Int.negSucc k)| : ℚ) := by
  have held := finiteHeld found
  obtain ⟨small,fits⟩ := nearestSmall found
  obtain ⟨a,b,whole,value⟩ := wholeHolds small negative
  have rounded : roundAway f = withSign negative (Float.ofNat (nearest m (.negSucc k))) := by rw [roundAway,found]
  have near := differenceApproximates whole found
  rw [value,signedDistance,distanceParted] at near
  rw [rounded,distanceParted]
  exact approximatesExact near fits held.low (by omega)

end

theorem closenessBelow : ∃ n d, parts closeness = .finite false n d ∧ (0 : ℚ) < n * 2 ^ d ∧
    (n * 2 ^ d : ℚ) < 1 / 50000 :=
  ⟨5902958103587057,-69,by decide +kernel,by norm_num,by norm_num⟩

/- The two decimals of a finite double: the exact one, and the one that is printed of it. Either the printed one is
the exact one cut short, or it is an integer that the double is close to. -/
structure Printed (f : Float) (negative : Bool) (m : Nat) (e : Int) (s c : DecimalText) : Prop where
  exact : magnitudeText m e = s.text
  low : lowEnd m e ≤ s.value
  high : s.value ≤ highEnd m e
  short : c.fraction.length ≤ keptDecimals
  text : compactNumber f = if c.text = [48] then [48] else minusText negative ++ withoutLeadingZero c.text
  near : truncated s.text = c.text ∧ c.value ≤ s.value ∧ s.value < c.value + 1 / 10 ^ keptDecimals ∨
    c.fraction = [] ∧ |c.value - m * 2 ^ e| < 1 / 50000 ∧ |c.value - s.value| < 1 / 10 ^ keptDecimals

section
variable {f : Float} {negative : Bool} {m : Nat}

theorem truncatedPrinted {e} (found : parts f = .finite negative m e) (far : ¬magnitude (roundAway f - f) < closeness) :
    ∃ s c, Printed f negative m e s c := by
  obtain ⟨s,exact,low,high,_⟩ := magnitudeSpelled (finiteHeld found)
  obtain ⟨c,cut,short,least,most⟩ := truncatedSpelled s
  refine ⟨s,c,exact,low,high,short,?_,.inl ⟨cut,least,most⟩⟩
  rw [compactNumber,found]
  simp only [far,exact,cut]
  rfl

theorem largePrinted {k} (found : parts f = .finite negative m (.ofNat k)) :
    ∃ s c, Printed f negative m (.ofNat k) s c := by
  have held := finiteHeld found
  have full : 2 ^ 52 ≤ m := held.full.resolve_right (by rw [Int.ofNat_eq_natCast]; omega)
  obtain ⟨s,exact,low,high,whole⟩ := magnitudeSpelled held
  have bare := whole ⟨m * 2 ^ k,by push_cast; rfl⟩
  have cut : truncated s.text = s.text := by
    obtain ⟨front,behind⟩ := wholeTaken s
    rw [truncated]
    simp only [front,behind]
    rw [DecimalText.text,bare]
    rfl
  have pos : (0 : ℚ) < lowEnd m (.ofNat k) := by
    have := lowParted m (.ofNat k)
    have : (2 ^ 52 : ℚ) ≤ m := by exact_mod_cast full
    have : (0 : ℚ) < 2 ^ Int.ofNat k := by positivity
    nlinarith
  have visible : s.text ≠ [48] := by
    rw [ne_eq,textZero]
    linarith
  refine ⟨s,s,exact,low,high,by rw [bare]; decide,?_,.inl ⟨cut,le_rfl,?_⟩⟩
  · have same : roundAway f = f := by rw [roundAway,found]
    have difference := differenceApproximates found found
    have nothing : (parts (f - f)).size = ((0 : Nat) * 2 ^ (0 : Int) : ℚ) :=
      approximatesExact (by simpa using difference) (by decide) (by decide) (by decide)
    obtain ⟨n,d,limit,filled,_⟩ := closenessBelow
    have near : magnitude (f - f) < closeness := by
      rw [magnitudeBelow _ limit,nothing,WithTop.coe_lt_coe]
      simpa using filled
    have other : (f == 0.0) = false := by
      rw [Bool.eq_false_iff,ne_eq,isZeroParts,found,Parts.size,WithTop.coe_eq_zero]
      positivity
    rw [compactNumber,if_neg visible,wholeWithout s bare]
    simp only [same,near,other,Bool.false_eq_true]
    rw [exactNumber,found,← exact]
    rfl
  · rw [lt_add_iff_pos_right]
    exact div_pos (by norm_num) (by positivity)

/- An integer that is close to a double is close to its exact decimal too: where the doubles are far apart, it is the
double itself. -/
theorem nearExact {k n : Nat} {s : DecimalText} (low : lowEnd m (.negSucc k) ≤ s.value)
    (high : s.value ≤ highEnd m (.negSucc k)) (whole : (∃ n : Nat, (m * 2 ^ Int.negSucc k : ℚ) = n) → s.fraction = [])
    (close : |(n : ℚ) - m * 2 ^ Int.negSucc k| < 1 / 50000) : |(n : ℚ) - s.value| < 1 / 10 ^ keptDecimals := by
  have least := (lowParted m (.negSucc k)).trans low
  rw [highParted] at high
  have kept : (1 / 10 ^ keptDecimals : ℚ) = 1 / 10000 := by norm_num [keptDecimals]
  rcases Nat.lt_or_ge k 13 with coarse | fine
  · have wide : (1 / 8192 : ℚ) ≤ 2 ^ Int.negSucc k :=
      (by norm_num : (1 / 8192 : ℚ) ≤ 2 ^ (-13 : Int)).trans (zpow_le_zpow_right₀ (by norm_num) (by omega))
    have narrow : (2 ^ Int.negSucc k : ℚ) ≤ 1 / 2 :=
      (zpow_le_zpow_right₀ (by norm_num) (by omega)).trans (by norm_num : (2 ^ (-1 : Int) : ℚ) ≤ 1 / 2)
    rw [distanceParted] at close
    have bare : ((n * 2 ^ (k + 1) : Nat) - m : Int).natAbs = 0 := by
      by_contra full
      have one : (1 : ℚ) ≤ ((n * 2 ^ (k + 1) : Nat) - m : Int).natAbs := by exact_mod_cast Nat.pos_of_ne_zero full
      nlinarith
    have same : (m * 2 ^ Int.negSucc k : ℚ) = n := by
      have distance := distanceParted n m k
      rw [bare,Nat.cast_zero,zero_mul,abs_eq_zero,sub_eq_zero] at distance
      exact distance.symm
    have integer : s.value = digitsValue s.whole := by
      have nothing : digitsValue [] = 0 := rfl
      simp [value,whole ⟨n,same⟩,nothing]
    have equal : n = digitsValue s.whole := by
      have below : (n : ℚ) < (digitsValue s.whole + 1 : Nat) := by push_cast; linarith
      have above : (digitsValue s.whole : ℚ) < (n + 1 : Nat) := by push_cast; linarith
      rw [Nat.cast_lt] at below above
      omega
    rw [integer,← equal]
    norm_num
  · have narrow : (2 ^ Int.negSucc k : ℚ) ≤ 1 / 16384 :=
      (zpow_le_zpow_right₀ (by norm_num) (by omega)).trans (by norm_num : (2 ^ (-14 : Int) : ℚ) ≤ 1 / 16384)
    obtain ⟨down,up⟩ := abs_lt.mp close
    exact abs_lt.mpr ⟨by linarith,by linarith⟩

theorem nearPrinted {k} (found : parts f = .finite negative m (.negSucc k))
    (near : magnitude (roundAway f - f) < closeness) : ∃ s c, Printed f negative m (.negSucc k) s c := by
  obtain ⟨s,exact,low,high,whole⟩ := magnitudeSpelled (finiteHeld found)
  obtain ⟨_,_,limit,_,small⟩ := closenessBelow
  have close : |(nearest m (.negSucc k) : ℚ) - m * 2 ^ Int.negSucc k| < 1 / 50000 := by
    rw [magnitudeBelow _ limit,nearestDistance found,WithTop.coe_lt_coe] at near
    exact near.trans small
  have fits := (nearestSmall found).1
  refine ⟨s,ofWhole (nearest m (.negSucc k)),exact,low,high,Nat.zero_le _,?_,.inr ⟨rfl,?_,?_⟩⟩
  · have rounded : roundAway f = withSign negative (Float.ofNat (nearest m (.negSucc k))) := by rw [roundAway,found]
    rw [compactNumber,found]
    simp only [near]
    rw [rounded,isZeroWhole fits]
    by_cases zero : nearest m (.negSucc k) = 0
    · simp only [zero,decide_true]
      rfl
    have visible : (ofWhole (nearest m (.negSucc k))).text ≠ [48] := by
      rw [ne_eq,textZero,ofWholeValue]
      exact_mod_cast zero
    rw [if_neg visible,wholeWithout _ rfl,decide_eq_false zero]
    rw [exactNumber,partsWhole fits negative zero]
    dsimp only
    rw [wholeText fits zero]
    rfl
  · rwa [ofWholeValue]
  · rw [ofWholeValue]
    exact nearExact low high whole close

theorem finitePrinted {e} (found : parts f = .finite negative m e) : ∃ s c, Printed f negative m e s c := by
  by_cases near : magnitude (roundAway f - f) < closeness
  · cases e with
    | ofNat k => exact largePrinted found
    | negSucc k => exact nearPrinted found near
  · exact truncatedPrinted found near

end

theorem compactShape (f) : CompactText (compactNumber f) := by
  cases found : parts f with
  | finite negative m e =>
    obtain ⟨s,c,printed⟩ := finitePrinted found
    rw [printed.text]
    split
    · exact .zero
    · exact compactShaped negative printed.short ‹_›
  | _ =>
    rw [compactNumber,found]
    exact .zero

def isNumeric (b : UInt8) : Bool := isDigit b || b == 45 || b == 46

theorem numberNumeric (f) : compactNumber f ≠ [] ∧ ∀ b ∈ compactNumber f, isNumeric b := by
  have digit {b : UInt8} (digit : isDigit b) : isNumeric b := by simp [isNumeric,digit]
  have minus (negative : Bool) : ∀ b ∈ minusText negative, isNumeric b := by
    cases negative with
    | true => exact forall_mem_singleton.mpr rfl
    | false => exact forall_mem_nil _
  have shape := compactShape f
  generalize compactNumber f = t at shape
  cases shape with
  | zero => exact ⟨cons_ne_nil _ _,forall_mem_singleton.mpr rfl⟩
  | whole negative leads =>
    obtain ⟨digits,b,u,rfl,_⟩ := leads
    exact ⟨by simp,forall_mem_append.mpr ⟨minus negative,fun c mem => digit (digits c mem)⟩⟩
  | fraction negative leads digits =>
    refine ⟨by simp,forall_mem_append.mpr ⟨minus negative,forall_mem_append.mpr ⟨fun c mem => ?_,
      forall_mem_cons.mpr ⟨rfl,fun c mem => digit (digits c mem)⟩⟩⟩⟩
    rcases leads with rfl | leads
    · cases mem
    · exact digit (leads.1 c mem)

def Parts.step : Parts → ℚ
  | .finite _ _ e => 2 ^ e
  | _ => 0

theorem numbersCompact (f : Float) : CompactText (compactNumber f) ∧
    numberLength (compactNumber f) = (compactNumber f).length ∧
    |decimalValue (compactNumber f) - decimalValue (exactNumber f)| < 1 / 10 ^ keptDecimals ∧
    |decimalValue (exactNumber f) - (parts f).value| ≤ (parts f).step / 2 := by
  have shape := compactShape f
  cases found : parts f with
  | finite negative m e =>
    obtain ⟨s,c,printed⟩ := finitePrinted found
    have value : decimalValue (compactNumber f) = signed negative c.value := by
      rw [printed.text]
      split
      · rename_i zero
        rw [(textZero c).mp zero,zeroSigned,zeroValue]
      · exact signedWithout c negative
    have exact : decimalValue (exactNumber f) = signed negative s.value := by
      rw [exactNumber,found]
      dsimp only
      rw [printed.exact]
      exact signedText s negative
    have low := (lowParted m e).trans printed.low
    have high := printed.high
    rw [highParted] at high
    rw [value,exact,signedDistance,Parts.value,signedDistance]
    refine ⟨shape,compactLength shape,?_,abs_le.mpr ⟨?_,?_⟩⟩
    · rcases printed.near with ⟨_,below,above⟩ | ⟨_,_,close⟩
      · exact abs_lt.mpr ⟨by linarith,by linarith [show (0 : ℚ) < 1 / 10 ^ keptDecimals from div_pos (by norm_num) (by positivity)]⟩
      · exact close
    · rw [Parts.step]
      linarith
    · rw [Parts.step]
      linarith
  | _ =>
    have zeros : compactNumber f = [48] ∧ exactNumber f = [48] := by
      rw [compactNumber,exactNumber,found]
      exact ⟨rfl,rfl⟩
    rw [zeros.1,zeros.2,zeroValue]
    refine ⟨.zero,rfl,?_,?_⟩
    · norm_num [keptDecimals]
    · norm_num [Parts.value,Parts.step]

end Cascade
