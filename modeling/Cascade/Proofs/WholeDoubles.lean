import Cascade.Proofs.Rounding

/-! Doubles that hold whole numbers. One of fewer than 54 bits is held exactly, and what is said of its parts, its
sign and its order follows from that. -/
namespace Cascade
open Float
open Float.Model (UnpackedFloat Format)
open Float.Model.UnpackedFloat (Sign ExtendedMantissa)

def wholeMantissa (n : Nat) : Nat := n * 2 ^ (52 - n.log2)

def wholeExponent (n : Nat) : Int := n.log2 - 52

theorem wholePos {n} (full : n ≠ 0) : 0 < wholeMantissa n :=
  Nat.mul_pos (Nat.pos_of_ne_zero full) (Nat.two_pow_pos _)

section
variable {n : Nat} (small : n < 2 ^ 53)
include small

theorem wholeHeld (filled : n ≠ 0) : Held (wholeMantissa n) (wholeExponent n) := by
  have log := wholeLog small
  obtain ⟨least,most⟩ := (Nat.log2_eq_iff filled).mp rfl
  have pos := Nat.two_pow_pos (52 - n.log2)
  have full : 2 ^ n.log2 * 2 ^ (52 - n.log2) = 2 ^ 52 := by rw [← Nat.pow_add,Nat.add_sub_cancel' log]
  have double : 2 ^ (n.log2 + 1) * 2 ^ (52 - n.log2) = 2 ^ 53 := by
    rw [← Nat.pow_add,Nat.add_right_comm,Nat.add_sub_cancel' log]
  rw [wholeMantissa,wholeExponent]
  refine ⟨?_,by omega,by omega,.inl ?_⟩
  · rw [← double]
    exact Nat.mul_lt_mul_of_pos_right most pos
  · rw [← full]
    exact Nat.mul_le_mul_right _ least

theorem wholeValue : (wholeMantissa n * 2 ^ wholeExponent n : ℚ) = n := by
  have log := wholeLog small
  have exponent : wholeExponent n = -((52 - n.log2 : Nat) : Int) := by
    rw [wholeExponent]
    omega
  rw [wholeMantissa,exponent,zpow_neg,zpow_natCast]
  push_cast
  field_simp

theorem ofNatWhole (full : n ≠ 0) (pos) :
    UnpackedFloat.ofNat .binary64 n = .finite .positive (wholeMantissa n) (wholeExponent n) pos := by
  have log := wholeLog small
  have greater : compare (n : Int) 0 = .gt := by
    rw [Int.compare_eq_gt]
    omega
  have target : Format.binary64.targetExponent (Float.Model.totalExponent n 0) = wholeExponent n := by
    show max ((n.log2 : Int) + 1 + 0 - 53) (-1074) = (n.log2 : Int) - 52
    omega
  have amount : (0 - wholeExponent n).toNat = 52 - n.log2 := by
    rw [wholeExponent]
    omega
  have exponent : (0 : Int) - (52 - n.log2 : Nat) = wholeExponent n := by
    rw [wholeExponent]
    omega
  have rounded := roundExact .positive (wholeHeld small full) pos 0
  rw [Nat.pow_zero,Nat.mul_one,Int.natCast_zero,Int.sub_zero] at rounded
  refine Eq.trans ?_ rounded
  simp only [UnpackedFloat.ofNat,UnpackedFloat.ofInt,UnpackedFloat.normalize,greater,UnpackedFloat.round,Int.toNat_natCast,
    target,UnpackedFloat.decreaseExponent,amount,exponent,Nat.shiftLeft_eq]
  rfl

theorem wholeDouble (full : n ≠ 0) (pos) :
    ofNat n = ⟨Float.Model.pack (.finite .positive (wholeMantissa n) (wholeExponent n) pos)⟩ := by
  have held := wholeHeld small full
  have word : n.toUInt64.toNat = n := by
    show n % 2 ^ 64 = n
    omega
  have one : (ofBits 4607182418800017408).toModel.unpack = .finite .positive (2 ^ 52) (-52) (by decide) := rfl
  have times : ofNat n = n.toUInt64.toFloat * ofBits 4607182418800017408 := by
    show (if h : n < 2 ^ 53 ∧ 0 ≤ 22 then _ else _) = _
    rw [dif_pos ⟨small,by decide⟩]
    rfl
  have factor : n.toUInt64.toFloat.toModel.unpack = .finite .positive (wholeMantissa n) (wholeExponent n) pos := by
    rw [unpackParts,UInt64.toFloat,Float.Model.ofUInt64,UnpackedFloat.ofUInt64,word,ofNatWhole small full pos]
    exact (congrArg Parts.unpacked (partsFinite .positive pos held)).trans (dif_pos pos)
  rw [times]
  show ofModel (Float.Model.pack (UnpackedFloat.mul .binary64 _ _)) = _
  rw [factor,one]
  exact congrArg (fun u => ofModel (Float.Model.pack u)) (roundExact .positive held pos 52)

end

section
variable {n : Nat} (small : n < 2 ^ 53) (negative : Bool)

include small

theorem partsWhole (full : n ≠ 0) :
    parts (withSign negative (ofNat n)) = .finite negative (wholeMantissa n) (wholeExponent n) := by
  have held := wholeHeld small full
  have pos := wholePos full
  have double : parts (ofNat n) = .finite false (wholeMantissa n) (wholeExponent n) := by
    rw [wholeDouble small full pos]
    exact partsFinite .positive pos held
  cases negative with
  | false => exact double
  | true =>
    show parts ⟨Float.Model.pack (UnpackedFloat.neg (ofNat n).toModel.unpack)⟩ = _
    rw [unpackParts,double,Parts.unpacked,dif_pos pos]
    exact partsFinite .negative pos held

omit small in
theorem partsZero : parts (withSign negative (ofNat 0)) = .finite negative 0 (-1074) := by
  cases negative <;> rfl

theorem wholeHolds : ∃ m e, parts (withSign negative (ofNat n)) = .finite negative m e ∧ (m * 2 ^ e : ℚ) = n := by
  by_cases bare : n = 0
  · subst bare
    exact ⟨0,-1074,partsZero negative,by simp⟩
  · exact ⟨_,_,partsWhole small negative bare,wholeValue small⟩

theorem unpackWhole (full : n ≠ 0) : ∃ pos, (withSign negative (ofNat n)).toModel.unpack =
    .finite (signOf negative) (wholeMantissa n) (wholeExponent n) pos := by
  have pos := wholePos full
  exact ⟨pos,by rw [unpackParts,partsWhole small negative full,Parts.unpacked,dif_pos pos]⟩

theorem isZeroWhole : (withSign negative (ofNat n) == 0.0) = decide (n = 0) := by
  by_cases bare : n = 0
  · subst bare
    cases negative <;> rfl
  obtain ⟨pos,parted⟩ := unpackWhole small negative bare
  show (withSign negative (ofNat n)).toModel.unpack.beq (.zero .positive) = _
  rw [parted,decide_eq_false bare]
  cases negative <;> rfl

theorem isNegativeWhole : (withSign negative (ofNat n) < 0.0) ↔ negative ∧ n ≠ 0 := by
  show decide ((withSign negative (ofNat n)).toModel < (0.0 : Float).toModel) ↔ _
  rw [decide_eq_true_eq]
  show (withSign negative (ofNat n)).toModel.unpack.lt (.zero .positive) ↔ _
  by_cases bare : n = 0
  · subst bare
    refine iff_of_false ?_ fun both => both.2 rfl
    cases negative <;> exact Bool.false_ne_true
  obtain ⟨pos,parted⟩ := unpackWhole small negative bare
  have sign : UnpackedFloat.lt (.finite (signOf negative) (wholeMantissa n) (wholeExponent n) pos) (.zero .positive) =
      negative := by cases negative <;> rfl
  rw [parted,sign]
  exact ⟨fun minus => ⟨minus,bare⟩,fun both => both.1⟩

theorem selfDifference : withSign negative (ofNat n) - withSign negative (ofNat n) = 0.0 := by
  by_cases bare : n = 0
  · subst bare
    cases negative <;> rfl
  obtain ⟨pos,parted⟩ := unpackWhole small negative bare
  have same : UnpackedFloat.sub .binary64 (.finite (signOf negative) (wholeMantissa n) (wholeExponent n) pos)
      (.finite (signOf negative) (wholeMantissa n) (wholeExponent n) pos) = .zero .positive := by
    delta UnpackedFloat.sub
    dsimp only
    rw [Int.sub_self]
    rfl
  show ofModel (Float.Model.pack (UnpackedFloat.sub .binary64 _ _)) = _
  rw [parted,same]
  rfl

theorem magnitudeWhole : magnitude (withSign negative (ofNat n)) = ofNat n := by
  by_cases bare : n = 0
  · subst bare
    cases negative <;> rfl
  · have pos := wholePos bare
    rw [magnitudePacked,partsWhole small negative bare,Parts.plain,Parts.unpacked,dif_pos pos,wholeDouble small bare pos]
    rfl

omit small in
theorem compareOne (full : n ≠ 0) (other : n ≠ 1) (rest) : (compare (wholeExponent n) (-52)).then rest = .gt := by
  have log : n.log2 ≠ 0 := by
    intro zero
    have most := ((Nat.log2_eq_iff full).mp zero).2
    omega
  have greater : compare (wholeExponent n) (-52) = .gt := by
    rw [Int.compare_eq_gt,wholeExponent]
    omega
  rw [greater]
  rfl

theorem isUnitWhole (minus) :
    (withSign negative (ofNat n) == withSign minus 1.0) = (decide (n = 1) && negative == minus) := by
  have unit : (withSign minus 1.0).toModel.unpack = .finite (signOf minus) (2 ^ 52) (-52) (by decide) := by
    cases minus <;> rfl
  by_cases one : n = 1
  · subst one
    cases negative <;> cases minus <;> rfl
  by_cases bare : n = 0
  · subst bare
    cases negative <;> cases minus <;> rfl
  obtain ⟨pos,parted⟩ := unpackWhole small negative bare
  show (withSign negative (ofNat n)).toModel.unpack.beq (withSign minus 1.0).toModel.unpack = _
  rw [parted,unit,decide_eq_false one,Bool.false_and]
  cases negative <;> cases minus
  · show (some _ == some Ordering.eq) = false
    rw [compareOne bare one]
    rfl
  · rfl
  · rfl
  · show (some (Ordering.swap _) == some Ordering.eq) = false
    rw [compareOne bare one]
    rfl

end

end Cascade
