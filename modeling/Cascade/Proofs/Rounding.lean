import Cascade.Proofs.HeldDoubles

/-! The rounding of doubles. Whatever is computed is the double nearest to the exact result, of two equally near ones
the even one; so rounding keeps the order, and keeps what a double holds. -/
namespace Cascade
open Parts (unpacked size)
open Float.Model (UnpackedFloat Format)
open Float.Model.UnpackedFloat (Sign ExtendedMantissa Accuracy shiftToTargetExponent roundWithAccuracy accuracyOfFraction)
open Float.Model.UnpackedFloat.ExtendedMantissa (shiftRightOne ofMantissaAndAccuracy roundedMantissa accuracy)

variable {q : Int} {n m : Nat} {x : ℚ}

def Stands : ExtendedMantissa → ℚ → Prop
  | ⟨m,false,false⟩,x => x = m
  | ⟨m,false,true⟩,x => m < x ∧ x < m + 1 / 2
  | ⟨m,true,false⟩,x => x = m + 1 / 2
  | ⟨m,true,true⟩,x => m + 1 / 2 < x ∧ x < m + 1

section
variable {a b : ExtendedMantissa} {x y : ℚ}

theorem standsBounds (stands : Stands a x) : a.mantissa ≤ x ∧ x < a.mantissa + 1 := by
  obtain ⟨m,r,s⟩ := a
  cases r <;> cases s <;> simp only [Stands] at stands <;> constructor <;> linarith

theorem roundedBetween (a : ExtendedMantissa) : a.mantissa ≤ a.roundedMantissa ∧ a.roundedMantissa ≤ a.mantissa + 1 := by
  obtain ⟨m,r,s⟩ := a
  cases r <;> cases s <;>
    simp only [roundedMantissa,accuracy,Accuracy.roundToNearestEven] <;> omega

theorem standsShifted (stands : Stands a x) : Stands a.shiftRightOne (x / 2) := by
  obtain ⟨m,r,s⟩ := a
  obtain ⟨k,rfl | rfl⟩ := Nat.even_or_odd' m
  · have shifted : shiftRightOne ⟨2 * k,r,s⟩ = ⟨k,false,r || s⟩ := by
      simp [shiftRightOne]
    rw [shifted]
    cases r <;> cases s <;> simp only [Stands,Bool.or_true,Bool.or_false,Nat.cast_mul,Nat.cast_ofNat] at stands ⊢
    all_goals first | (constructor <;> linarith) | linarith
  · have shifted : shiftRightOne ⟨2 * k + 1,r,s⟩ = ⟨k,true,r || s⟩ := by
      simp [shiftRightOne,Nat.add_div]
    rw [shifted]
    cases r <;> cases s <;>
      simp only [Stands,Bool.or_true,Bool.or_false,Nat.cast_mul,Nat.cast_add,Nat.cast_one,Nat.cast_ofNat] at stands ⊢
    all_goals first | (constructor <;> linarith) | linarith

theorem standsRight (stands : Stands a x) (k : Nat) : Stands (a >>> k) (x / 2 ^ k) := by
  show Stands (k.repeat shiftRightOne a) _
  induction k with
  | zero => simpa [Nat.repeat] using stands
  | succ k ih =>
    rw [Nat.repeat,pow_succ,← div_div]
    exact standsShifted ih

theorem roundedOrder (left : Stands a x) (right : Stands b y) (order : x ≤ y) : a.roundedMantissa ≤ b.roundedMantissa := by
  have low := (standsBounds left).1
  have high := (standsBounds right).2
  have least : a.mantissa < b.mantissa + 1 := by exact_mod_cast (low.trans order).trans_lt high
  rcases Nat.lt_succ_iff_lt_or_eq.mp least with less | same
  · exact ((roundedBetween a).2.trans less).trans (roundedBetween b).1
  -- between the same two mantissas the bits tell which is further
  obtain ⟨m,r,s⟩ := a
  obtain ⟨n,u,v⟩ := b
  obtain rfl : m = n := same
  cases r <;> cases s <;> cases u <;> cases v <;> simp only [Stands] at left right <;>
    first
    | (exfalso; linarith)
    | (simp only [roundedMantissa,accuracy,Accuracy.roundToNearestEven]; omega)

theorem standsWhole {k : Nat} (stands : Stands a k) : a.roundedMantissa = k := by
  have exact : Stands ⟨k,false,false⟩ k := rfl
  exact le_antisymm (roundedOrder stands exact le_rfl) (roundedOrder exact stands le_rfl)

end

/- The double nearest to `x` is `n * 2 ^ q`: its exponent is the one at which `x` fills the mantissa, or the least. -/
structure RoundedTo (x : ℚ) (n : Nat) (q : Int) : Prop where
  low : -1074 ≤ q
  most : x < 2 ^ 53 * 2 ^ q
  full : 2 ^ 52 * 2 ^ q ≤ x ∨ q = -1074
  nearest : ∃ em, Stands em (x / 2 ^ q) ∧ em.roundedMantissa = n

theorem powersApart {r} (less : q < r) : (2 ^ 53 * 2 ^ q : ℚ) ≤ 2 ^ 52 * 2 ^ r := by
  calc (2 ^ 53 * 2 ^ q : ℚ) = 2 ^ 52 * 2 ^ (q + 1) := by rw [zpow_add₀ (by norm_num)]; ring
    _ ≤ 2 ^ 52 * 2 ^ r := by gcongr <;> [norm_num; exact less]

theorem powerParted {j} (below : q ≤ j) : (2 ^ j : ℚ) = 2 ^ (j - q).toNat * 2 ^ q := by
  rw [← zpow_natCast,← zpow_add₀ (by norm_num),Int.toNat_of_nonneg (by omega),sub_add_cancel]

section
variable {x y : ℚ} {n k : Nat} {q r : Int}

theorem roundedMost (rounded : RoundedTo x n q) : n ≤ 2 ^ 53 := by
  obtain ⟨em,stands,rfl⟩ := rounded.nearest
  have top : Stands ⟨2 ^ 53,false,false⟩ (2 ^ 53) := by norm_num [Stands]
  exact roundedOrder stands top ((div_le_iff₀ (by positivity)).mpr rounded.most.le)

theorem roundedFull (rounded : RoundedTo x n q) : 2 ^ 52 ≤ n ∨ q = -1074 := by
  obtain ⟨em,stands,rfl⟩ := rounded.nearest
  refine rounded.full.imp_left fun full => ?_
  have bottom : Stands ⟨2 ^ 52,false,false⟩ (2 ^ 52) := by norm_num [Stands]
  exact roundedOrder bottom stands ((le_div_iff₀ (by positivity)).mpr full)

theorem exponentOrder (left : RoundedTo x n q) (right : RoundedTo y k r) (order : x ≤ y) : q ≤ r := by
  by_contra above
  have full := left.full.resolve_right (by have := right.low; omega)
  linarith [right.most,powersApart (lt_of_not_ge above)]

theorem roundedKeepsOrder (left : RoundedTo x n q) (right : RoundedTo y k r) (order : x ≤ y) :
    (n * 2 ^ q : ℚ) ≤ k * 2 ^ r := by
  rcases (exponentOrder left right order).lt_or_eq with less | rfl
  · have most : (n : ℚ) ≤ 2 ^ 53 := by exact_mod_cast roundedMost left
    have full : (2 ^ 52 : ℚ) ≤ k := by
      exact_mod_cast (roundedFull right).resolve_right (by have := left.low; omega)
    calc (n * 2 ^ q : ℚ) ≤ 2 ^ 53 * 2 ^ q := by gcongr
      _ ≤ 2 ^ 52 * 2 ^ r := powersApart less
      _ ≤ k * 2 ^ r := by gcongr
  · obtain ⟨a,first,rfl⟩ := left.nearest
    obtain ⟨b,second,rfl⟩ := right.nearest
    gcongr
    exact roundedOrder first second (by gcongr)

theorem roundedSame (left : RoundedTo x n q) (right : RoundedTo x k r) : n = k ∧ q = r := by
  obtain rfl := le_antisymm (exponentOrder left right le_rfl) (exponentOrder right left le_rfl)
  obtain ⟨a,first,rfl⟩ := left.nearest
  obtain ⟨b,second,rfl⟩ := right.nearest
  exact ⟨le_antisymm (roundedOrder first second le_rfl) (roundedOrder second first le_rfl),rfl⟩

theorem roundedKeeps {j : Int} (small : k < 2 ^ 53) (low : -1074 ≤ j) (rounded : RoundedTo (k * 2 ^ j) n q) :
    (n * 2 ^ q : ℚ) = k * 2 ^ j := by
  have most : (k : ℚ) < 2 ^ 53 := by exact_mod_cast small
  have pos : (0 : ℚ) < 2 ^ j := by positivity
  have reached : q ≤ j := by
    by_contra above
    have full := rounded.full.resolve_right (by omega)
    have apart := powersApart (lt_of_not_ge above)
    nlinarith
  obtain ⟨em,stands,rfl⟩ := rounded.nearest
  have shift := powerParted reached
  have whole : (k * 2 ^ j : ℚ) / 2 ^ q = (k * 2 ^ (j - q).toNat : Nat) := by
    rw [shift,← mul_assoc,mul_div_cancel_right₀ _ (by positivity)]
    push_cast
    rfl
  rw [whole] at stands
  rw [standsWhole stands,shift]
  push_cast
  ring

end

theorem heldRounded {m e} (held : Held m e) : RoundedTo (m * 2 ^ e) m e := by
  have pos : (0 : ℚ) < 2 ^ e := by positivity
  refine ⟨held.low,?_,held.full.imp_left fun full => ?_,⟨m,false,false⟩,mul_div_cancel_right₀ _ pos.ne',rfl⟩
  · gcongr
    exact_mod_cast held.most
  · gcongr
    exact_mod_cast full

def carried (s : Sign) (n : Nat) (q : Int) : UnpackedFloat :=
  if pos : 0 < n then
    if n < 2 ^ 53 then .finite s n q pos else .finite s (2 ^ 52) (q + 1) (by decide)
  else .zero s

theorem shiftTarget (m e a) : shiftToTargetExponent .binary64 m e a =
    (ofMantissaAndAccuracy m a >>> (max ((m.log2 : Int) + 1 + e - 53) (-1074) - e).toNat,
      e + (max ((m.log2 : Int) + 1 + e - 53) (-1074) - e).toNat) := rfl

section
variable (s : Sign) {m : Nat} {e : Int} {a : Accuracy} {x : ℚ}

theorem carriedShift (most : n ≤ 2 ^ 53) (low : -1074 ≤ q) :
    (if filled : (shiftToTargetExponent .binary64 n q .exact).1.mantissa = 0 then .zero s
      else .finite s (shiftToTargetExponent .binary64 n q .exact).1.mantissa
        (shiftToTargetExponent .binary64 n q .exact).2 (Nat.pos_of_ne_zero filled)) = carried s n q := by
  rw [carried]
  by_cases small : n < 2 ^ 53
  · have log := wholeLog small
    have bare : (max ((n.log2 : Int) + 1 + q - 53) (-1074) - q).toNat = 0 := by omega
    have same : shiftToTargetExponent .binary64 n q .exact = (⟨n,false,false⟩,q) := by
      rw [shiftTarget,bare,Nat.cast_zero,Int.add_zero]
      rfl
    simp only [same,small,if_true]
    by_cases pos : 0 < n
    · rw [dif_pos pos,dif_neg (Nat.ne_of_gt pos)]
    · rw [dif_neg pos,dif_pos (by omega)]
  · have full : n = 2 ^ 53 := by omega
    subst full
    have one : (max (((2 ^ 53 : Nat).log2 : Int) + 1 + q - 53) (-1074) - q).toNat = 1 := by
      rw [Nat.log2_two_pow]
      omega
    have half : shiftToTargetExponent .binary64 (2 ^ 53) q .exact = (⟨2 ^ 52,false,false⟩,q + 1) := by
      rw [shiftTarget,one]
      rfl
    simp only [half,small,if_false]
    rfl

theorem exponentPlaced {e} (low : m * 2 ^ e ≤ x) (high : x < (m + 1) * 2 ^ e) (room : 52 ≤ m.log2 ∨ e ≤ -1074)
    {t} (target : t = max ((m.log2 : Int) + 1 + e - 53) (-1074)) :
    x < 2 ^ 53 * 2 ^ t ∧ (2 ^ 52 * 2 ^ t ≤ x ∨ t = -1074) := by
  have next : ((m + 1 : Nat) : ℚ) ≤ 2 ^ (m.log2 + 1) := by exact_mod_cast Nat.lt_log2_self
  constructor
  · calc x < (m + 1) * 2 ^ e := high
      _ ≤ 2 ^ (m.log2 + 1) * 2 ^ e := by gcongr; exact_mod_cast next
      _ = 2 ^ ((m.log2 : Int) + 1 + e) := by rw [zpow_add₀ (by norm_num),← zpow_natCast]; push_cast; rfl
      _ ≤ 2 ^ (53 + t) := zpow_le_zpow_right₀ (by norm_num) (by omega)
      _ = 2 ^ 53 * 2 ^ t := by rw [zpow_add₀ (by norm_num)]; rfl
  · refine or_iff_not_imp_right.mpr fun above => ?_
    have placed : 52 + t = m.log2 + e := by omega
    have full : m ≠ 0 := by rintro rfl; rw [show Nat.log2 0 = 0 by decide] at *; omega
    have first : (2 ^ m.log2 : ℚ) ≤ m := by exact_mod_cast Nat.log2_self_le full
    calc (2 ^ 52 * 2 ^ t : ℚ) = 2 ^ (52 + t) := by rw [zpow_add₀ (by norm_num)]; rfl
      _ = 2 ^ m.log2 * 2 ^ e := by rw [placed,zpow_add₀ (by norm_num),zpow_natCast]
      _ ≤ m * 2 ^ e := by gcongr
      _ ≤ x := low

theorem roundCarried (stands : Stands (.ofMantissaAndAccuracy m a) (x / 2 ^ e)) (room : 52 ≤ m.log2 ∨ e ≤ -1074) :
    ∃ n q, RoundedTo x n q ∧ roundWithAccuracy .binary64 s m e a = carried s n q := by
  obtain ⟨t,target⟩ : ∃ t, t = max ((m.log2 : Int) + 1 + e - 53) (-1074) := ⟨_,rfl⟩
  have whole : (ofMantissaAndAccuracy m a).mantissa = m := by
    unfold ofMantissaAndAccuracy
    split <;> rfl
  have pos : (0 : ℚ) < 2 ^ e := by positivity
  obtain ⟨low,high⟩ := standsBounds stands
  rw [whole,le_div_iff₀ pos] at low
  rw [whole,div_lt_iff₀ pos] at high
  have reached : e + (t - e).toNat = t := by omega
  have right := standsRight stands (t - e).toNat
  rw [div_div,← zpow_natCast,← zpow_add₀ (by norm_num),reached] at right
  obtain ⟨most,full⟩ := exponentPlaced low high room target
  have rounded : RoundedTo x _ t := ⟨by omega,most,full,_,right,rfl⟩
  refine ⟨_,t,rounded,?_⟩
  rw [← carriedShift s (roundedMost rounded) rounded.low,roundWithAccuracy,shiftTarget m,← target,reached]

theorem standsExact (m : Nat) (e : Int) (k : Nat) : Stands (.ofMantissaAndAccuracy (m * 2 ^ k) .exact) (m * 2 ^ e / 2 ^ (e - k)) := by
  show (m * 2 ^ e / 2 ^ (e - k) : ℚ) = (m * 2 ^ k : Nat)
  rw [zpow_sub₀ (by norm_num),zpow_natCast]
  push_cast
  field_simp

theorem roundExact (held : Held m e) (pos) (k : Nat) :
    roundWithAccuracy .binary64 s (m * 2 ^ k) (e - k) .exact = .finite s m e pos := by
  have room : 52 ≤ (m * 2 ^ k).log2 ∨ e - k ≤ -1074 := by
    have long : m ≤ m * 2 ^ k := Nat.le_mul_of_pos_right m (Nat.two_pow_pos k)
    rw [Nat.le_log2 (by omega)]
    have := held.full
    omega
  obtain ⟨n,q,rounded,result⟩ := roundCarried s (standsExact m e k) room
  obtain ⟨rfl,rfl⟩ := roundedSame rounded (heldRounded held)
  rw [result,carried,dif_pos pos,if_pos held.most]

end

def clamped (x : ℚ) : WithTop ℚ := if x < 2 ^ (1024 : Int) then x else ⊤

theorem clampedOrder {y} (order : x ≤ y) : clamped x ≤ clamped y := by
  rw [clamped,clamped]
  split
  · split
    · exact WithTop.coe_le_coe.mpr order
    · exact le_top
  · rw [if_neg fun small => ‹¬_› (order.trans_lt small)]

theorem zeroSize (s) : (parts ⟨Float.Model.pack (.zero s)⟩).size = (0 : ℚ) := by
  have zero : parts ⟨Float.Model.pack (.zero s)⟩ = .finite (s == .negative) 0 (-1074) := by cases s <;> rfl
  rw [zero,size,Nat.cast_zero,zero_mul]

theorem topParted : (2 ^ (1024 : Int) : ℚ) = 2 ^ 52 * 2 ^ (972 : Int) := zpow_add₀ (by norm_num) 52 972

theorem belowTop (most : n < 2 ^ 53) (high : q ≤ 971) : (n * 2 ^ q : ℚ) < 2 ^ (1024 : Int) := by
  calc (n * 2 ^ q : ℚ) < 2 ^ 53 * 2 ^ q := by gcongr; exact_mod_cast most
    _ ≤ 2 ^ 52 * 2 ^ (972 : Int) := powersApart (by omega)
    _ = _ := topParted.symm

theorem packedSize (s pos) (most : n < 2 ^ 53) (low : -1074 ≤ q) (full : 2 ^ 52 ≤ n ∨ q = -1074) :
    (parts ⟨Float.Model.pack (.finite s n q pos)⟩).size = clamped (n * 2 ^ q) := by
  rw [clamped]
  by_cases high : q ≤ 971
  · rw [partsFinite s pos ⟨most,low,high,full⟩,if_pos (belowTop most high)]
    rfl
  have above : (2 ^ (1024 : Int) : ℚ) ≤ n * 2 ^ q := by
    have filled : (2 ^ 52 : ℚ) ≤ n := by exact_mod_cast full.resolve_right (by omega)
    rw [topParted]
    gcongr <;> [norm_num; omega]
  rw [partsAbove s pos (by omega),if_neg above.not_gt]
  rfl

theorem carriedSize (s) (rounded : RoundedTo x n q) :
    (parts ⟨Float.Model.pack (carried s n q)⟩).size = clamped (n * 2 ^ q) := by
  have most := roundedMost rounded
  rw [carried]
  split
  · split
    · exact packedSize s _ ‹_› rounded.low (roundedFull rounded)
    have full : n = 2 ^ 53 := by omega
    have half : (n * 2 ^ q : ℚ) = (2 ^ 52 : Nat) * 2 ^ (q + 1) := by
      rw [full,zpow_add₀ (by norm_num)]
      push_cast
      ring
    rw [half]
    exact packedSize s _ (by decide) (by have := rounded.low; omega) (.inl le_rfl)
  · have zero : n = 0 := by omega
    rw [zero,Nat.cast_zero,zero_mul,clamped,if_pos (by positivity),zeroSize]

def Approximates (f : Float) (x : ℚ) : Prop := ∃ n q, RoundedTo x n q ∧ (parts f).size = clamped (n * 2 ^ q)

section
variable {f g : Float} {x y : ℚ}

theorem approximatesOrder (left : Approximates f x) (right : Approximates g y) (order : x ≤ y) :
    (parts f).size ≤ (parts g).size := by
  obtain ⟨n,q,first,size⟩ := left
  obtain ⟨k,r,second,other⟩ := right
  rw [size,other]
  exact clampedOrder (roundedKeepsOrder first second order)

theorem approximatesExact {k : Nat} {j : Int} (near : Approximates f (k * 2 ^ j)) (small : k < 2 ^ 53) (low : -1074 ≤ j)
    (high : j ≤ 971) : (parts f).size = (k * 2 ^ j : ℚ) := by
  obtain ⟨n,q,rounded,size⟩ := near
  rw [size,roundedKeeps small low rounded,clamped,if_pos (belowTop small high)]

theorem zeroRounded : RoundedTo 0 0 (-1074) := by
  have zero := heldRounded (m := 0) (e := -1074) ⟨by decide,by decide,by decide,.inr rfl⟩
  rwa [Nat.cast_zero,zero_mul] at zero

theorem roundApproximates (s) {e a}
    (stands : Stands (.ofMantissaAndAccuracy m a) (x / 2 ^ e)) (room : 52 ≤ m.log2 ∨ e ≤ -1074) :
    Approximates ⟨Float.Model.pack (roundWithAccuracy .binary64 s m e a)⟩ x := by
  obtain ⟨n,q,rounded,result⟩ := roundCarried s stands room
  rw [result]
  exact ⟨n,q,rounded,carriedSize s rounded⟩

theorem zeroApproximates (s) : Approximates ⟨Float.Model.pack (.zero s)⟩ 0 := by
  have carried : carried s 0 (-1074) = .zero s := rfl
  have size := carriedSize s zeroRounded
  rw [carried] at size
  exact ⟨0,-1074,zeroRounded,size⟩

theorem heldApproximates (s) {e} (pos) (held : Held m e) :
    Approximates ⟨Float.Model.pack (.finite s m e pos)⟩ (m * 2 ^ e) :=
  ⟨m,e,heldRounded held,packedSize s pos held.most held.low held.full⟩

end

theorem quotientStands (k) (pos : 0 < n) :
    Stands (.ofMantissaAndAccuracy (k / n) (accuracyOfFraction (k % n) n)) (k / n) := by
  have small : ((k % n : Nat) : ℚ) < n := by exact_mod_cast Nat.mod_lt k pos
  have filled : (0 : ℚ) < n := by exact_mod_cast pos
  have parted : (k : ℚ) = (k / n : Nat) * n + (k % n : Nat) := by exact_mod_cast (Nat.div_add_mod' k n).symm
  generalize k / n = a at *
  generalize k % n = r at *
  rw [parted,add_div,mul_div_cancel_right₀ _ filled.ne',accuracyOfFraction]
  by_cases bare : r = 0
  · simp [bare,Stands,ofMantissaAndAccuracy]
  have full : (0 : ℚ) < r := by exact_mod_cast Nat.pos_of_ne_zero bare
  rw [if_neg bare]
  rcases order : compare (2 * r) n with _ | _ | _
  · have half : (2 * r : ℚ) < n := by exact_mod_cast Nat.compare_eq_lt.mp order
    constructor
    · linarith [div_pos full filled]
    · have : (r / n : ℚ) < 1 / 2 := by rw [div_lt_div_iff₀ filled (by norm_num)]; linarith
      linarith
  · have half : (2 * r : ℚ) = n := by exact_mod_cast Nat.compare_eq_eq.mp order
    have : (r / n : ℚ) = 1 / 2 := by rw [div_eq_div_iff filled.ne' (by norm_num)]; linarith
    show _ = _
    rw [this]
  · have half : (n : ℚ) < 2 * r := by exact_mod_cast Nat.compare_eq_gt.mp order
    constructor
    · have : (1 / 2 : ℚ) < r / n := by rw [div_lt_div_iff₀ (by norm_num) filled]; linarith
      linarith
    · have : (r / n : ℚ) < 1 := (div_lt_iff₀ filled).mpr (by rwa [one_mul])
      linarith

theorem quotientCore (full : 0 < m) (pos : 0 < n) (e d) : ∃ (k : Nat) (t : Int),
    UnpackedFloat.divCore .binary64 m e n d =
      (m * 2 ^ k / n,t,accuracyOfFraction (m * 2 ^ k % n) n) ∧ e - d = k + t ∧
    (52 ≤ (m * 2 ^ k / n).log2 ∨ t ≤ -1074) := by
  obtain ⟨t,target⟩ : ∃ t : Int, t = min (e - d) (max ((m.log2 : Int) + 1 + e - (n.log2 + 1 + d) - 53) (-1074)) := ⟨_,rfl⟩
  refine ⟨(e - d - t).toNat,t,?_,by omega,or_iff_not_imp_right.mpr fun above => ?_⟩
  · rw [← Nat.shiftLeft_eq,target]
    rfl
  · have enough : 2 ^ 52 * n ≤ m * 2 ^ (e - d - t).toNat := by
      calc 2 ^ 52 * n ≤ 2 ^ 52 * 2 ^ (n.log2 + 1) := Nat.mul_le_mul_left _ (Nat.lt_log2_self).le
        _ ≤ 2 ^ m.log2 * 2 ^ (e - d - t).toNat := by
          rw [← Nat.pow_add,← Nat.pow_add]
          exact Nat.pow_le_pow_right (by decide) (by omega)
        _ ≤ m * 2 ^ (e - d - t).toNat := Nat.mul_le_mul_right _ (Nat.log2_self_le full.ne')
    have filled : 2 ^ 52 ≤ m * 2 ^ (e - d - t).toNat / n := (Nat.le_div_iff_mul_le pos).mpr enough
    exact (Nat.le_log2 (by omega)).mpr filled

theorem dyadicApproximates (s) {k} (full : 0 < k) (j) :
    Approximates ⟨Float.Model.pack (UnpackedFloat.round .binary64 s k j)⟩ (k * 2 ^ j) := by
  obtain ⟨i,more⟩ : ∃ i, i = (j - max ((k.log2 : Int) + 1 + j - 53) (-1074)).toNat := ⟨_,rfl⟩
  have lowered : UnpackedFloat.round .binary64 s k j =
      roundWithAccuracy .binary64 s (k * 2 ^ i) (j - i) .exact := by
    rw [← Nat.shiftLeft_eq,more]
    rfl
  rw [lowered]
  refine roundApproximates s (standsExact k j i) (or_iff_not_imp_right.mpr fun above => ?_)
  have filled : 2 ^ 52 ≤ k * 2 ^ i := by
    calc 2 ^ 52 ≤ 2 ^ (k.log2 + i) := Nat.pow_le_pow_right (by decide) (by omega)
      _ = 2 ^ k.log2 * 2 ^ i := Nat.pow_add ..
      _ ≤ k * 2 ^ i := Nat.mul_le_mul_right _ (Nat.log2_self_le full.ne')
  exact (Nat.le_log2 (by omega)).mpr filled

theorem integerApproximates (k j zero) :
    Approximates ⟨Float.Model.pack (UnpackedFloat.normalize .binary64 k j zero)⟩ (|(k : ℚ)| * 2 ^ j) := by
  rw [UnpackedFloat.normalize]
  rcases lt_trichotomy k 0 with less | rfl | more
  · have size : |(k : ℚ)| = (-k).toNat := by
      rw [abs_of_neg (by exact_mod_cast less)]
      exact_mod_cast (Int.toNat_of_nonneg (show 0 ≤ -k by omega)).symm
    rw [Int.compare_eq_lt.mpr less,size]
    exact dyadicApproximates _ (by omega) j
  · rw [Int.compare_eq_eq.mpr rfl,Int.cast_zero,abs_zero,zero_mul]
    exact zeroApproximates zero
  · have size : |(k : ℚ)| = k.toNat := by
      rw [abs_of_pos (by exact_mod_cast more)]
      exact_mod_cast (Int.toNat_of_nonneg more.le).symm
    rw [Int.compare_eq_gt.mpr more,size]
    exact dyadicApproximates _ (by omega) j

def signed (negative : Bool) (x : ℚ) : ℚ := if negative then -x else x

def Parts.value : Parts → ℚ
  | .finite negative m e => signed negative (m * 2 ^ e)
  | _ => 0

theorem zeroSigned (negative) : signed negative 0 = 0 := by cases negative <;> simp [signed]

theorem signedSize (negative) (least : 0 ≤ x) : |signed negative x| = x := by
  cases negative <;> simp [signed,least]

section
variable {f g : Float} {negative minus : Bool} {m n : Nat} {e d : Int}
  (left : parts f = .finite negative m e) (right : parts g = .finite minus n d)
include left right

theorem productApproximates : Approximates (f * g) (m * 2 ^ e * (n * 2 ^ d)) := by
  have first := finiteHeld left
  have second := finiteHeld right
  show Approximates ⟨Float.Model.pack (UnpackedFloat.mul .binary64 f.toModel.unpack g.toModel.unpack)⟩ _
  rw [unpackParts,unpackParts,left,right,unpacked,unpacked]
  by_cases full : 0 < m
  · by_cases more : 0 < n
    · rw [dif_pos full,dif_pos more]
      refine roundApproximates _ ?_ ?_
      · show (m * 2 ^ e * (n * 2 ^ d) : ℚ) / 2 ^ (e + d) = (m * n : Nat)
        rw [zpow_add₀ (by norm_num)]
        push_cast
        field_simp
      · rw [Nat.le_log2 (Nat.mul_ne_zero full.ne' more.ne')]
        by_cases short : m < 2 ^ 52 ∧ n < 2 ^ 52
        · have := first.full
          have := second.full
          omega
        · have : m ≤ m * n := Nat.le_mul_of_pos_right m more
          have : n ≤ m * n := Nat.le_mul_of_pos_left n full
          omega
    · have zero : n = 0 := by omega
      rw [dif_pos full,dif_neg more,zero,Nat.cast_zero,zero_mul,mul_zero]
      exact zeroApproximates _
  · have zero : m = 0 := by omega
    rw [dif_neg full,zero,Nat.cast_zero,zero_mul,zero_mul]
    split <;> exact zeroApproximates _

theorem quotientApproximates (full : n ≠ 0) : Approximates (f / g) (m * 2 ^ e / (n * 2 ^ d)) := by
  have more : 0 < n := Nat.pos_of_ne_zero full
  show Approximates ⟨Float.Model.pack (UnpackedFloat.div .binary64 f.toModel.unpack g.toModel.unpack)⟩ _
  rw [unpackParts,unpackParts,left,right,unpacked,unpacked,dif_pos more]
  by_cases filled : 0 < m
  · obtain ⟨k,t,core,places,room⟩ := quotientCore filled more e d
    rw [dif_pos filled,UnpackedFloat.div,core]
    refine roundApproximates _ ?_ room
    have scaled : (m * 2 ^ e / (n * 2 ^ d) / 2 ^ t : ℚ) = (m * 2 ^ k : Nat) / n := by
      have powers : (2 ^ e : ℚ) = 2 ^ k * 2 ^ t * 2 ^ d := by
        rw [← zpow_natCast,← zpow_add₀ (by norm_num),← zpow_add₀ (by norm_num),← places,sub_add_cancel]
      rw [powers]
      push_cast
      field_simp
    rw [scaled]
    exact quotientStands _ more
  · have zero : m = 0 := by omega
    rw [dif_neg filled,zero,Nat.cast_zero,zero_mul,zero_div]
    exact zeroApproximates _

theorem differenceApproximates : Approximates (f - g) |signed negative (m * 2 ^ e) - signed minus (n * 2 ^ d)| := by
  have first := finiteHeld left
  have second := finiteHeld right
  show Approximates ⟨Float.Model.pack (UnpackedFloat.sub .binary64 f.toModel.unpack g.toModel.unpack)⟩ _
  rw [unpackParts,unpackParts,left,right,unpacked,unpacked]
  by_cases full : 0 < m
  · by_cases more : 0 < n
    · rw [dif_pos full,dif_pos more]
      have aligned : signed negative (m * 2 ^ e) - signed minus (n * 2 ^ d) =
          (((signOf negative).apply (m * 2 ^ (e - min e d).toNat : Nat) -
            (signOf minus).apply (n * 2 ^ (d - min e d).toNat : Nat) : Int) : ℚ) * 2 ^ min e d := by
        rw [powerParted (min_le_left e d),powerParted (min_le_right e d)]
        cases negative <;> cases minus <;> simp only [signed,signOf,Sign.apply] <;> push_cast <;> ring
      have scale : (0 : ℚ) < 2 ^ min e d := by positivity
      rw [aligned,abs_mul,abs_of_pos scale,← Nat.shiftLeft_eq,← Nat.shiftLeft_eq]
      exact integerApproximates _ _ .positive
    · have zero : n = 0 := by omega
      have size := signedSize negative (show (0 : ℚ) ≤ m * 2 ^ e by positivity)
      rw [dif_pos full,dif_neg more,zero,Nat.cast_zero,zero_mul,zeroSigned,sub_zero,size]
      exact heldApproximates _ full first
  · have zero : m = 0 := by omega
    have size := signedSize minus (show (0 : ℚ) ≤ n * 2 ^ d by positivity)
    rw [dif_neg full,zero,Nat.cast_zero,zero_mul,zeroSigned,zero_sub,abs_neg,size]
    by_cases more : 0 < n
    · rw [dif_pos more]
      exact heldApproximates _ more second
    · rw [dif_neg more,show n = 0 by omega,Nat.cast_zero,zero_mul,UnpackedFloat.sub]
      split <;> exact zeroApproximates _

end

section
variable {f g h : Float} {minus : Bool} {n : Nat} {d : Int} (factor : parts h = .finite minus n d) (full : n ≠ 0)

theorem orderKept (op : Float → Float) (scale) (least : 0 ≤ scale)
    (near : ∀ {f negative m e}, parts f = .finite negative m e → Approximates (op f) (m * 2 ^ e * scale))
    (top : ∀ f, (parts f).size = ⊤ → (parts (op f)).size = ⊤) (order : (parts f).size ≤ (parts g).size) :
    (parts (op f)).size ≤ (parts (op g)).size := by
  cases second : parts g with
  | finite _ n d =>
    cases first : parts f with
    | finite _ m e =>
      rw [first,second,size,size,WithTop.coe_le_coe] at order
      exact approximatesOrder (near first) (near second) (by gcongr)
    | _ => rw [first,second] at order; exact absurd order (WithTop.not_top_le_coe _)
  | _ =>
    rw [top g (by rw [second]; rfl)]
    exact le_top

include factor full

theorem productOrder (order : (parts f).size ≤ (parts g).size) : (parts (f * h)).size ≤ (parts (g * h)).size := by
  refine orderKept (· * h) (n * 2 ^ d) (by positivity) (fun found => productApproximates found factor) (fun f top => ?_) order
  show (parts ⟨Float.Model.pack (.mul .binary64 f.toModel.unpack h.toModel.unpack)⟩).size = ⊤
  rw [unpackParts,unpackParts,factor,Parts.unpacked.eq_3,dif_pos (Nat.pos_of_ne_zero full)]
  cases found : parts f with
  | finite => rw [found] at top; cases top
  | nan => rw [unpacked,UnpackedFloat.mul]; rfl
  | infinite negative => rw [unpacked,UnpackedFloat.mul]; cases negative <;> cases minus <;> rfl

theorem quotientOrder (order : (parts f).size ≤ (parts g).size) : (parts (f / h)).size ≤ (parts (g / h)).size := by
  refine orderKept (· / h) (n * 2 ^ d)⁻¹ (inv_nonneg.mpr (by positivity)) (fun found => ?_) (fun f top => ?_) order
  · rw [← div_eq_mul_inv]
    exact quotientApproximates found factor full
  · show (parts ⟨Float.Model.pack (.div .binary64 f.toModel.unpack h.toModel.unpack)⟩).size = ⊤
    rw [unpackParts,unpackParts,factor,Parts.unpacked.eq_3,dif_pos (Nat.pos_of_ne_zero full)]
    cases found : parts f with
    | finite => rw [found] at top; cases top
    | nan => rw [unpacked,UnpackedFloat.div]; rfl
    | infinite negative => rw [unpacked,UnpackedFloat.div]; cases negative <;> cases minus <;> rfl

end

end Cascade
