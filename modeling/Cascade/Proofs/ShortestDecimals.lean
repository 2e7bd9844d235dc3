import Cascade.Proofs.HeldDoubles

/-! The shortest decimals of doubles. One is always found, it lies in the interval of what rounds to the double, and
it is a whole number where the double is; the intervals of two doubles lie in the order of the doubles. -/
namespace Cascade
open Nat (pow toDigits)

/- The ends of the interval that rounds to a double; the lower one is nearer where the doubles below are closer. -/
def quartersBelow (m : Nat) (e : Int) : Nat := if m = fractionLimit ∧ e > -1074 then 1 else 2

def lowEnd (m : Nat) (e : Int) : ℚ := (4 * m - quartersBelow m e : Nat) * 2 ^ (e - 2)

def highEnd (m : Nat) (e : Int) : ℚ := (4 * m + 2 : Nat) * 2 ^ (e - 2)

theorem powerTerms (b : Nat) (p) : (b ^ p : ℚ) = (b ^ p.toNat : Nat) / (b ^ (-p).toNat : Nat) := by
  cases p with
  | ofNat k => simp
  | negSucc k => simp [zpow_negSucc]

section
variable {r : Reach}

theorem containsBounds {n} (inside : r.contains n) : r.low ≤ n ∧ n ≤ r.high := by
  rw [Reach.contains] at inside
  split at inside <;> simp only [Bool.and_eq_true,decide_eq_true_eq] at inside <;> omega

theorem containsInner {n} (low : r.low < n) (high : n < r.high) : r.contains n := by
  rw [Reach.contains]
  split <;> simp only [Bool.and_eq_true,decide_eq_true_eq] <;> omega

variable (power : Int) (pos : 0 < r.denominator)
include pos

theorem gridBelow (n k) :
    n * pow 10 (-power).toNat ≤ k * (r.denominator * pow 10 power.toNat) ↔
      (n / r.denominator : ℚ) ≤ k * 10 ^ power := by
  have scale := powerTerms 10 power
  have filled : (0 : ℚ) < r.denominator := by exact_mod_cast pos
  have up : (0 : ℚ) < (10 ^ (-power).toNat : Nat) := by positivity
  rw [Nat.cast_ofNat] at scale
  rw [scale,div_le_iff₀ filled,mul_div_assoc',div_mul_eq_mul_div,le_div_iff₀ up,mul_assoc,mul_comm _ (r.denominator : ℚ)]
  exact_mod_cast Iff.rfl

theorem gridAbove (n k) :
    k * (r.denominator * pow 10 power.toNat) ≤ n * pow 10 (-power).toNat ↔
      (k * 10 ^ power : ℚ) ≤ n / r.denominator := by
  have scale := powerTerms 10 power
  have filled : (0 : ℚ) < r.denominator := by exact_mod_cast pos
  have up : (0 : ℚ) < (10 ^ (-power).toNat : Nat) := by positivity
  rw [Nat.cast_ofNat] at scale
  rw [scale,le_div_iff₀ filled,mul_div_assoc',div_mul_eq_mul_div,div_le_iff₀ up,mul_assoc,mul_comm _ (r.denominator : ℚ)]
  exact_mod_cast Iff.rfl

theorem onGridInside {d} (hit : r.onGrid power = some d) :
    d ≠ 0 ∧ (r.low / r.denominator : ℚ) ≤ d * 10 ^ power ∧ (d * 10 ^ power : ℚ) ≤ r.high / r.denominator := by
  rw [← gridBelow power pos,← gridAbove power pos]
  rw [Reach.onGrid] at hit
  dsimp only at hit
  split at hit
  · rename_i low
    simp only [Bool.and_eq_true,decide_eq_true_eq] at low
    cases hit
    exact ⟨low.1.1,containsBounds low.1.2⟩
  · split at hit
    · rename_i high
      cases hit
      exact ⟨Nat.succ_ne_zero _,containsBounds high⟩
    · cases hit

theorem onGridSome {k} (full : k ≠ 0)
    (near : k = r.value * pow 10 (-power).toNat / (r.denominator * pow 10 power.toNat) ∨
      k = r.value * pow 10 (-power).toNat / (r.denominator * pow 10 power.toNat) + 1)
    (low : (r.low / r.denominator : ℚ) < k * 10 ^ power) (high : (k * 10 ^ power : ℚ) < r.high / r.denominator) :
    (r.onGrid power).isSome := by
  rw [← not_le,← gridAbove power pos,not_le] at low
  rw [← not_le,← gridBelow power pos,not_le] at high
  have inside : Reach.contains ⟨r.low * pow 10 (-power).toNat,r.value * pow 10 (-power).toNat,
      r.high * pow 10 (-power).toNat,1,r.closed⟩ (k * (r.denominator * pow 10 power.toNat)) :=
    containsInner low high
  rw [Reach.onGrid]
  dsimp only
  split
  · rfl
  rename_i missed
  split
  · rfl
  rename_i beyond
  rcases near with below | above
  · rw [← below] at missed beyond
    rw [inside,Bool.eq_false_iff.mpr beyond] at missed
    simp [full] at missed
  · rw [← above] at beyond
    exact absurd inside beyond

theorem onGridNext (low : r.low ≤ r.value)
    (room : (r.value / r.denominator + 10 ^ power : ℚ) < r.high / r.denominator) : (r.onGrid power).isSome := by
  have unit : 0 < r.denominator * pow 10 power.toNat := Nat.mul_pos pos (Nat.pow_pos (by decide))
  obtain ⟨v,floor⟩ : ∃ v, v = r.value * pow 10 (-power).toNat / (r.denominator * pow 10 power.toNat) := ⟨_,rfl⟩
  have below : (v * 10 ^ power : ℚ) ≤ r.value / r.denominator := by
    rw [← gridAbove power pos,floor]
    exact Nat.div_mul_le_self ..
  have above : (r.value / r.denominator : ℚ) < (v + 1 : Nat) * 10 ^ power := by
    rw [← not_le,← gridAbove power pos,not_le,floor]
    exact Nat.lt_mul_of_div_lt (Nat.lt_succ_self _) unit
  have filled : (0 : ℚ) < r.denominator := by exact_mod_cast pos
  refine onGridSome power pos (Nat.succ_ne_zero v) (.inr (by rw [floor])) (lt_of_le_of_lt ?_ above) ?_
  · gcongr
  · push_cast
    linarith

theorem onGridSelf {k} (full : k ≠ 0) (value : r.value = k * r.denominator)
    (low : r.low < r.value) (high : r.value < r.high) : (r.onGrid 0).isSome := by
  have filled : (0 : ℚ) < r.denominator := by exact_mod_cast pos
  have exact : (k * 10 ^ (0 : Int) : ℚ) = r.value / r.denominator := by
    rw [value,zpow_zero,mul_one,Nat.cast_mul,mul_div_cancel_right₀ _ filled.ne']
  refine onGridSome 0 pos full (.inl ?_) (by rw [exact]; gcongr) (by rw [exact]; gcongr)
  show k = r.value * 1 / (r.denominator * 1)
  rw [value,Nat.mul_one,Nat.mul_one,Nat.mul_div_cancel _ pos]

end

theorem firstHitFrom (r : Reach) {q} (hit : (r.onGrid q).isSome) {fuel : Nat} {p} (below : q ≤ p)
    (enough : p < q + fuel) : ∃ d k, q ≤ k ∧ r.firstHit fuel p = some (d,k) ∧ r.onGrid k = some d := by
  induction fuel generalizing p with
  | zero => omega
  | succ fuel ih =>
    rw [Reach.firstHit]
    cases found : r.onGrid p with
    | some d => exact ⟨d,p,below,rfl,found⟩
    | none =>
      have other : q ≠ p := by
        rintro rfl
        rw [found] at hit
        cases hit
      exact ih (by omega) (by omega)

theorem leadingEnough (d) {fuel n} (enough : d ≤ n * 10 ^ fuel) : d ≤ n * 10 ^ leadingPlaces d fuel n := by
  induction fuel generalizing n with
  | zero => exact enough
  | succ fuel ih =>
    rw [leadingPlaces]
    split
    · rwa [Nat.pow_zero,Nat.mul_one]
    · rw [Nat.pow_succ',← Nat.mul_assoc] at enough ⊢
      exact ih enough

theorem firstPowerBelow {n d fuel} (pos : 0 < d) (many : fuel = 400) (enough : d ≤ n * 10 ^ fuel) : (10 ^ firstPower n d : ℚ) ≤ n / d := by
  have filled : (0 : ℚ) < d := by exact_mod_cast pos
  rw [le_div_iff₀ filled,firstPower,← many]
  split
  · rename_i reached
    have full : 0 < n / d := Nat.div_pos reached pos
    have long : 0 < (toDigits 10 (n / d)).length := List.length_pos_iff.mpr Nat.toDigits_ne_nil
    have least : 10 ^ ((toDigits 10 (n / d)).length - 1) ≤ n / d := by
      rcases Nat.eq_zero_or_pos ((toDigits 10 (n / d)).length - 1) with one | more
      · rwa [one]
      · by_contra less
        have := (Nat.length_toDigits_le_iff (by decide) more).mpr (Nat.lt_of_not_le less)
        omega
    have power : ((toDigits 10 (n / d)).length : Int) - 1 = ((toDigits 10 (n / d)).length - 1 : Nat) := by omega
    rw [power,zpow_natCast]
    exact_mod_cast (Nat.mul_le_mul_right d least).trans (Nat.div_mul_le_self n d)
  · have least := leadingEnough d enough
    rw [zpow_neg,zpow_natCast,inv_mul_le_iff₀ (by positivity),mul_comm]
    exact_mod_cast least

section
variable {m : Nat} {e : Int} (held : Held m e)

theorem reachEnd (k) (e : Int) : ((k * pow 2 (e - 2).toNat : Nat) : ℚ) / (pow 2 (2 - e).toNat : Nat) =
    k * 2 ^ (e - 2) := by
  have power := powerTerms 2 (e - 2)
  rw [Nat.cast_ofNat,neg_sub] at power
  rw [power,Nat.cast_mul,mul_div_assoc]
  rfl

theorem highParted (m e) : highEnd m e = m * 2 ^ e + 2 ^ e / 2 := by
  rw [highEnd,zpow_sub₀ (by norm_num)]
  push_cast
  ring

theorem lowParted (m : Nat) (e) : (m * 2 ^ e - 2 ^ e / 2 : ℚ) ≤ lowEnd m e := by
  have most : 4 * m ≤ 4 * m - quartersBelow m e + 2 := by
    rw [quartersBelow]
    split <;> omega
  have cast : (4 * m : ℚ) ≤ (4 * m - quartersBelow m e : Nat) + 2 := by exact_mod_cast most
  have pos : (0 : ℚ) < 2 ^ e := by positivity
  rw [lowEnd,zpow_sub₀ (by norm_num)]
  nlinarith

include held

theorem shortestFound (nonzero : m ≠ 0) : ∃ d p, shortest m e = (d,p) ∧ d ≠ 0 ∧ lowEnd m e ≤ d * 10 ^ p ∧
    (d * 10 ^ p : ℚ) ≤ highEnd m e ∧ ((∃ k : Nat, (m * 2 ^ e : ℚ) = k) → 0 ≤ p) := by
  obtain ⟨r,interval⟩ : ∃ r, r = reach m e := ⟨_,rfl⟩
  have pos : 0 < r.denominator := by rw [interval]; exact Nat.two_pow_pos _
  have filled : (0 : ℚ) < r.denominator := by exact_mod_cast pos
  have order : 0 < r.value ∧ r.low < r.value ∧ r.value < r.high := by
    have scale : 0 < pow 2 (e - 2).toNat := Nat.two_pow_pos _
    have below : 0 < quartersBelow m e := by rw [quartersBelow]; split <;> decide
    rw [interval]
    exact ⟨Nat.mul_pos (by omega) scale,Nat.mul_lt_mul_of_pos_right (show 4 * m - quartersBelow m e < _ by omega) scale,
      Nat.mul_lt_mul_of_pos_right (by omega) scale⟩
  have low : (r.low / r.denominator : ℚ) = lowEnd m e := by rw [interval]; exact reachEnd _ e
  have high : (r.high / r.denominator : ℚ) = highEnd m e := by rw [interval]; exact reachEnd _ e
  have value : (r.value / r.denominator : ℚ) = m * 2 ^ e := by
    rw [interval]
    refine (reachEnd (4 * m) e).trans ?_
    rw [zpow_sub₀ (by norm_num)]
    push_cast
    ring
  obtain ⟨fuel,decimals⟩ : ∃ fuel, fuel = 10 * 40 := ⟨_,rfl⟩
  have enough : r.denominator ≤ r.value * 10 ^ fuel := by
    have low := held.low
    obtain ⟨bits,many⟩ : ∃ bits, bits = 27 * 40 := ⟨_,rfl⟩
    calc r.denominator ≤ 2 ^ bits := by
          rw [interval]
          exact Nat.pow_le_pow_right (by decide) (by omega)
      _ = (2 ^ 27) ^ 40 := by rw [many,Nat.pow_mul]
      _ ≤ (10 ^ 10) ^ 40 := Nat.pow_le_pow_left (by decide) 40
      _ = 10 ^ fuel := by rw [decimals,Nat.pow_mul]
      _ ≤ r.value * 10 ^ fuel := Nat.le_mul_of_pos_left _ order.1
  have first := firstPowerBelow pos decimals enough
  obtain ⟨p,start⟩ : ∃ p, p = firstPower r.value r.denominator := ⟨_,rfl⟩
  rw [← start,value] at first
  have hit : (r.onGrid (p - 17)).isSome := by
    refine onGridNext _ pos order.2.1.le ?_
    have most : (m : ℚ) < 2 ^ 53 := by exact_mod_cast held.most
    have unit : (0 : ℚ) < 2 ^ e := by positivity
    have ten : (10 ^ (p - 17) : ℚ) * 10 ^ 17 = 10 ^ p := by
      rw [zpow_sub₀ (by norm_num)]
      exact div_mul_cancel₀ _ (by norm_num)
    rw [value,high,highParted]
    nlinarith
  have shown {d k} (found : r.firstHit 18 p = some (d,k)) : shortest m e = (d,k) := by
    rw [shortest,← interval,← start,found]
    rfl
  obtain ⟨d,k,least,found,grid⟩ := firstHitFrom r hit (by omega) (show p < p - 17 + (18 : Nat) by omega)
  have inside := onGridInside k pos grid
  rw [low,high] at inside
  refine ⟨d,k,shown found,inside.1,inside.2.1,inside.2.2,?_⟩
  rintro ⟨n,whole⟩
  by_cases large : 17 ≤ p
  · omega
  have self : r.value = n * r.denominator := by
    rw [whole,div_eq_iff filled.ne'] at value
    exact_mod_cast value
  have full : n ≠ 0 := by
    rintro rfl
    omega
  have reached : 0 ≤ p := by
    rw [start,firstPower,if_pos (by rw [self]; exact Nat.le_mul_of_pos_left _ (Nat.pos_of_ne_zero full))]
    have := List.length_pos_iff.mpr (@Nat.toDigits_ne_nil (r.value / r.denominator) 10)
    omega
  obtain ⟨c,j,grid,again,_⟩ := firstHitFrom r (onGridSelf pos full self order.2.1 order.2.2) reached
    (show p < 0 + (18 : Nat) by omega)
  rw [found] at again
  cases again
  exact grid

end

theorem intervalsApart {m n e d} (left : Held m e) (right : Held n d)
    (less : (m * 2 ^ e : ℚ) < n * 2 ^ d) : highEnd m e ≤ lowEnd n d := by
  rw [heldLess left right] at less
  rw [highEnd,lowEnd]
  rcases less with below | ⟨rfl,below⟩
  · have low := left.low
    have full := right.full.resolve_right (by omega)
    have least : 2 ^ 54 - 1 ≤ 4 * n - quartersBelow n d := by
      rw [quartersBelow,show fractionLimit = 2 ^ 52 from rfl]
      split <;> omega
    calc ((4 * m + 2 : Nat) * 2 ^ (e - 2) : ℚ) ≤ (2 * (2 ^ 54 - 1) : Nat) * 2 ^ (e - 2) := by
          gcongr
          have := left.most
          omega
      _ = (2 ^ 54 - 1 : Nat) * 2 ^ (e - 2 + 1) := by
          rw [zpow_add₀ (by norm_num)]
          push_cast
          ring
      _ ≤ (4 * n - quartersBelow n d : Nat) * 2 ^ (d - 2) := by
          gcongr
          · norm_num
          · omega
  · gcongr
    rw [quartersBelow]
    split <;> omega

end Cascade
