import Mathlib
import Cascade.Decimal.Printed

/-! Doubles as rationals: what the bits of any double, with all of its bits or with fewer, say in arithmetic, what
packing one gives back, and how two compare. -/
namespace Cascade
open Parts
open Float.Model (UnpackedFloat Format)
open Float.Model.UnpackedFloat (Sign packComponents pack unpack)
open BitVec (toNat_ofNat toNat_inj toNat_cast toNat_append extractLsb_toNat)

structure Held (m : Nat) (e : Int) : Prop where
  most : m < 2 ^ 53
  low : -1074 ≤ e
  high : e ≤ 971
  full : 2 ^ 52 ≤ m ∨ e = -1074

theorem wholeLog {n} (small : n < 2 ^ 53) : n.log2 ≤ 52 := by
  by_cases bare : n = 0
  · rw [bare]
    decide
  · exact Nat.le_of_lt_succ ((Nat.log2_lt bare).mpr small)

def Parts.IsHeld : Parts → Prop
  | .finite _ m e => Held m e
  | _ => True

theorem partsHeld (bits) : (partsOfBits bits).IsHeld := by
  have limit : fractionLimit = 2 ^ 52 := rfl
  have field : bits / fractionLimit % 2048 < 2048 := Nat.mod_lt _ (by decide)
  have fraction : bits % fractionLimit < fractionLimit := Nat.mod_lt _ (by decide)
  unfold partsOfBits
  dsimp only
  split
  · split <;> trivial
  · split
    · constructor <;> omega
    · constructor <;> omega

def signOf : Bool → Sign
  | true => .negative
  | false => .positive

def Parts.unpacked : Parts → UnpackedFloat
  | .nan => .notANumber
  | .infinite negative => .infinity (signOf negative)
  | .finite negative m e => if pos : 0 < m then .finite (signOf negative) m e pos else .zero (signOf negative)

section
variable (b : BitVec 64)

theorem mantissaField : (@UnpackedFloat.unpackMantissa .binary64 b).toNat = b.toNat % 2 ^ 52 := by
  delta UnpackedFloat.unpackMantissa
  rw [toNat_cast,extractLsb_toNat]
  rfl

theorem exponentField : (@UnpackedFloat.unpackExponent .binary64 b).toNat = b.toNat / 2 ^ 52 % 2048 := by
  delta UnpackedFloat.unpackExponent
  rw [toNat_cast,extractLsb_toNat,Nat.shiftRight_eq_div_pow]
  rfl

theorem signField : Sign.ofBitVec (@UnpackedFloat.unpackSign .binary64 b) =
    signOf (b.toNat / 0x8000000000000000 % 2 == 1) := by
  have field : (@UnpackedFloat.unpackSign .binary64 b).toNat = b.toNat / 0x8000000000000000 % 2 := by
    delta UnpackedFloat.unpackSign
    rw [toNat_cast,extractLsb_toNat,Nat.shiftRight_eq_div_pow]
    rfl
  rw [← field]
  generalize @UnpackedFloat.unpackSign .binary64 b = s
  rcases BitVec.eq_zero_or_eq_one s with rfl | rfl <;> rfl

theorem unpackFields : unpack .binary64 b = (partsOfBits b.toNat).unpacked := by
  have mantissa := mantissaField b
  have exponent := exponentField b
  have limit : fractionLimit = 2 ^ 52 := rfl
  have one : (1#1).toNat = 1 := rfl
  have whole : (1#1 ++ @UnpackedFloat.unpackMantissa .binary64 b).toNat = b.toNat % 2 ^ 52 + 2 ^ 52 := by
    rw [toNat_append,← Nat.shiftLeft_add_eq_or_of_lt (BitVec.isLt _),Nat.shiftLeft_eq,one,mantissa]
    exact Nat.add_comm (1 * 2 ^ 52) _
  have top : (@UnpackedFloat.unpackExponent .binary64 b = -1#_) ↔ b.toNat / 2 ^ 52 % 2048 = 2047 := by
    rw [← toNat_inj,exponent]
    rfl
  have bottom : (@UnpackedFloat.unpackExponent .binary64 b = 0#_) ↔ b.toNat / 2 ^ 52 % 2048 = 0 := by
    rw [← toNat_inj,exponent]
    rfl
  have clear : (@UnpackedFloat.unpackMantissa .binary64 b = 0#_) ↔ b.toNat % 2 ^ 52 = 0 := by
    rw [← toNat_inj,mantissa]
    rfl
  delta unpack partsOfBits
  dsimp only
  rw [signField,limit]
  by_cases full : b.toNat / 2 ^ 52 % 2048 = 2047
  · rw [if_pos (top.mpr full),if_pos full]
    by_cases empty : b.toNat % 2 ^ 52 = 0
    · rw [if_pos (clear.mpr empty),if_pos empty]
      rfl
    · rw [if_neg (fun bare => empty (clear.mp bare)),if_neg empty]
      rfl
  · rw [if_neg (fun all => full (top.mp all)),if_neg full]
    by_cases least : b.toNat / 2 ^ 52 % 2048 = 0
    · rw [if_pos (bottom.mpr least),if_pos least,unpacked]
      by_cases empty : b.toNat % 2 ^ 52 = 0
      · rw [dif_pos (clear.mpr empty),dif_neg (by omega)]
      rw [dif_neg (fun bare => empty (clear.mp bare)),dif_pos (by omega),UnpackedFloat.finite.injEq]
      refine ⟨rfl,mantissa,?_⟩
      show ((@UnpackedFloat.unpackExponent .binary64 b).toNat : Int) - (1023 + 52) + 1 = -1074
      omega
    · rw [if_neg (fun zero => least (bottom.mp zero)),if_neg least,unpacked,dif_pos (by omega),
        UnpackedFloat.finite.injEq]
      refine ⟨rfl,whole,?_⟩
      show ((@UnpackedFloat.unpackExponent .binary64 b).toNat : Int) - (1023 + 52) = _
      rw [exponent]
      omega

end

theorem unpackParts (f) : f.toModel.unpack = (parts f).unpacked := unpackFields f.toModel.toBits.toBitVec

theorem partsOfFields (s : Sign) {x y} (field : x < 2047) (small : y < 2 ^ 52) :
    partsOfBits ((s.toBitVec.toNat * 2 ^ 11 + x) * 2 ^ 52 + y) =
      if x = 0 then .finite (s == .negative) y (-1074) else .finite (s == .negative) (y + 2 ^ 52) (x - 1075) := by
  have sign : (s.toBitVec.toNat == 1) = (s == .negative) := by cases s <;> rfl
  have single : s.toBitVec.toNat < 2 := s.toBitVec.isLt
  generalize s.toBitVec.toNat = b at *
  have limit : fractionLimit = 2 ^ 52 := rfl
  have top : ((b * 2 ^ 11 + x) * 2 ^ 52 + y) / 0x8000000000000000 % 2 = b := by omega
  have middle : ((b * 2 ^ 11 + x) * 2 ^ 52 + y) / 2 ^ 52 % 2048 = x := by omega
  have bottom : ((b * 2 ^ 11 + x) * 2 ^ 52 + y) % 2 ^ 52 = y := by omega
  rw [partsOfBits]
  simp only [limit,top,middle,bottom,sign]
  rw [if_neg (by omega)]

section
variable {m : Nat} {e : Int} (s : Sign) (pos : 0 < m)

theorem packedNat (e : BitVec 11) (m : BitVec 52) : (packComponents .binary64 s e m).toNat =
    (s.toBitVec.toNat * 2 ^ 11 + e.toNat) * 2 ^ 52 + m.toNat := by
  rw [packComponents,toNat_append,← Nat.shiftLeft_add_eq_or_of_lt m.isLt,toNat_append,
    ← Nat.shiftLeft_add_eq_or_of_lt e.isLt,Nat.shiftLeft_eq,Nat.shiftLeft_eq]

theorem packedExponent : (e + (Format.binary64.exponentBias : Nat) + (52 : Nat)).toNat = (e + 1075).toNat := by
  show (e + 1023 + 52).toNat = _
  omega

theorem partsFinite (held : Held m e) : parts ⟨Float.Model.pack (.finite s m e pos)⟩ = .finite (s == .negative) m e := by
  obtain ⟨most,low,high,full⟩ := held
  show partsOfBits (pack .binary64 (.finite s m e pos)).toNat = _
  by_cases normal : 2 ^ 52 ≤ m
  · have log : m.log2 = 52 := (Nat.log2_eq_iff pos.ne').mpr ⟨normal,most⟩
    have packed : pack .binary64 (.finite s m e pos) =
        packComponents .binary64 s (BitVec.ofNat 11 (e + 1075).toNat) (BitVec.ofNat 52 m) := by
      delta pack
      dsimp only
      simp only [packedExponent,log]
      rw [if_neg (by omega)]
      rfl
    rw [packed,packedNat,toNat_ofNat,toNat_ofNat,partsOfFields s (by omega) (by omega),if_neg (by omega),
      Parts.finite.injEq]
    exact ⟨rfl,by omega,by omega⟩
  · obtain rfl := full.resolve_left normal
    have log : ¬m.log2 + 1 = 53 := by
      have below := (Nat.log2_lt pos.ne').mpr (Nat.lt_of_not_le normal)
      omega
    have packed : pack .binary64 (.finite s m (-1074) pos) =
        packComponents .binary64 s 0#11 (BitVec.ofNat 52 m) := by
      delta pack
      dsimp only
      rw [if_neg (by decide)]
      exact if_neg log
    rw [packed,packedNat,toNat_ofNat,toNat_ofNat,partsOfFields s (by decide) (by omega),if_pos rfl,
      Nat.mod_eq_of_lt (by omega)]

theorem partsAbove (above : 971 < e) : parts ⟨Float.Model.pack (.finite s m e pos)⟩ = .infinite (s == .negative) := by
  have packed : pack .binary64 (.finite s m e pos) = UnpackedFloat.packedInfinity .binary64 s := by
    delta pack
    dsimp only
    simp only [packedExponent]
    exact if_pos (by omega)
  show partsOfBits (pack .binary64 (.finite s m e pos)).toNat = _
  rw [packed]
  cases s <;> rfl

end

theorem partsPacked {p} (held : p.IsHeld) : parts ⟨Float.Model.pack p.unpacked⟩ = p := by
  cases p with
  | nan => rfl
  | infinite negative => cases negative <;> rfl
  | finite negative m e =>
    rw [unpacked]
    split
    · rw [partsFinite _ _ held]
      cases negative <;> rfl
    have zero : m = 0 := by omega
    have least : e = -1074 := held.full.resolve_left (by omega)
    subst zero least
    cases negative <;> rfl

def Parts.size : Parts → WithTop ℚ
  | .finite _ m e => ((m * 2 ^ e : ℚ) : WithTop ℚ)
  | _ => ⊤

def Parts.plain : Parts → Parts
  | .nan => .nan
  | .infinite _ => .infinite false
  | .finite _ m e => .finite false m e

theorem magnitudePacked (f) : magnitude f = ⟨Float.Model.pack (parts f).plain.unpacked⟩ := by
  have masked : (f.toBits &&& 0x7FFFFFFFFFFFFFFF).toNat = f.toBits.toNat % 2 ^ 63 := by
    have mask : (0x7FFFFFFFFFFFFFFF : UInt64).toNat = 2 ^ 63 - 1 := rfl
    rw [UInt64.toNat_and,mask,Nat.and_two_pow_sub_one_eq_mod]
  have plain : partsOfBits (f.toBits.toNat % 2 ^ 63) = (parts f).plain := by
    have limit : fractionLimit = 2 ^ 52 := rfl
    generalize word : f.toBits.toNat = w
    have top : w % 2 ^ 63 / 0x8000000000000000 % 2 = 0 := by omega
    have middle : w % 2 ^ 63 / 2 ^ 52 % 2048 = w / 2 ^ 52 % 2048 := by omega
    have bottom : w % 2 ^ 63 % 2 ^ 52 = w % 2 ^ 52 := by omega
    rw [parts,word,partsOfBits,partsOfBits,limit,top,middle,bottom]
    split
    · split <;> rfl
    · split <;> rfl
  rw [← plain,← masked]
  exact congrArg (fun u => Float.ofModel (Float.Model.pack u)) (unpackFields (f.toBits &&& 0x7FFFFFFFFFFFFFFF).toBitVec)

theorem partsIsHeld (f) : (parts f).IsHeld := partsHeld _

theorem partsMagnitude (f) : parts (magnitude f) = (parts f).plain := by
  have held : (parts f).plain.IsHeld := by
    have held := partsIsHeld f
    cases found : parts f with
    | finite negative m e => rwa [found] at held
    | _ => trivial
  rw [magnitudePacked,partsPacked held]

theorem finiteHeld {f negative m e} (found : parts f = .finite negative m e) : Held m e := by
  have held := partsIsHeld f
  rwa [found] at held

section
variable {m n : Nat} {e d : Int}

theorem heldBelow (left : Held m e) (right : Held n d) (below : e < d) : (m * 2 ^ e : ℚ) < n * 2 ^ d := by
  have full : 2 ^ 52 ≤ n := right.full.resolve_right fun least => by have := left.low; omega
  have most : (m : ℚ) < 2 ^ 53 := by exact_mod_cast left.most
  calc (m * 2 ^ e : ℚ) < 2 ^ 53 * 2 ^ e := by gcongr
    _ = 2 ^ 52 * 2 ^ (e + 1) := by rw [zpow_add₀ (by norm_num)]; ring
    _ ≤ 2 ^ 52 * 2 ^ d := by gcongr <;> [norm_num; exact below]
    _ ≤ n * 2 ^ d := by gcongr; exact_mod_cast full

theorem heldLess (left : Held m e) (right : Held n d) : (m * 2 ^ e : ℚ) < n * 2 ^ d ↔ e < d ∨ e = d ∧ m < n := by
  rcases lt_trichotomy e d with below | rfl | above
  · exact iff_of_true (heldBelow left right below) (.inl below)
  · have pos : (0 : ℚ) < 2 ^ e := by positivity
    rw [mul_lt_mul_iff_left₀ pos,Nat.cast_lt]
    simp
  · exact iff_of_false (heldBelow right left above).not_gt (by omega)

theorem heldSame (left : Held m e) (right : Held n d) (same : (m * 2 ^ e : ℚ) = n * 2 ^ d) : m = n ∧ e = d := by
  have less := heldLess left right
  have more := heldLess right left
  rw [same] at less more
  simp only [lt_self_iff_false,false_iff] at less more
  omega

end

theorem magnitudeBelow (f) {g n d} (limit : parts g = .finite false n d) :
    magnitude f < g ↔ (parts f).size < ((n * 2 ^ d : ℚ) : WithTop ℚ) := by
  have right := finiteHeld limit
  have left := partsIsHeld f
  have compared : magnitude f < g ↔ (parts f).plain.unpacked.lt (finite false n d).unpacked := by
    rw [← limit,← partsMagnitude,← unpackParts,← unpackParts]
    show decide ((magnitude f).toModel < g.toModel) ↔ _
    rw [decide_eq_true_eq]
    rfl
  rw [compared]
  cases found : parts f with
  | nan => exact iff_of_false Bool.false_ne_true not_top_lt
  | infinite negative =>
    refine iff_of_false ?_ not_top_lt
    rw [plain,unpacked,unpacked]
    split <;> exact Bool.false_ne_true
  | finite negative m e =>
    rw [plain,size,WithTop.coe_lt_coe]
    have left := finiteHeld found
    by_cases filled : 0 < n
    · by_cases pos : 0 < m
      · rw [unpacked,unpacked,dif_pos pos,dif_pos filled,heldLess left right]
        show ((some ((compare e d).then (compare m n))) == some Ordering.lt) ↔ _
        rw [beq_iff_eq,Option.some.injEq,Ordering.then_eq_lt,Int.compare_eq_lt,Int.compare_eq_eq,Nat.compare_eq_lt]
      · have zero : m = 0 := by omega
        have above : (0 : ℚ) < n * 2 ^ d := by positivity
        rw [unpacked,unpacked,dif_neg pos,dif_pos filled,zero,Nat.cast_zero,zero_mul]
        exact iff_of_true rfl above
    · have bare : n = 0 := by omega
      have least : (0 : ℚ) ≤ m * 2 ^ e := by positivity
      subst bare
      rw [Nat.cast_zero,zero_mul]
      refine iff_of_false ?_ least.not_gt
      rw [unpacked,unpacked,dif_neg filled]
      split <;> exact Bool.false_ne_true

theorem isZeroParts (f) : (f == 0.0) ↔ (parts f).size = 0 := by
  show f.toModel.unpack.beq (.zero .positive) ↔ _
  rw [unpackParts]
  cases parts f with
  | nan => exact iff_of_false Bool.false_ne_true WithTop.top_ne_zero
  | infinite negative => cases negative <;> exact iff_of_false Bool.false_ne_true WithTop.top_ne_zero
  | finite negative m e =>
    rw [size,WithTop.coe_eq_zero,unpacked]
    by_cases pos : 0 < m
    · have filled : (0 : ℚ) < m * 2 ^ e := by positivity
      rw [dif_pos pos]
      cases negative <;> exact iff_of_false Bool.false_ne_true filled.ne'
    · have zero : m = 0 := by omega
      rw [dif_neg pos,zero,Nat.cast_zero,zero_mul]
      exact iff_of_true rfl rfl

end Cascade
