import Cascade.Text.LetterCase

/-! Lower case is final: a text in lower case stays as it is. The table of capitals is
checked row against row, and characters survive being written and read again. -/
namespace Cascade
open List

variable {lead high low b : UInt8} {s : Bytes} {n : Nat}

def IsScalar (c : Nat) : Prop := c < 0xD800 ∨ (0xE000 ≤ c ∧ c < 0x110000)

def landing (row : Nat × Nat × Nat × Int) : Nat := (row.1 + row.2.2.2).toNat

def landsWell (row : Nat × Nat × Nat × Int) : Bool :=
  decide (0 ≤ row.1 + row.2.2.2) &&
    (Nat.blt (landing row + (row.2.1 - row.1)) 0xD800 ||
      (Nat.ble 0xE000 (landing row) && Nat.blt (landing row + (row.2.1 - row.1)) 0x110000))

/- Whether no small letter of one row is a capital of another: the rows lie apart, or
interleave. -/
def landsApart (row other : Nat × Nat × Nat × Int) : Bool :=
  Nat.blt (landing row + (row.2.1 - row.1)) other.1 || Nat.blt other.2.1 (landing row) ||
    (Nat.beq other.2.2.1 2 && (Nat.beq row.2.2.1 2 || Nat.beq row.1 row.2.1) &&
      Nat.beq ((landing row + other.1) % 2) 1)

theorem capitalsLandWell : capitals.all landsWell := by decide +kernel

theorem capitalsLandApart : (capitals.all fun row => capitals.all (landsApart row)) := by
  decide +kernel

section
variable {row : Nat × Nat × Nat × Int} {c : Nat}

theorem lowerScalarCases (c) : lowerScalar c = c ∨ ∃ row ∈ capitals, row.1 ≤ c ∧ c ≤ row.2.1 ∧
    (c - row.1) % row.2.2.1 = 0 ∧ lowerScalar c = landing row + (c - row.1) := by
  cases found : capitals.find? (fun r => r.1 ≤ c && c ≤ r.2.1 && (c - r.1) % r.2.2.1 == 0) with
  | none => exact .inl (by rw [lowerScalar,found])
  | some row =>
    have mem := mem_of_find?_eq_some found
    have fits := find?_some found
    simp only [Bool.and_eq_true,decide_eq_true_eq,beq_iff_eq] at fits
    have well := all_eq_true.mp capitalsLandWell row mem
    rw [landsWell,Bool.and_eq_true,decide_eq_true_eq] at well
    refine .inr ⟨row,mem,fits.1.1,fits.1.2,fits.2,?_⟩
    rw [lowerScalar,found,landing]
    dsimp only
    omega

theorem lowerScalarIsScalar (h : IsScalar c) : IsScalar (lowerScalar c) := by
  rcases lowerScalarCases c with same | ⟨row,mem,first,last,_,lands⟩
  · rw [same]
    exact h
  have well := all_eq_true.mp capitalsLandWell row mem
  simp only [landsWell,Bool.and_eq_true,Bool.or_eq_true,Nat.blt_eq,Nat.ble_eq] at well
  rw [lands]
  unfold IsScalar
  omega

theorem lowerScalarTwice (c) : lowerScalar (lowerScalar c) = lowerScalar c := by
  rcases lowerScalarCases c with same | ⟨row,mem,first,last,step,lands⟩
  · rw [same,same]
  rcases lowerScalarCases (lowerScalar c) with same | ⟨other,mem',first',last',step',_⟩
  · exact same
  -- The small letter would be a capital of another row.
  have apart := all_eq_true.mp (all_eq_true.mp capitalsLandApart row mem) other mem'
  simp only [landsApart,Bool.or_eq_true,Bool.and_eq_true,Nat.blt_eq,Nat.beq_eq] at apart
  rw [lands] at first' last' step'
  rcases apart with (before | behind) | ⟨⟨two,even⟩,odd⟩
  · omega
  · omega
  · rw [two] at step'
    rcases even with even | alone
    · rw [even] at step
      omega
    · omega

end

section

theorem toUInt8Nat (h : n < 256) : n.toUInt8.toNat = n := by
  simp [Nat.toUInt8,Nat.mod_eq_of_lt h]

theorem continuedAll {tail} (first : ∀ b ∈ tail.head?, low ≤ b ∧ b ≤ high)
    (rest : ∀ b ∈ tail.tail, 0x80 ≤ b ∧ b ≤ 0xBF) : continued tail.length low high (tail ++ s) = tail.length := by
  induction tail generalizing low high with
  | nil => rfl
  | cons b tail ih =>
    have here := first b rfl
    have later : ∀ b ∈ tail.head?, (0x80 : UInt8) ≤ b ∧ b ≤ 0xBF := fun b mem =>
      rest b (mem_of_mem_head? mem)
    rw [length_cons,cons_append,continued,
      ih later fun b mem => rest b (mem_of_mem_tail mem)]
    simp [here]

theorem charactersSkip (tail s) : charactersFrom tail.length (tail ++ s) = charactersFrom 0 s := by
  induction tail with
  | nil => rfl
  | cons b tail ih => exact ih

theorem charactersSequence (tail s : Bytes) (calls : continuation lead = some (tail.length,low,high))
    (value : scalarOf lead tail = n) (first : ∀ b ∈ tail.head?, low ≤ b ∧ b ≤ high)
    (rest : ∀ b ∈ tail.tail, 0x80 ≤ b ∧ b ≤ 0xBF) :
    charactersFrom 0 (lead :: (tail ++ s)) = (n,lead :: tail) :: charactersFrom 0 s := by
  have complete : sequence lead (tail ++ s) = (tail.length,true) := by
    rw [sequence,calls]
    dsimp only
    rw [continuedAll first rest]
    simp
  rw [charactersFrom,complete]
  simp [charactersSkip,value]

theorem continuationNat (lead) : continuation lead =
    if lead.toNat < 0x80 then some (0,0,0) else if lead.toNat < 0xC2 then none
    else if lead.toNat < 0xE0 then some (1,0x80,0xBF)
    else if lead.toNat < 0xF0 then
      some (2,if lead.toNat = 0xE0 then 0xA0 else 0x80,if lead.toNat = 0xED then 0x9F else 0xBF)
    else if lead.toNat ≤ 0xF4 then
      some (3,if lead.toNat = 0xF0 then 0x90 else 0x80,if lead.toNat = 0xF4 then 0x8F else 0xBF)
    else none := by
  simp only [continuation,UInt8.lt_iff_toNat_lt,beq_iff_eq,← UInt8.toNat_inj]
  grind

theorem scalarTwo (lead b) : scalarOf lead [b] = lead.toNat % 32 * 64 + b.toNat % 64 := rfl

theorem scalarThree (lead b c) : scalarOf lead [b,c] = (lead.toNat % 16 * 64 + b.toNat % 64) * 64 + c.toNat % 64 := rfl

theorem scalarFour (lead b c d) : scalarOf lead [b,c,d] =
    ((lead.toNat % 8 * 64 + b.toNat % 64) * 64 + c.toNat % 64) * 64 + d.toNat % 64 := rfl

theorem inByteRange (least : low.toNat ≤ b.toNat) (most : b.toNat ≤ high.toNat) :
    low ≤ b ∧ b ≤ high := ⟨UInt8.le_iff_toNat_le.mpr least,UInt8.le_iff_toNat_le.mpr most⟩

section
variable {n : Nat} {lead a b c : UInt8} (s : Bytes)

theorem continuationByte {m} (digit : b.toNat = 0x80 + m % 64) : 0x80 ≤ b ∧ b ≤ 0xBF :=
  inByteRange (by rw [digit]; exact Nat.le_add_right _ _) (by rw [digit]; show _ ≤ 191; omega)

theorem charactersOne (first : lead.toNat = n) (high : n < 0x80) :
    charactersFrom 0 (lead :: s) = (n,[lead]) :: charactersFrom 0 s := by
  have calls : continuation lead = some (0,0,0) := by rw [continuationNat,if_pos (by omega)]
  exact charactersSequence [] s calls first (by simp) (by simp)

theorem charactersTwo (first : lead.toNat = 0xC0 + n / 64) (second : a.toNat = 0x80 + n % 64) (low : 0x80 ≤ n) (high : n < 0x800) :
    charactersFrom 0 (lead :: a :: s) = (n,[lead,a]) :: charactersFrom 0 s := by
  have calls : continuation lead = some (1,0x80,0xBF) := by
    rw [continuationNat,if_neg (by omega),if_neg (by omega),if_pos (by omega)]
  refine charactersSequence [a] s calls ?_ (by rintro _ ⟨⟩; exact continuationByte second) (by simp)
  rw [scalarTwo,first,second]
  omega

theorem charactersThree (first : lead.toNat = 0xE0 + n / 4096) (second : a.toNat = 0x80 + n / 64 % 64)
    (third : b.toNat = 0x80 + n % 64) (low : 0x800 ≤ n) (high : n < 0x10000) (is : IsScalar n) :
    charactersFrom 0 (lead :: a :: b :: s) = (n,[lead,a,b]) :: charactersFrom 0 s := by
  unfold IsScalar at is
  have calls := continuationNat lead
  rw [if_neg (by omega),if_neg (by omega),if_neg (by omega),if_pos (by omega)] at calls
  refine charactersSequence [a,b] s calls ?_ ?_ (forall_mem_singleton.mpr (continuationByte third))
  · rw [scalarThree,first,second,third]
    omega
  · rintro _ ⟨⟩
    refine inByteRange ?_ ?_ <;> rw [apply_ite UInt8.toNat,second] <;> split <;> (simp only [UInt8.reduceToNat]; omega)

theorem charactersFour (first : lead.toNat = 0xF0 + n / 262144) (second : a.toNat = 0x80 + n / 4096 % 64)
    (third : b.toNat = 0x80 + n / 64 % 64) (fourth : c.toNat = 0x80 + n % 64) (low : 0x10000 ≤ n) (high : n < 0x110000) :
    charactersFrom 0 (lead :: a :: b :: c :: s) = (n,[lead,a,b,c]) :: charactersFrom 0 s := by
  have calls := continuationNat lead
  rw [if_neg (by omega),if_neg (by omega),if_neg (by omega),if_neg (by omega),if_pos (by omega)] at calls
  refine charactersSequence [a,b,c] s calls ?_ ?_
    (forall_mem_cons.mpr ⟨continuationByte third,forall_mem_singleton.mpr (continuationByte fourth)⟩)
  · rw [scalarFour,first,second,third,fourth]
    omega
  · rintro _ ⟨⟩
    refine inByteRange ?_ ?_ <;> rw [apply_ite UInt8.toNat,second] <;> split <;> (simp only [UInt8.reduceToNat]; omega)

end

theorem charactersEncode {c} (h : IsScalar c) (s) :
    charactersFrom 0 (encode c ++ s) = (c,encode c) :: charactersFrom 0 s := by
  have range := h
  unfold IsScalar at range
  rw [encode]
  split
  · rename_i one
    exact charactersOne s (toUInt8Nat (by omega)) one
  split
  · rename_i two
    exact charactersTwo s (toUInt8Nat (by omega)) (toUInt8Nat (by omega)) (by omega) two
  split
  · rename_i three
    exact charactersThree s (toUInt8Nat (by omega)) (toUInt8Nat (by omega)) (toUInt8Nat (by omega)) (by omega) three h
  · exact charactersFour s (toUInt8Nat (by omega)) (toUInt8Nat (by omega)) (toUInt8Nat (by omega))
      (toUInt8Nat (by omega)) (by omega) (by omega)

theorem scalarsEncodeAll {cs} (h : ∀ c ∈ cs, IsScalar c) : scalars (encodeAll cs) = cs := by
  induction cs with
  | nil => rfl
  | cons c cs ih =>
    have tail := ih fun d mem => h d (mem_cons_of_mem _ mem)
    rw [scalars,characters] at tail ⊢
    rw [encodeAll,flatMap_cons,charactersEncode (h c mem_cons_self),map_cons]
    exact congrArg (c :: ·) tail

theorem continuedHead {need} (h : continued (need + 1) low high s = need + 1) :
    ∃ b rest, s = b :: rest ∧ low.toNat ≤ b.toNat ∧ b.toNat ≤ high.toNat ∧ continued need 0x80 0xBF rest = need := by
  cases s with
  | nil => cases h
  | cons b rest =>
    rw [continued] at h
    split at h
    · rename_i inside
      simp only [Bool.and_eq_true,decide_eq_true_eq] at inside
      exact ⟨b,rest,rfl,inside.1,inside.2,Nat.succ.inj h⟩
    · cases h

section
variable (h : sequence lead s = (n,true))
include h

theorem sequenceCases :
    (lead.toNat < 0x80 ∧ n = 0) ∨
    (∃ b : UInt8, s.take n = [b] ∧ 0xC2 ≤ lead.toNat ∧ lead.toNat < 0xE0 ∧ 0x80 ≤ b.toNat ∧ b.toNat ≤ 0xBF) ∨
    0x800 ≤ scalarOf lead (s.take n) ∧ IsScalar (scalarOf lead (s.take n)) := by
  cases calls : continuation lead with
  | none => rw [sequence,calls] at h; cases h
  | some bounds =>
    obtain ⟨need,low,high⟩ := bounds
    simp only [sequence,calls,Prod.mk.injEq,beq_iff_eq] at h
    obtain ⟨found,complete⟩ := h
    rw [complete] at found
    subst found
    rw [continuationNat] at calls
    split at calls
    · rename_i one
      cases calls
      exact .inl ⟨one,rfl⟩
    split at calls
    · cases calls
    split at calls
    · rename_i two
      cases calls
      obtain ⟨b,rest,rfl,least,most,_⟩ := continuedHead complete
      exact .inr (.inl ⟨b,rfl,by omega,two,least,most⟩)
    refine .inr (.inr ?_)
    split at calls
    · cases calls
      obtain ⟨b,rest,rfl,least,most,complete⟩ := continuedHead complete
      obtain ⟨c,rest,rfl,_⟩ := continuedHead complete
      rw [take_succ_cons,take_succ_cons,take_zero,scalarThree,IsScalar]
      rw [apply_ite UInt8.toNat] at least most
      split at least <;> split at most <;> simp only [UInt8.reduceToNat] at least most <;> omega
    split at calls
    · cases calls
      obtain ⟨b,rest,rfl,least,most,complete⟩ := continuedHead complete
      obtain ⟨c,rest,rfl,_,_,complete⟩ := continuedHead complete
      obtain ⟨d,rest,rfl,_⟩ := continuedHead complete
      rw [take_succ_cons,take_succ_cons,take_succ_cons,take_zero,scalarFour,IsScalar]
      rw [apply_ite UInt8.toNat] at least most
      split at least <;> split at most <;> simp only [UInt8.reduceToNat] at least most <;> omega
    · cases calls

theorem sequenceScalar : IsScalar (scalarOf lead (s.take n)) := by
  rcases sequenceCases h with ⟨one,rfl⟩ | ⟨b,taken,_⟩ | ⟨_,is⟩
  · exact .inl (show lead.toNat < 0xD800 by omega)
  · rw [taken,scalarTwo,IsScalar]
    omega
  · exact is

theorem sequenceAbove (high : 0x80 ≤ lead.toNat) :
    0x80 ≤ scalarOf lead (s.take n) := by
  rcases sequenceCases h with ⟨one,_⟩ | ⟨b,taken,_⟩ | ⟨above,_⟩
  · omega
  · rw [taken,scalarTwo]
    omega
  · omega

theorem sequenceEncoded (small : scalarOf lead (s.take n) < 0x800) :
    encode (scalarOf lead (s.take n)) = lead :: s.take n := by
  rcases sequenceCases h with ⟨one,rfl⟩ | ⟨b,taken,low,high,least,most⟩ | ⟨above,_⟩
  · rw [take_zero,show scalarOf lead [] = lead.toNat from rfl,encode,if_pos one]
    simp [Nat.toUInt8]
  · rw [taken,scalarTwo] at small ⊢
    rw [encode,if_neg (by omega),if_pos small]
    have first : (0xC0 + (lead.toNat % 32 * 64 + b.toNat % 64) / 64).toUInt8 = lead :=
      UInt8.toNat.inj (by rw [toUInt8Nat (by omega)]; omega)
    have second : (0x80 + (lead.toNat % 32 * 64 + b.toNat % 64) % 64).toUInt8 = b :=
      UInt8.toNat.inj (by rw [toUInt8Nat (by omega)]; omega)
    rw [first,second]
  · omega

end

theorem replacementScalar : IsScalar replacement := Or.inr (by decide)

theorem charactersScalar (skip s) : ∀ c ∈ charactersFrom skip s, IsScalar c.1 := by
  fun_induction charactersFrom skip s with
  | case1 => exact forall_mem_nil _
  | case2 skip lead s ih => exact ih
  | case3 lead s n complete ih => exact forall_mem_cons.mpr ⟨sequenceScalar complete,ih⟩
  | case4 lead s _ _ ih => exact forall_mem_cons.mpr ⟨replacementScalar,ih⟩

theorem encodedCharacters (skip s) (small : ∀ c ∈ charactersFrom skip s, c.1 < 0x800) :
    encodeAll ((charactersFrom skip s).map (·.1)) = s.drop skip := by
  fun_induction charactersFrom skip s with
  | case1 => rw [drop_nil]; rfl
  | case2 skip lead s ih => exact ih small
  | case3 lead s n complete ih =>
    obtain ⟨here,others⟩ := forall_mem_cons.mp small
    have rest := ih others
    rw [encodeAll] at rest
    rw [map_cons,encodeAll,flatMap_cons,rest,sequenceEncoded complete here,cons_append,take_append_drop,drop_zero]
  | case4 => exact absurd (forall_mem_cons.mp small).1 (by simp [replacement])

end

theorem lowerAsciiScalar : ∀ n < 128, encode (lowerScalar n) = [lowerByte n.toUInt8] := by
  decide +kernel

theorem lowerScalars (s) : lower s = encodeAll ((scalars s).map lowerScalar) := by
  rw [lower]
  split
  · rename_i plain
    induction s with
    | nil => rfl
    | cons b s ih =>
      rw [all_cons,Bool.and_eq_true,decide_eq_true_eq,UInt8.lt_iff_toNat_lt] at plain
      have here : b.toNat.toUInt8 = b := by simp [Nat.toUInt8]
      have read := charactersOne s rfl plain.1
      have small := lowerAsciiScalar b.toNat plain.1
      rw [here] at small
      rw [scalars,characters,read,map_cons,map_cons,encodeAll,flatMap_cons,small]
      exact congrArg (lowerByte b :: ·) (ih plain.2)
  · rfl

theorem loweredScalars (s) : ∀ c ∈ (scalars s).map lowerScalar, IsScalar c :=
  forall_mem_map.mpr fun c mem => lowerScalarIsScalar (forall_mem_map.mpr (charactersScalar 0 s) c mem)

theorem lowerTwice (s) : lower (lower s) = lower s := by
  have final : ((scalars s).map lowerScalar).map lowerScalar = (scalars s).map lowerScalar := by
    rw [map_map]
    exact map_congr_left fun c _ => lowerScalarTwice c
  rw [lowerScalars (lower s),lowerScalars s,scalarsEncodeAll (loweredScalars s),final]

end Cascade
