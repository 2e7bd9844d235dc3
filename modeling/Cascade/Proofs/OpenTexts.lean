import Cascade.Value.Reader

/-! Strings and locations without their end. The last byte of a string is taken for its quote, and a
location without its parenthesis is taken with the name of the function. -/
namespace Cascade
open List

section

theorem unescapeConcat (s b) : unescape (s ++ [b]) ≠ unescape s := by
  fun_induction unescape s with
  | case1 s ih => simpa [unescape] using ih
  | case2 s ih => simpa [unescape] using ih
  | case3 s ih => simpa [unescape] using ih
  | case4 s ih => simpa [unescape] using ih
  | case5 c s quoted single broken escaped ih =>
    cases s with
    | nil =>
      rw [cons_append,nil_append,unescape.eq_def]
      split
      · rename_i same
        cases same
        decide
      · rename_i same
        cases same
        decide
      · rename_i same
        cases same
        decide
      · rename_i same
        cases same
        decide
      · rename_i same
        cases same
        exact fun same => ih (List.cons.inj same).2
      · rename_i same
        cases same
    | cons d s =>
      have kept : unescape (c :: (d :: s ++ [b])) = c :: unescape (d :: s ++ [b]) := by
        rw [unescape]
        · rintro _ rfl ⟨⟩
          exact quoted s rfl rfl
        · rintro _ rfl ⟨⟩
          exact single s rfl rfl
        · rintro _ rfl ⟨⟩
          exact broken s rfl rfl
        · rintro _ rfl ⟨⟩
          exact escaped s rfl rfl
      rw [cons_append,kept]
      exact fun same => ih (List.cons.inj same).2
  | case6 => simp [unescape]

theorem unescapeCount (s) : (unescape s).count 40 = s.count 40 := by
  fun_induction unescape s with
  | case1 s ih => simpa [count_cons] using ih
  | case2 s ih => simpa [count_cons] using ih
  | case3 s ih => simpa [count_cons] using ih
  | case4 s ih => simpa [count_cons] using ih
  | case5 c s _ _ _ _ ih => rw [count_cons,count_cons,ih]
  | case6 => rfl

variable {quote : UInt8} (quotes : quote = 34 ∨ quote = 39)
include quotes

theorem unquoteEnds (s : Bytes) : unquote (quote :: (s ++ [quote])) = unescape s := by
  have either : (quote == 34 || quote == 39) := by simpa using quotes
  cases s with
  | nil => rw [nil_append,unquote,if_pos either]; rfl
  | cons b s => rw [cons_append,unquote,if_pos either,← cons_append,dropLast_concat]

theorem stringLost (s : Bytes) : unquote (quote :: s) ≠ unquote (quote :: (s ++ [quote])) := by
  have either : (quote == 34 || quote == 39) := by simpa using quotes
  rw [unquoteEnds quotes]
  rcases eq_nil_or_concat s with rfl | ⟨s,b,rfl⟩
  · rcases quotes with rfl | rfl <;> decide
  have cut : unquote (quote :: s.concat b) = unescape s := by
    rw [concat_eq_append]
    cases s with
    | nil => rw [nil_append,unquote,if_pos either]; rfl
    | cons c s => rw [cons_append,unquote,if_pos either,← cons_append,dropLast_concat]
  rw [cut,concat_eq_append]
  exact (unescapeConcat s b).symm

end

section

theorem charactersText (skip s) : (charactersFrom skip s).flatMap (·.2) = s.drop skip := by
  fun_induction charactersFrom skip s <;> simp_all

theorem continuedEach {P : UInt8 → Prop} (later : ∀ b, 0x80 ≤ b → b ≤ 0xBF → P b) (need) {low high}
    (first : ∀ b, low ≤ b → b ≤ high → P b) (s : Bytes) : ∀ b ∈ s.take (continued need low high s), P b := by
  fun_induction continued need low high s with
  | case1 => exact forall_mem_nil _
  | case2 => exact forall_mem_nil _
  | case3 need low high b s within ih =>
    simp only [Bool.and_eq_true,decide_eq_true_eq] at within
    exact forall_mem_cons.mpr ⟨first b within.1 within.2,ih later⟩
  | case4 => exact forall_mem_nil _

theorem continuationLow {lead low high need} (found : continuation lead = some (need,low,high)) :
    need = 0 ∨ 0x80 ≤ low := by
  rw [continuation] at found
  repeat' split at found
  all_goals
    cases found
  all_goals first
    | exact .inl rfl
    | exact .inr (by decide)

theorem sequenceHigh {lead s n whole} (found : sequence lead s = (n,whole)) : ∀ b ∈ s.take n, 0x80 ≤ b := by
  rw [sequence] at found
  split at found
  · cases found
    simp
  rename_i need low high known
  cases found
  rcases continuationLow known with rfl | limit
  · simp [continued]
  · exact continuedEach (fun _ low _ => low) need (fun _ least _ => UInt8.le_trans limit least) s

variable {b : UInt8} (plain : b < 0x80)
include plain

theorem sequencePlain (s) : sequence b s = (0,true) := by
  simp [sequence,continuation,plain,continued]

variable (solid : isSpace b.toNat = false)
include solid

theorem spaceBytes (skip s) : ∀ c ∈ charactersFrom skip s, isSpace c.1 → b ∉ c.2 := by
  fun_induction charactersFrom skip s with
  | case1 => exact forall_mem_nil _
  | case2 skip lead s ih => exact ih
  | case3 lead s n found ih =>
    refine forall_mem_cons.mpr ⟨fun space mem => ?_,ih⟩
    rcases mem_cons.mp mem with rfl | later
    · cases (sequencePlain plain s).symm.trans found
      exact absurd (solid.symm.trans space) Bool.false_ne_true
    · exact UInt8.not_le.mpr plain (sequenceHigh found b later)
  | case4 lead s _ _ ih =>
    refine forall_mem_cons.mpr ⟨fun space => ?_,ih⟩
    cases space

omit plain solid in
theorem dropCount {cs : List (Nat × Bytes)} (spaces : ∀ c ∈ cs, isSpace c.1 → b ∉ c.2) :
    ((cs.dropWhile fun c => isSpace c.1).flatMap (·.2)).count b = (cs.flatMap (·.2)).count b := by
  induction cs with
  | nil => rfl
  | cons c cs ih =>
    obtain ⟨first,others⟩ := forall_mem_cons.mp spaces
    rw [dropWhile_cons]
    split
    · rename_i space
      rw [ih others,flatMap_cons,count_append,count_eq_zero.mpr (first space),Nat.zero_add]
    · rfl

theorem trimCount (s) : (trim s).count b = s.count b := by
  have turned : ∀ cs : List (Nat × Bytes), (cs.reverse.flatMap (·.2)).count b = (cs.flatMap (·.2)).count b :=
    fun cs => ((reverse_perm cs).flatMap_right _).count_eq b
  have spaces : ∀ c ∈ characters s, isSpace c.1 → b ∉ c.2 := spaceBytes plain solid 0 s
  have left : ∀ c ∈ ((characters s).dropWhile fun c => isSpace c.1).reverse, isSpace c.1 → b ∉ c.2 :=
    fun c mem => spaces c ((dropWhile_sublist _).subset (mem_reverse.mp mem))
  have whole : (characters s).flatMap (·.2) = s := charactersText 0 s
  rw [trim,turned,dropCount left,turned,dropCount spaces,whole]

theorem trimHead (s : Bytes) : ∃ w, trim (b :: s) = b :: w := by
  have first : characters (b :: s) = (b.toNat,[b]) :: characters s := by
    rw [characters,charactersFrom,sequencePlain plain]
    rfl
  have kept : ∃ cs, (((characters (b :: s)).dropWhile fun c => isSpace c.1).reverse.dropWhile fun c => isSpace c.1).reverse =
      (b.toNat,[b]) :: cs := by
    rw [first,dropWhile_cons,solid,if_neg Bool.false_ne_true,reverse_cons,dropWhile_append]
    split
    · exact ⟨[],by simp [solid]⟩
    · exact ⟨_,by rw [reverse_append]; rfl⟩
  obtain ⟨cs,kept⟩ := kept
  exact ⟨cs.flatMap (·.2),by rw [trim,kept]; rfl⟩

end

section

theorem unquoteCount (s) : (unquote s).count 40 ≤ s.count 40 := by
  rw [unquote.eq_def]
  split
  · rename_i q b rest
    split
    · rw [unescapeCount,count_cons]
      have fewer := (dropLast_sublist (b :: rest)).count_le 40
      omega
    · exact Nat.le_of_eq (unescapeCount _)
  · exact Nat.le_of_eq (unescapeCount _)

structure LocationName (name : Bytes) : Prop where
  starts : ∃ b rest, name = b :: rest ∧ b < 0x80 ∧ isSpace b.toNat = false ∧ b ≠ 34 ∧ b ≠ 39
  free : 40 ∉ name

variable {name : Bytes}

theorem dropName (free : 40 ∉ name) (more : Bytes) : (name ++ 40 :: more).dropWhile (· != 40) = 40 :: more := by
  have all : ∀ b ∈ name, (b != 40) := by
    intro b mem
    rw [bne_iff_ne]
    rintro rfl
    exact free mem
  rw [dropWhile_append_of_pos all]
  rfl

variable (named : LocationName name) (rest : Bytes)
include named

theorem cutLocation (cut : (name ++ 40 :: rest).getLast? ≠ some 41) :
    (locationOf (name ++ 40 :: rest)).count 40 = rest.count 40 + 1 := by
  obtain ⟨b,more,rfl,plain,solid,double,single⟩ := named.starts
  obtain ⟨w,trimmed⟩ := trimHead plain solid (more ++ 40 :: rest)
  have count : (trim (b :: more ++ 40 :: rest)).count 40 = _ := trimCount (by decide) (by decide) _
  rw [count_append,count_eq_zero.mpr named.free,count_cons_self,Nat.zero_add] at count
  have other : (b == 34 || b == 39) = false := by simp [double,single]
  rw [locationOf,dropName named.free]
  simp only [beq_eq_false_iff_ne.mpr cut,Bool.false_eq_true,if_false]
  rw [← count,cons_append,trimmed]
  simp only [other,Bool.false_eq_true,if_false]

theorem endedLocation : (locationOf (name ++ 40 :: (rest ++ [41]))).count 40 ≤ rest.count 40 := by
  have last : (name ++ 40 :: (rest ++ [41])).getLast? = some 41 := by
    rw [← cons_append,← append_assoc,getLast?_concat]
  have inner : (trim rest).count 40 = _ := trimCount (by decide) (by decide) rest
  rw [locationOf,dropName named.free,last]
  simp only [beq_self_eq_true,if_true,dropLast_concat]
  split
  · split
    · exact Nat.le_trans (unquoteCount _) (Nat.le_of_eq inner)
    · exact Nat.le_of_eq inner
  · exact Nat.le_of_eq inner

theorem locationLost (cut : (name ++ 40 :: rest).getLast? ≠ some 41) {quote} (free : 40 ∉ quote) :
    locationOf (name ++ 40 :: rest) ≠ locationOf (name ++ 40 :: (rest ++ quote ++ [41])) := by
  intro same
  have first := cutLocation named rest cut
  have second := endedLocation named (rest ++ quote)
  rw [← same,first,count_append,count_eq_zero.mpr free] at second
  omega

end

end Cascade
