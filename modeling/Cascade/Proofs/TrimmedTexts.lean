import Cascade.Proofs.EscapedText

/-! Texts without the white space at their ends. Characters are cut where a byte stands that is one by itself, so
blanks around a text are dropped, and quotes around it keep what is between them. -/
namespace Cascade
open List

theorem continuedWithin (need least most s) : continued need least most s ≤ s.length := by
  induction s generalizing need least most with
  | nil => cases need <;> exact Nat.le_refl 0
  | cons c s ih =>
    cases need with
    | zero => exact Nat.zero_le _
    | succ need =>
      rw [continued]
      split
      · exact Nat.succ_le_succ (ih need _ _)
      · exact Nat.zero_le _

theorem sequenceWithin (lead s) : (sequence lead s).1 ≤ s.length := by
  rw [sequence]
  split
  · exact Nat.zero_le _
  · exact continuedWithin _ _ _ s

theorem blankSpace {b} (blank : isBlankByte b) : b < 0x80 ∧ isSpace b.toNat := by
  simp only [isBlankByte,Bool.or_eq_true,beq_iff_eq] at blank
  rcases blank with (((rfl | rfl) | rfl) | rfl) | rfl <;> decide

section
variable {b : UInt8} (low : b < 0x80)
include low

theorem continuedBefore (need) {least most} (limit : need = 0 ∨ 0x80 ≤ least) (s rest : Bytes) :
    continued need least most (s ++ b :: rest) = continued need least most s := by
  induction s generalizing need least most with
  | nil =>
    cases need with
    | zero => rfl
    | succ need =>
      have least := limit.resolve_left (Nat.succ_ne_zero need)
      refine if_neg fun within => ?_
      simp only [Bool.and_eq_true,decide_eq_true_eq] at within
      exact UInt8.not_le.mpr low (UInt8.le_trans least within.1)
  | cons c s ih =>
    cases need with
    | zero => rfl
    | succ need => rw [cons_append,continued,continued,ih need (.inr (by decide))]

theorem sequenceBefore (lead) (s rest : Bytes) : sequence lead (s ++ b :: rest) = sequence lead s := by
  rw [sequence,sequence]
  split
  · rfl
  · rename_i known
    rw [continuedBefore low _ (continuationLow known)]

theorem charactersFromBefore {skip s} (inside : skip ≤ s.length) (rest : Bytes) :
    charactersFrom skip (s ++ b :: rest) = charactersFrom skip s ++ characters (b :: rest) := by
  induction s generalizing skip with
  | nil =>
    cases Nat.le_zero.mp inside
    rfl
  | cons lead s ih =>
    cases skip with
    | succ skip => exact ih (Nat.le_of_succ_le_succ inside)
    | zero =>
      rw [cons_append,charactersFrom,charactersFrom,sequenceBefore low]
      have within := sequenceWithin lead s
      cases found : sequence lead s with
      | mk n whole =>
        rw [found] at within
        cases whole with
        | true => simp only [ih within,take_append_of_le_length within,cons_append]
        | false => simp only [ih (Nat.zero_le _),cons_append]

theorem charactersBefore (s rest : Bytes) : characters (s ++ b :: rest) = characters s ++ characters (b :: rest) :=
  charactersFromBefore low (Nat.zero_le _) rest

theorem charactersPlain (rest : Bytes) : characters (b :: rest) = (b.toNat,[b]) :: characters rest := by
  rw [characters,charactersFrom,sequencePlain low]
  rfl

end

def trimmed (cs : List (Nat × Bytes)) : List (Nat × Bytes) :=
  ((cs.dropWhile fun c => isSpace c.1).reverse.dropWhile fun c => isSpace c.1).reverse

theorem trimTrimmed (s) : trim s = (trimmed (characters s)).flatMap (·.2) := rfl

section
variable {cs front back : List (Nat × Bytes)}

theorem trimmedParts (cs) : ∃ front back, cs = front ++ trimmed cs ++ back ∧
    (∀ c ∈ front, isSpace c.1) ∧ ∀ c ∈ back, isSpace c.1 := by
  have left := takeWhile_append_dropWhile (p := fun c : Nat × Bytes => isSpace c.1) (l := cs)
  have right := takeWhile_append_dropWhile (p := fun c : Nat × Bytes => isSpace c.1)
    (l := (cs.dropWhile fun c => isSpace c.1).reverse)
  refine ⟨cs.takeWhile fun c => isSpace c.1,
    ((cs.dropWhile fun c => isSpace c.1).reverse.takeWhile fun c => isSpace c.1).reverse,?_,?_,?_⟩
  · rw [append_assoc,trimmed,← reverse_append,right,reverse_reverse,left]
  · exact fun c mem => mem_takeWhile_imp (p := fun c : Nat × Bytes => isSpace c.1) mem
  · exact fun c mem => mem_takeWhile_imp (p := fun c : Nat × Bytes => isSpace c.1) (mem_reverse.mp mem)

theorem trimmedAround (left : ∀ c ∈ front, isSpace c.1) (right : ∀ c ∈ back, isSpace c.1) :
    trimmed (front ++ (cs ++ back)) = trimmed cs := by
  have turned : ∀ c ∈ back.reverse, isSpace c.1 := fun c mem => right c (mem_reverse.mp mem)
  have gone : back.dropWhile (fun c => isSpace c.1) = [] := dropWhile_eq_nil_iff.mpr right
  rw [trimmed,dropWhile_append_of_pos left,dropWhile_append]
  split
  · rename_i bare
    rw [gone,trimmed,List.isEmpty_iff.mp bare]
  · rw [reverse_append,dropWhile_append_of_pos turned]
    rfl

theorem trimmedBetween {first last} (left : isSpace first.1 = false) (right : isSpace last.1 = false) :
    trimmed (first :: (cs ++ [last])) = first :: (cs ++ [last]) := by
  rw [trimmed,dropWhile_cons_of_neg (by simp [left]),← cons_append,reverse_concat,
    dropWhile_cons_of_neg (by simp [right]),reverse_cons,reverse_reverse]

end

section
variable {s front back : Bytes}

theorem charactersBlank (blanks : ∀ b ∈ front, isBlankByte b) (rest) :
    characters (front ++ rest) = front.map (fun b => (b.toNat,[b])) ++ characters rest := by
  induction front with
  | nil => rfl
  | cons b front ih =>
    obtain ⟨here,others⟩ := forall_mem_cons.mp blanks
    rw [cons_append,charactersPlain (blankSpace here).1,ih others]
    rfl

theorem trimAround (left : ∀ b ∈ front, isBlankByte b) (right : ∀ b ∈ back, isBlankByte b) :
    trim (front ++ (s ++ back)) = trim s := by
  have spaces : ∀ {blanks : Bytes}, (∀ b ∈ blanks, isBlankByte b) →
      ∀ c ∈ blanks.map fun b => (b.toNat,[b]), isSpace c.1 := by
    intro blanks all c mem
    obtain ⟨b,inside,rfl⟩ := mem_map.mp mem
    exact (blankSpace (all b inside)).2
  have cut : characters (s ++ back) = characters s ++ back.map fun b => (b.toNat,[b]) := by
    cases back with
    | nil => simp
    | cons b back =>
      have ended := charactersBlank right []
      rw [append_nil] at ended
      rw [charactersBefore (blankSpace (right b (mem_cons_self))).1,ended]
      exact congrArg _ (append_nil _)
  rw [trimTrimmed,trimTrimmed,charactersBlank left,cut,trimmedAround (spaces left) (spaces right)]

theorem trimBetween {b} (low : b < 0x80) (solid : isSpace b.toNat = false) (s : Bytes) :
    trim (b :: (s ++ [b])) = b :: (s ++ [b]) := by
  have ends : characters (b :: (s ++ [b])) = (b.toNat,[b]) :: (characters s ++ [(b.toNat,[b])]) := by
    rw [charactersPlain low,charactersBefore low,charactersPlain low]
    rfl
  have text : (characters (b :: (s ++ [b]))).flatMap (·.2) = b :: (s ++ [b]) := charactersText 0 _
  have kept := @trimmedBetween (characters s) (b.toNat,[b]) (b.toNat,[b]) solid solid
  rw [trimTrimmed,ends,kept,← ends,text]

theorem trimParts (s) : ∃ front back, s = front ++ (trim s ++ back) ∧
    ∀ b ∈ front ++ back, b < 0x80 → isSpace b.toNat := by
  obtain ⟨front,back,parts,left,right⟩ := trimmedParts (characters s)
  have text : (characters s).flatMap (·.2) = s := charactersText 0 s
  refine ⟨front.flatMap (·.2),back.flatMap (·.2),?_,?_⟩
  · rw [trimTrimmed,← flatMap_append,← flatMap_append,← append_assoc,← parts,text]
  · intro b mem low
    cases solid : isSpace b.toNat with
    | true => rfl
    | false =>
      have clear := spaceBytes low solid 0 s
      rw [← flatMap_append] at mem
      obtain ⟨c,inside,there⟩ := mem_flatMap.mp mem
      have found : c ∈ characters s := by
        rw [parts]
        rcases mem_append.mp inside with first | last
        · exact mem_append_left _ (mem_append_left _ first)
        · exact mem_append_right _ last
      have space : isSpace c.1 := (mem_append.mp inside).elim (left c) (right c)
      exact absurd there (clear c found space)

end

def IsWhole (c : Nat × Bytes) : Prop :=
  ∃ lead tail, c.2 = lead :: tail ∧ trailing lead ≤ tail.length ∧ ∀ b ∈ tail, 0x80 ≤ b ∧ b < 0xC0

section
variable {s : Bytes}

theorem textCharacters (skip) (text : isText.go skip s) : ∀ c ∈ charactersFrom skip s, IsWhole c := by
  fun_induction isText.go skip s with
  | case1 => simp [charactersFrom]
  | case2 skip lead s ih => exact ih text
  | case3 lead s n found ih =>
    obtain ⟨enough,within⟩ := sequenceTrailing found
    have inside := sequenceWithin lead s
    rw [found] at inside
    rw [charactersFrom,found]
    refine forall_mem_cons.mpr ⟨⟨lead,s.take n,rfl,?_,within⟩,ih text⟩
    rwa [length_take_of_le inside]
  | case4 => cases text

theorem wholeCharacters {cs : List (Nat × Bytes)} (whole : ∀ c ∈ cs, IsWhole c) : Complete (cs.flatMap (·.2)) := by
  induction cs with
  | nil => exact .nil
  | cons c cs ih =>
    obtain ⟨⟨lead,tail,bytes,enough,within⟩,others⟩ := forall_mem_cons.mp whole
    have behind : Complete (tail ++ cs.flatMap (·.2)) := by
      have rest := ih others
      clear bytes enough
      induction tail with
      | nil => exact rest
      | cons b tail inner =>
        obtain ⟨here,more⟩ := forall_mem_cons.mp within
        exact singleComplete here.2 (inner more)
    rw [flatMap_cons,bytes,cons_append]
    refine .cons (by simp; omega) ?_ behind
    rw [take_append_of_le_length enough]
    exact fun b mem => (within b (mem_of_mem_take mem)).1

theorem textComplete (text : isText s) : Complete s := by
  have complete := wholeCharacters (textCharacters 0 text)
  rwa [charactersText,drop_zero] at complete

theorem trimComplete (whole : ∀ c ∈ characters s, IsWhole c) : Complete (trim s) := by
  obtain ⟨front,back,parts,_⟩ := trimmedParts (characters s)
  refine wholeCharacters fun c mem => whole c ?_
  rw [parts]
  exact mem_append_left _ (mem_append_right _ mem)

theorem textWithin {b c} {front back : Bytes} (left : b < 0x80) (right : c < 0x80)
    (text : isText (front ++ b :: (s ++ c :: back))) : ∀ ch ∈ characters s, IsWhole ch := by
  intro ch mem
  refine textCharacters 0 text ch ?_
  have cut : characters (front ++ b :: (s ++ c :: back)) =
      characters front ++ (b.toNat,[b]) :: (characters s ++ characters (c :: back)) := by
    rw [charactersBefore left,charactersPlain left,charactersBefore right]
  have found : ch ∈ characters (front ++ b :: (s ++ c :: back)) := by
    rw [cut]
    exact mem_append_right _ (mem_cons_of_mem _ (mem_append_left _ mem))
  exact found

end

end Cascade
