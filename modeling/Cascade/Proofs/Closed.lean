import Cascade.Component.Text
import Cascade.Proofs.Balanced
import Cascade.Proofs.TokenEnds

/-! Texts cut where a token ends: the tokens of the whole are those of the parts. -/
namespace Cascade
open List

variable {s rest name : Bytes} {x : UInt8}

theorem tokensFromSkip (skip s) : tokensFrom skip s = tokens (s.drop skip) := by
  induction s generalizing skip with
  | nil => cases skip <;> rfl
  | cons b s ih =>
    cases skip with
    | zero => rfl
    | succ skip => rw [tokensFrom,ih,drop_succ_cons]

theorem tokensCons (x) (s : Bytes) : tokens (x :: s) =
    ⟨(firstToken x s).1,x :: s.take ((firstToken x s).2 - 1)⟩ ::
      tokens (s.drop ((firstToken x s).2 - 1)) := by
  rw [tokens,tokensFrom,tokensFromSkip]

/- No token of a text goes on into what stands behind it. -/
def Closed (s next : Bytes) : Prop := tokens (s ++ next) = tokens s ++ tokens next

instance (s next : Bytes) : Decidable (Closed s next) := inferInstanceAs (Decidable (_ = _))

theorem closedNil (s) : Closed s [] := by simp [Closed,tokens,tokensFrom]

theorem cutAlike {t n m} (same : (s ++ t).take n = s.take m) (full : t ≠ []) : n ≤ s.length ∧ s.drop m = s.drop n := by
  have size := congrArg List.length same
  have more := length_pos_iff.mpr full
  simp only [length_take,length_append] at size
  refine ⟨by omega,?_⟩
  by_cases inside : m ≤ s.length
  · rw [show m = n by omega]
  · rw [drop_eq_nil_of_le (by omega),drop_eq_nil_of_le (by omega)]

theorem closedStop {b} (stop : isStop b) (rest : Bytes) : ∀ s, Closed s [b] → Closed s (b :: rest)
  | [],_ => rfl
  | x :: s,closed => by
    rw [Closed,cons_append,tokensCons,tokensCons,cons_append] at closed
    obtain ⟨token,tail⟩ := List.cons.inj closed
    obtain ⟨kind,text⟩ := Token.mk.inj token
    obtain ⟨short,cut⟩ := cutAlike (List.cons.inj text).2 (cons_ne_nil b [])
    rw [cut,dropBefore short] at tail
    have inner := closedStop stop rest (s.drop ((firstToken x (s ++ [b])).2 - 1)) tail
    rw [Closed,cons_append,tokensCons,tokensCons x s,cons_append,
      firstTokenStop stop x s rest (by omega),dropBefore short,cut,← inner,kind,← (List.cons.inj text).2,
      take_append_of_le_length short,take_append_of_le_length short]
termination_by s => s.length

theorem closedBy (stop : ∀ b ∈ rest.head?, isStop b) (closed : Closed s (rest.take 1)) : Closed s rest := by
  cases rest with
  | nil => exact closed
  | cons b rest => exact closedStop (stop b rfl) rest s closed

theorem plainIdentStart {x} {s : Bytes} (word : plainIdentLength (x :: s) ≠ 0) : (isNameStart x || x == 92) := by
  rw [plainIdentName] at word
  cases start : isNameStart x || x == 92 with
  | true => rfl
  | false => rw [start] at word; exact absurd rfl word

theorem startNoDigit (start : (isNameStart x || x == 92)) : isDigit x = false ∧ x ≠ 46 ∧ x ≠ 43 ∧ x ≠ 45 := by
  simp only [isNameStart,isLetter,isLowerLetter,isUpperLetter,isDigit] at *
  grind

theorem plainStartsNoNumber (start : (isNameStart x || x == 92)) (s : Bytes) :
    (match x :: s with
      | 46 :: d :: _ => isDigit d
      | d :: _ => isDigit d
      | [] => false) = false := by
  obtain ⟨digit,point,_⟩ := startNoDigit start
  simp [digit,point]

theorem wordNoNumber (word : identLength (x :: s) ≠ 0) : numeric (x :: s) = none := by
  have starts : startsNumber (x :: s) = false := by
    by_cases hyphen : x = 45
    · subst hyphen
      rw [identLengthHyphen] at word
      cases s with
      | nil => exact absurd rfl word
      | cons y s =>
        have start := plainIdentStart (x := y) (s := s) fun bare => word (if_pos bare)
        exact plainStartsNoNumber start s
    · rw [identLengthPlain hyphen] at word
      have start := plainIdentStart word
      have sign : signLength (x :: s) = 0 := by
        obtain ⟨_,_,plus,minus⟩ := startNoDigit start
        simp [signLength,plus,minus]
      rw [startsNumber,sign]
      exact plainStartsNoNumber start s
  rw [numeric,starts]
  rfl

def startsRange (name rest : Bytes) : Bool :=
  (name == [117] || name == [85]) && match rest with
    | 43 :: places => (unicodeRange places).isSome
    | _ => false

def otherStarts : Bytes := [0,9,10,12,13,32,34,35,36,39,40,41,42,43,44,45,46,47,58,59,60,61,64,91,92,93,94,123,124,125,126]

theorem startOther {x} (start : isNameStart x) : ∀ c ∈ otherStarts, x ≠ c := by
  have bare : otherStarts.all (fun c => !isNameStart c) := rfl
  rintro c mem rfl
  simpa [start] using all_eq_true.mp bare x mem

theorem firstTokenLetter (letter : x = 117 ∨ x = 85) (plain : startsRange [x] s = false) :
    firstToken x s = orDelim (identLike (x :: s)) := by
  cases s with
  | nil => rcases letter with rfl | rfl <;> rfl
  | cons c s =>
    by_cases plus : c = 43
    · subst plus
      have bare : unicodeRange s = none := by
        rcases letter with rfl | rfl <;> simpa [startsRange] using plain
      rcases letter with rfl | rfl <;> simp [firstToken,isBlankByte,bare]
    · rcases letter with rfl | rfl <;> simp [firstToken,isBlankByte,plus]

theorem firstTokenWord (word : identLength (x :: s) ≠ 0) (plain : startsRange [x] s = false) :
    firstToken x s = orDelim (identLike (x :: s)) := by
  have number := wordNoNumber word
  by_cases hyphen : x = 45
  · subst hyphen
    cases found : identLike (45 :: s) with
    | none => exact absurd (identLikeAbsent found) word
    | some t => simp [firstToken,isBlankByte,number,found,orDelim]
  by_cases escape : x = 92
  · subst escape
    simp [firstToken,isBlankByte]
  have start : isNameStart x := by
    rw [identLengthPlain hyphen] at word
    simpa [escape] using plainIdentStart word
  have other := startOther start
  simp only [otherStarts,forall_mem_cons] at other
  by_cases letter : x = 117 ∨ x = 85
  · exact firstTokenLetter letter plain
  · simp only [not_or] at letter
    simp [firstToken,isBlankByte,other,letter,number]

def EndsName (name rest : Bytes) : Prop :=
  name ≠ [] ∧ (∀ b ∈ rest.head?, breaksName b = true) ∧ identLength (name ++ rest.take 1) = name.length

instance (name rest : Bytes) : Decidable (EndsName name rest) :=
  haveI := @Option.decidableForallMem _ (breaksName · = true) _ rest.head?
  inferInstanceAs (Decidable (_ ∧ _ ∧ _))

theorem endsNameLength (ends : EndsName name rest) : identLength (name ++ rest) = name.length := by
  obtain ⟨_,breaks,size⟩ := ends
  cases rest with
  | nil => exact size
  | cons b rest => exact (identLengthStop (breaks b rfl) name rest (Nat.le_of_eq size)).trans size

theorem endsNameRange (ends : EndsName (x :: s) rest) (plain : startsRange (x :: s) rest = false) :
    startsRange [x] (s ++ rest) = false := by
  have size := endsNameLength ends
  cases s with
  | nil => exact plain
  | cons c s =>
    by_cases letter : x = 117 ∨ x = 85
    · have noPlus : c ≠ 43 := by
        rintro rfl
        rcases letter with rfl | rfl <;> simp [identLength,plainIdentLength,nameRun,isNameStart,isNameByte,
          isLetter,isLowerLetter,isUpperLetter,isDigit] at size
      simp [startsRange,noPlus]
    · simp only [not_or] at letter
      simp [startsRange,letter]

theorem tokensFirst (ends : EndsName name rest) (plain : startsRange name rest = false) {t}
    (found : identLike (name ++ rest) = some t) :
    tokens (name ++ rest) = ⟨t.1,(name ++ rest).take t.2⟩ :: tokens ((name ++ rest).drop t.2) := by
  have size := endsNameLength ends
  have reach := identLikeFrom found
  cases name with
  | nil => exact absurd rfl ends.1
  | cons x s =>
    have word : identLength (x :: (s ++ rest)) ≠ 0 := by
      rw [← cons_append,size]
      exact Nat.succ_ne_zero _
    have first := firstTokenWord word (endsNameRange ends plain)
    rw [cons_append] at found
    rw [cons_append,tokensCons,first,found,orDelim,Option.getD_some]
    rw [size,length_cons] at reach
    obtain ⟨n,count⟩ := Nat.exists_eq_add_of_le' (Nat.le_trans (Nat.le_add_left 1 s.length) reach)
    rw [count,take_succ_cons,drop_succ_cons,Nat.add_sub_cancel]

theorem endsNameSome (ends : EndsName name rest) : identLength (name ++ rest) ≠ 0 := by
  rw [endsNameLength ends]
  exact fun bare => ends.1 (length_eq_zero_iff.mp bare)

theorem wordToken (ends : EndsName name rest) (word : rest.head? ≠ some 40) (plain : startsRange name rest = false) :
    tokens (name ++ rest) = ⟨.ident,name⟩ :: tokens rest := by
  have size := endsNameLength ends
  have found : identLike (name ++ rest) = some (.ident,name.length) := by
    rw [identLikeWord (endsNameSome ends) (by rw [size,drop_left]; exact word),size]
  rw [tokensFirst ends plain found,take_left,drop_left]

theorem functionToken (ends : EndsName name [40]) (call : isUrlName name = false) (rest : Bytes) :
    tokens (name ++ 40 :: rest) = ⟨.function,name ++ [40]⟩ :: tokens rest := by
  have opens : EndsName name (40 :: rest) := ends
  have size := endsNameLength opens
  have found : identLike (name ++ 40 :: rest) = some (.function,name.length + 1) := by
    rw [identLikeCall (endsNameSome opens) (by rw [size,drop_left]),size,take_left,callToken,call]
    rfl
  rw [tokensFirst opens (by simp [startsRange]) found,take_length_add_append,drop_length_add_append]
  rfl

theorem hashToken (full : name ≠ []) (breaks : ∀ b ∈ rest.head?, breaksName b)
    (size : nameRun 0 (name ++ rest.take 1) = name.length) :
    tokens (35 :: (name ++ rest)) = ⟨.hash,35 :: name⟩ :: tokens rest := by
  have run : nameRun 0 (name ++ rest) = name.length := by
    cases rest with
    | nil => exact size
    | cons b rest => exact (nameRunStop (breaks b rfl) 0 name rest (Nat.le_of_eq size)).trans size
  obtain ⟨k,count⟩ := Nat.exists_eq_succ_of_ne_zero fun bare => full (length_eq_zero_iff.mp bare)
  have first : firstToken 35 (name ++ rest) = (.hash,name.length + 1) := by
    simp [firstToken,isBlankByte,run,count]
  rw [tokensCons,first,Nat.add_sub_cancel,take_left,drop_left]

theorem tokensOpen (s : Bytes) : tokens (40 :: s) = leftParen :: tokens s := rfl

theorem tokensShut (s : Bytes) : tokens (41 :: s) = rightParen :: tokens s := rfl

theorem tokensEnter (s : Bytes) : tokens (91 :: s) = leftBracket :: tokens s := rfl

theorem tokensColon (s : Bytes) : tokens (58 :: s) = Token.colon :: tokens s := rfl

theorem tokensSpace (solid : ∀ b ∈ s.head?, isBlankByte b = false) : tokens (32 :: s) = Token.space :: tokens s := by
  have bare : blankRun s = 0 := by
    cases s with
    | nil => rfl
    | cons b s => simp [blankRun,solid b rfl]
  have first : firstToken 32 s = (.whitespace,1) := by simp [firstToken,isBlankByte,bare]
  rw [tokensCons,first]
  rfl

theorem parenthesizedTokens (closed : Closed s [41]) (rest) :
    tokens (parenthesized s ++ rest) = leftParen :: (tokens s ++ rightParen :: tokens rest) := by
  have apart : Closed s (41 :: rest) := closedStop rfl rest s closed
  rw [parenthesized,cons_append,cons_append,tokensOpen,append_assoc]
  exact congrArg (leftParen :: ·) apart

theorem parenthesizedAlone (closed : Closed s [41]) :
    tokens (parenthesized s) = leftParen :: (tokens s ++ [rightParen]) := by
  simpa [tokens,tokensFrom] using parenthesizedTokens closed []

end Cascade
