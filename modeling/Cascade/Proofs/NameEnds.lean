import Cascade.Token.Lexer

/-! Where a name ends. A scanner that stops before a byte which goes on no name stops there
whatever stands behind the byte. -/
namespace Cascade
open List

def breaksName (b : UInt8) : Bool := !isNameByte b && b != 92

/- Bytes that go on nothing but an escape, a quoted string, a location or a comment, or are a
token of two bytes with the one before. -/
def isStop (b : UInt8) : Bool := [32,41,42,44,47,61].contains b

section
variable {b c : UInt8}

theorem breaksHex (breaks : breaksName b) : isHexDigit b = false := by
  simp only [breaksName,isNameByte,isNameStart,isLetter,isLowerLetter,isUpperLetter,isHexDigit,isDigit] at *
  grind

theorem breaksDigit (breaks : breaksName b) : isDigit b = false := by
  have plain := breaksHex breaks
  simp only [isHexDigit,Bool.or_eq_false_iff] at plain
  exact plain.1.1

theorem breaksEscape (breaks : breaksName b) : (b == 92) = false := by
  simp only [breaksName,Bool.and_eq_true,bne,Bool.not_eq_true'] at breaks
  exact breaks.2

theorem breaksStart (breaks : breaksName b) : isNameStart b = false := by
  simp only [breaksName,isNameByte,Bool.and_eq_true,Bool.not_eq_true',Bool.or_eq_false_iff] at breaks
  exact breaks.1.1.1

theorem stopCases (stop : isStop b) : b = 32 ∨ b = 41 ∨ b = 42 ∨ b = 44 ∨ b = 47 ∨ b = 61 := by
  simpa [isStop] using stop

theorem stopBreaks (stop : isStop b) : breaksName b := by
  rcases stopCases stop with rfl | rfl | rfl | rfl | rfl | rfl <;> rfl

theorem stopNot (stop : isStop b) (other : isStop c = false) : b ≠ c := by
  rintro rfl
  exact Bool.false_ne_true (other.symm.trans stop)

end

section
variable {p : UInt8 → Bool} {b : UInt8}

theorem takeWhileStop (stop : p b = false) (s rest : Bytes) : (s ++ b :: rest).takeWhile p = s.takeWhile p := by
  induction s with
  | nil => simp [stop]
  | cons c s ih => simp [takeWhile_cons,ih]

theorem takeWhileTakeStop (stop : p b = false) (n) (s rest : Bytes) :
    ((s ++ b :: rest).take n).takeWhile p = (s.take n).takeWhile p := by
  induction s generalizing n with
  | nil => cases n <;> simp [stop]
  | cons c s ih => cases n <;> simp [takeWhile_cons,ih]

theorem dropBefore {n s} (inside : n ≤ s.length) (rest : Bytes) : (s ++ rest).drop n = s.drop n ++ rest := by
  rw [drop_append,Nat.sub_eq_zero_of_le inside,drop_zero]

end

theorem characterLengthSome (b s) : 0 < characterLength b s := by
  rw [characterLength]
  split
  · omega
  · split
    · omega
    · split <;> omega

theorem escapeStop {b} (stop : isHexDigit b = false) (s rest : Bytes) :
    escapeLength (s ++ b :: rest) = escapeLength (s ++ [b]) ∨
      ∃ n m, escapeLength (s ++ [b]) = some n ∧ escapeLength (s ++ b :: rest) = some m ∧
        s.length < n ∧ s.length < m := by
  cases s with
  | nil =>
    simp only [nil_append,escapeLength,stop]
    split
    · exact .inl rfl
    · exact .inr ⟨_,_,if_neg Bool.false_ne_true,if_neg Bool.false_ne_true,characterLengthSome b [],
        characterLengthSome b rest⟩
  | cons c s =>
    simp only [cons_append,escapeLength]
    split
    · exact .inl rfl
    split
    · left
      have inside : ((s.take 5).takeWhile isHexDigit).length ≤ s.length :=
        ((takeWhile_sublist _).trans (take_sublist _ _)).length_le
      simp only [takeWhileTakeStop stop,dropBefore inside]
      cases s.drop ((s.take 5).takeWhile isHexDigit).length <;> rfl
    · simp only [characterLength,length_append,length_cons,length_nil]
      generalize (if c < 0xC0 then 1 else if c < 0xE0 then 2 else if c < 0xF0 then 3 else 4) = size
      by_cases fits : size ≤ s.length + 2
      · left
        rw [Nat.min_eq_right (by omega),Nat.min_eq_right (by omega)]
      · refine .inr ⟨_,_,rfl,rfl,?_,?_⟩ <;> omega

/- What a scanner does at a byte: it stops and says what it has taken there, or takes the
byte and jumps over more. -/
inductive Move where
  | halt (taken : Nat) (done : Bool)
  | pass (skip : Nat)

def scan (step : UInt8 → Bytes → Move) (atEnd : Bool) : Nat → Bytes → Nat × Bool
  | _,[] => (0,atEnd)
  | skip+1,_ :: s => ((scan step atEnd skip s).1 + 1,(scan step atEnd skip s).2)
  | 0,b :: s =>
    match step b s with
    | .halt taken done => (taken,done)
    | .pass skip => ((scan step atEnd skip s).1 + 1,(scan step atEnd skip s).2)

def Alike (s : Bytes) (near far : Move) : Prop :=
  far = near ∨ ∃ n m, near = .pass n ∧ far = .pass m ∧ s.length < n ∧ s.length < m

section
variable {step : UInt8 → Bytes → Move} {atEnd : Bool} {b : UInt8} {rest : Bytes}

theorem scanPast {skip s} (past : s.length ≤ skip) : (scan step atEnd skip s).1 = s.length := by
  induction s generalizing skip with
  | nil => cases skip <;> rfl
  | cons c s ih =>
    cases skip with
    | zero => simp at past
    | succ skip => simp [scan,ih (Nat.le_of_succ_le_succ past)]

theorem scanStop (inside : ∀ c s, Alike s (step c (s ++ [b])) (step c (s ++ b :: rest)))
    (last : ∀ taken done, step b [] = .halt taken done → step b rest = .halt taken done)
    (skip s) (short : (scan step atEnd skip (s ++ [b])).1 ≤ s.length) :
    scan step atEnd skip (s ++ b :: rest) = scan step atEnd skip (s ++ [b]) := by
  induction s generalizing skip with
  | nil =>
    cases skip with
    | succ skip => simp [scan] at short
    | zero =>
      simp only [nil_append,scan] at short ⊢
      cases h : step b [] with
      | halt taken done => rw [last taken done h]
      | pass skip => simp [h] at short
  | cons c s ih =>
    cases skip with
    | succ skip =>
      simp only [cons_append,scan,length_cons,Nat.add_le_add_iff_right] at short ⊢
      rw [ih skip short]
    | zero =>
      simp only [cons_append,scan] at short ⊢
      rcases inside c s with same | ⟨n,m,first,second,beyond,_⟩
      · rw [same]
        cases h : step c (s ++ [b]) with
        | halt taken done => rfl
        | pass skip =>
          simp only [h,length_cons,Nat.add_le_add_iff_right] at short
          simp only [ih skip short]
      · have past : (scan step atEnd n (s ++ [b])).1 = (s ++ [b]).length :=
          scanPast (by simp only [length_append,length_singleton]; omega)
        simp only [first,past,length_append,length_cons,length_nil] at short
        omega

end

def escapeMove (s : Bytes) (other : Move) : Move :=
  match escapeLength s with
  | some n => .pass n
  | none => other

def nameStep (b : UInt8) (s : Bytes) : Move :=
  if isNameByte b then .pass 0
  else if b == 92 then escapeMove s (.halt 0 true)
  else .halt 0 true

def stringStep (quote : UInt8) (b : UInt8) (s : Bytes) : Move :=
  if isNewline b then .halt 1 true
  else if b == quote then .halt 1 false
  else if b == 92 then escapeMove s (.pass (newlineLength s))
  else .pass 0

def locationStep (b : UInt8) (s : Bytes) : Move :=
  if b == 41 then .halt 0 true
  else if b == 92 then escapeMove s (.halt 0 false)
  else if b == 34 || b == 39 || b == 40 || b ≤ 32 || b == 127 then .halt 0 false
  else .pass 0

def brokenStep (b : UInt8) (s : Bytes) : Move :=
  if b == 41 then .halt 1 true
  else if b == 92 then escapeMove s (.pass 0)
  else .pass 0

theorem nameRunScan (skip s) : nameRun skip s = (scan nameStep true skip s).1 := by
  fun_induction nameRun skip s <;> grind [scan,nameStep,escapeMove]

theorem stringRunScan (quote skip s) : stringRun quote skip s = scan (stringStep quote) false skip s := by
  fun_induction stringRun quote skip s <;> grind [scan,stringStep,escapeMove]

theorem locationRunScan (skip s) : locationRun skip s = scan locationStep true skip s := by
  fun_induction locationRun skip s <;> grind [scan,locationStep,escapeMove]

theorem brokenRunScan (skip s) : brokenRun skip s = (scan brokenStep true skip s).1 := by
  fun_induction brokenRun skip s <;> grind [scan,brokenStep,escapeMove]

theorem plainIdentName (b) (s : Bytes) :
    plainIdentLength (b :: s) = if isNameStart b || b == 92 then nameRun 0 (b :: s) else 0 := by
  rw [plainIdentLength,nameRun,isNameByte]
  cases isNameStart b with
  | true => rfl
  | false =>
    cases escape : b == 92 with
    | false => rfl
    | true =>
      rw [eq_of_beq escape]
      rfl

theorem identLengthHyphen (s : Bytes) :
    identLength (45 :: s) = if plainIdentLength s = 0 then 0 else plainIdentLength s + 1 := by
  rw [identLength]
  split
  · rename_i bare
    rw [if_pos bare]
  · rename_i n full
    rw [if_neg (by omega),full]

theorem identLengthPlain {b} (plain : b ≠ 45) (s : Bytes) : identLength (b :: s) = plainIdentLength (b :: s) := by
  rw [identLength.eq_def]
  split
  · rename_i same
    exact absurd (List.cons.inj same).1 plain
  · rfl

section
variable {b : UInt8} (breaks : breaksName b = true) (skip : Nat) (s rest : Bytes)
include breaks

theorem escapeMoveStop {near far} (same : far = near) :
    Alike s (escapeMove (s ++ [b]) near) (escapeMove (s ++ b :: rest) far) := by
  rcases escapeStop (breaksHex breaks) s rest with equal | ⟨n,m,first,second,past⟩
  · exact .inl (by rw [escapeMove,escapeMove,equal,same])
  · exact .inr ⟨n,m,by rw [escapeMove,first],by rw [escapeMove,second],past⟩

theorem scanStepStop {step atEnd broken} (escape : ∀ s, step 92 s = escapeMove s broken)
    (plain : ∀ c s u, c ≠ 92 → step c s = step c u) (skip) (s rest : Bytes)
    (short : (scan step atEnd skip (s ++ [b])).1 ≤ s.length) :
    scan step atEnd skip (s ++ b :: rest) = scan step atEnd skip (s ++ [b]) := by
  refine scanStop (fun c s => ?_) (fun taken done halts => ?_) skip s short
  · by_cases slash : c = 92
    · rw [slash,escape,escape]
      exact escapeMoveStop breaks s rest rfl
    · exact .inl (plain c _ _ slash)
  · rw [plain b rest [] (beq_eq_false_iff_ne.mp (breaksEscape breaks)),halts]

theorem nameRunStop (short : nameRun skip (s ++ [b]) ≤ s.length) :
    nameRun skip (s ++ b :: rest) = nameRun skip (s ++ [b]) := by
  simp only [nameRunScan] at short ⊢
  rw [scanStepStop breaks (fun _ => rfl) (fun c s u other => by simp [nameStep,other]) skip s rest short]

theorem locationRunStop (short : (locationRun skip (s ++ [b])).1 ≤ s.length) :
    locationRun skip (s ++ b :: rest) = locationRun skip (s ++ [b]) := by
  simp only [locationRunScan] at short ⊢
  exact scanStepStop breaks (fun _ => rfl) (fun c s u other => by simp [locationStep,other]) skip s rest short

theorem brokenRunStop (short : brokenRun skip (s ++ [b]) ≤ s.length) :
    brokenRun skip (s ++ b :: rest) = brokenRun skip (s ++ [b]) := by
  simp only [brokenRunScan] at short ⊢
  rw [scanStepStop breaks (fun _ => rfl) (fun c s u other => by simp [brokenStep,other]) skip s rest short]

theorem plainIdentStop (short : plainIdentLength (s ++ [b]) ≤ s.length) :
    plainIdentLength (s ++ b :: rest) = plainIdentLength (s ++ [b]) := by
  cases s with
  | nil => simp [plainIdentName,breaksStart breaks,breaksEscape breaks]
  | cons c s =>
    simp only [cons_append,plainIdentName] at short ⊢
    split
    · rename_i starts
      rw [if_pos starts] at short
      exact nameRunStop breaks 0 (c :: s) rest short
    · rfl

theorem identLengthStop (short : identLength (s ++ [b]) ≤ s.length) :
    identLength (s ++ b :: rest) = identLength (s ++ [b]) := by
  cases s with
  | nil =>
    have plain : b ≠ 45 := by
      rintro rfl
      cases breaks
    simp only [nil_append,identLengthPlain plain] at short ⊢
    exact plainIdentStop breaks [] rest short
  | cons c s =>
    by_cases hyphen : c = 45
    · simp only [hyphen,cons_append,identLengthHyphen] at short ⊢
      have inner : plainIdentLength (s ++ [b]) ≤ s.length := by
        split at short
        · omega
        · simpa using short
      rw [plainIdentStop breaks s rest inner]
    · simp only [cons_append,identLengthPlain hyphen] at short ⊢
      exact plainIdentStop breaks (c :: s) rest short

end

end Cascade
