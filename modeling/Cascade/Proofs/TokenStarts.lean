import Cascade.Proofs.Closed

/-! How a text starts, given its first token, and where in a text a token starts. -/
namespace Cascade

def tokenAt (b : UInt8) (s : Bytes) (r : TokenKind × Nat) : Token := ⟨r.1,b :: s.take (r.2 - 1)⟩

def StartsBlank (b : UInt8) (s : Bytes) : Prop := isBlankByte b = true ∨ b = 47 ∧ s.head? = some 42

def startKinds : List TokenKind :=
  [.whitespace,.comment,.comma,.delim,.hash,.customName,.ident,.function,.url,.badUrl,.number,.percentage,.dimension,
    .string,.badString]

/- What can start a text: a blank, a sign, what starts like a name or a number, a string, or something else. -/
inductive Start (b : UInt8) (s : Bytes) : TokenKind × Nat → Prop where
  | blank {n : Nat} (is : isBlankByte b = true) : Start b s (.whitespace,n)
  | comment {n : Nat} (is : b = 47) (star : s.head? = some 42) : Start b s (.comment,n)
  | comma (is : b = 44) : Start b s (.comma,1)
  | sign (other : b ≠ 58) : Start b s (.delim,1)
  | hash {n : Nat} (is : b = 35) (run : nameRun 0 s = n + 1) : Start b s (.hash,n + 2)
  | custom (is : b = 45) : Start b s (.customName,identLength s + 1)
  | word {r : TokenKind × Nat} (found : identLike (b :: s) = some r) : Start b s r
  | number {r : TokenKind × Nat} (found : numeric (b :: s) = some r) : Start b s r
  | string (quotes : b = 34 ∨ b = 39) :
      Start b s (if (stringRun b 0 s).2 then .badString else .string,(stringRun b 0 s).1 + 1)
  | other {kind : TokenKind} {n : Nat} (other : kind ∉ startKinds) : Start b s (kind,n)

section
variable {b : UInt8} {s : Bytes}

theorem ifStart {c} [Decidable c] {x y} (yes : c → Start b s x) (no : Start b s y) :
    Start b s (if c then x else y) := by
  split
  · exact yes ‹c›
  · exact no

theorem orDelimStart (other : b ≠ 58) {found} (each : ∀ r, found = some r → Start b s r) :
    Start b s (orDelim found) := by
  cases found with
  | none => exact .sign other
  | some r => exact each r rfl

theorem firstTokenStart (b s) : Start b s (firstToken b s) := by
  by_cases colon : b = 58
  · subst colon
    exact .other (by decide)
  have number := orDelimStart colon fun r => @Start.number b s r
  have word := orDelimStart colon fun r => @Start.word b s r
  have string : (b == 34 || b == 39) → Start b s _ := fun quotes => .string (by simpa using quotes)
  unfold firstToken
  -- One case for each way to start a token, in the order in which they are tried.
  repeat' first
    | refine ifStart (fun _ => ?_) ?_
    | exact .sign colon
    | exact number
    | exact word
    | exact string ‹_›
    | exact .number ‹_›
    | exact .word ‹_›
    | exact .blank ‹_›
    | exact .comma (eq_of_beq ‹_›)
    | exact .comment (eq_of_beq ‹_›) rfl
    | exact .hash (eq_of_beq ‹_›) ‹_›
    | exact .custom (eq_of_beq ‹_›)
    | exact .other (by decide)
    | split

theorem urlRunKind (s) : (urlRun s).1 = .url ∨ (urlRun s).1 = .badUrl := by
  have ends : ∀ n, (urlEnd n s).1 = .url ∨ (urlEnd n s).1 = .badUrl := by
    intro n
    simp only [urlEnd]
    split <;> simp [brokenUrl]
  rw [urlRun]
  dsimp only
  split
  · simp
  split
  · split
    · simp [brokenUrl]
    · exact ends _
  split
  · exact ends _
  split
  · split
    · exact ends _
    · simp [brokenUrl]
  · simp [brokenUrl]

def numberKinds : List TokenKind := [.number,.percentage,.dimension]

def wordKinds : List TokenKind := [.ident,.function,.url,.badUrl]

theorem numericKinds {s r} (found : numeric s = some r) :
    r.1 ∈ numberKinds ∧ (r.1 = .number → startsNumber s ∧ r.2 = numberLength s) := by
  unfold numeric at found
  split at found
  · rename_i starts
    dsimp only at found
    split at found
    · cases found
      exact ⟨by simp [numberKinds],by simp⟩
    split at found
    · cases found
      exact ⟨by simp [numberKinds],fun _ => ⟨starts,rfl⟩⟩
    · cases found
      exact ⟨by simp [numberKinds],by simp⟩
  · cases found

theorem identLikeKinds {s r} (found : identLike s = some r) :
    r.1 ∈ wordKinds ∧ (r.1 = .ident → r.2 = identLength s) := by
  unfold identLike at found
  split at found
  · cases found
  rename_i k length
  dsimp only at found
  split at found
  · rename_i rest _
    split at found
    · cases found
      rcases urlRunKind rest with kind | kind <;> simp [kind,wordKinds]
    · cases found
      exact ⟨by simp [wordKinds],by simp⟩
  · cases found
    exact ⟨by simp [wordKinds],fun _ => length.symm⟩

section
variable {r : TokenKind × Nat} (start : Start b s r)
include start

theorem startTells : match r.1 with
    | .ident | .url => identLike (b :: s) = some r
    | .string => (b = 34 ∨ b = 39) ∧ stringRun b 0 s = (r.2 - 1,false)
    | .number => startsNumber (b :: s) ∧ r.2 = numberLength (b :: s)
    | .comma => b = 44
    | .whitespace | .comment => StartsBlank b s
    | _ => True := by
  cases start with
  | blank is => exact .inl is
  | comment is star => exact .inr ⟨is,star⟩
  | comma is => exact is
  | word found =>
    have words := (identLikeKinds found).1
    split <;> first | trivial | exact found | exact absurd (‹r.1 = _› ▸ words) (by decide)
  | number found =>
    obtain ⟨numbers,whole⟩ := numericKinds found
    split <;> first | trivial | exact whole ‹_› | exact absurd (‹r.1 = _› ▸ numbers) (by decide)
  | string quotes =>
    cases whole : (stringRun b 0 s).2 with
    | false => exact ⟨quotes,Prod.ext rfl whole⟩
    | true => trivial
  | @other kind n other => cases kind <;> trivial
  | _ => trivial

theorem startWord (kind : r.1 = .ident ∨ r.1 = .url) : identLike (b :: s) = some r := by
  have tells := startTells start
  rcases kind with kind | kind <;> rwa [kind] at tells

theorem startString (kind : r.1 = .string) : (b = 34 ∨ b = 39) ∧ stringRun b 0 s = (r.2 - 1,false) := by
  have tells := startTells start
  rwa [kind] at tells

theorem startNumber (kind : r.1 = .number) : startsNumber (b :: s) ∧ r.2 = numberLength (b :: s) := by
  have tells := startTells start
  rwa [kind] at tells

theorem startComma (kind : r.1 = .comma) : b = 44 := by
  have tells := startTells start
  rwa [kind] at tells

theorem startBlank (kind : r.1 = .whitespace ∨ r.1 = .comment) : StartsBlank b s := by
  have tells := startTells start
  rcases kind with kind | kind <;> rwa [kind] at tells

end

theorem startsBlankKind (starts : StartsBlank b s) : (firstToken b s).1 = .whitespace ∨ (firstToken b s).1 = .comment := by
  rcases starts with blank | ⟨rfl,star⟩
  · exact .inl (by simp [firstToken,blank])
  cases s with
  | nil => cases star
  | cons c s =>
    cases Option.some.inj star
    exact .inr (by simp [firstToken,isBlankByte])

theorem tokensAt (s) {front back t} (parts : tokens s = front ++ t :: back) :
    ∃ n b u, s.drop n = b :: u ∧ t = tokenAt b u (firstToken b u) ∧ back = tokens (u.drop ((firstToken b u).2 - 1)) := by
  match s with
  | [] => simp [tokens,tokensFrom] at parts
  | b :: s =>
    rw [tokensCons] at parts
    cases front with
    | nil =>
      obtain ⟨first,rest⟩ := List.cons.inj parts
      exact ⟨0,b,s,rfl,first.symm,rest.symm⟩
    | cons x front =>
      obtain ⟨n,c,u,suffix,token,rest⟩ := tokensAt _ (List.cons.inj parts).2
      rw [List.drop_drop,← List.drop_succ_cons (a := b)] at suffix
      exact ⟨_,c,u,suffix,token,rest⟩
termination_by s.length

end

end Cascade
