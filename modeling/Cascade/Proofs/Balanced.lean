import Cascade.Token.Brackets
import Mathlib.Data.List.DropRight

/-! Tokens whose brackets pair up. A block ends behind them where it ends without them, and
their own separators stand inside of blocks. -/
namespace Cascade
open List

variable {ts : List Token} {t : Token} {n m : Nat}

def leftParen : Token := ⟨.leftParen,[40]⟩

def rightParen : Token := ⟨.rightParen,[41]⟩

def leftBracket : Token := ⟨.leftBracket,[91]⟩

def rightBracket : Token := ⟨.rightBracket,[93]⟩

/- The bracket level behind tokens, if no block is closed that was not opened and no token
that is barred stands outside of all blocks. -/
def levelOver (bars : Token → Bool) : Nat → List Token → Option Nat
  | n,[] => some n
  | n,t :: ts =>
    if t.opens then levelOver bars (n + 1) ts
    else if t.closes then
      match n with
      | 0 => none
      | n + 1 => levelOver bars n ts
    else if bars t && n == 0 then none
    else levelOver bars n ts

def Balanced (ts : List Token) : Prop := levelOver (fun _ => false) 0 ts = some 0

def OnePart (sep : TokenKind) (ts : List Token) : Prop := levelOver (·.kind = sep) 0 ts = some 0

instance (ts : List Token) : Decidable (Balanced ts) := inferInstanceAs (Decidable (_ = _))

instance (sep : TokenKind) (ts : List Token) : Decidable (OnePart sep ts) := inferInstanceAs (Decidable (_ = _))

section
variable {bars : Token → Bool}

theorem levelAppend (n ts us) :
    levelOver bars n (ts ++ us) = (levelOver bars n ts).bind fun m => levelOver bars m us := by
  fun_induction levelOver bars n ts <;> simp_all [levelOver]

theorem levelCases (level : levelOver bars n (t :: ts) = some m) :
    (t.opens ∧ t.closes = false ∧ levelOver bars (n + 1) ts = some m) ∨
    (t.opens = false ∧ t.closes ∧ ∃ k, n = k + 1 ∧ levelOver bars k ts = some m) ∨
    (t.opens = false ∧ t.closes = false ∧ (bars t && n == 0) = false ∧ levelOver bars n ts = some m) := by
  rw [levelOver.eq_def] at level
  dsimp only at level
  cases opens : t.opens with
  | true => exact .inl ⟨rfl,Token.notClosesOfOpens opens,by simpa [opens] using level⟩
  | false =>
    rw [opens,if_neg Bool.false_ne_true] at level
    refine .inr ?_
    cases closes : t.closes with
    | true =>
      rw [closes,if_pos rfl] at level
      cases n with
      | zero => cases level
      | succ k => exact .inl ⟨rfl,rfl,k,rfl,level⟩
    | false =>
      rw [closes,if_neg Bool.false_ne_true] at level
      cases barred : bars t && n == 0 with
      | true => simp [barred] at level
      | false => exact .inr ⟨rfl,rfl,rfl,by simpa [barred] using level⟩

theorem levelRaised {inner} (k) (free : k = 0 → ∀ t, inner t = false) (level : levelOver bars n ts = some m) :
    levelOver inner (n + k) ts = some (m + k) := by
  induction ts generalizing n with
  | nil => cases level; rfl
  | cons t ts ih =>
    rcases levelCases level with ⟨opens,_,deeper⟩ | ⟨opens,closes,j,rfl,back⟩ | ⟨opens,closes,_,stays⟩
    · have deeper := ih deeper
      rw [Nat.add_right_comm] at deeper
      simp [levelOver,opens,deeper]
    · rw [Nat.add_right_comm]
      simp [levelOver,opens,closes,ih back]
    · have unbarred : (inner t && n + k == 0) = false := by cases k <;> simp [free]
      simp [levelOver,opens,closes,unbarred,ih stays]

theorem levelInside {inner} (level : levelOver bars n ts = some m) : levelOver inner (n + 1) ts = some (m + 1) :=
  levelRaised 1 nofun level

theorem levelBalanced (level : levelOver bars n ts = some m) : levelOver (fun _ => false) n ts = some m :=
  levelRaised 0 (fun _ _ => rfl) level

theorem notOpens (closes : t.closes) : t.opens = false := by
  refine Bool.eq_false_iff.mpr fun opens => ?_
  rw [Token.notClosesOfOpens opens] at closes
  cases closes

theorem levelJoin {us} (first : levelOver bars 0 ts = some 0) (second : levelOver bars 0 us = some 0) :
    levelOver bars 0 (ts ++ us) = some 0 := by
  rw [levelAppend,first]
  exact second

theorem levelBlock {opening closing} (opens : opening.opens) (closes : closing.closes)
    (inside : Balanced ts) : levelOver bars 0 (opening :: (ts ++ [closing])) = some 0 := by
  rw [levelOver,if_pos opens,levelAppend,levelInside inside]
  simp [levelOver,notOpens closes,closes]

theorem levelFlatten {parts : List (List Token)}
    (each : ∀ p ∈ parts, levelOver bars 0 p = some 0) : levelOver bars 0 parts.flatten = some 0 := by
  induction parts with
  | nil => rfl
  | cons p ps ih => exact levelJoin (each p mem_cons_self) (ih fun q mem => each q (mem_cons_of_mem p mem))

theorem untilCloseLevel (level : levelOver bars n ts = some m) (us) :
    untilClose n (ts ++ us) = (ts ++ (untilClose m us).1,(untilClose m us).2) := by
  induction ts generalizing n with
  | nil => cases level; rfl
  | cons t ts ih =>
    rw [cons_append,untilClose]
    rcases levelCases level with ⟨opens,closes,deeper⟩ | ⟨opens,closes,k,rfl,back⟩ | ⟨opens,closes,_,stays⟩
    · simp [opens,closes,ih deeper]
    · simp [opens,closes,ih back]
    · simp [opens,closes,ih stays]

end

theorem untilCloseBalanced (balanced : Balanced ts) {closing} (closes : closing.closes)
    (us) : untilClose 0 (ts ++ closing :: us) = (ts,closing :: us) := by
  rw [untilCloseLevel balanced,untilClose,if_pos ⟨closes,rfl⟩,append_nil]

theorem untilCloseParen (balanced : Balanced ts) (us) : untilClose 0 (ts ++ rightParen :: us) = (ts,rightParen :: us) :=
  untilCloseBalanced balanced rfl us

theorem balancedIntercalate {parts} (each : ∀ p ∈ parts, Balanced p) : Balanced ([Token.comma].intercalate parts) := by
  induction parts with
  | nil => rfl
  | cons p ps ih =>
    have first : Balanced p := each p mem_cons_self
    cases ps with
    | nil => rwa [intercalate_singleton]
    | cons q ps =>
      rw [intercalate_cons_cons]
      exact levelJoin (levelJoin first rfl) (ih fun r mem => each r (mem_cons_of_mem p mem))

def Token.isPlain (t : Token) : Bool := !t.opens && !t.closes && t.kind ≠ .comma

theorem partCons (plain : t.isPlain) (part : OnePart .comma ts) : OnePart .comma (t :: ts) := by
  simp only [Token.isPlain,Bool.and_eq_true,Bool.not_eq_true',decide_eq_true_eq] at plain
  rw [OnePart] at part ⊢
  simp [levelOver,plain,part]

section
variable {sep : TokenKind} {ts : List Token}

theorem splitLevel (level : levelOver (·.kind = sep) n ts = some m) (us) :
    splitTokens sep n (ts ++ us) = ts.foldr consPart (splitTokens sep m us) := by
  induction ts generalizing n with
  | nil => cases level; rfl
  | cons t ts ih =>
    rw [cons_append,splitTokens,foldr_cons]
    rcases levelCases level with ⟨opens,closes,deeper⟩ | ⟨opens,closes,k,rfl,back⟩ | ⟨opens,closes,other,stays⟩
    · rw [← ih deeper]
      simp [opens,Token.depth]
    · have level : ((k + 1 : Nat) : Int) + t.depth = k := by
        simp only [Token.depth,opens,closes,if_true,Bool.false_eq_true,if_false]
        omega
      rw [← ih back,level]
      simp [closes]
    · have part : ¬(t.kind = sep ∧ (n : Int) = 0) := by simpa using other
      rw [← ih stays,if_neg part]
      simp [opens,closes]

theorem consParts (p ps) : ts.foldr consPart (p :: ps) = (ts ++ p) :: ps := by
  induction ts with
  | nil => rfl
  | cons t ts ih => rw [foldr_cons,ih]; rfl

theorem consPartsNil (full : ts ≠ []) : ts.foldr consPart [] = [ts] := by
  cases ts using List.reverseRecOn with
  | nil => exact absurd rfl full
  | append_singleton ts t => rw [foldr_append]; exact consParts [t] []

theorem splitOne (one : OnePart sep ts) (full : ts ≠ []) : splitTokens sep 0 ts = [ts] := by
  have whole := splitLevel one []
  rw [append_nil] at whole
  exact whole.trans (consPartsNil full)

theorem splitFirst (one : OnePart sep ts) (plain : t.opens = false ∧ t.closes = false) (separates : t.kind = sep)
    (us) : splitTokens sep 0 (ts ++ t :: us) = ts :: splitTokens sep 0 us := by
  have cut := splitLevel one (t :: us)
  rw [Int.ofNat_zero,splitTokens,plain.1,plain.2,if_neg (by decide),if_pos ⟨separates,rfl⟩,consParts,
    append_nil] at cut
  exact cut

end

theorem commaPartsJoin {parts} (each : ∀ p ∈ parts, OnePart .comma p ∧ p ≠ []) :
    commaParts ([Token.comma].intercalate parts) = parts := by
  induction parts with
  | nil => rfl
  | cons p ps ih =>
    obtain ⟨one,full⟩ := each p mem_cons_self
    cases ps with
    | nil =>
      rw [intercalate_singleton]
      exact splitOne one full
    | cons q ps =>
      rw [intercalate_cons_cons,append_assoc]
      refine (splitFirst one ⟨rfl,rfl⟩ rfl _).trans ?_
      exact congrArg (p :: ·) (ih fun r mem => each r (mem_cons_of_mem p mem))

section
variable {t : Token} {ts : List Token}

theorem trimEndConcat (t : Token) (ts) :
    trimEnd (ts ++ [t]) = if t.isBlank then trimEnd ts else ts ++ [t] := rdropWhile_concat ..

theorem trimEndCons (t ts) : trimEnd (t :: ts) = if t.isBlank && (trimEnd ts).isEmpty then [] else t :: trimEnd ts := by
  induction ts using List.reverseRecOn with
  | nil => exact (trimEndConcat t []).trans (by simp [trimEnd])
  | append_singleton ts u ih =>
    rw [← cons_append,trimEndConcat,trimEndConcat]
    split
    · exact ih
    · simp

theorem trimTokensBlank (blank : t.isBlank) : trimTokens (t :: ts) = trimTokens ts := by
  simp [trimTokens,blank]

theorem trimTokensSolid (solid : t.isBlank = false) : trimTokens (t :: ts) = t :: trimEnd ts := by
  have whole : trimTokens (t :: ts) = trimEnd (t :: ts) := by simp [trimTokens,solid]
  rw [whole,trimEndCons,solid]
  rfl

theorem trimEndTwice (ts) : trimEnd (trimEnd ts) = trimEnd ts := rdropWhile_idempotent ..

theorem trimTokensEnd (ts) : trimTokens (trimEnd ts) = trimTokens ts := by
  induction ts with
  | nil => rfl
  | cons t ts ih =>
    rw [trimEndCons]
    cases blank : t.isBlank with
    | false => rw [Bool.false_and,if_neg Bool.false_ne_true,trimTokensSolid blank,trimTokensSolid blank,trimEndTwice]
    | true =>
      rw [Bool.true_and,trimTokensBlank blank,← ih]
      split
      · rename_i bare
        rw [List.isEmpty_iff.mp bare]
      · exact trimTokensBlank blank

theorem trimEndSolid (solid : t.isBlank = false) (ts us) : trimEnd (ts ++ t :: us) = ts ++ t :: trimEnd us := by
  induction ts with
  | nil => rw [nil_append,trimEndCons,solid]; rfl
  | cons u ts ih => rw [cons_append,trimEndCons,ih]; simp

end

def Blanks (ts : List Token) : Prop := ∀ t ∈ ts, t.isBlank = true

theorem trimTokensNone (bare : trimTokens ts = []) : Blanks ts := by
  induction ts with
  | nil => exact forall_mem_nil _
  | cons t ts ih =>
    cases blank : t.isBlank with
    | false => rw [trimTokensSolid blank] at bare; cases bare
    | true =>
      rw [trimTokensBlank blank] at bare
      exact forall_mem_cons.mpr ⟨blank,ih bare⟩

theorem trimTokensFirst {us} (first : trimTokens ts = t :: us) :
    ∃ blanks rest, ts = blanks ++ t :: rest ∧ Blanks blanks ∧ t.isBlank = false ∧ us = trimEnd rest := by
  induction ts with
  | nil => cases first
  | cons u ts ih =>
    cases blank : u.isBlank with
    | false =>
      rw [trimTokensSolid blank] at first
      obtain ⟨rfl,rfl⟩ := List.cons.inj first
      exact ⟨[],ts,rfl,forall_mem_nil _,blank,rfl⟩
    | true =>
      rw [trimTokensBlank blank] at first
      obtain ⟨blanks,rest,rfl,before,solid,tail⟩ := ih first
      exact ⟨u :: blanks,rest,rfl,forall_mem_cons.mpr ⟨blank,before⟩,solid,tail⟩

theorem blanksBalanced (blanks : Blanks ts) : Balanced ts := by
  induction ts with
  | nil => rfl
  | cons t ts ih =>
    obtain ⟨blank,rest⟩ := forall_mem_cons.mp blanks
    have plain : t.opens = false ∧ t.closes = false := by
      simp only [Token.isBlank,Bool.or_eq_true,decide_eq_true_eq] at blank
      rcases blank with kind | kind <;> simp [Token.opens,Token.closes,kind]
    have inner : levelOver (fun _ => false) 0 ts = some 0 := ih rest
    rw [Balanced,levelOver,plain.1,plain.2]
    simpa using inner

section
variable {ts blanks : List Token} (blank : Blanks blanks)
include blank

theorem trimBefore : trimTokens (blanks ++ ts) = trimTokens ts := by
  induction blanks with
  | nil => rfl
  | cons t blanks ih =>
    obtain ⟨first,rest⟩ := forall_mem_cons.mp blank
    exact (trimTokensBlank first).trans (ih rest)

theorem trimBehind : trimEnd (ts ++ blanks) = trimEnd ts := by
  induction blanks using List.reverseRecOn with
  | nil => rw [append_nil]
  | append_singleton blanks t ih =>
    have last : t.isBlank := blank t (by simp)
    rw [← append_assoc,trimEndConcat,if_pos last]
    exact ih fun u mem => blank u (mem_append_left _ mem)

theorem trimmedPad : trimTokens (ts ++ blanks) = trimTokens ts := by
  rw [← trimTokensEnd,trimBehind blank,trimTokensEnd]

end

theorem trimmedEnd (solid : t.isBlank = false) (ts) : ∃ front, trimTokens (ts ++ [t]) = front ++ [t] := by
  induction ts with
  | nil => exact ⟨[],by rw [nil_append,trimTokensSolid solid]; rfl⟩
  | cons u ts ih =>
    cases blank : u.isBlank with
    | true =>
      rw [cons_append,trimTokensBlank blank]
      exact ih
    | false => exact ⟨u :: ts,by rw [cons_append,trimTokensSolid blank,trimEndConcat,solid]; rfl⟩

theorem trimmedLast {mark} (last : (trimTokens ts).getLast? = some mark) :
    ∃ before pad, ts = before ++ mark :: pad ∧ Blanks pad := by
  induction ts using List.reverseRecOn with
  | nil => cases last
  | append_singleton ts t ih =>
    cases blank : t.isBlank with
    | true =>
      have one : Blanks [t] := forall_mem_singleton.mpr blank
      rw [trimmedPad one] at last
      obtain ⟨before,pad,rfl,blanks⟩ := ih last
      exact ⟨before,pad ++ [t],by simp,forall_mem_append.mpr ⟨blanks,one⟩⟩
    | false =>
      obtain ⟨front,same⟩ := trimmedEnd blank ts
      rw [same,getLast?_concat] at last
      exact ⟨ts,[],by rw [Option.some.inj last],forall_mem_nil _⟩

end Cascade
