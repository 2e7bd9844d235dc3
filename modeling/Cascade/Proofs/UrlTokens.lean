import Cascade.Proofs.ClosedStrings

/-! Locations as tokens: a name, and between blanks a closed string or a text that can stand without quotes. -/
namespace Cascade
open List

def locationRule : PieceRule where
  plain b := b ∉ [34,39,40,41,92,127] ∧ 32 < b
  escaped b := isNewline b = false
  codes := True

def ClosedToken (kind : TokenKind) (t : Bytes) : Prop := ∀ rest, tokens (t ++ rest) = ⟨kind,t⟩ :: tokens rest

section
variable {b : UInt8} {s : Bytes}

theorem locationPlain : locationRule.plain b ↔
    b ≠ 41 ∧ b ≠ 92 ∧ (b == 34 || b == 39 || b == 40 || b ≤ 32 || b == 127) = false := by
  simp only [locationRule,mem_cons,not_mem_nil,or_false,not_or,Bool.or_eq_false_iff,beq_eq_false_iff_ne,
    decide_eq_false_iff_not,UInt8.not_le]
  grind

theorem locationScanner : Scanner locationStep locationRule where
  plain plain := by
    obtain ⟨closing,slash,other⟩ := locationPlain.mp plain
    simp only [locationStep,beq_false_of_ne closing,beq_false_of_ne slash,other,Bool.false_eq_true,if_false]
  other := by
    intro b s n slash move
    unfold locationStep at move
    split at move
    · cases move
    rename_i closing
    rw [if_neg (by simp [slash])] at move
    split at move
    · cases move
    · rename_i other
      cases move
      exact ⟨locationPlain.mpr ⟨by simpa using closing,slash,Bool.eq_false_iff.mpr other⟩,rfl⟩
  escape length := by simp [locationStep,escapeMove,length]
  newline := Or.inr ⟨fun escaped => escaped,fun length => ⟨0,false,by simp [locationStep,escapeMove,length]⟩⟩
  slash plain := plain.1 (by decide)
  line plain := by
    have above := plain.2
    simp only [isNewline,Bool.or_eq_false_iff,beq_eq_false_iff_ne]
    grind
  hex hex := by
    simp only [locationPlain,isHexDigit,isDigit] at *
    grind
  high high := by
    simp only [locationPlain]
    grind
  escaped line := line
  codes := trivial

theorem locationStarts {b} (pieces : Pieces locationRule (b :: s)) :
    isBlankByte b = false ∧ (b == 34 || b == 39) = false := by
  cases pieces with
  | byte plain =>
    obtain ⟨_,_,others⟩ := locationPlain.mp plain
    simp only [isBlankByte,Bool.or_eq_false_iff,beq_eq_false_iff_ne,decide_eq_false_iff_not] at others ⊢
    grind
  | pair | line | code => exact ⟨rfl,rfl⟩

end

section
variable {s : Bytes} {n : Nat}

theorem blankParts (s) : ∃ front back, s = front ++ back ∧ (∀ b ∈ front, isBlankByte b) ∧
    blankRun s = front.length ∧ ∀ b ∈ back.head?, isBlankByte b = false := by
  induction s with
  | nil => exact ⟨[],[],rfl,by simp,rfl,by simp⟩
  | cons b s ih =>
    cases blank : isBlankByte b with
    | false => exact ⟨[],b :: s,rfl,by simp,by simp [blankRun,blank],by simp [blank]⟩
    | true =>
      obtain ⟨front,back,rfl,blanks,run,solid⟩ := ih
      refine ⟨b :: front,back,rfl,forall_mem_cons.mpr ⟨blank,blanks⟩,?_,solid⟩
      rw [blankRun,takeWhile_cons_of_pos blank,length_cons,length_cons,← run]
      rfl

theorem urlEndFound {taken front back} (parts : s = front ++ back) (size : taken = front.length)
    (found : urlEnd taken s = (.url,n)) :
    n = s.length ∨ ∃ trail rest, back = trail ++ 41 :: rest ∧ (∀ b ∈ trail, isBlankByte b) ∧
      n = taken + trail.length + 1 := by
  obtain ⟨trail,back,rfl,blanks,run,_⟩ := blankParts back
  rw [urlEnd,parts,size,drop_left,run,drop_length_add_append,drop_left] at found
  split at found
  · cases found
    exact .inl (by simp [parts])
  · cases found
    exact .inr ⟨trail,_,rfl,blanks,by rw [size]⟩
  · cases found

theorem locationHalts (halts : Halts locationStep s) : ∃ done, scan locationStep true 0 s = (0,done) := by
  cases halts with
  | nil => exact ⟨true,rfl⟩
  | slash => exact ⟨false,rfl⟩
  | @halt b s taken done move =>
    have bare : taken = 0 := by
      unfold locationStep escapeMove at move
      repeat' split at move
      all_goals
        cases move
      all_goals rfl
    exact ⟨done,by simp only [scan,move,bare]⟩

inductive Inside : Bytes → Prop where
  | quoted {string : Bytes} (closed : ClosedString True string) : Inside string
  | bare {location : Bytes} (pieces : Pieces locationRule location) : Inside location

structure Located (s : Bytes) (n : Nat) (lead mid trail rest : Bytes) : Prop where
  parts : s = lead ++ (mid ++ (trail ++ 41 :: rest))
  before : ∀ b ∈ lead, isBlankByte b = true
  inside : Inside mid
  after : ∀ b ∈ trail, isBlankByte b = true
  size : n = lead.length + mid.length + trail.length + 1

section
variable {c : UInt8} {lead more : Bytes} (blanks : ∀ b ∈ lead, isBlankByte b = true)
include blanks

theorem quotedFound (quotes : c = 34 ∨ c = 39) (whole : Whole more) (unbroken : (stringRun c 0 more).2 = false)
    (found : urlEnd (lead.length + 1 + (stringRun c 0 more).1) (lead ++ c :: more) = (.url,n)) :
    n = (lead ++ c :: more).length ∨ ∃ mid trail rest, Located (lead ++ c :: more) n lead mid trail rest := by
  rcases stringRunFound quotes whole unbroken with all | ⟨front,back,rfl,pieces,run⟩
  · rw [all] at found
    refine .inl ((urlEndFound (append_nil _).symm ?_ found).resolve_right ?_)
    · simp only [length_append,length_cons]
      omega
    · rintro ⟨trail,rest,bare,_⟩
      simp at bare
  · rw [run] at found
    have parts : lead ++ c :: (front ++ c :: back) = (lead ++ c :: (front ++ [c])) ++ back := by simp
    rcases urlEndFound parts (by simp; omega) found with all | ⟨trail,rest,rfl,after,size⟩
    · exact .inl all
    · refine .inr ⟨c :: (front ++ [c]),trail,rest,by simp,blanks,.quoted ⟨c,front,quotes,pieces,rfl⟩,after,?_⟩
      simp only [size,length_cons,length_append,length_nil]
      omega

theorem bareFound (whole : Whole (c :: more))
    (found : unquotedUrl lead.length (locationRun 0 (c :: more)) (lead ++ c :: more) = (.url,n)) :
    n = (lead ++ c :: more).length ∨ ∃ mid trail rest, Located (lead ++ c :: more) n lead mid trail rest := by
  obtain ⟨front,back,parts,pieces,halts,run⟩ := scanFound locationScanner (c :: more) whole
  obtain ⟨done,halted⟩ := locationHalts halts
  rw [locationRunScan,run,halted,unquotedUrl,parts] at found
  rw [parts]
  cases done with
  | true =>
    rcases urlEndFound (append_assoc _ _ _).symm (by simp [later]) found with all | ⟨trail,rest,same,after,size⟩
    · exact .inl all
    · refine .inr ⟨front,trail,rest,by rw [same],blanks,.bare pieces,after,?_⟩
      simp only [size,later,Nat.add_zero]
  | false =>
    have place : (lead ++ (front ++ back)).drop (lead.length + front.length) = back := by
      rw [drop_length_add_append,drop_left]
    simp only [later,Nat.add_zero,Bool.false_eq_true,if_false,place] at found
    split at found
    · rename_i b back
      split at found
      · rename_i blank
        have cut : lead ++ (front ++ b :: back) = (lead ++ (front ++ [b])) ++ back := by simp
        rcases urlEndFound cut (by simp; omega) found with all | ⟨trail,rest,rfl,after,size⟩
        · exact .inl all
        · refine .inr ⟨front,b :: trail,rest,by simp,blanks,.bare pieces,forall_mem_cons.mpr ⟨blank,after⟩,?_⟩
          simp only [size,length_cons]
          omega
      · cases found
    · cases found

end

theorem urlRunFound (whole : Whole s) (found : urlRun s = (.url,n)) :
    n = s.length ∨ ∃ lead mid trail rest, Located s n lead mid trail rest := by
  obtain ⟨lead,back,rfl,blanks,run,_⟩ := blankParts s
  cases back with
  | nil =>
    rw [urlRun,run,drop_left] at found
    cases found
    exact .inl (by simp)
  | cons c more =>
    have behind : Whole (c :: more) := wholeSuffix whole
    rw [urlRunCons (by rw [run,drop_left]),run] at found
    split at found
    · rename_i quotes
      split at found
      · cases found
      rename_i unbroken
      rcases quotedFound blanks (by simpa using quotes) (wholeDrop behind 1) (by simpa using unbroken) found with all | full
      · exact .inl all
      · exact .inr ⟨lead,full⟩
    · rcases bareFound blanks behind found with all | full
      · exact .inl all
      · exact .inr ⟨lead,full⟩

theorem identLikeUrl (found : identLike s = some (.url,n)) :
    ∃ name rest m, s = name ++ 40 :: rest ∧ isUrlName name ∧ urlRun rest = (.url,m) ∧ n = name.length + 1 + m := by
  by_cases word : identLength s = 0
  · rw [identLikeNone word] at found
    cases found
  by_cases opens : (s.drop (identLength s)).head? = some 40
  · obtain ⟨rest,opens⟩ : ∃ rest, s.drop (identLength s) = 40 :: rest := by
      cases back : s.drop (identLength s) with
      | nil => simp [back] at opens
      | cons c rest =>
        rw [back] at opens
        cases opens
        exact ⟨rest,rfl⟩
    rw [identLikeCall word opens,callToken] at found
    split at found
    · rename_i url
      cases run : urlRun rest with
      | mk kind m =>
        rw [run] at found
        cases found
        refine ⟨s.take (identLength s),rest,m,?_,url,run,rfl⟩
        rw [← opens,take_append_drop]
    · cases found
  · rw [identLikeWord word opens] at found
    cases found

end

structure UrlForm (t name lead mid trail : Bytes) : Prop where
  parts : t = name ++ 40 :: (lead ++ (mid ++ (trail ++ [41])))
  named : isUrlName name = true
  before : ∀ b ∈ lead, isBlankByte b = true
  inside : Inside mid
  after : ∀ b ∈ trail, isBlankByte b = true

theorem closedFirst {kind t} (closed : ClosedToken kind t) : ∃ b s, t = b :: s ∧
    ∀ c rest, (firstToken b (s ++ c :: rest)).1 = kind ∧ (firstToken b (s ++ c :: rest)).2 - 1 = s.length := by
  cases t with
  | nil => cases closed []
  | cons b s =>
    refine ⟨b,s,rfl,fun c rest => ?_⟩
    have cut := closed (c :: rest)
    rw [cons_append,tokensCons] at cut
    obtain ⟨same,text⟩ := Token.mk.inj (List.cons.inj cut).1
    have length := congrArg List.length (List.cons.inj text).2
    simp only [length_take,length_append,length_cons] at length
    exact ⟨same,by omega⟩

theorem closedForm {t} (closed : ClosedToken .url t) (complete : Complete t) :
    ∃ name lead mid trail, UrlForm t name lead mid trail := by
  obtain ⟨b,s,rfl,first⟩ := closedFirst closed
  obtain ⟨kind,length⟩ := first 59 []
  have word := startWord (firstTokenStart b (s ++ [59])) (.inr kind)
  cases cut : firstToken b (s ++ [59]) with
  | mk found n =>
    rw [cut] at kind length word
    cases kind
    obtain ⟨name,rest,m,parts,named,run,size⟩ := identLikeUrl word
    have total := congrArg List.length parts
    simp only [length_cons,length_append,length_nil] at total length
    have whole : Whole (b :: s ++ [59]) := completeWhole complete (textWhole 0 rfl (by simp))
    rw [cons_append,parts] at whole
    have behind : Whole rest := wholeDrop (wholeSuffix whole) 1
    rcases urlRunFound behind run with all | ⟨lead,mid,trail,more,located⟩
    · omega
    have cut : b :: s ++ [59] = name ++ 40 :: (lead ++ (mid ++ (trail ++ [41]))) ++ more := by
      rw [cons_append,parts,located.parts]
      simp
    have same : (b :: s).length = (name ++ 40 :: (lead ++ (mid ++ (trail ++ [41])))).length := by
      have inner := located.size
      simp only [length_cons,length_append,length_nil]
      omega
    exact ⟨name,lead,mid,trail,append_inj_left cut same,named,located.before,located.inside,located.after⟩

end Cascade
