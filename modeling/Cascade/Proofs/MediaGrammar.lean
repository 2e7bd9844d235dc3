import Cascade.Media.Reader
import Cascade.Proofs.LowerCase
import Cascade.Proofs.SelectorText

/-! What media queries test by their grammar, and how the reader takes each of them apart. -/
namespace Cascade
open List MediaQuery

variable {ps : List MediaPiece} {keyword : String} {w : Bytes}

inductive MediaPiece where
  | word (text : Bytes)
  | block (inside : List Token)

def mediaPieces (ts : List Token) : Option (List MediaPiece) :=
  match ts with
  | [] => some []
  | t :: rest =>
    if t.isBlank then mediaPieces rest
    else if t.kind = .ident then (mediaPieces rest).map (.word t.text :: ·)
    else if t.kind = .leftParen ∧ (untilClose 0 rest).2.head?.map Token.kind = some .rightParen then
      (mediaPieces ((untilClose 0 rest).2.drop 1)).map (.block (untilClose 0 rest).1 :: ·)
    else none
termination_by ts.length
decreasing_by
  all_goals
    have behind := behindLength 0 rest
    simp only [length_cons]
    omega

/- What a media query tests: a medium with features or features alone, or else that a feature
is missing or that any is there. -/
inductive MediaTest where
  | medium (negated : Bool) (type : Bytes) (features : List (List Token))
  | every (features : List (List Token))
  | negation (feature : List Token)
  | any (features : List (List Token))

def MediaTest.blocks : MediaTest → List (List Token)
  | .medium _ _ features | .every features | .any features => features
  | .negation feature => [feature]

def MediaTest.holds (types : Bytes → Bool) (features : List Token → Bool) : MediaTest → Bool
  | .medium negated type bs => (types type && bs.all features) != negated
  | .every bs => bs.all features
  | .negation b => !features b
  | .any bs => bs.any features

def isKeyword (keyword : String) (word : Bytes) : Bool := sameLetters word (ascii keyword)

def reservedWords : List Bytes := [ascii "and",ascii "or",ascii "not",ascii "only"]

def blocksBehind (keyword : String) : List MediaPiece → Option (List (List Token))
  | [] => some []
  | .word w :: .block b :: ps =>
    if isKeyword keyword w then (blocksBehind keyword ps).map (b :: ·) else none
  | _ => none

def readMedium (negated : Bool) (type : Bytes) (ps : List MediaPiece) : Option MediaTest :=
  if reservedWords.contains (lower type) then none else (blocksBehind "and" ps).map (.medium negated type)

def MediaTest.ofPieces : List MediaPiece → Option MediaTest
  | [] => none
  | .block b :: ps =>
    match blocksBehind "and" ps with
    | some bs => some (.every (b :: bs))
    | none => (blocksBehind "or" ps).map fun bs => .any (b :: bs)
  | [.word w] => readMedium false w []
  | .word w :: .block b :: ps => if isKeyword "not" w ∧ ps.isEmpty then some (.negation b) else none
  | .word w :: .word v :: ps =>
    if isKeyword "not" w then readMedium true v ps
    else if isKeyword "only" w then readMedium false v ps
    else readMedium false w (.word v :: ps)

open MediaTest (ofPieces)

def readTest (ts : List Token) : Option MediaTest := (mediaPieces ts).bind ofPieces

def meaning (types : Bytes → Bool) (features : List Token → Bool) (ts : List Token) : Option Bool :=
  (readTest ts).map (MediaTest.holds types features)

section
variable {w k : Bytes}

theorem letterCase (same : sameLetters w k) (plain : k.all (· < 0x80)) (small : lowerAscii k = k) : lower w = k := by
  rw [sameLetters,small,beq_iff_eq] at same
  have letters : w.all (· < 0x80) := by
    rw [← same,lowerAscii,all_map,all_eq_true] at plain
    refine all_eq_true.mpr fun b mem => ?_
    have low := plain b mem
    simp only [Function.comp_apply,decide_eq_true_eq] at low ⊢
    exact lowerByteSmall low
  rw [lowerOfAscii letters,same]

theorem keywordLower (known : ascii keyword ∈ reservedWords) (is : isKeyword keyword w) : lower w = ascii keyword := by
  refine letterCase is ?_ ?_ <;>
    simp only [reservedWords,mem_cons,not_mem_nil,or_false] at known <;>
    rcases known with same | same | same | same <;> rw [same] <;> decide

theorem keywordLetters (known : ascii keyword ∈ reservedWords) (is : isKeyword keyword w) :
    w ≠ [] ∧ w.all isLetter := by
  have small : (lowerAscii w) ≠ [] ∧ (lowerAscii w).all isLowerLetter := by
    rw [isKeyword,sameLetters,beq_iff_eq] at is
    rw [is]
    simp only [reservedWords,mem_cons,not_mem_nil,or_false] at known
    rcases known with same | same | same | same <;> rw [same] <;> decide
  refine ⟨fun bare => small.1 (by simp [bare,lowerAscii]),?_⟩
  rw [lowerAscii,all_map,all_eq_true] at small
  refine all_eq_true.mpr fun b mem => ?_
  have low := small.2 b mem
  simp only [Function.comp_apply,lowerByte] at low
  simp only [isLetter,Bool.or_eq_true]
  split at low
  · exact .inr (by assumption)
  · exact .inl low

theorem lettersRun {rest} (letters : w.all isLetter)
    (breaks : ∀ b ∈ rest.head?, breaksName b) : nameRun 0 (w ++ rest) = w.length := by
  induction w with
  | nil =>
    cases rest with
    | nil => rfl
    | cons b rest =>
      have stop := breaks b rfl
      simp only [breaksName,Bool.and_eq_true,Bool.not_eq_true',bne] at stop
      simp [nameRun,stop]
  | cons b w ih =>
    rw [all_cons,Bool.and_eq_true] at letters
    simp [nameRun,isNameByte,isNameStart,letters.1,ih letters.2]

theorem lettersName {rest} (full : w ≠ []) (letters : w.all isLetter)
    (breaks : ∀ b ∈ rest.head?, breaksName b) : EndsName w rest := by
  refine ⟨full,breaks,?_⟩
  cases w with
  | nil => exact absurd rfl full
  | cons b w =>
    rw [all_cons,Bool.and_eq_true] at letters
    have plain : b ≠ 45 := by
      rintro rfl
      exact absurd letters.1 (by decide)
    have run : nameRun 0 (w ++ rest.take 1) = w.length :=
      lettersRun letters.2 fun c mem => breaks c (by cases rest <;> exact mem)
    rw [cons_append,identLengthPlain plain]
    simp [plainIdentLength,isNameStart,letters.1,run]

end

section

def MediaQuery.add (m : MediaQuery) : MediaPiece → MediaQuery
  | .word w => m.word w
  | .block b => { m with features := m.features ++ [readFeature b] }

theorem readPieces (m) {ts} (h : mediaPieces ts = some ps) : readQueryFrom m ts = some (ps.foldl add m) := by
  fun_induction mediaPieces ts generalizing m ps with
  | case1 =>
    cases h
    rw [readQueryFrom]
    rfl
  | case2 t rest blank ih =>
    rw [readQueryFrom,if_pos blank]
    exact ih m h
  | case3 t rest solid word ih =>
    obtain ⟨qs,found,rfl⟩ := Option.map_eq_some_iff.mp h
    rw [readQueryFrom,if_neg solid,if_pos word]
    exact ih (m.word t.text) found
  | case4 t rest solid other opens ih =>
    obtain ⟨qs,found,rfl⟩ := Option.map_eq_some_iff.mp h
    rw [readQueryFrom,if_neg solid,if_neg other,if_pos opens.1]
    exact ih _ found
  | case5 => cases h

variable {m : MediaQuery} {ps : List MediaPiece} {bs : List (List Token)}

theorem wordAnd (is : isKeyword "and" w) : m.word w = m := by
  rw [word]
  exact if_pos (keywordLower (by decide) is)

theorem wordOr (is : isKeyword "or" w) : m.word w = { m with medium := w } := by
  simp only [word,keywordLower (by decide : ascii "or" ∈ reservedWords) is]
  rw [if_neg (by decide),if_neg fun other => absurd other.2.2 (by decide)]

theorem addedAnd (h : blocksBehind "and" ps = some bs) :
    ps.foldl add m = { m with features := m.features ++ bs.map readFeature } := by
  fun_induction blocksBehind "and" ps generalizing m bs with
  | case1 =>
    cases h
    simp
  | case2 w b ps is ih =>
    obtain ⟨cs,found,rfl⟩ := Option.map_eq_some_iff.mp h
    simp [add,wordAnd is,ih found]
  | case3 | case4 => cases h

theorem addedOr (h : blocksBehind "or" ps = some bs) : ∃ w, (isKeyword "or" w ∨ bs = [] ∧ w = m.medium) ∧
    ps.foldl add m = { m with medium := w,features := m.features ++ bs.map readFeature } := by
  fun_induction blocksBehind "or" ps generalizing m bs with
  | case1 =>
    cases h
    exact ⟨m.medium,.inr ⟨rfl,rfl⟩,by simp⟩
  | case2 w b ps is ih =>
    obtain ⟨cs,found,rfl⟩ := Option.map_eq_some_iff.mp h
    obtain ⟨v,known,same⟩ := @ih ((m.word w).add (.block b)) cs found
    refine ⟨v,.inl ?_,?_⟩
    · rcases known with other | ⟨_,rfl⟩
      · exact other
      · rw [wordOr is]
        exact is
    · rw [wordOr is] at same
      simp [add,wordOr is] at same ⊢
      exact same
  | case3 | case4 => cases h

end

def Restricts (negated : Bool) (w : Bytes) : Prop :=
  w = [] ∧ negated = false ∨ isKeyword "not" w = true ∧ negated = true ∨ isKeyword "only" w = true ∧ negated = false

def MediaTest.Spelled (m : MediaQuery) : MediaTest → Prop
  | .medium negated type _ =>
    m.medium ∈ [type,lower type] ∧ lower type ∉ reservedWords ∧ Restricts negated m.restrictor
  | .every bs => m.medium = [] ∧ bs ≠ []
  | .negation _ => m.medium = []
  | .any bs => isKeyword "or" m.medium = true ∧ m.restrictor = [] ∧ bs ≠ []

theorem wordMedium {m : MediaQuery} (free : lower w ∉ reservedWords) : m.word w = { m with medium := w } := by
  simp only [reservedWords,mem_cons,not_mem_nil,or_false,not_or] at free
  rw [word]
  simp [free]

theorem wordRestrictor (is : lower w = ascii "not" ∨ lower w = ascii "only") :
    word ⟨[],[],[]⟩ w = ⟨w,[],[]⟩ := by
  have other : lower w ≠ ascii "and" := by rcases is with same | same <;> rw [same] <;> decide
  simp [word,other,is.symm]

theorem mediumRead {negated type r test} (restricts : Restricts negated r)
    (h : readMedium negated type ps = some test) :
    ∃ m, ps.foldl add (word ⟨r,[],[]⟩ type) = m ∧
      m.features = test.blocks.map readFeature ∧ test.Spelled m := by
  rw [readMedium] at h
  split at h
  · cases h
  rename_i free
  rw [contains_iff_mem] at free
  obtain ⟨bs,found,rfl⟩ := Option.map_eq_some_iff.mp h
  rw [wordMedium free,addedAnd found]
  exact ⟨_,rfl,nil_append _,mem_cons_self,free,restricts⟩

theorem blocksNone (h : blocksBehind keyword ps = some []) : ps = [] := by
  rw [blocksBehind.eq_def] at h
  split at h
  · rfl
  · split at h <;> simp at h
  · cases h

theorem testRead {test} (h : ofPieces ps = some test) :
    ∃ m, ps.foldl add ⟨[],[],[]⟩ = m ∧ m.features = test.blocks.map readFeature ∧ test.Spelled m := by
  fun_cases ofPieces ps with
  | case1 => cases h
  | case2 b ps bs found =>
    simp only [ofPieces,found] at h
    cases h
    rw [foldl_cons,addedAnd found]
    exact ⟨_,rfl,rfl,rfl,cons_ne_nil _ _⟩
  | case3 b ps other =>
    simp only [ofPieces,other] at h
    obtain ⟨bs,found,rfl⟩ := Option.map_eq_some_iff.mp h
    obtain ⟨w,known,same⟩ := @addedOr (add ⟨[],[],[]⟩ (.block b)) _ _ found
    rw [foldl_cons,same]
    refine ⟨_,rfl,rfl,known.resolve_right ?_,rfl,cons_ne_nil _ _⟩
    rintro ⟨rfl,_⟩
    rw [blocksNone found] at other
    cases other
  | case4 w => exact mediumRead (.inl ⟨rfl,rfl⟩) h
  | case5 w b ps negates =>
    simp only [ofPieces,if_pos negates] at h
    cases h
    rw [List.isEmpty_iff.mp negates.2,foldl_cons,add,
      wordRestrictor (.inl (keywordLower (by decide) negates.1))]
    exact ⟨_,rfl,rfl,rfl⟩
  | case6 w b ps other =>
    simp only [ofPieces,if_neg other] at h
    cases h
  | case7 w v ps negates =>
    rw [ofPieces,if_pos negates] at h
    rw [foldl_cons,add,wordRestrictor (.inl (keywordLower (by decide) negates))]
    exact mediumRead (.inr (.inl ⟨negates,rfl⟩)) h
  | case8 w v ps other restricts =>
    rw [ofPieces,if_neg other,if_pos restricts] at h
    rw [foldl_cons,add,wordRestrictor (.inr (keywordLower (by decide) restricts))]
    exact mediumRead (.inr (.inr ⟨restricts,rfl⟩)) h
  | case9 w v ps other plain =>
    rw [ofPieces,if_neg other,if_neg plain] at h
    exact mediumRead (.inl ⟨rfl,rfl⟩) h

theorem keywordSmall (known : ascii keyword ∈ reservedWords) (is : isKeyword keyword w) :
    isKeyword keyword (lower w) := by
  rw [keywordLower known is,isKeyword,sameLetters]
  exact beq_self_eq_true _

theorem spelledSmall {m n} {test : MediaTest} (spelled : test.Spelled m)
    (restrictor : n.restrictor = lower m.restrictor) (medium : n.medium = lower m.medium) : test.Spelled n := by
  cases test with
  | medium negated type bs =>
    obtain ⟨name,free,restricts⟩ := spelled
    refine ⟨?_,free,?_⟩
    · simp only [mem_cons,not_mem_nil,or_false] at name ⊢
      rcases name with same | same <;> simp [medium,same,lowerTwice]
    · rw [restrictor]
      rcases restricts with ⟨bare,plain⟩ | ⟨is,negates⟩ | ⟨is,plain⟩
      · exact .inl ⟨by rw [bare]; rfl,plain⟩
      · exact .inr (.inl ⟨keywordSmall (by decide) is,negates⟩)
      · exact .inr (.inr ⟨keywordSmall (by decide) is,plain⟩)
  | every bs => exact ⟨by rw [medium,spelled.1]; rfl,spelled.2⟩
  | negation b => exact medium.trans (congrArg lower spelled)
  | any bs =>
    obtain ⟨is,bare,full⟩ := spelled
    exact ⟨medium ▸ keywordSmall (by decide) is,by rw [restrictor,bare]; rfl,full⟩

end Cascade
