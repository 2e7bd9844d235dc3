import Cascade.Proofs.MatchedBoxes
import Cascade.Proofs.TrimmedTexts

/-! Identifiers. A name taken from a text is one wherever it is written before something that goes on no name,
also in lower case. -/
namespace Cascade
open List

def nameRule : PieceRule where
  plain b := isNameByte b = true
  escaped b := isNewline b = false
  codes := True

def startsPlain (s : Bytes) : Bool := s.head?.any fun b => isNameStart b || b == 92

def startsName : Bytes → Bool
  | 45 :: s => startsPlain s
  | s => startsPlain s

structure Identifier (s : Bytes) : Prop where
  pieces : Pieces nameRule s
  starts : startsName s = true
  complete : Complete s

section
variable {b : UInt8} {s : Bytes}

theorem identifierFilled (name : Identifier s) : s ≠ [] := by
  rintro rfl
  cases name.starts

theorem nameByteHigh (high : 0x80 ≤ b) : isNameByte b := by
  simp [isNameByte,isNameStart,high]

theorem nameScanner : Scanner nameStep nameRule where
  plain plain := if_pos plain
  other := by
    intro b s n slash move
    unfold nameStep at move
    split at move
    · rename_i name
      cases move
      exact ⟨name,rfl⟩
    · rw [if_neg (by simp [slash])] at move
      cases move
  escape length := by simp [nameStep,isNameByte,isNameStart,isLetter,isLowerLetter,isUpperLetter,isDigit,escapeMove,length]
  newline := by
    refine .inr ⟨fun escaped => escaped,fun length => ⟨0,true,?_⟩⟩
    simp [nameStep,isNameByte,isNameStart,isLetter,isLowerLetter,isUpperLetter,isDigit,escapeMove,length]
  slash plain := Bool.false_ne_true plain
  line plain := by
    simp only [nameRule,isNameByte,isNameStart,isLetter,isLowerLetter,isUpperLetter,isDigit,isNewline] at *
    grind
  hex hex := by
    simp only [nameRule,isNameByte,isNameStart,isLetter,isLowerLetter,isUpperLetter,isDigit,isHexDigit] at *
    grind
  high high := nameByteHigh high
  escaped line := line
  codes := trivial

theorem nameHalts (halts : Halts nameStep s) : (scan nameStep true 0 s).1 = 0 ∧ ∀ b ∈ s.head?, b < 0x80 := by
  cases halts with
  | nil => exact ⟨rfl,by simp⟩
  | slash => exact ⟨rfl,by simp⟩
  | @halt b s taken done move =>
    have stops : taken = 0 ∧ ¬isNameByte b := by
      unfold nameStep escapeMove at move
      repeat' split at move
      all_goals
        cases move
      all_goals exact ⟨rfl,‹¬_›⟩
    refine ⟨by simp only [scan,move,stops.1],?_⟩
    rintro _ ⟨⟩
    exact UInt8.not_le.mp fun high => stops.2 (nameByteHigh high)

theorem completeFront {front back} (complete : Complete (front ++ back)) (low : ∀ b ∈ back.head?, b < 0x80) :
    Complete front := by
  cases back with
  | nil => rwa [append_nil] at complete
  | cons b back => exact wholeComplete (low b rfl) (completeIsWhole complete)

theorem namePart (complete : Complete s) : ∃ front back, s = front ++ back ∧ Pieces nameRule front ∧ Complete front ∧
    nameRun 0 s = front.length := by
  obtain ⟨front,back,rfl,pieces,halts,run⟩ := scanFound nameScanner s (completeIsWhole complete)
  obtain ⟨bare,low⟩ := nameHalts halts
  refine ⟨front,back,rfl,pieces,completeFront complete low,?_⟩
  rw [nameRunScan,run,later,bare]
  rfl

end

section
variable {b : UInt8} {s rest : Bytes}

theorem startsNamePlain (other : b ≠ 45) (s : Bytes) : startsName (b :: s) = startsPlain (b :: s) := by
  unfold startsName
  split
  · rename_i same
    exact absurd (List.cons.inj same).1 other
  · rfl

theorem startsPlainAppend (starts : startsPlain s) (t) : startsPlain (s ++ t) := by
  cases s with
  | nil => cases starts
  | cons b s => exact starts

theorem startsNameAppend (starts : startsName s) (t) : startsName (s ++ t) := by
  cases s with
  | nil => cases starts
  | cons b s =>
    by_cases hyphen : b = 45
    · subst hyphen
      exact startsPlainAppend starts t
    · rw [startsNamePlain hyphen] at starts
      rw [cons_append,startsNamePlain hyphen]
      exact starts

theorem startsNameFirst (starts : startsName (b :: s)) : isBlankByte b = false ∧ b ≠ 42 ∧ b ≠ 47 := by
  by_cases hyphen : b = 45
  · subst hyphen
    decide
  rw [startsNamePlain hyphen] at starts
  simp only [startsPlain,head?_cons,Option.any_some,isNameStart,isLetter,isLowerLetter,isUpperLetter] at starts
  refine ⟨?_,?_,?_⟩
  · simp only [isBlankByte]
    grind
  · grind
  · grind

theorem plainIdentStarts (s) : plainIdentLength s = if startsPlain s then nameRun 0 s else 0 := by
  cases s with
  | nil => rfl
  | cons b s => exact plainIdentName b s

theorem plainPart (complete : Complete s) (full : plainIdentLength s ≠ 0) : ∃ front back, s = front ++ back ∧
    Pieces nameRule front ∧ startsPlain front ∧ Complete front ∧ plainIdentLength s = front.length := by
  rw [plainIdentStarts] at full ⊢
  cases starts : startsPlain s with
  | false =>
    rw [starts] at full
    exact absurd rfl full
  | true =>
    obtain ⟨front,back,rfl,pieces,whole,run⟩ := namePart complete
    rw [starts,if_pos rfl,run] at full
    refine ⟨front,back,rfl,pieces,?_,whole,run⟩
    cases front with
    | nil => exact absurd rfl full
    | cons b front => exact starts

theorem identifierPart (complete : Complete s) (full : identLength s ≠ 0) :
    ∃ front back, s = front ++ back ∧ Identifier front ∧ identLength s = front.length := by
  cases s with
  | nil => exact absurd rfl full
  | cons b s =>
    by_cases hyphen : b = 45
    · subst hyphen
      rw [identLengthHyphen] at full ⊢
      have inner : plainIdentLength s ≠ 0 := fun bare => full (if_pos bare)
      have tail : Complete s := completeDrop complete 1
      obtain ⟨front,back,rfl,pieces,starts,whole,run⟩ := plainPart tail inner
      rw [if_neg inner,run]
      exact ⟨45 :: front,back,rfl,⟨.byte rfl pieces,starts,singleComplete (by decide) whole⟩,rfl⟩
    · rw [identLengthPlain hyphen] at full ⊢
      obtain ⟨front,back,parts,pieces,starts,whole,run⟩ := plainPart complete full
      refine ⟨front,back,parts,⟨pieces,?_,whole⟩,run⟩
      cases front with
      | nil => cases starts
      | cons c front =>
        obtain ⟨rfl,_⟩ := List.cons.inj parts
        rwa [startsNamePlain hyphen]

theorem plainIdentBefore (pieces : Pieces nameRule s) (starts : startsPlain s) (complete : Complete s)
    (ends : Ends rest) (breaks : ∀ b ∈ rest.head?, breaksName b) : plainIdentLength (s ++ rest) = s.length := by
  have stops : (scan nameStep true 0 rest).1 = 0 := by
    cases rest with
    | nil => rfl
    | cons b rest =>
      have other := breaks b rfl
      simp only [breaksName,Bool.and_eq_true,Bool.not_eq_true',bne_iff_ne] at other
      simp [scan,nameStep,other]
  rw [plainIdentStarts,if_pos (startsPlainAppend starts rest),nameRunScan,scanPieces nameScanner s pieces complete ends,later,stops]
  rfl

theorem identifierLength (name : Identifier s) (ends : Ends rest) (breaks : ∀ b ∈ rest.head?, breaksName b) :
    identLength (s ++ rest) = s.length := by
  obtain ⟨pieces,starts,complete⟩ := name
  cases s with
  | nil => cases starts
  | cons b s =>
    by_cases hyphen : b = 45
    · subst hyphen
      have inner := piecesDrop (n := 1) (by simp) pieces
      have length := plainIdentBefore inner starts (completeDrop complete 1) ends breaks
      rw [drop_one,tail_cons] at length
      have full : s ≠ [] := by
        rintro rfl
        cases starts
      rw [cons_append,identLengthHyphen,length,if_neg (mt length_eq_zero_iff.mp full)]
      rfl
    · rw [startsNamePlain hyphen] at starts
      have length := plainIdentBefore pieces starts complete ends breaks
      rwa [cons_append,identLengthPlain hyphen]

theorem identifierEnds (name : Identifier s) (ends : Ends rest) (breaks : ∀ b ∈ rest.head?, breaksName b) :
    EndsName s rest := by
  have first : (rest.take 1).head? = rest.head? := by simp [head?_take]
  refine ⟨identifierFilled name,breaks,identifierLength name ?_ ?_⟩
  · rwa [Ends,first]
  · rwa [first]

theorem identIdentifier (complete : Complete s) (full : s ≠ []) (ident : isIdent s) : Identifier s := by
  have length : identLength s = s.length := beq_iff_eq.mp ident
  obtain ⟨front,back,parts,name,size⟩ := identifierPart complete fun bare =>
    full (length_eq_zero_iff.mp (length.symm.trans bare))
  have all : back = [] := by
    have whole := congrArg List.length parts
    rw [length_append] at whole
    exact length_eq_zero_iff.mp (by omega)
  rw [all,append_nil] at parts
  rwa [parts]

end

section
variable {s : Bytes}

theorem escapeReaches (pieces : Pieces nameRule (92 :: s)) (complete : Complete s) (rest) :
    ∃ n, escapeLength (s ++ rest) = some n ∧ (s.length ≤ n ∨ Pieces nameRule (s.drop n)) := by
  cases pieces with
  | byte plain => exact absurd plain nameScanner.slash
  | @pair c s line more =>
    cases hex : isHexDigit c with
    | true =>
      obtain ⟨ds,back,parts,digits⟩ := digitsOf 5 (s ++ rest)
      have length := numberEscape hex digits
      rw [← parts,Nat.add_assoc] at length
      refine ⟨_,length,Decidable.or_iff_not_imp_left.mpr fun short => ?_⟩
      have inside : ds.length + blankAt back ≤ s.length := by
        rw [length_cons] at short
        omega
      rw [Nat.add_comm,drop_succ_cons]
      refine piecesDrop (fun x mem => ?_) more
      have taken : (s ++ rest).take _ = s.take _ := take_append_of_le_length inside
      rw [← taken,parts,take_length_add_append] at mem
      rcases mem_append.mp mem with digit | blank
      · exact (hexSolid (digits.hex x digit)).1
      · exact (blankSolid ((blankTaken back).2 x blank)).1
    | false =>
      cases complete with
      | cons enough high =>
        have length : escapeLength (c :: (s ++ rest)) = some (trailing c + 1) := by
          rw [characterEscape line hex,length_append]
          congr 1
          omega
        refine ⟨_,length,.inr ?_⟩
        rw [drop_succ_cons]
        refine piecesDrop (fun x mem => ?_) more
        rintro rfl
        exact absurd (high _ mem) (by decide)
  | line escaped => exact absurd escaped Bool.noConfusion
  | @code d n ds s _ first digits few blank more =>
    have further : CodeDigits 5 ds (n :: (s ++ rest)) := ⟨digits,few,.inr (by simp [(blankSolid blank).2])⟩
    have length := numberEscape first further
    rw [blankAt,if_pos (by simpa using blank)] at length
    refine ⟨1 + ds.length + 1,by simpa using length,.inr ?_⟩
    rw [Nat.add_assoc,Nat.add_comm 1,drop_succ_cons,drop_length_add_append]
    exact more

theorem nameRunLeast (skip s) : min skip s.length ≤ nameRun skip s := by
  induction s generalizing skip with
  | nil => simp
  | cons b s ih =>
    cases skip with
    | zero => simp
    | succ skip =>
      rw [nameRun,length_cons,Nat.succ_min_succ]
      exact Nat.succ_le_succ (ih skip)

theorem nameReaches (s) (pieces : Pieces nameRule s) (complete : Complete s) (rest) :
    s.length ≤ nameRun 0 (s ++ rest) := by
  match s with
  | [] => exact Nat.zero_le _
  | b :: s =>
    have behind : Complete s := completeDrop complete 1
    by_cases slash : b = 92
    · subst slash
      obtain ⟨n,length,reaches⟩ := escapeReaches pieces behind rest
      have run : nameRun 0 (92 :: (s ++ rest)) = nameRun n (s ++ rest) + 1 := by
        simp [nameRun,isNameByte,isNameStart,isLetter,isLowerLetter,isUpperLetter,isDigit,length]
      rw [cons_append,run]
      refine Nat.succ_le_succ ?_
      by_cases past : s.length ≤ n
      · refine Nat.le_trans (Nat.le_min.mpr ⟨past,?_⟩) (nameRunLeast n (s ++ rest))
        simp
      have inside : n ≤ s.length := by omega
      have further := nameReaches (s.drop n) (reaches.resolve_left past) (completeDrop behind n) rest
      rw [nameRunSkip (by rw [length_append]; omega),dropBefore inside]
      rw [length_drop] at further
      omega
    · cases pieces with
      | byte plain more =>
        have here : isNameByte b := plain
        rw [cons_append,nameRun,if_pos here]
        exact Nat.succ_le_succ (nameReaches s more behind rest)
      | pair | line | code => exact absurd rfl slash
termination_by s.length

theorem identifierReaches (name : Identifier s) (rest) : s.length ≤ identLength (s ++ rest) := by
  have plain : ∀ {s}, Pieces nameRule s → startsPlain s → Complete s → s.length ≤ plainIdentLength (s ++ rest) := by
    intro s pieces starts complete
    rw [plainIdentStarts,if_pos (startsPlainAppend starts rest)]
    exact nameReaches s pieces complete rest
  obtain ⟨pieces,starts,complete⟩ := name
  cases s with
  | nil => exact Nat.zero_le _
  | cons b s =>
    by_cases hyphen : b = 45
    · subst hyphen
      have inner := plain (piecesDrop (n := 1) (by simp) pieces) starts (completeDrop complete 1)
      rw [drop_one,tail_cons] at inner
      have full : 0 < s.length := by
        cases s with
        | nil => cases starts
        | cons => exact Nat.succ_pos _
      rw [cons_append,identLengthHyphen,if_neg (by omega)]
      exact Nat.succ_le_succ inner
    · rw [startsNamePlain hyphen] at starts
      have reach := plain pieces starts complete
      rwa [cons_append,identLengthPlain hyphen]

theorem blankBehind (name : Identifier s) (apart : isIdent (s ++ [32]) = false) : EndsName s [32] := by
  have least := identifierReaches name [32]
  have complete : Complete (s ++ [32]) := completeAppend name.complete (singleComplete (by decide) .nil)
  obtain ⟨front,back,parts,_,size⟩ := identifierPart complete fun bare => by
    rw [bare] at least
    exact identifierFilled name (length_eq_zero_iff.mp (Nat.le_zero.mp least))
  have most := congrArg List.length parts
  have less : identLength (s ++ [32]) ≠ (s ++ [32]).length := fun all => by
    rw [isIdent,all,beq_self_eq_true] at apart
    cases apart
  simp only [length_append,length_cons,length_nil] at most less
  refine ⟨identifierFilled name,by rintro _ ⟨⟩; rfl,?_⟩
  rw [take_of_length_le (by simp)]
  omega

end

/- A text and its lower case: plain bytes one by one, and runs of others by runs that go on a name and no number. -/
inductive Lowered : Bytes → Bytes → Prop where
  | nil : Lowered [] []
  | byte {b : UInt8} {s t : Bytes} (low : b < 0x80) (rest : Lowered s t) : Lowered (b :: s) (lowerByte b :: t)
  | run {b c : UInt8} {p q s t : Bytes} (left : ∀ x ∈ b :: p, 0x80 ≤ x)
      (right : ∀ x ∈ c :: q, isNameStart x = true ∧ isHexDigit x = false) (rest : Lowered s t) :
      Lowered (b :: (p ++ s)) (c :: (q ++ t))

theorem capitalsLandLetters : (capitals.all fun row => Nat.blt row.2.1 0x80 || Nat.ble 0x80 (landing row) ||
    (Nat.ble 103 (landing row) && Nat.ble (landing row + (row.2.1 - row.1)) 122)) := by decide +kernel

section
variable {b : UInt8} {s t : Bytes}

theorem lowerByteKinds (b) : isNameByte (lowerByte b) = isNameByte b ∧ isNameStart (lowerByte b) = isNameStart b ∧
    isHexDigit (lowerByte b) = isHexDigit b ∧ isBlankByte (lowerByte b) = isBlankByte b ∧
    isNewline (lowerByte b) = isNewline b ∧ (b = 92 → lowerByte b = 92) ∧ (b = 45 → lowerByte b = 45) := by
  unfold lowerByte
  split
  · rename_i upper
    simp only [isNameByte,isNameStart,isLetter,isLowerLetter,isUpperLetter,isDigit,isHexDigit,isBlankByte,isNewline] at *
    grind
  · exact ⟨rfl,rfl,rfl,rfl,rfl,id,id⟩

theorem nameStartHigh (high : 0x80 ≤ b.toNat) : isNameStart b ∧ isHexDigit b = false := by
  have high : 0x80 ≤ b := UInt8.le_iff_toNat_le.mpr high
  simp only [isNameStart,isHexDigit,isDigit]
  grind

theorem smallLetter {n} (least : 103 ≤ n) (most : n ≤ 122) : isNameStart n.toUInt8 ∧ isHexDigit n.toUInt8 = false := by
  have value : n.toUInt8.toNat = n := toUInt8Nat (by omega)
  have low : 103 ≤ n.toUInt8 := UInt8.le_iff_toNat_le.mpr (by rw [value]; exact least)
  have high : n.toUInt8 ≤ 122 := UInt8.le_iff_toNat_le.mpr (by rw [value]; exact most)
  generalize n.toUInt8 = b at *
  simp only [isNameStart,isLetter,isLowerLetter,isHexDigit,isDigit]
  grind

theorem encodeLetters {c} (scalar : IsScalar c) (high : 0x80 ≤ c) :
    ∃ b q, encode (lowerScalar c) = b :: q ∧ ∀ x ∈ b :: q, isNameStart x ∧ isHexDigit x = false := by
  by_cases plain : lowerScalar c < 0x80
  · rcases lowerScalarCases c with same | ⟨row,mem,_,last,_,lands⟩
    · omega
    · have letters := all_eq_true.mp capitalsLandLetters row mem
      simp only [Bool.or_eq_true,Bool.and_eq_true,Nat.blt_eq,Nat.ble_eq] at letters
      refine ⟨(lowerScalar c).toUInt8,[],if_pos plain,forall_mem_singleton.mpr (smallLetter ?_ ?_)⟩ <;> omega
  · have above := encodeHigh (lowerScalarIsScalar scalar) (by omega)
    cases bytes : encode (lowerScalar c) with
    | nil => exact absurd bytes (encodeSome _)
    | cons b q =>
      rw [bytes] at above
      exact ⟨b,q,rfl,fun x mem => nameStartHigh (above x mem)⟩

theorem loweredCharacters (skip s) :
    Lowered (s.drop skip) (encodeAll (((charactersFrom skip s).map (·.1)).map lowerScalar)) := by
  induction s generalizing skip with
  | nil =>
    rw [drop_nil]
    exact .nil
  | cons lead s ih =>
    cases skip with
    | succ skip => exact ih skip
    | zero =>
      rw [charactersFrom,drop_zero]
      by_cases plain : lead < 0x80
      · have value : scalarOf lead (s.take 0) = lead.toNat := rfl
        have small : encode (lowerScalar lead.toNat) = [lowerByte lead] := by
          rw [lowerAsciiScalar lead.toNat (UInt8.lt_iff_toNat_lt.mp plain)]
          simp
        rw [sequencePlain plain,map_cons,map_cons,encodeAll,flatMap_cons,value,small]
        exact .byte plain (ih 0)
      · have high : 0x80 ≤ lead := UInt8.not_lt.mp plain
        split
        · rename_i n found
          obtain ⟨c,q,bytes,right⟩ := encodeLetters (sequenceScalar found) (sequenceAbove found (UInt8.le_iff_toNat_le.mp high))
          have parted : lead :: s = lead :: (s.take n ++ s.drop n) := by rw [take_append_drop]
          rw [map_cons,map_cons,encodeAll,flatMap_cons,bytes,parted]
          exact .run (forall_mem_cons.mpr ⟨high,sequenceHigh found⟩) right (ih n)
        · obtain ⟨c,q,bytes,right⟩ := encodeLetters replacementScalar (by decide)
          rw [map_cons,map_cons,encodeAll,flatMap_cons,bytes]
          exact .run (p := []) (forall_mem_singleton.mpr high) right (ih 0)

theorem lowerLowered (s) : Lowered s (lower s) := by
  rw [lowerScalars]
  exact loweredCharacters 0 s

theorem loweredPlain {u} (plain : ∀ b ∈ u, b < 0x80) (lowered : Lowered (u ++ s) t) :
    ∃ rest, t = u.map lowerByte ++ rest ∧ Lowered s rest := by
  induction u generalizing t with
  | nil => exact ⟨t,rfl,lowered⟩
  | cons b u ih =>
    obtain ⟨low,others⟩ := forall_mem_cons.mp plain
    rw [cons_append] at lowered
    generalize whole : u ++ s = v at lowered
    cases lowered with
    | byte _ rest =>
      subst whole
      obtain ⟨back,rfl,more⟩ := ih others rest
      exact ⟨back,rfl,more⟩
    | run left => exact absurd (left b mem_cons_self) (UInt8.not_le.mpr low)

theorem highPlain {u : Bytes} (high : ∀ b ∈ u, 0x80 ≤ b) : ∀ b ∈ u, b ≠ 92 := by
  rintro _ mem rfl
  exact absurd (high 92 mem) (by decide)

theorem hexPlain (hex : isHexDigit b) : b < 0x80 := by
  simp only [isHexDigit,isDigit] at hex
  grind

theorem blankPlain (blank : isBlankByte b) : b < 0x80 := by
  simp only [isBlankByte] at blank
  grind

theorem letterName (letter : isNameStart b) : isNameByte b := by
  simp [isNameByte,letter]

theorem lettersPieces {q} (letters : ∀ x ∈ q, isNameStart x ∧ isHexDigit x = false)
    (rest : Pieces nameRule t) : Pieces nameRule (q ++ t) :=
  bytesPieces (fun x mem => letterName (letters x mem).1) rest

theorem highDrop {p} (high : ∀ x ∈ p, 0x80 ≤ x) (pieces : Pieces nameRule (p ++ s)) : Pieces nameRule s := by
  have dropped := piecesDrop (n := p.length) (by rw [take_left]; exact highPlain high) pieces
  rwa [drop_left] at dropped

theorem loweredPieces (s) {t} (lowered : Lowered s t) (pieces : Pieces nameRule s) : Pieces nameRule t := by
  cases lowered with
  | nil => exact .nil
  | @byte b s t low rest =>
    by_cases slash : b = 92
    · subst slash
      cases pieces with
      | byte plain => exact absurd plain nameScanner.slash
      | @pair c s escaped more =>
        cases rest with
        | @byte c s t low rest =>
          have line : isNewline (lowerByte c) = false := (lowerByteKinds c).2.2.2.2.1.trans escaped
          exact .pair line (loweredPieces s rest more)
        | @run c d p q s t left right rest =>
          obtain ⟨_,high⟩ := forall_mem_cons.mp left
          obtain ⟨letter,letters⟩ := forall_mem_cons.mp right
          have line : isNewline d = false := nameScanner.line (letterName letter.1)
          exact .pair line (lettersPieces letters (loweredPieces s rest (highDrop high more)))
      | line escaped => exact absurd escaped Bool.noConfusion
      | @code d n ds s codes first digits few blank more =>
        have plain : ∀ b ∈ d :: (ds ++ [n]), b < 0x80 := by
          refine forall_mem_cons.mpr ⟨hexPlain first,forall_mem_append.mpr ⟨fun b mem => hexPlain (digits b mem),?_⟩⟩
          exact forall_mem_singleton.mpr (blankPlain blank)
        have parts : d :: (ds ++ n :: s) = d :: (ds ++ [n]) ++ s := by simp
        rw [parts] at rest
        obtain ⟨rest,rfl,lowered⟩ := loweredPlain plain rest
        have hex : ∀ c ∈ ds.map lowerByte, isHexDigit c :=
          forall_mem_map.mpr fun x inside => (lowerByteKinds x).2.2.1.trans (digits x inside)
        have piece : Pieces nameRule _ := .code trivial ((lowerByteKinds d).2.2.1.trans first) hex
          (by rwa [length_map]) ((lowerByteKinds n).2.2.2.1.trans blank) (loweredPieces s lowered more)
        rw [show lowerByte 92 = 92 from rfl]
        simpa using piece
    · cases pieces with
      | byte plain more => exact .byte ((lowerByteKinds b).1.trans plain) (loweredPieces s rest more)
      | pair | line | code => exact absurd rfl slash
  | @run b c p q s t left right rest =>
    rw [← cons_append] at pieces ⊢
    exact lettersPieces right (loweredPieces s rest (highDrop left pieces))
termination_by s.length

theorem startsNameOf (starts : startsPlain s) : startsName s := by
  cases s with
  | nil => cases starts
  | cons b s =>
    have other : b ≠ 45 := by
      rintro rfl
      cases starts
    rwa [startsNamePlain other]

theorem loweredStartsPlain (lowered : Lowered s t) (starts : startsPlain s) : startsPlain t := by
  cases lowered with
  | nil => exact starts
  | @byte b s t _ _ =>
    obtain ⟨_,same,_,_,_,slash,_⟩ := lowerByteKinds b
    simp only [startsPlain,head?_cons,Option.any_some,Bool.or_eq_true,beq_iff_eq] at starts ⊢
    exact starts.imp same.trans slash
  | run _ right =>
    have letter := (forall_mem_cons.mp right).1.1
    simp [startsPlain,letter]

theorem loweredStarts (lowered : Lowered s t) (starts : startsName s) : startsName t := by
  by_cases plain : startsPlain s
  · exact startsNameOf (loweredStartsPlain lowered plain)
  -- Only a hyphen in front is left.
  cases lowered with
  | nil => cases starts
  | @byte b s t low rest =>
    by_cases hyphen : b = 45
    · subst hyphen
      exact loweredStartsPlain rest starts
    · rw [startsNamePlain hyphen] at starts
      exact absurd starts plain
  | @run b c p q s t left right rest =>
    have other : b ≠ 45 := by
      rintro rfl
      exact absurd (left 45 mem_cons_self) (by decide)
    rw [startsNamePlain other] at starts
    exact absurd starts plain

theorem encodeWhole {c} (scalar : IsScalar c) : IsWhole (c,encode c) := by
  have one := charactersEncode scalar []
  rw [append_nil] at one
  cases bytes : encode c with
  | nil => exact absurd bytes (encodeSome c)
  | cons lead s =>
    rw [bytes,charactersFrom,charactersFrom] at one
    split at one
    · rename_i n found
      obtain ⟨enough,within⟩ := sequenceTrailing found
      have inside := sequenceWithin lead s
      rw [found] at inside
      obtain ⟨_,tail⟩ := Prod.mk.inj (List.cons.inj one).1
      have length := congrArg List.length tail
      rw [length_cons,length_cons,length_take_of_le inside] at length
      rw [(List.cons.inj tail).2] at within
      exact ⟨lead,s,rfl,by omega,within⟩
    · -- A broken character is read as the one that stands for it, which has other bytes.
      obtain ⟨value,tail⟩ := Prod.mk.inj (List.cons.inj one).1
      rw [← value,← tail] at bytes
      cases bytes

theorem lowerComplete (s) : Complete (lower s) := by
  rw [lowerScalars]
  have complete := wholeCharacters (forall_mem_map.mpr fun c inside => encodeWhole (loweredScalars s c inside))
  rwa [flatMap_map] at complete

theorem scalarsAppend {cs} (all : ∀ c ∈ cs, IsScalar c) (s) : scalars (encodeAll cs ++ s) = cs ++ scalars s := by
  induction cs with
  | nil => rfl
  | cons c cs ih =>
    obtain ⟨here,others⟩ := forall_mem_cons.mp all
    rw [encodeAll,flatMap_cons,append_assoc,scalars,characters,charactersEncode here]
    exact congrArg (c :: ·) (ih others)

theorem lowerBehind (s t) : lower (lower s ++ t) = lower s ++ lower t := by
  have parted : ∀ t, lower (lower s ++ t) = encodeAll (((scalars s).map lowerScalar).map lowerScalar) ++ lower t := by
    intro t
    rw [lowerScalars s,lowerScalars,scalarsAppend (loweredScalars s),map_append,encodeAll,flatMap_append,lowerScalars t]
    rfl
  have first := parted []
  rw [append_nil,lowerTwice] at first
  rw [parted t,← append_nil (encodeAll _)]
  exact congrArg (· ++ lower t) first.symm

theorem identifierLower (name : Identifier s) : Identifier (lower s) :=
  ⟨loweredPieces s (lowerLowered s) name.pieces,loweredStarts (lowerLowered s) name.starts,lowerComplete s⟩

end

end Cascade
