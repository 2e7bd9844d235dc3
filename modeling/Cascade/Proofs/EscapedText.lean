import Cascade.Proofs.SpeltNames

/-! Texts of plain bytes and escapes. A scanner that takes plain bytes one by one and jumps over escapes takes
such a text to its end, and what a scanner takes is such a text. -/
namespace Cascade
open List

/- What a text may be made of: the bytes that stand for themselves, those that may stand behind a backslash, and
whether a blank may end an escape by number. -/
structure PieceRule where
  plain : UInt8 → Prop
  escaped : UInt8 → Prop
  codes : Prop

inductive Pieces (rule : PieceRule) : Bytes → Prop where
  | nil : Pieces rule []
  | byte {b : UInt8} {s : Bytes} (plain : rule.plain b) (rest : Pieces rule s) : Pieces rule (b :: s)
  | pair {b : UInt8} {s : Bytes} (escaped : rule.escaped b) (rest : Pieces rule s) : Pieces rule (92 :: b :: s)
  | line {s : Bytes} (escaped : rule.escaped 13) (rest : Pieces rule s) : Pieces rule (92 :: 13 :: 10 :: s)
  | code {d n : UInt8} {ds s : Bytes} (codes : rule.codes) (first : isHexDigit d = true)
      (digits : ∀ b ∈ ds, isHexDigit b = true) (few : ds.length ≤ 5) (blank : isBlankByte n = true)
      (rest : Pieces rule s) : Pieces rule (92 :: d :: (ds ++ n :: s))

section
variable {rule : PieceRule} {s t : Bytes}

theorem piecesMono {wide} (plain : ∀ b, rule.plain b → wide.plain b)
    (escaped : ∀ b, rule.escaped b → wide.escaped b) (codes : rule.codes → wide.codes) (pieces : Pieces rule s) :
    Pieces wide s := by
  induction pieces with
  | nil => exact .nil
  | byte here _ ih => exact .byte (plain _ here) ih
  | pair here _ ih => exact .pair (escaped _ here) ih
  | line here _ ih => exact .line (escaped _ here) ih
  | code here first digits few blank _ ih => exact .code (codes here) first digits few blank ih

theorem piecesAppend (front : Pieces rule s) (back : Pieces rule t) : Pieces rule (s ++ t) := by
  induction front with
  | nil => exact back
  | byte here _ ih => exact .byte here ih
  | pair here _ ih => exact .pair here ih
  | line here _ ih => exact .line here ih
  | @code d n ds s here first digits few blank _ ih =>
    rw [cons_append,cons_append,append_assoc,cons_append]
    exact .code here first digits few blank ih

theorem bytesPieces (plain : ∀ b ∈ s, rule.plain b) (back : Pieces rule t) : Pieces rule (s ++ t) := by
  induction s with
  | nil => exact back
  | cons b s ih =>
    obtain ⟨here,others⟩ := forall_mem_cons.mp plain
    exact .byte here (ih others)

theorem piecesDrop {n} (plain : ∀ b ∈ s.take n, b ≠ 92) (pieces : Pieces rule s) : Pieces rule (s.drop n) := by
  induction n generalizing s with
  | zero => exact pieces
  | succ n ih =>
    cases s with
    | nil => exact pieces
    | cons b s =>
      rw [take_succ_cons] at plain
      obtain ⟨here,others⟩ := forall_mem_cons.mp plain
      cases pieces with
      | byte _ rest => exact ih others rest
      | pair | line | code => exact absurd rfl here

end

inductive Complete : Bytes → Prop where
  | nil : Complete []
  | cons {lead : UInt8} {s : Bytes} (enough : trailing lead ≤ s.length) (high : ∀ b ∈ s.take (trailing lead), 0x80 ≤ b)
      (rest : Complete s) : Complete (lead :: s)

section
variable {b : UInt8} {s t : Bytes}

theorem wholeSuffix (whole : Whole (s ++ t)) : Whole t := by
  have back := wholeDrop whole s.length
  rwa [drop_left] at back

theorem wholeComplete {rest : Bytes} (low : b < 0x80) (whole : Whole (s ++ b :: rest)) : Complete s := by
  induction s with
  | nil => exact .nil
  | cons lead s ih =>
    have first := whole [] lead (s ++ b :: rest) rfl
    have enough : trailing lead ≤ s.length := by
      refine Nat.le_of_not_lt fun past => ?_
      have there : b ∈ (s ++ b :: rest).take (trailing lead) := by
        rw [append_cons,take_append,take_of_length_le (by simp; omega)]
        simp
      exact UInt8.not_le.mpr low (first b there)
    rw [take_append_of_le_length enough] at first
    exact .cons enough first (ih (wholeDrop whole 1))

theorem singleComplete (single : b < 0xC0) (rest : Complete s) : Complete (b :: s) := by
  have alone : trailing b = 0 := if_pos single
  exact .cons (by simp [alone]) (by simp [alone]) rest

theorem completeAppend (front : Complete s) (back : Complete t) : Complete (s ++ t) := by
  induction front with
  | nil => exact back
  | cons enough high _ ih =>
    rw [cons_append]
    refine .cons ?_ ?_ ih
    · rw [length_append]
      omega
    · rwa [take_append_of_le_length enough]

theorem completeWhole (complete : Complete s) (whole : Whole t) : Whole (s ++ t) := by
  induction complete with
  | nil => exact whole
  | cons enough high _ ih =>
    rw [cons_append]
    refine wholeCons ?_ ih
    rwa [take_append_of_le_length enough]

theorem completeIsWhole (complete : Complete s) : Whole s := by
  have whole := completeWhole complete (t := []) (fun front lead rest bare => by simp at bare)
  rwa [append_nil] at whole

theorem completeDrop (complete : Complete s) (n) : Complete (s.drop n) := by
  induction n generalizing s with
  | zero => exact complete
  | succ n ih =>
    cases complete with
    | nil => exact .nil
    | cons _ _ rest => exact ih rest

end

structure CodeDigits (limit : Nat) (ds rest : Bytes) : Prop where
  hex : ∀ d ∈ ds, isHexDigit d = true
  few : ds.length ≤ limit
  most : ds.length = limit ∨ ∀ b ∈ rest.head?, isHexDigit b = false

def blankAt (s : Bytes) : Nat := if s.head?.any isBlankByte then 1 else 0

def Ends (rest : Bytes) : Prop := ∀ b ∈ rest.head?, isHexDigit b = false ∧ isBlankByte b = false

section
variable {b c : UInt8} {s ds rest : Bytes} {n : Nat}

theorem hexSolid (hex : isHexDigit b) : b ≠ 92 ∧ isNewline b = false := by
  refine ⟨?_,?_⟩ <;> simp only [isHexDigit,isDigit,isNewline] at * <;> grind

theorem blankSolid (blank : isBlankByte b) : b ≠ 92 ∧ isHexDigit b = false := by
  refine ⟨?_,?_⟩ <;> simp only [isHexDigit,isDigit,isBlankByte] at * <;> grind

theorem digitsOf (limit s) : ∃ ds rest, s = ds ++ rest ∧ CodeDigits limit ds rest := by
  induction s generalizing limit with
  | nil => exact ⟨[],[],rfl,by simp,by simp,by simp⟩
  | cons b s ih =>
    cases limit with
    | zero => exact ⟨[],b :: s,rfl,by simp,by simp,by simp⟩
    | succ limit =>
      cases hex : isHexDigit b with
      | false => exact ⟨[],b :: s,rfl,by simp,by simp,.inr (by simp [hex])⟩
      | true =>
        obtain ⟨ds,rest,rfl,digits⟩ := ih limit
        exact ⟨b :: ds,rest,rfl,forall_mem_cons.mpr ⟨hex,digits.hex⟩,Nat.succ_le_succ digits.few,
          digits.most.imp_left (congrArg Nat.succ)⟩

theorem numberEscape (first : isHexDigit c) (digits : CodeDigits 5 ds rest) :
    escapeLength (c :: (ds ++ rest)) = some (1 + ds.length + blankAt rest) := by
  have taken : ((ds ++ rest).take 5).takeWhile isHexDigit = ds := by
    rw [take_append,take_of_length_le digits.few,takeWhile_append_of_pos digits.hex]
    rcases digits.most with full | other
    · simp [full]
    cases rest with
    | nil => simp
    | cons b rest =>
      have stops := other b rfl
      cases 5 - ds.length <;> simp [stops]
  rw [escapeLength,if_neg (by simp [(hexSolid first).2]),if_pos first]
  dsimp only
  rw [taken,drop_left]
  cases rest <;> rfl

theorem blankTaken (s) : blankAt s ≤ s.length ∧ ∀ b ∈ s.take (blankAt s), isBlankByte b := by
  cases s with
  | nil => simp [blankAt]
  | cons b s => cases blank : isBlankByte b <;> simp [blankAt,blank]

theorem numberBefore (first : isHexDigit c) (digits : CodeDigits 5 ds rest) (ends : Ends s) :
    escapeLength (c :: (ds ++ rest ++ s)) = some (1 + ds.length + blankAt rest) := by
  have further : CodeDigits 5 ds (rest ++ s) := by
    refine ⟨digits.hex,digits.few,digits.most.imp_right fun other x mem => ?_⟩
    cases rest with
    | nil => exact (ends x mem).1
    | cons y rest => exact other x mem
  have same : blankAt (rest ++ s) = blankAt rest := by
    cases rest with
    | nil =>
      cases s with
      | nil => rfl
      | cons x s => simp [blankAt,(ends x rfl).2]
    | cons y rest => rfl
  rw [append_assoc,numberEscape first further,same]

theorem characterEscape (line : isNewline c = false) (hex : isHexDigit c = false) :
    escapeLength (c :: s) = some (min (s.length + 1) (trailing c + 1)) := by
  rw [escapeLength,if_neg (by simp [line]),if_neg (by simp [hex]),characterLengthTrailing]

end

def later (n : Nat) (run : Nat × Bool) : Nat × Bool := (n + run.1,run.2)

/- A scanner for texts of this kind. At a backslash with no escape behind it, it either takes the newline there
or stops. -/
structure Scanner (step : UInt8 → Bytes → Move) (rule : PieceRule) : Prop where
  plain : ∀ {b s}, rule.plain b → step b s = .pass 0
  other : ∀ {b s n}, b ≠ 92 → step b s = .pass n → rule.plain b ∧ n = 0
  escape : ∀ {s n}, escapeLength s = some n → step 92 s = .pass n
  newline : (∀ {b}, rule.escaped b) ∧ (∀ {s}, escapeLength s = none → step 92 s = .pass (newlineLength s)) ∨
    (∀ {b}, rule.escaped b → isNewline b = false) ∧
      ∀ {s}, escapeLength s = none → ∃ taken done, step 92 s = .halt taken done
  slash : ¬rule.plain 92
  line : ∀ {b}, rule.plain b → isNewline b = false
  hex : ∀ {b}, isHexDigit b = true → rule.plain b
  high : ∀ {b}, 0x80 ≤ b → rule.plain b
  escaped : ∀ {b}, isNewline b = false → rule.escaped b
  codes : rule.codes

section
variable {step : UInt8 → Bytes → Move} {rule : PieceRule} {atEnd : Bool} {s : Bytes} {b : UInt8}

theorem scanSkip {skip} (inside : skip ≤ s.length) :
    scan step atEnd skip s = later skip (scan step atEnd 0 (s.drop skip)) := by
  induction s generalizing skip with
  | nil =>
    cases Nat.le_zero.mp inside
    rfl
  | cons b s ih =>
    cases skip with
    | zero => simp [later]
    | succ skip =>
      simp only [scan,ih (Nat.le_of_succ_le_succ inside),drop_succ_cons,later]
      congr 1
      omega

theorem scanPass {n} (move : step b s = .pass n) (inside : n ≤ s.length) :
    scan step atEnd 0 (b :: s) = later (n + 1) (scan step atEnd 0 (s.drop n)) := by
  simp only [scan,move,scanSkip inside,later]
  congr 1
  omega

theorem lineLength {line} (newline : isNewline line) (other : ∀ c ∈ s.head?, c ≠ 10) :
    newlineLength (line :: s) = 1 := by
  unfold newlineLength
  split
  · rename_i same
    cases same
    exact absurd rfl (other 10 rfl)
  · rename_i same
    cases same
    rw [if_pos newline]
  · contradiction

theorem escapeBefore {c} (line : isNewline c = false) (pieces : Pieces rule s) (complete : Complete (c :: s)) :
    ∃ n, n ≤ s.length ∧ Pieces rule (s.drop n) ∧
      ∀ {rest}, Ends rest → escapeLength (c :: (s ++ rest)) = some (n + 1) := by
  cases hex : isHexDigit c with
  | true =>
    obtain ⟨ds,back,rfl,digits⟩ := digitsOf 5 s
    obtain ⟨inside,blanks⟩ := blankTaken back
    refine ⟨ds.length + blankAt back,by simp [inside],piecesDrop ?_ pieces,fun ends => ?_⟩
    · rw [take_length_add_append]
      exact forall_mem_append.mpr ⟨fun x mem => (hexSolid (digits.hex x mem)).1,
        fun x mem => (blankSolid (blanks x mem)).1⟩
    · rw [numberBefore hex digits ends]
      congr 1
      omega
  | false =>
    cases complete with
    | cons enough high =>
      refine ⟨trailing c,enough,piecesDrop (fun x mem => ?_) pieces,fun _ => ?_⟩
      · rintro rfl
        exact absurd (high _ mem) (by decide)
      · rw [characterEscape line hex]
        congr 1
        simp only [length_append]
        omega

variable (scanner : Scanner step rule)
include scanner

theorem lineBefore {line rest} (ends : Ends rest)
    (newline : isNewline line) (pieces : Pieces rule s) : newlineLength (line :: (s ++ rest)) = 1 := by
  refine lineLength newline ?_
  rintro _ mem rfl
  cases pieces with
  | nil => exact absurd (ends 10 mem).2 (by decide)
  | byte plain =>
    cases mem
    exact absurd (scanner.line plain) (by decide)
  | pair | line | code => cases mem

theorem slashMove (pieces : Pieces rule (92 :: s)) (complete : Complete s) :
    ∃ n, n ≤ s.length ∧ Pieces rule (s.drop n) ∧ ∀ {rest}, Ends rest → step 92 (s ++ rest) = .pass n := by
  cases pieces with
  | byte plain => exact absurd plain scanner.slash
  | @pair c s escaped more =>
    cases line : isNewline c with
    | true =>
      rcases scanner.newline with ⟨_,move⟩ | ⟨solid,_⟩
      · refine ⟨1,by simp,more,fun ends => ?_⟩
        rw [cons_append,move (by simp [escapeLength,line]),lineBefore scanner ends line more]
      · exact absurd line (by simp [solid escaped])
    | false =>
      obtain ⟨n,inside,behind,length⟩ := escapeBefore line more complete
      exact ⟨n + 1,Nat.succ_le_succ inside,behind,fun ends => scanner.escape (length ends)⟩
  | line escaped more =>
    rcases scanner.newline with ⟨_,move⟩ | ⟨solid,_⟩
    · refine ⟨2,by simp,more,fun _ => ?_⟩
      rw [cons_append,move (by simp [escapeLength,isNewline])]
      rfl
    · exact absurd (solid escaped) (by decide)
  | @code d n ds s _ first digits few blank more =>
    have further : CodeDigits 5 ds (n :: s) := ⟨digits,few,.inr (by simp [(blankSolid blank).2])⟩
    have one : blankAt (n :: s) = 1 := by simp [blankAt,blank]
    refine ⟨1 + ds.length + 1,by simp; omega,?_,fun ends => ?_⟩
    · rw [Nat.add_assoc,Nat.add_comm 1,drop_succ_cons,drop_length_add_append]
      exact more
    · have length := numberBefore first further ends
      rw [one] at length
      exact scanner.escape length

theorem scanPieces (s) (pieces : Pieces rule s) (complete : Complete s)
    {rest} (ends : Ends rest) : scan step atEnd 0 (s ++ rest) = later s.length (scan step atEnd 0 rest) := by
  match s with
  | [] => simp [later]
  | c :: s =>
    have behind : Complete s := completeDrop complete 1
    have jump : ∃ n, n ≤ s.length ∧ Pieces rule (s.drop n) ∧ ∀ {rest}, Ends rest → step c (s ++ rest) = .pass n := by
      by_cases slash : c = 92
      · subst slash
        exact slashMove scanner pieces behind
      · cases pieces with
        | byte plain more => exact ⟨0,by simp,more,fun _ => scanner.plain plain⟩
        | pair | line | code => exact absurd rfl slash
    obtain ⟨n,inside,more,move⟩ := jump
    rw [cons_append,scanPass (move ends) (by simp; omega),dropBefore inside,
      scanPieces (s.drop n) more (completeDrop behind n) ends]
    simp only [later,length_drop,length_cons]
    congr 1
    omega
termination_by s.length

def PieceFront (rule : PieceRule) (s : Bytes) : Prop := Pieces rule s ∨ ∃ most, s = most ++ [92] ∧ Pieces rule most

omit scanner in
theorem pieceFrontAppend (first) (makes : ∀ {rest}, Pieces rule rest → Pieces rule (first ++ rest))
    (front : PieceFront rule s) : PieceFront rule (first ++ s) := by
  rcases front with pieces | ⟨most,rfl,pieces⟩
  · exact .inl (makes pieces)
  · exact .inr ⟨first ++ most,(append_assoc ..).symm,makes pieces⟩

theorem piecesFront (pieces : Pieces rule s) {front back}
    (parts : s = front ++ back) : PieceFront rule front := by
  have slash : PieceFront rule [92] := Or.inr ⟨[],rfl,.nil⟩
  induction pieces generalizing front with
  | nil =>
    cases (append_eq_nil_iff.mp parts.symm).1
    exact .inl .nil
  | @byte b s plain _ ih =>
    cases front with
    | nil => exact .inl .nil
    | cons c front =>
      obtain ⟨rfl,rest⟩ := List.cons.inj parts
      exact pieceFrontAppend [b] (.byte plain) (ih rest)
  | @pair b s escaped _ ih =>
    rcases front with _ | ⟨c,_ | ⟨d,front⟩⟩
    · exact .inl .nil
    · cases (List.cons.inj parts).1
      exact slash
    · cases parts
      exact pieceFrontAppend [92,b] (.pair escaped) (ih rfl)
  | @line s escaped _ ih =>
    rcases front with _ | ⟨c,_ | ⟨d,_ | ⟨e,front⟩⟩⟩
    · exact .inl .nil
    · cases (List.cons.inj parts).1
      exact slash
    · cases parts
      exact .inl (.pair escaped .nil)
    · cases parts
      exact pieceFrontAppend [92,13,10] (.line escaped) (ih rfl)
  | @code d n ds s codes first digits few blank _ ih =>
    have escaped : rule.escaped d := scanner.escaped (hexSolid first).2
    have within : ∀ {front}, (∀ b ∈ front, b ∈ ds) → PieceFront rule (92 :: d :: front) := by
      intro front mem
      have pieces : Pieces rule (front ++ []) := bytesPieces (fun b inside => scanner.hex (digits b (mem b inside))) .nil
      rw [append_nil] at pieces
      exact .inl (.pair escaped pieces)
    rcases front with _ | ⟨c,_ | ⟨e,front⟩⟩
    · exact .inl .nil
    · cases (List.cons.inj parts).1
      exact slash
    · simp only [cons_append,List.cons.injEq] at parts
      obtain ⟨rfl,rfl,parts⟩ := parts
      -- The cut is behind the digits, or among them, where what is left is an escape still.
      rcases append_eq_append_iff.mp parts with ⟨more,rfl,rest⟩ | ⟨more,rfl,_⟩
      · cases more with
        | nil => exact within (by simp)
        | cons x more =>
          obtain ⟨rfl,behind⟩ := List.cons.inj rest
          have makes : ∀ {rest}, Pieces rule rest → Pieces rule (92 :: d :: (ds ++ [n]) ++ rest) := by
            intro rest pieces
            simpa using Pieces.code codes first digits few blank pieces
          simpa using pieceFrontAppend _ makes (ih behind)
      · exact within fun b mem => mem_append_left _ mem

/- What can stand where a scanner ends: nothing, a lone backslash, or a byte at which it stops. -/
inductive Halts (step : UInt8 → Bytes → Move) : Bytes → Prop where
  | nil : Halts step []
  | slash : Halts step [92]
  | halt {b : UInt8} {s : Bytes} {taken : Nat} {done : Bool} (move : step b s = .halt taken done) : Halts step (b :: s)

def MakesPiece (rule : PieceRule) (b : UInt8) (front : Bytes) : Prop :=
  ∀ {rest}, Pieces rule rest → Pieces rule (b :: (front ++ rest))

theorem escapeFollows {n} (whole : Whole s) (found : escapeLength s = some n) :
    ∃ front back, s = front ++ back ∧ front.length = n ∧ MakesPiece rule 92 front := by
  cases s with
  | nil => cases found
  | cons c s =>
    cases line : isNewline c with
    | true => simp [escapeLength,line] at found
    | false =>
      have escaped : rule.escaped c := scanner.escaped line
      cases hex : isHexDigit c with
      | true =>
        obtain ⟨ds,back,rfl,digits⟩ := digitsOf 5 s
        have plain : ∀ d ∈ ds, rule.plain d := fun d mem => scanner.hex (digits.hex d mem)
        rw [numberEscape hex digits] at found
        cases blank : back.head?.any isBlankByte with
        | false =>
          refine ⟨c :: ds,back,rfl,?_,fun rest => .pair escaped (bytesPieces plain rest)⟩
          simpa [blankAt,blank,Nat.add_comm] using found
        | true =>
          obtain ⟨x,back,rfl⟩ : ∃ x rest, back = x :: rest := by
            cases back with
            | nil => cases blank
            | cons x rest => exact ⟨x,rest,rfl⟩
          refine ⟨c :: (ds ++ [x]),back,by simp,?_,fun rest => ?_⟩
          · rw [blankAt,if_pos blank,Option.some.injEq] at found
            simp only [length_cons,length_append,length_nil]
            omega
          · have piece := Pieces.code scanner.codes hex digits.hex digits.few blank rest
            simpa using piece
      | false =>
        have high : ∀ x ∈ s.take (trailing c), rule.plain x := fun x mem => scanner.high (whole [] c s rfl x mem)
        rw [characterEscape line hex,Option.some.injEq] at found
        refine ⟨c :: s.take (trailing c),s.drop (trailing c),by simp,?_,fun rest => .pair escaped (bytesPieces high rest)⟩
        rw [length_cons,length_take]
        omega

omit scanner in
theorem lineFollows (escaped : ∀ {b}, rule.escaped b) (full : s ≠ []) (bare : escapeLength s = none) :
    ∃ front back, s = front ++ back ∧ front.length = newlineLength s ∧ MakesPiece rule 92 front := by
  unfold newlineLength
  split
  · rename_i back
    exact ⟨[13,10],back,rfl,rfl,.line escaped⟩
  · rename_i x back _
    have line : isNewline x := by
      cases line : isNewline x with
      | true => rfl
      | false =>
        rw [escapeLength,if_neg (by simp [line])] at bare
        split at bare <;> cases bare
    exact ⟨[x],back,rfl,by simp [line],.pair escaped⟩
  · contradiction

theorem passFollows {n} (whole : Whole s) (move : step b s = .pass n)
    (more : b ≠ 92 ∨ s ≠ []) : ∃ front back, s = front ++ back ∧ front.length = n ∧ MakesPiece rule b front := by
  by_cases slash : b = 92
  · subst slash
    cases length : escapeLength s with
    | some k =>
      cases (scanner.escape length).symm.trans move
      exact escapeFollows scanner whole length
    | none =>
      rcases scanner.newline with ⟨escaped,jump⟩ | ⟨_,stop⟩
      · cases (jump length).symm.trans move
        exact lineFollows escaped (more.resolve_left (· rfl)) length
      · obtain ⟨taken,done,halt⟩ := stop length
        cases halt.symm.trans move
  · obtain ⟨plain,rfl⟩ := scanner.other slash move
    exact ⟨[],s,rfl,rfl,.byte plain⟩

theorem scanFound (s) (whole : Whole s) :
    ∃ front back, s = front ++ back ∧ Pieces rule front ∧ Halts step back ∧
      ∀ atEnd, scan step atEnd 0 s = later front.length (scan step atEnd 0 back) := by
  match s with
  | [] => exact ⟨[],[],rfl,.nil,.nil,by simp [later]⟩
  | b :: s =>
    cases move : step b s with
    | halt taken done => exact ⟨[],b :: s,rfl,.nil,.halt move,by simp [later]⟩
    | pass n =>
      by_cases last : b = 92 ∧ s = []
      · obtain ⟨rfl,rfl⟩ := last
        exact ⟨[],[92],rfl,.nil,.slash,by simp [later]⟩
      have behind : Whole s := wholeDrop whole 1
      obtain ⟨first,rest,rfl,rfl,piece⟩ := passFollows scanner behind move (Decidable.not_and_iff_or_not.mp last)
      obtain ⟨front,back,rfl,pieces,halts,taken⟩ := scanFound rest (wholeSuffix behind)
      refine ⟨b :: (first ++ front),back,by simp,piece pieces,halts,fun atEnd => ?_⟩
      rw [scanPass move (by simp),drop_left,taken]
      simp only [later,length_cons,length_append]
      congr 1
      omega
termination_by s.length

end

end Cascade
