import Cascade.Proofs.EscapedText

/-! Closed strings. What a string holds, written again between the quotes that need fewer escapes, is a closed
string that holds the same. -/
namespace Cascade
open List

/- What stands between two quotes: they and newlines only behind a backslash. -/
def bodyRule (codes : Prop) (quote : UInt8) : PieceRule where
  plain b := b ≠ quote ∧ b ≠ 92 ∧ isNewline b = false
  escaped _ := True
  codes := codes

def contentsRule (codes : Prop) : PieceRule where
  plain b := b ≠ 92 ∧ isNewline b = false
  escaped b := b ∉ [34,39,10]
  codes := codes

/- A string between two equal quotes, neither of them escaped. Whether a newline may end an escape by number is
left open. -/
def ClosedString (codes : Prop) (t : Bytes) : Prop :=
  ∃ quote body, (quote = 34 ∨ quote = 39) ∧ Pieces (bodyRule codes quote) body ∧ t = quote :: (body ++ [quote])

section
variable {b quote : UInt8} {s t : Bytes}

theorem unescapePlain (plain : b ≠ 92) (s : Bytes) : unescape (b :: s) = b :: unescape s := by
  rw [unescape]
  all_goals
    rintro _ rfl
    exact absurd rfl plain

theorem unescapePlains (plain : ∀ b ∈ s, b ≠ 92) (t) : unescape (s ++ t) = s ++ unescape t := by
  induction s with
  | nil => rfl
  | cons b s ih =>
    obtain ⟨here,others⟩ := forall_mem_cons.mp plain
    rw [cons_append,unescapePlain here,ih others,cons_append]

theorem unescapeQuote (quotes : quote = 34 ∨ quote = 39) (s : Bytes) : unescape (92 :: quote :: s) = quote :: unescape s := by
  rcases quotes with rfl | rfl <;> rfl

theorem unescapePair (other : b ∉ [34,39,10]) (s : Bytes) : unescape (92 :: b :: s) = 92 :: b :: unescape s := by
  by_cases slash : b = 92
  · rw [slash]
    rfl
  rw [unescape,unescapePlain slash]
  all_goals
    rintro _ - same
    cases same
  · exact other (by decide)
  · exact other (by decide)
  · exact other (by decide)
  · exact slash rfl

theorem escapeQuoteCons (quote b) (s : Bytes) :
    escapeQuote quote (b :: s) = (if b = quote then [92,quote] else [b]) ++ escapeQuote quote s := by
  simp [escapeQuote]

theorem escapeQuotePlains (plain : ∀ b ∈ s, b ≠ quote) (t) : escapeQuote quote (s ++ t) = s ++ escapeQuote quote t := by
  induction s with
  | nil => rfl
  | cons b s ih =>
    obtain ⟨here,others⟩ := forall_mem_cons.mp plain
    rw [cons_append,escapeQuoteCons,if_neg here,ih others]
    rfl

end

section
variable {codes : Prop} {b d n quote : UInt8} {ds s : Bytes}

theorem hexPair (hex : isHexDigit d) : d ∉ [34,39,10] := by
  intro mem
  simp only [mem_cons,not_mem_nil,or_false] at mem
  rcases mem with rfl | rfl | rfl <;> cases hex

theorem codePlain (digits : ∀ b ∈ ds, isHexDigit b) (blank : isBlankByte n) :
    ∀ b ∈ ds ++ [n], b ≠ 92 ∧ b ≠ 34 ∧ b ≠ 39 := by
  intro b mem
  rcases mem_append.mp mem with digit | last
  · have hex := digits b digit
    refine ⟨?_,?_,?_⟩ <;> (rintro rfl; cases hex)
  · cases mem_singleton.mp last
    refine ⟨?_,?_,?_⟩ <;> (rintro rfl; cases blank)

theorem unescapeCode (first : isHexDigit d) (digits : ∀ b ∈ ds, isHexDigit b) (blank : isBlankByte n) (s : Bytes) :
    unescape (92 :: d :: (ds ++ n :: s)) = 92 :: d :: (ds ++ n :: unescape s) := by
  have plain := fun b mem => (codePlain digits blank b mem).1
  rw [unescapePair (hexPair first),append_cons,unescapePlains plain,← append_cons]

theorem unescapeContents (pieces : Pieces (bodyRule codes quote) s) : Pieces (contentsRule codes) (unescape s) := by
  induction pieces with
  | nil => exact .nil
  | byte plain _ ih =>
    rw [unescapePlain plain.2.1]
    exact .byte plain.2 ih
  | @pair b s _ _ ih =>
    by_cases quotes : b = 34 ∨ b = 39
    · rw [unescapeQuote quotes]
      refine .byte ?_ ih
      rcases quotes with rfl | rfl <;> exact ⟨by decide,rfl⟩
    by_cases line : b = 10
    · rw [line]
      exact ih
    · have other : b ∉ [34,39,10] := by simp_all
      rw [unescapePair other]
      exact .pair other ih
  | line _ _ ih =>
    have other : (13 : UInt8) ∉ [34,39,10] := by decide
    exact .line other ih
  | code allowed first digits few blank _ ih =>
    rw [unescapeCode first digits blank]
    exact .code allowed first digits few blank ih

variable (quotes : quote = 34 ∨ quote = 39)
include quotes

theorem escapeQuotePair (other : b ∉ [34,39,10]) (s : Bytes) :
    escapeQuote quote (92 :: b :: s) = 92 :: b :: escapeQuote quote s := by
  refine escapeQuotePlains (s := [92,b]) ?_ s
  rcases quotes with rfl | rfl <;> simp_all

theorem escapeQuoteCode (first : isHexDigit d) (digits : ∀ b ∈ ds, isHexDigit b) (blank : isBlankByte n) (s : Bytes) :
    escapeQuote quote (92 :: d :: (ds ++ n :: s)) = 92 :: d :: (ds ++ n :: escapeQuote quote s) := by
  have plain : ∀ b ∈ ds ++ [n], b ≠ quote := by
    intro b mem
    obtain ⟨_,double,single⟩ := codePlain digits blank b mem
    rcases quotes with rfl | rfl
    · exact double
    · exact single
  rw [escapeQuotePair quotes (hexPair first),append_cons,escapeQuotePlains plain,← append_cons]

theorem escapeBody (pieces : Pieces (contentsRule codes) s) : Pieces (bodyRule codes quote) (escapeQuote quote s) := by
  induction pieces with
  | nil => exact .nil
  | byte plain _ ih =>
    rw [escapeQuoteCons]
    split
    · exact .pair trivial ih
    · rename_i other
      exact .byte ⟨other,plain⟩ ih
  | pair other _ ih =>
    rw [escapeQuotePair quotes other]
    exact .pair trivial ih
  | line other _ ih =>
    rw [escapeQuotePair quotes other,escapeQuoteCons,if_neg (by rcases quotes with rfl | rfl <;> decide)]
    exact .line trivial ih
  | code allowed first digits few blank _ ih =>
    rw [escapeQuoteCode quotes first digits blank]
    exact .code allowed first digits few blank ih

theorem unescapeEscaped (pieces : Pieces (contentsRule codes) s) : unescape (escapeQuote quote s) = s := by
  induction pieces with
  | nil => rfl
  | byte plain _ ih =>
    rw [escapeQuoteCons]
    split
    · rename_i same
      rw [cons_append,cons_append,nil_append,unescapeQuote quotes,ih,same]
    · rw [cons_append,nil_append,unescapePlain plain.1,ih]
  | pair other _ ih => rw [escapeQuotePair quotes other,unescapePair other,ih]
  | line other _ ih =>
    rw [escapeQuotePair quotes other,unescapePair other,escapeQuoteCons,if_neg (by rcases quotes with rfl | rfl <;> decide),
      cons_append,nil_append,unescapePlain (by decide),ih]
  | code allowed first digits few blank _ ih =>
    rw [escapeQuoteCode quotes first digits blank,unescapeCode first digits blank,ih]

theorem escapedShortest (pieces : Pieces (bodyRule codes quote) s) :
    (escapeQuote quote (unescape s)).length ≤ s.length := by
  induction pieces with
  | nil => simp [unescape,escapeQuote]
  | byte plain _ ih =>
    rw [unescapePlain plain.2.1,escapeQuoteCons,if_neg plain.1]
    exact Nat.succ_le_succ ih
  | @pair b s _ _ ih =>
    by_cases mark : b = 34 ∨ b = 39
    · rw [unescapeQuote mark,escapeQuoteCons]
      split <;> simp <;> omega
    by_cases line : b = 10
    · rw [line]
      exact Nat.le_succ_of_le (Nat.le_succ_of_le ih)
    · have other : b ∉ [34,39,10] := by simp_all
      rw [unescapePair other,escapeQuotePair quotes other]
      exact Nat.succ_le_succ (Nat.succ_le_succ ih)
  | line _ _ ih =>
    rw [unescapePair (by decide),unescapePlain (by decide),escapeQuotePair quotes (by decide),escapeQuoteCons]
    rw [if_neg (by rcases quotes with rfl | rfl <;> decide)]
    exact Nat.succ_le_succ (Nat.succ_le_succ (Nat.succ_le_succ ih))
  | code allowed first digits few blank _ ih =>
    rw [unescapeCode first digits blank,escapeQuoteCode quotes first digits blank]
    simp only [length_cons,length_append]
    omega

end

theorem escapeQuoteLength (quote s) : (escapeQuote quote s).length = s.length + s.count quote := by
  induction s with
  | nil => rfl
  | cons b s ih =>
    rw [escapeQuoteCons,length_append,ih,count_cons]
    by_cases same : b = quote <;> simp [same] <;> omega

section
variable {s : Bytes} {quote : UInt8}

theorem unescapeHigh {n} (high : ∀ b ∈ s.take n, 0x80 ≤ b) : unescape s = s.take n ++ unescape (s.drop n) := by
  have plain : ∀ b ∈ s.take n, b ≠ 92 := by
    rintro _ mem rfl
    exact absurd (high 92 mem) (by decide)
  rw [← unescapePlains plain,take_append_drop]

theorem escapeQuoteHigh (low : quote < 0x80) {n} (high : ∀ b ∈ s.take n, 0x80 ≤ b) :
    escapeQuote quote s = s.take n ++ escapeQuote quote (s.drop n) := by
  have plain : ∀ b ∈ s.take n, b ≠ quote := by
    rintro _ mem rfl
    exact UInt8.not_le.mpr low (high _ mem)
  rw [← escapeQuotePlains plain,take_append_drop]

theorem completeAhead {lead front back} (size : front.length = trailing lead)
    (high : ∀ b ∈ front, 0x80 ≤ b) (rest : Complete (front ++ back)) : Complete (lead :: (front ++ back)) := by
  refine .cons (by simp [size]) ?_ rest
  rwa [← size,take_left]

theorem unescapeComplete (complete : Complete s) : Complete (unescape s) := by
  fun_induction unescape s with
  | case1 s ih => exact singleComplete (by decide) (ih (completeDrop complete 2))
  | case2 s ih => exact singleComplete (by decide) (ih (completeDrop complete 2))
  | case3 s ih => exact ih (completeDrop complete 2)
  | case4 s ih => exact singleComplete (by decide) (singleComplete (by decide) (ih (completeDrop complete 2)))
  | case5 b s _ _ _ _ ih =>
    cases complete with
    | cons enough high rest =>
      have kept := ih rest
      rw [unescapeHigh high] at kept ⊢
      exact completeAhead (length_take_of_le enough) high kept
  | case6 => exact .nil

theorem escapeQuoteComplete (low : quote < 0x80) (complete : Complete s) : Complete (escapeQuote quote s) := by
  induction complete with
  | nil => exact .nil
  | @cons lead s enough high _ ih =>
    rw [escapeQuoteCons]
    split
    · exact singleComplete (by decide) (singleComplete (UInt8.lt_trans low (by decide)) ih)
    · rw [escapeQuoteHigh low high] at ih ⊢
      rw [cons_append,nil_append]
      exact completeAhead (length_take_of_le enough) high ih

end

section
variable {codes : Prop} {quote : UInt8} {s t : Bytes} (quotes : quote = 34 ∨ quote = 39)
include quotes

theorem quoteLow : quote < 0x80 := by
  rcases quotes with rfl | rfl <;> decide

theorem stringScanner : Scanner (stringStep quote) (bodyRule True quote) where
  plain plain := by
    obtain ⟨other,slash,line⟩ := plain
    simp [stringStep,line,other,slash]
  other := by
    intro b s n slash move
    unfold stringStep at move
    split at move
    · cases move
    rename_i line
    split at move
    · cases move
    rename_i other
    rw [if_neg (by simp [slash])] at move
    cases move
    exact ⟨⟨by simpa using other,slash,by simpa using line⟩,rfl⟩
  escape length := by rcases quotes with rfl | rfl <;> simp [stringStep,isNewline,escapeMove,length]
  newline := by
    refine .inl ⟨trivial,fun length => ?_⟩
    rcases quotes with rfl | rfl <;> simp [stringStep,isNewline,escapeMove,length]
  slash plain := plain.2.1 rfl
  line plain := plain.2.2
  hex hex := ⟨by rcases quotes with rfl | rfl <;> (rintro rfl; cases hex),hexSolid hex⟩
  high high := by
    have other : ∀ c : UInt8, c < 0x80 → _ ≠ c := fun c low same => UInt8.not_le.mpr low (same ▸ high)
    refine ⟨other quote (quoteLow quotes),other 92 (by decide),?_⟩
    simp [isNewline,other]
  escaped _ := trivial
  codes := trivial

theorem closedStringRun (pieces : Pieces (bodyRule True quote) s) (complete : Complete s) (rest : Bytes) :
    stringRun quote 0 (s ++ quote :: rest) = (s.length + 1,false) := by
  have ends : Ends (quote :: rest) := by
    rintro _ ⟨⟩
    rcases quotes with rfl | rfl <;> exact ⟨rfl,rfl⟩
  have last : stringRun quote 0 (quote :: rest) = (1,false) := by
    rcases quotes with rfl | rfl <;> simp [stringRun,isNewline]
  rw [stringRunScan] at last ⊢
  rw [scanPieces (stringScanner quotes) s pieces complete ends,last]
  rfl

omit quotes in
theorem stringHalt {b taken done} (move : stringStep quote b s = .halt taken done) :
    taken = 1 ∧ (done = false → b = quote) := by
  unfold stringStep at move
  split at move
  · cases move
    exact ⟨rfl,fun broken => absurd broken (by decide)⟩
  split at move
  · rename_i same
    cases move
    exact ⟨rfl,fun _ => eq_of_beq same⟩
  · split at move
    · unfold escapeMove at move
      split at move <;> cases move
    · cases move

theorem stringRunFound (whole : Whole s) (unbroken : (stringRun quote 0 s).2 = false) :
    (stringRun quote 0 s).1 = s.length ∨ ∃ front back, s = front ++ quote :: back ∧ Pieces (bodyRule True quote) front ∧
      (stringRun quote 0 s).1 = front.length + 1 := by
  obtain ⟨front,back,rfl,pieces,halts,run⟩ := scanFound (stringScanner quotes) s whole
  rw [stringRunScan,run] at unbroken ⊢
  rw [length_append]
  cases halts with
  | nil => exact .inl rfl
  | slash =>
    have all : scan (stringStep quote) false 0 [92] = (1,false) := by
      rcases quotes with rfl | rfl <;> rfl
    rw [all]
    exact .inl rfl
  | @halt b back taken done move =>
    obtain ⟨rfl,closes⟩ := stringHalt move
    have halted : scan (stringStep quote) false 0 (b :: back) = (1,done) := by simp only [scan,move]
    rw [halted] at unbroken ⊢
    cases closes unbroken
    exact .inr ⟨front,back,rfl,pieces,rfl⟩

theorem closedStringToken (pieces : Pieces (bodyRule True quote) s) (complete : Complete s) (rest : Bytes) :
    tokens (quote :: (s ++ quote :: rest)) = ⟨.string,quote :: (s ++ [quote])⟩ :: tokens rest := by
  have run := closedStringRun quotes pieces complete rest
  have first : firstToken quote (s ++ quote :: rest) = (.string,s.length + 1 + 1) := by
    rcases quotes with rfl | rfl <;> simp [firstToken,isBlankByte,run]
  rw [tokensCons,first,Nat.add_sub_cancel,take_length_add_append,drop_length_add_append]
  rfl

end

theorem quoteTextCases (s) : ∃ quote, (quote = 34 ∨ quote = 39) ∧
    quoteText s = quote :: (escapeQuote quote s ++ [quote]) ∧ s.count quote = min (s.count 39) (s.count 34) := by
  unfold quoteText
  split
  · rename_i fewer
    exact ⟨39,.inr rfl,rfl,by omega⟩
  · rename_i fewer
    exact ⟨34,.inl rfl,rfl,by omega⟩

section
variable {codes : Prop} {s t : Bytes}

theorem bodyCodes {quote} (pieces : Pieces (bodyRule codes quote) s) : Pieces (bodyRule True quote) s := by
  refine piecesMono ?_ ?_ ?_ pieces
  · exact fun _ plain => plain
  · exact fun _ escaped => escaped
  · exact fun _ => trivial

theorem closedContents (closed : ClosedString codes t) : Pieces (contentsRule codes) (unquote t) := by
  obtain ⟨quote,body,quotes,pieces,rfl⟩ := closed
  rw [unquoteEnds quotes]
  exact unescapeContents pieces

theorem closedLength (closed : ClosedString codes t) :
    (unquote t).length + 2 + min ((unquote t).count 39) ((unquote t).count 34) ≤ t.length := by
  obtain ⟨quote,body,quotes,pieces,rfl⟩ := closed
  have shortest := escapedShortest quotes pieces
  rw [escapeQuoteLength] at shortest
  rw [unquoteEnds quotes]
  simp only [length_cons,length_append,length_nil]
  rcases quotes with rfl | rfl <;> omega

theorem closedComplete {rest} (closed : ClosedString codes t) (whole : Whole (t ++ rest)) : Complete (unquote t) := by
  obtain ⟨quote,body,quotes,pieces,rfl⟩ := closed
  rw [unquoteEnds quotes]
  rw [cons_append,append_assoc] at whole
  exact unescapeComplete (wholeComplete (quoteLow quotes) (wholeDrop whole 1))

theorem quoteTextLength (s) : (quoteText s).length = s.length + 2 + min (s.count 39) (s.count 34) := by
  obtain ⟨quote,_,text,fewest⟩ := quoteTextCases s
  rw [text]
  simp only [length_cons,length_append,length_nil,escapeQuoteLength]
  omega

theorem quoteTextClosed (pieces : Pieces (contentsRule codes) s) :
    ClosedString codes (quoteText s) ∧ unquote (quoteText s) = s := by
  obtain ⟨quote,quotes,text,_⟩ := quoteTextCases s
  rw [text,unquoteEnds quotes]
  exact ⟨⟨quote,escapeQuote quote s,quotes,escapeBody quotes pieces,rfl⟩,unescapeEscaped quotes pieces⟩

theorem quoteTextToken (pieces : Pieces (contentsRule codes) s) (complete : Complete s) (rest) :
    tokens (quoteText s ++ rest) = ⟨.string,quoteText s⟩ :: tokens rest := by
  obtain ⟨quote,quotes,text,_⟩ := quoteTextCases s
  rw [text,cons_append,append_assoc]
  exact closedStringToken quotes (bodyCodes (escapeBody quotes pieces)) (escapeQuoteComplete (quoteLow quotes) complete) rest

/- A closed string, taken apart and written again, is a closed string that holds the same, and none is shorter.
Where its characters are whole it is one token, whatever follows. -/
theorem stringWrittenAgain (closed : ClosedString codes t) :
    ClosedString codes (quoteText (unquote t)) ∧ unquote (quoteText (unquote t)) = unquote t ∧
      (quoteText (unquote t)).length = (unquote t).length + 2 + min ((unquote t).count 39) ((unquote t).count 34) ∧
      (∀ other, ClosedString codes other → unquote other = unquote t → (quoteText (unquote t)).length ≤ other.length) ∧
      (Whole t → ∀ rest, tokens (quoteText (unquote t) ++ rest) = ⟨.string,quoteText (unquote t)⟩ :: tokens rest) := by
  have pieces := closedContents closed
  obtain ⟨again,same⟩ := quoteTextClosed pieces
  refine ⟨again,same,quoteTextLength _,fun other also holds => ?_,fun whole rest => ?_⟩
  · rw [quoteTextLength,← holds]
    exact closedLength also
  · have ended : Whole (t ++ []) := by rwa [append_nil]
    exact quoteTextToken pieces (closedComplete closed ended) rest

def escapedString : Bytes := ascii "\"a\\\"b\\\"\\\\'c\\\nd\""

theorem escapedStringClosed : ClosedString False escapedString := by
  refine ⟨34,ascii "a\\\"b\\\"\\\\'c\\\nd",.inl rfl,?_,rfl⟩
  have plain : ∀ b ∈ ascii "ab'cd", (bodyRule False 34).plain b := by
    have all : (ascii "ab'cd").all (fun b => b != 34 && b != 92 && !isNewline b) := rfl
    intro b mem
    simpa [bodyRule,and_assoc] using all_eq_true.mp all b mem
  have letter : ∀ {b : UInt8} {s}, b ∈ ascii "ab'cd" → Pieces (bodyRule False 34) s → Pieces (bodyRule False 34) (b :: s) :=
    fun mem rest => .byte (plain _ mem) rest
  exact letter (by decide) <| .pair trivial <| letter (by decide) <| .pair trivial <| .pair trivial <|
    letter (by decide) <| letter (by decide) <| .pair trivial <| letter (by decide) .nil

theorem escapedStringWritten : ClosedString False escapedString ∧ Whole escapedString ∧
    quoteText (unquote escapedString) = ascii "'a\"b\"\\\\\\'cd'" ∧
    tokens (quoteText (unquote escapedString)) = [⟨.string,ascii "'a\"b\"\\\\\\'cd'"⟩] := by
  have whole : Whole escapedString := textWhole 0 rfl (by simp)
  have text : quoteText (unquote escapedString) = ascii "'a\"b\"\\\\\\'cd'" := by decide
  obtain ⟨_,_,_,_,token⟩ := stringWrittenAgain escapedStringClosed
  have token := token whole []
  rw [append_nil,text] at token
  exact ⟨escapedStringClosed,whole,text,by rw [text]; exact token⟩

end

end Cascade
