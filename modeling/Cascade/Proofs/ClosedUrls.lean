import Cascade.Proofs.TrimmedTexts
import Cascade.Proofs.UrlTokens

/-! Closed locations, read from tokens and written again. -/
namespace Cascade
open List

def endsOpen (s : Bytes) : Bool := s.foldl (fun escaping b => b == 92 && !escaping) false

section
variable {s : Bytes}

theorem endsOpenPlain (plain : ∀ b ∈ s, b ≠ 92) : endsOpen s = false := by
  induction s with
  | nil => rfl
  | cons b s ih =>
    obtain ⟨here,others⟩ := forall_mem_cons.mp plain
    rw [endsOpen,foldl_cons,beq_false_of_ne here]
    exact ih others

theorem endsOpenAppend {front} (shut : endsOpen front = false) (s) : endsOpen (front ++ s) = endsOpen s := by
  rw [endsOpen,foldl_append,← endsOpen,shut]
  rfl

theorem endsOpenSlash (shut : endsOpen s = false) : endsOpen (s ++ [92]) := by
  rw [endsOpenAppend shut]
  rfl

theorem piecesShut {rule} (slash : ¬rule.plain 92) (pieces : Pieces rule s) : endsOpen s = false := by
  induction pieces with
  | nil => rfl
  | @byte b s plain _ ih =>
    have other : b ≠ 92 := fun same => slash (same ▸ plain)
    have shut : endsOpen [b] = false := endsOpenPlain (by simpa using other)
    exact (endsOpenAppend shut s).trans ih
  | @pair b s _ _ ih =>
    have shut : endsOpen [92,b] = false := by simp [endsOpen]
    exact (endsOpenAppend shut s).trans ih
  | @line s _ _ ih =>
    have shut : endsOpen [92,13,10] = false := rfl
    exact (endsOpenAppend shut s).trans ih
  | @code d n ds s _ first digits _ blank _ ih =>
    have start : endsOpen [92,d] = false := by simp [endsOpen]
    have plain : endsOpen (ds ++ [n]) = false := endsOpenPlain fun b mem => (codePlain digits blank b mem).1
    have shut : endsOpen ([92,d] ++ (ds ++ [n])) = false := (endsOpenAppend start _).trans plain
    have parts : 92 :: d :: (ds ++ n :: s) = [92,d] ++ (ds ++ [n]) ++ s := by simp
    rw [parts,endsOpenAppend shut,ih]

theorem endsOpenEscaped {quote} (other : quote ≠ 92) (s) : endsOpen (escapeQuote quote s) = endsOpen s := by
  suffices same : ∀ start, (escapeQuote quote s).foldl (fun escaping b => b == 92 && !escaping) start =
      s.foldl (fun escaping b => b == 92 && !escaping) start from same false
  induction s with
  | nil => exact fun _ => rfl
  | cons b s ih =>
    intro start
    rw [escapeQuoteCons,foldl_append,ih,foldl_cons]
    split
    · rename_i same
      simp [same,beq_false_of_ne other]
    · rfl

end

section
variable {name inner mid : Bytes}

theorem urlNameFree (named : isUrlName name) : 40 ∉ name := by
  intro mem
  rw [isUrlName,beq_iff_eq] at named
  have kept : (40 : UInt8) ∈ lowerAscii (name.filter (· != 92)) :=
    mem_map.mpr ⟨40,mem_filter.mpr ⟨mem,rfl⟩,rfl⟩
  rw [named] at kept
  exact absurd kept (by decide)

def unwrapped (inner : Bytes) : Bytes :=
  match inner with
  | b :: _ => if b == 34 || b == 39 then unquote inner else inner
  | [] => inner

theorem locationBetween (free : 40 ∉ name) (inner) :
    locationOf (name ++ 40 :: (inner ++ [41])) = unwrapped (trim inner) := by
  have last : (name ++ 40 :: (inner ++ [41])).getLast? = some 41 := by
    rw [← cons_append,← append_assoc,getLast?_concat]
  rw [locationOf,dropName free,last]
  simp only [beq_self_eq_true,if_true,dropLast_concat]
  rfl

theorem unwrappedQuoted (closed : ClosedString True mid) : unwrapped (trim mid) = unquote mid := by
  obtain ⟨quote,body,quotes,_,rfl⟩ := closed
  have solid : isSpace quote.toNat = false := by
    rcases quotes with rfl | rfl <;> rfl
  have either : (quote == 34 || quote == 39) := by simpa using quotes
  rw [trimBetween (quoteLow quotes) solid,unwrapped,if_pos either]

theorem trimPieces (pieces : Pieces locationRule mid) : ∃ back, Pieces locationRule (trim mid ++ back) := by
  obtain ⟨front,back,parts,spaces⟩ := trimParts mid
  refine ⟨back,?_⟩
  rw [parts] at pieces
  have dropped := piecesDrop (n := front.length) (fun b mem => ?_) pieces
  · rwa [drop_left] at dropped
  · rw [take_left] at mem
    rintro rfl
    exact absurd (spaces 92 (mem_append_left _ mem) (by decide)) (by decide)

theorem unwrappedBare (pieces : Pieces locationRule mid) : unwrapped (trim mid) = trim mid := by
  obtain ⟨back,pieces⟩ := trimPieces pieces
  cases left : trim mid with
  | nil => rfl
  | cons b more =>
    rw [left,cons_append] at pieces
    rw [unwrapped,(locationStarts pieces).2]
    rfl

end

section
variable {s : Bytes}

theorem unquotedScan (pieces : Pieces locationRule s) (complete : Complete s) : isUnquotedLocation s := by
  have run : scan locationStep true 0 (s ++ []) = _ := scanPieces locationScanner s pieces complete (by simp [Ends])
  rw [append_nil] at run
  rw [isUnquotedLocation,locationRunScan,run]
  simp [later,scan]

theorem unquotedPieces (whole : Whole s) (unquoted : isUnquotedLocation s) : Pieces locationRule s := by
  obtain ⟨front,back,rfl,pieces,halts,run⟩ := scanFound locationScanner s whole
  obtain ⟨done,halted⟩ := locationHalts halts
  rw [isUnquotedLocation,locationRunScan,run,halted,beq_iff_eq] at unquoted
  have bare : back = [] := by
    simp only [later,Nat.add_zero,length_append] at unquoted
    exact length_eq_zero_iff.mp (by omega)
  rwa [bare,append_nil]

end

section
variable {inner s t : Bytes}

theorem urlEndHere (front rest : Bytes) : urlEnd front.length (front ++ 41 :: rest) = (.url,front.length + 1) := by
  have bare : blankRun (41 :: rest) = 0 := rfl
  have head : (front ++ 41 :: rest).drop (front.length + blankRun ((front ++ 41 :: rest).drop front.length)) = 41 :: rest := by
    rw [drop_left,bare,Nat.add_zero,drop_left]
  rw [urlEndCons head,if_pos rfl,drop_left,bare]

theorem urlToken (run : ∀ rest, urlRun (inner ++ 41 :: rest) = (.url,inner.length + 1)) :
    ClosedToken .url (ascii "url(" ++ inner ++ ascii ")") := by
  intro rest
  have text : ascii "url(" ++ inner ++ ascii ")" ++ rest = ascii "url" ++ 40 :: (inner ++ 41 :: rest) := by
    rw [append_assoc,append_assoc]
    rfl
  have ends : EndsName (ascii "url") (40 :: (inner ++ 41 :: rest)) := ⟨by decide,by simp [breaksName]; decide,rfl⟩
  have found : identLike (ascii "url" ++ 40 :: (inner ++ 41 :: rest)) = some (.url,3 + (1 + (inner.length + 1))) := by
    have name := endsNameLength ends
    rw [identLikeCall (endsNameSome ends) (by rw [name,drop_left]),name,take_left,callToken,
      if_pos (show isUrlName (ascii "url") from rfl),run,Nat.add_assoc]
    rfl
  have size : (ascii "url(" ++ inner ++ ascii ")").length = 3 + (1 + (inner.length + 1)) := by
    simp [ascii]
    omega
  rw [text,tokensFirst ends rfl found,← text,take_left' size,drop_left' size]

theorem bareRun (full : s ≠ []) (pieces : Pieces locationRule s) (complete : Complete s) (rest : Bytes) :
    urlRun (s ++ 41 :: rest) = (.url,s.length + 1) := by
  have run : locationRun 0 (s ++ 41 :: rest) = (s.length,true) := by
    rw [locationRunScan,scanPieces locationScanner s pieces complete (by simp [Ends]; decide)]
    rfl
  cases s with
  | nil => exact absurd rfl full
  | cons b s =>
    obtain ⟨solid,bare⟩ := locationStarts pieces
    have void : blankRun (b :: s ++ 41 :: rest) = 0 := by simp [blankRun,solid]
    have head : (b :: s ++ 41 :: rest).drop (blankRun (b :: s ++ 41 :: rest)) = b :: (s ++ 41 :: rest) := by
      rw [void]
      rfl
    rw [urlRunCons head,bare,void,← cons_append,run,unquotedUrl,if_neg Bool.false_ne_true,if_pos rfl,
      Nat.zero_add]
    exact urlEndHere (b :: s) rest

theorem quotedRun {codes} (pieces : Pieces (contentsRule codes) s) (complete : Complete s) (rest : Bytes) :
    urlRun (quoteText s ++ 41 :: rest) = (.url,(quoteText s).length + 1) := by
  obtain ⟨quote,quotes,text,_⟩ := quoteTextCases s
  have run := closedStringRun quotes (bodyCodes (escapeBody quotes pieces)) (escapeQuoteComplete (quoteLow quotes) complete)
    (41 :: rest)
  have bare : blankRun (quoteText s ++ 41 :: rest) = 0 := by
    rw [text]
    rcases quotes with rfl | rfl <;> rfl
  have head : (quoteText s ++ 41 :: rest).drop (blankRun (quoteText s ++ 41 :: rest)) =
      quote :: (escapeQuote quote s ++ quote :: 41 :: rest) := by
    rw [bare,text]
    simp
  have size : (quoteText s).length = 0 + 1 + ((escapeQuote quote s).length + 1) := by
    rw [text]
    simp
    omega
  rw [urlRunCons head,bare,if_pos (by simpa using quotes),run,← size]
  exact urlEndHere (quoteText s) rest

end

/- What a reader makes of a closed location: the contents of a string, or what stands without quotes less white
space at its ends. -/
inductive Location (s : Bytes) : Prop where
  | quoted (pieces : Pieces (contentsRule True) s)
  | bare (front : PieceFront locationRule s)

section
variable {t name lead mid trail : Bytes}

theorem locationForm (form : UrlForm t name lead mid trail) : locationOf t = unwrapped (trim mid) := by
  have parts : t = name ++ 40 :: (lead ++ (mid ++ trail) ++ [41]) := by
    rw [form.parts]
    simp
  rw [parts,locationBetween (urlNameFree form.named),trimAround form.before form.after]

theorem closedLocation (closed : ClosedToken .url t) (text : isText t) :
    Complete (locationOf t) ∧ Location (locationOf t) := by
  obtain ⟨name,lead,mid,trail,form⟩ := closedForm closed (textComplete text)
  have read := locationForm form
  cases form.inside with
  | quoted string =>
    rw [unwrappedQuoted string] at read
    have whole : Whole t := textWhole 0 text (by simp)
    rw [form.parts] at whole
    have behind : Whole (mid ++ (trail ++ [41])) := wholeSuffix (wholeDrop (wholeSuffix whole) 1)
    refine ⟨?_,.quoted ?_⟩
    · rw [read]
      exact closedComplete string behind
    · rw [read]
      exact closedContents string
  | bare pieces =>
    rw [unwrappedBare pieces] at read
    obtain ⟨back,trimmed⟩ := trimPieces pieces
    have parts : t = name ++ 40 :: (lead ++ (mid ++ trail) ++ 41 :: []) := by
      rw [form.parts]
      simp
    rw [parts] at text
    have complete := trimComplete (textWithin (by decide) (by decide) text)
    rw [trimAround form.before form.after,← read] at complete
    refine ⟨complete,.bare ?_⟩
    rw [read]
    exact piecesFront locationScanner trimmed rfl

theorem writtenParts (inner : Bytes) : ascii "url(" ++ inner ++ ascii ")" = ascii "url" ++ 40 :: (inner ++ [41]) := by
  rw [append_assoc]
  rfl

theorem locationWritten (inner) : locationOf (ascii "url(" ++ inner ++ ascii ")") = unwrapped (trim inner) := by
  rw [writtenParts,locationBetween (by decide)]

theorem stringInside {quote : UInt8} {s : Bytes} (quotes : quote = 34 ∨ quote = 39)
    (before : ∀ b ∈ lead, isBlankByte b) (after : ∀ b ∈ trail, isBlankByte b) (inside : Inside mid)
    (parts : quote :: (s ++ [quote]) = lead ++ (mid ++ trail)) : Pieces (bodyRule True quote) s := by
  have solid : isBlankByte quote ≠ true := by
    rcases quotes with rfl | rfl <;> decide
  have last : trail = [] := by
    rcases eq_nil_or_concat trail with void | ⟨most,b,rfl⟩
    · exact void
    have ends := congrArg List.getLast? parts
    rw [concat_eq_append,← append_assoc,← append_assoc,getLast?_concat,← cons_append,
      getLast?_concat,Option.some.injEq] at ends
    exact absurd (after quote (by simp [ends])) solid
  have first : lead = [] := by
    cases lead with
    | nil => rfl
    | cons b lead =>
      obtain ⟨rfl,_⟩ := List.cons.inj parts
      exact absurd (before quote mem_cons_self) solid
  rw [last,first,nil_append,append_nil] at parts
  subst parts
  cases inside with
  | quoted closed =>
    obtain ⟨other,body,_,pieces,same⟩ := closed
    obtain ⟨rfl,same⟩ := List.cons.inj same
    cases append_cancel_right same
    exact pieces
  | bare pieces =>
    have bare := (locationStarts pieces).2
    rcases quotes with rfl | rfl <;> cases bare

theorem quotedShut {s} (complete : Complete s) (closed : ClosedToken .url (ascii "url(" ++ quoteText s ++ ascii ")")) :
    endsOpen s = false := by
  obtain ⟨quote,quotes,text,_⟩ := quoteTextCases s
  have low : quote < 0xC0 := UInt8.lt_trans (quoteLow quotes) (by decide)
  have body : Complete (quoteText s) := by
    rw [text]
    exact singleComplete low (completeAppend (escapeQuoteComplete (quoteLow quotes) complete) (singleComplete low .nil))
  have ends : Complete (ascii "url(") ∧ Complete (ascii ")") := ⟨textComplete rfl,textComplete rfl⟩
  obtain ⟨name,lead,mid,trail,form⟩ := closedForm closed (completeAppend (completeAppend ends.1 body) ends.2)
  have cut := congrArg (List.dropWhile (· != 40)) form.parts
  rw [writtenParts,dropName (by decide),dropName (urlNameFree form.named),← append_assoc,← append_assoc] at cut
  have inner := append_cancel_right (List.cons.inj cut).2
  rw [text,append_assoc] at inner
  have pieces := stringInside quotes form.before form.after form.inside inner
  have slash : quote ≠ 92 := by
    rcases quotes with rfl | rfl <;> decide
  have shut := piecesShut (stringScanner quotes).slash pieces
  rwa [endsOpenEscaped slash] at shut

section
variable {s : Bytes} (complete : Complete s)
include complete

theorem bareWritten (full : s ≠ []) (unquoted : isUnquotedLocation s) :
    ClosedToken .url (urlText s) ∧ locationOf (urlText s) = trim s := by
  have pieces := unquotedPieces (completeIsWhole complete) unquoted
  rw [urlText,if_pos ⟨full,unquoted⟩,locationWritten,unwrappedBare pieces]
  exact ⟨urlToken (bareRun full pieces complete),rfl⟩

theorem quotedWritten (pieces : Pieces (contentsRule True) s) (written : urlText s = ascii "url(" ++ quoteText s ++ ascii ")") :
    ClosedToken .url (urlText s) ∧ locationOf (urlText s) = s := by
  obtain ⟨string,same⟩ := quoteTextClosed pieces
  rw [written,locationWritten,unwrappedQuoted string]
  exact ⟨urlToken (quotedRun pieces complete),same⟩

theorem quotedContents (location : Location s) (shut : endsOpen s = false) (needs : ¬(s ≠ [] ∧ isUnquotedLocation s)) :
    Pieces (contentsRule True) s := by
  cases location with
  | quoted pieces => exact pieces
  | bare front =>
    rcases front with pieces | ⟨most,rfl,pieces⟩
    · have void : s = [] := Decidable.not_not.mp fun full => needs ⟨full,unquotedScan pieces complete⟩
      rw [void]
      exact .nil
    · have slash := endsOpenSlash (piecesShut locationScanner.slash pieces)
      exact absurd (shut.symm.trans slash) Bool.false_ne_true

end

/- A closed location, read and written again, is a closed location that reads the same exactly if white space at
its ends is not lost with the quotes, and it does not end in a backslash whose white space is lost. -/
theorem locationWrittenAgain (closed : ClosedToken .url t) (text : isText t = true) :
    (ClosedToken .url (urlText (locationOf t)) ∧ locationOf (urlText (locationOf t)) = locationOf t) ↔
      (isUnquotedLocation (locationOf t) = true → trim (locationOf t) = locationOf t) ∧ endsOpen (locationOf t) = false := by
  obtain ⟨complete,location⟩ := closedLocation closed text
  generalize locationOf t = read at *
  by_cases bare : read ≠ [] ∧ isUnquotedLocation read = true
  · obtain ⟨token,same⟩ := bareWritten complete bare.1 bare.2
    have shut := piecesShut locationScanner.slash (unquotedPieces (completeIsWhole complete) bare.2)
    rw [same]
    exact ⟨fun again => ⟨fun _ => again.2,shut⟩,fun kept => ⟨token,kept.1 bare.2⟩⟩
  have written : urlText read = ascii "url(" ++ quoteText read ++ ascii ")" := if_neg bare
  have ends : isUnquotedLocation read = true → trim read = read := by
    intro unquoted
    have void : read = [] := Decidable.not_not.mp fun full => bare ⟨full,unquoted⟩
    rw [void]
    rfl
  constructor
  · rintro ⟨token,_⟩
    rw [written] at token
    exact ⟨ends,quotedShut complete token⟩
  · rintro ⟨_,shut⟩
    exact quotedWritten complete (quotedContents complete location shut bare) written

def escapedBlankUrl : Bytes := ascii "url(a\\ )"

def quotedBlankUrl : Bytes := ascii "url(\"a\\41 \")"

theorem escapedBlankClosed : ClosedToken .url escapedBlankUrl := by
  have letter : locationRule.plain 97 := locationPlain.mpr (by decide)
  have blank : locationRule.escaped 32 := rfl
  exact @urlToken (ascii "a\\ ") (bareRun (by decide) (.byte letter (.pair blank .nil)) (textComplete rfl))

theorem quotedBlankClosed : ClosedToken .url quotedBlankUrl := by
  have letter : ∀ {b : UInt8} {s}, b ∈ ascii "a1 " → Pieces (contentsRule True) s → Pieces (contentsRule True) (b :: s) := by
    intro b s mem
    have all : (ascii "a1 ").all (fun b => b != 92 && !isNewline b) := rfl
    exact .byte (by simpa [contentsRule] using all_eq_true.mp all b mem)
  have digit : (contentsRule True).escaped 52 := by simp [contentsRule]
  have pieces : Pieces (contentsRule True) (ascii "a\\41 ") :=
    letter (by decide) <| .pair digit <| letter (by decide) <| letter (by decide) .nil
  exact @urlToken (quoteText (ascii "a\\41 ")) (quotedRun pieces (textComplete rfl))

theorem blanksLost : ClosedToken .url escapedBlankUrl ∧ isText escapedBlankUrl = true ∧
    ¬(ClosedToken .url (urlText (locationOf escapedBlankUrl)) ∧
      locationOf (urlText (locationOf escapedBlankUrl)) = locationOf escapedBlankUrl) ∧
    ClosedToken .url quotedBlankUrl ∧ isText quotedBlankUrl = true ∧
    ¬(ClosedToken .url (urlText (locationOf quotedBlankUrl)) ∧
      locationOf (urlText (locationOf quotedBlankUrl)) = locationOf quotedBlankUrl) := by
  refine ⟨escapedBlankClosed,rfl,?_,quotedBlankClosed,rfl,?_⟩
  · rw [locationWrittenAgain escapedBlankClosed rfl]
    exact fun kept => absurd kept.2 (by decide)
  · rw [locationWrittenAgain quotedBlankClosed rfl]
    exact fun kept => absurd (kept.1 (by decide)) (by decide)

end

end Cascade
