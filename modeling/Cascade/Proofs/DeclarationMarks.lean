import Cascade.Proofs.GatheredValues

/-! The marks behind a value: the mark of importance, and the hack that only old browsers read. They are printed in one
order and taken off in the other, and a hack behind a number makes a number with a unit of it. -/
namespace Cascade
open List Declaration
open Declaration (text)
open Token (isBlank space isDelim)

def hack : Bytes := ascii "\\9"

def bang : Token := ⟨.delim,[33]⟩

def importantWord : Token := ⟨.ident,ascii "important"⟩

def EndsImportant (ts : List Token) : Prop :=
  ∃ before mark pad word, ts = before ++ mark :: pad ++ [word] ∧ mark.isDelim 33 = true ∧ Blanks pad ∧
    word.kind = .ident ∧ sameLetters word.text (ascii "important") = true

def EndsHacked (ts : List Token) : Prop := ∃ before kind text, ts = before ++ [⟨kind,text ++ hack⟩]

section
variable {ts : List Token}

theorem delimSolid {t : Token} {b} (delim : t.isDelim b) : t.isBlank = false := by
  simp only [isDelim,Bool.and_eq_true,decide_eq_true_eq] at delim
  simp [isBlank,delim.1]

theorem takeImportantConcat (ts word) : takeImportant (ts ++ [word]) =
    if word.kind = .ident ∧ sameLetters word.text (ascii "important") ∧
      (trimTokens ts).getLast?.any (·.isDelim 33) then (trimTokens (trimTokens ts).dropLast,true)
    else (ts ++ [word],false) := by
  rw [takeImportant,getLast?_concat,dropLast_concat]
  dsimp only
  cases (trimTokens ts).getLast? <;> rfl

theorem takeSlashNineConcat (ts last) : takeSlashNine (ts ++ [last]) =
    if hack.isSuffixOf last.text then
      if (last.text.take (last.text.length - 2)).isEmpty then (trimTokens ts,true)
      else (ts ++ [⟨last.kind,last.text.take (last.text.length - 2)⟩],true)
    else (ts ++ [last],false) := by
  rw [takeSlashNine,getLast?_concat,dropLast_concat]
  rfl

theorem importantEnds (ts) : (takeImportant ts).2 ↔ EndsImportant ts := by
  refine ⟨fun taken => ?_,?_⟩
  · rcases eq_nil_or_concat ts with rfl | ⟨ts,word,rfl⟩
    · cases taken
    rw [concat_eq_append,takeImportantConcat] at taken
    split at taken
    · rename_i marked
      obtain ⟨kind,letters,there⟩ := marked
      obtain ⟨mark,found,delim⟩ := (Option.any_eq_true _ _).mp there
      obtain ⟨before,pad,rfl,blanks⟩ := trimmedLast found
      exact ⟨before,mark,pad,word,by simp,delim,blanks,kind,letters⟩
    · cases taken
  · rintro ⟨before,mark,pad,word,rfl,delim,blanks,kind,letters⟩
    obtain ⟨front,same⟩ := trimmedEnd (delimSolid delim) before
    have rest : trimTokens (before ++ mark :: pad) = front ++ [mark] := by
      rw [append_cons,trimmedPad blanks,same]
    rw [takeImportantConcat,rest,getLast?_concat,if_pos ⟨kind,letters,delim⟩]

theorem hackSuffix (text : Bytes) : hack.isSuffixOf (text ++ hack) := isSuffixOf_iff_suffix.mpr ⟨text,rfl⟩

theorem hackedEnds (ts) : (takeSlashNine ts).2 ↔ EndsHacked ts := by
  refine ⟨fun taken => ?_,?_⟩
  · rcases eq_nil_or_concat ts with rfl | ⟨ts,last,rfl⟩
    · cases taken
    rw [concat_eq_append,takeSlashNineConcat] at taken
    split at taken
    · rename_i hacked
      obtain ⟨text,same⟩ := isSuffixOf_iff_suffix.mp hacked
      exact ⟨ts,last.kind,text,by rw [concat_eq_append,same]⟩
    · cases taken
  · rintro ⟨before,kind,text,rfl⟩
    rw [takeSlashNineConcat,if_pos (hackSuffix text)]
    split <;> rfl

theorem importantTaken (trimmed : trimTokens ts = ts) :
    takeImportant (ts ++ [bang] ++ [importantWord]) = (ts,true) := by
  have solid : ∀ t ∈ ts.head?, t.isBlank = false := by
    by_cases bare : ts = []
    · rw [bare]
      exact fun _ mem => by cases mem
    · have first := trimmedFirst trimmed bare []
      rwa [append_nil] at first
  have rest : trimTokens (ts ++ [bang]) = ts ++ [bang] := trimmedConcat rfl solid
  rw [takeImportantConcat,rest,getLast?_concat,if_pos ⟨rfl,by decide,by decide⟩,dropLast_concat,trimmed]

theorem hackedUnimportant (ts kind text) :
    takeImportant (ts ++ [⟨kind,text ++ hack⟩]) = (ts ++ [⟨kind,text ++ hack⟩],false) := by
  have other : sameLetters (text ++ hack) (ascii "important") = false := by
    rw [sameLetters,beq_eq_false_iff_ne]
    intro same
    have last := congrArg List.getLast? same
    rw [lowerAscii,map_append,getLast?_append_of_ne_nil _ (by decide)] at last
    exact absurd last (by decide)
  rw [takeImportantConcat,if_neg (by simp [other])]

theorem hackTaken (ts kind) {text : Bytes} (full : text ≠ []) :
    takeSlashNine (ts ++ [⟨kind,text ++ hack⟩]) = (ts ++ [⟨kind,text⟩],true) := by
  have short : (text ++ hack).take ((text ++ hack).length - 2) = text := by
    rw [length_append]
    exact take_left' rfl
  rw [takeSlashNineConcat,if_pos (hackSuffix text)]
  dsimp only
  rw [short,if_neg (by simpa using full)]

theorem loneHackTaken (ts kind) : takeSlashNine (ts ++ [⟨kind,hack⟩]) = (trimTokens ts,true) :=
  takeSlashNineConcat ts ⟨kind,hack⟩

end

def hackedKinds : List TokenKind := [.ident,.customName,.atKeyword,.hash,.number,.dimension]

def Token.hacked (t : Token) : Token := ⟨if t.kind = .number then .dimension else t.kind,t.text ++ hack⟩

open Token (hacked isTight)

def hackBehind (ts : List Token) : List Token :=
  if ts.getLast?.any (hackedKinds.contains ·.kind) then ts.dropLast ++ ts.getLast?.toList.map hacked
  else ts ++ [⟨.ident,hack⟩]

def marksBehind (important slashNine : Bool) (ts : List Token) : List Token :=
  if important then ts ++ tokens (declarationEnd [] important slashNine) else if slashNine then hackBehind ts else ts

def endsInNumber (ts : List Token) : Bool := ts.getLast?.any (·.kind = .number)

def unitLast (ts : List Token) : List Token := ts.dropLast ++ ts.getLast?.toList.map fun t => ⟨.dimension,t.text⟩

def takeMarks (ts : List Token) : List Token × Bool × Bool :=
  let unimportant := takeImportant (trimTokens ts)
  let unhacked := takeSlashNine unimportant.1
  (unhacked.1,unimportant.2,unhacked.2)

section
variable {s s' : Bytes} {name : Bytes} {skip : Bool} {gathered : List Token}

theorem signKind {b} (sign : [44,47,58,33,61].contains b) (s) : (firstToken b s).1 ∉ hackedKinds := by
  simp only [contains_cons,contains_nil,Bool.or_false,Bool.or_eq_true,beq_iff_eq] at sign
  have plain : ∀ {c}, startsNumber (c :: s) = false → identLength (c :: s) = 0 →
      numeric (c :: s) = none ∧ identLike (c :: s) = none := by
    intro c number word
    exact ⟨by rw [numeric,number]; rfl,identLikeNone word⟩
  rcases sign with rfl | rfl | rfl | rfl | rfl
  · exact show TokenKind.comma ∉ hackedKinds by decide
  · have slash : (firstToken 47 s).1 = .comment ∨ (firstToken 47 s).1 = .delim := by
      cases s with
      | nil => exact .inr rfl
      | cons c s =>
        by_cases star : c = 42
        · rw [star]
          exact .inl rfl
        · exact .inr (by simp [firstToken,isBlankByte,star])
    rcases slash with kind | kind <;> rw [kind] <;> decide
  · exact show TokenKind.colon ∉ hackedKinds by decide
  · obtain ⟨number,word⟩ := @plain 33 rfl rfl
    simp [firstToken,isBlankByte,number,word,orDelim,hackedKinds]
  · obtain ⟨number,word⟩ := @plain 61 rfl rfl
    simp [firstToken,isBlankByte,number,word,orDelim,hackedKinds]

theorem hackedToken {front back} {t : Token} (parts : tokens s = front ++ t :: back)
    (kind : t.kind ∈ hackedKinds) : t.text ≠ [] ∧ t.isTight = false := by
  obtain ⟨n,b,u,-,rfl,-⟩ := tokensAt s parts
  refine ⟨cons_ne_nil _ _,Bool.eq_false_iff.mpr fun tight => ?_⟩
  refine @signKind b ?_ u kind
  rw [isTight,Token.spells] at tight
  split at tight
  · rename_i text
    rw [(List.cons.inj text).1]
    exact tight
  · cases tight

theorem hackedInner {t : Token} (kind : t.kind ∈ hackedKinds) : t.isInner ∧ t.kind ≠ .colon := by
  simp only [hackedKinds,mem_cons,not_mem_nil,or_false] at kind
  rcases kind with h | h | h | h | h | h <;>
    simp [Token.isInner,isBlank,endsStatement,Token.closes,h]

theorem hackedGathered {t : Token} (kind : t.kind ∈ hackedKinds) : t.hacked.isInner ∧ t.hacked.isTight = false := by
  have kind' : t.hacked.kind ∈ hackedKinds := by
    rw [hacked]
    dsimp only
    split
    · decide
    · exact kind
  refine ⟨(hackedInner kind').1,?_⟩
  rw [isTight,Token.spells]
  split
  · rename_i b text
    have length := congrArg List.length text
    simp [hacked,hack,ascii] at length
  · rfl

theorem numberGathered (declares : Declares (tokens s) name skip gathered) (number : endsInNumber (tokens s)) :
    endsInNumber gathered := by
  obtain ⟨last,found,kind⟩ := (Option.any_eq_true _ _).mp number
  obtain ⟨ts,parts⟩ := getLast?_eq_some_iff.mp found
  have takes : last.kind ∈ hackedKinds := by
    rw [of_decide_eq_true kind]
    decide
  obtain ⟨inner,colon⟩ := hackedInner takes
  rw [parts] at declares
  obtain ⟨front,rfl,-⟩ := declaresLast declares inner colon
  simpa [endsInNumber] using kind

section
variable (declares : Declares (tokens s) name skip gathered)
include declares

theorem joinedReread {ts last} (parts : tokens s = ts ++ [last]) (kind : last.kind ∈ hackedKinds)
    (split : tokens s' = ts ++ [last.hacked]) : ∃ skip' gathered', Declares (tokens s') name skip' gathered' ∧
      takeMarks gathered' = (if endsInNumber (tokens s) then unitLast gathered else gathered,false,true) := by
  obtain ⟨filled,loose⟩ := hackedToken parts kind
  obtain ⟨inner,colon⟩ := hackedInner kind
  obtain ⟨inner',loose'⟩ := hackedGathered kind
  rw [parts] at declares
  obtain ⟨front,rfl,others⟩ := declaresLast declares inner colon
  have again := others last.hacked inner' (loose'.trans loose.symm)
  rw [← split] at again
  refine ⟨skip,_,again,?_⟩
  simp only [takeMarks,declaresTrimmed again]
  rw [hacked,hackedUnimportant,hackTaken _ _ filled,parts]
  by_cases number : last.kind = .number <;> simp [endsInNumber,unitLast,number]

theorem loneReread (split : tokens s' = tokens s ++ [⟨.ident,hack⟩]) :
    ∃ skip' gathered', Declares (tokens s') name skip' gathered' ∧ takeMarks gathered' = (gathered,false,true) := by
  obtain ⟨pad,blanks,-,more⟩ := @declaresMore _ _ _ _ ⟨.ident,hack⟩ declares (by decide)
  rw [← split] at more
  refine ⟨_,_,more,?_⟩
  have taken := hackedUnimportant (gathered ++ pad) .ident []
  rw [nil_append] at taken
  simp only [takeMarks,declaresTrimmed more]
  rw [taken,loneHackTaken,trimmedPad blanks,declaresTrimmed declares]

theorem hackReread (split : tokens s' = hackBehind (tokens s)) :
    ∃ skip' gathered', Declares (tokens s') name skip' gathered' ∧
      takeMarks gathered' = (if endsInNumber (tokens s) then unitLast gathered else gathered,false,true) := by
  by_cases takes : (tokens s).getLast?.any (hackedKinds.contains ·.kind)
  · obtain ⟨last,found,kind⟩ := (Option.any_eq_true _ _).mp takes
    obtain ⟨ts,parts⟩ := getLast?_eq_some_iff.mp found
    rw [contains_iff_mem] at kind
    exact joinedReread declares parts kind (by simp [split,parts,hackBehind,kind])
  have uncounted : endsInNumber (tokens s) = false := by
    refine Bool.eq_false_iff.mpr fun ends => takes ?_
    obtain ⟨last,found,number⟩ := (Option.any_eq_true _ _).mp ends
    rw [found]
    exact (congrArg hackedKinds.contains (of_decide_eq_true number)).trans rfl
  rw [uncounted]
  exact loneReread declares (split.trans (if_neg takes))

end

section
variable (declares : Declares (tokens s) name skip gathered)
include declares

theorem bangReread {word} (inner : word.isInner) (split : tokens s' = tokens s ++ [bang] ++ [word]) :
    ∃ skip', Declares (tokens s') name skip' (gathered ++ [bang] ++ [word]) := by
  obtain ⟨pad,-,tight,more⟩ := @declaresMore _ _ _ _ bang declares (by decide)
  obtain ⟨pad',-,tight',last⟩ := declaresMore more inner
  rw [tight (by simp [show bang.isTight by decide]),tight' (by simp [show bang.isTight by decide]),
    ← split] at last
  simp only [append_nil] at last
  exact ⟨_,last⟩

theorem importantReread (split : tokens s' = tokens s ++ tokens (declarationEnd [] true false)) :
    ∃ skip' gathered', Declares (tokens s') name skip' gathered' ∧
      takeMarks gathered' = ((takeSlashNine gathered).1,true,(takeSlashNine gathered).2) := by
  have mark : tokens (declarationEnd [] true false) = [bang,importantWord] := by decide
  rw [mark,append_cons] at split
  obtain ⟨skip',again⟩ := bangReread declares (by decide) split
  refine ⟨skip',_,again,?_⟩
  simp only [takeMarks,declaresTrimmed again,importantTaken (declaresTrimmed declares)]

theorem bothReread (split : tokens s' = tokens s ++ tokens (declarationEnd [] true true)) :
    ∃ skip' gathered', Declares (tokens s') name skip' gathered' ∧ (takeMarks gathered').2.1 = false := by
  have marks : tokens (declarationEnd [] true true) = [bang,⟨.ident,ascii "important" ++ hack⟩] := by decide
  rw [marks,append_cons] at split
  obtain ⟨skip',again⟩ := bangReread declares (by decide) split
  refine ⟨skip',_,again,?_⟩
  simp only [takeMarks,declaresTrimmed again,hackedUnimportant]

end

end

def bareDeclaration (name : Bytes) (ts : List Token) : Declaration :=
  if isOldFilter name (trim (tokensText ts)) then .filter name (trim (tokensText ts))
  else .property name (readValue ts) false false

def Declaration.marked (important slashNine : Bool) : Declaration → Declaration
  | .property name value _ _ => .property name value important slashNine
  | .filter name value => .filter name value

def Declaration.isFilter : Declaration → Bool
  | .filter .. => true
  | .property .. => false

section
variable {name : Bytes} {ts us : List Token} {important slashNine : Bool}

theorem declarationMarked (name ts) : readDeclaration name ts =
    (bareDeclaration name (takeMarks ts).1).marked (takeMarks ts).2.1 (takeMarks ts).2.2 := by
  rw [bareDeclaration,apply_ite (marked _ _)]
  rfl

theorem filterOrProperty (name ts) : bareDeclaration name ts = .filter name (trim (tokensText ts)) ∨
    bareDeclaration name ts = .property name (readValue ts) false false := by
  rw [bareDeclaration]
  split
  · exact .inl rfl
  · exact .inr rfl

theorem markedText (name ts important slashNine) :
    ((bareDeclaration name ts).marked important slashNine).text = (bareDeclaration name ts).text ++
      if (bareDeclaration name ts).isFilter then [] else declarationEnd [] important slashNine := by
  rcases filterOrProperty name ts with same | same <;> rw [same] <;>
    simp [marked,text,isFilter,declarationEnd]

theorem markedSame (modern : (bareDeclaration name us).isFilter = false) {important' slashNine'} :
    (bareDeclaration name ts).marked important' slashNine' = (bareDeclaration name us).marked important slashNine ↔
      (important' = important ∧ slashNine' = slashNine) ∧ bareDeclaration name ts = bareDeclaration name us := by
  rcases filterOrProperty name us with filter | property
  · rw [filter] at modern
    cases modern
  rw [property]
  rcases filterOrProperty name ts with same | same <;> rw [same]
  · simp [marked]
  · simp only [marked,Declaration.property.injEq]
    tauto

theorem unitApart (balanced : Balanced ts) (number : endsInNumber ts) : readValue (unitLast ts) ≠ readValue ts := by
  obtain ⟨last,found,kind⟩ := (Option.any_eq_true _ _).mp number
  obtain ⟨front,rfl⟩ := getLast?_eq_some_iff.mp found
  rw [decide_eq_true_eq] at kind
  have before : Balanced front := by
    rw [Balanced,levelAppend] at balanced
    obtain ⟨m,level,same⟩ := Option.bind_eq_some_iff.mp balanced
    simp [levelOver,Token.opens,Token.closes,kind] at same
    rw [Balanced,level,same]
  have whole : unitLast (front ++ [last]) = front ++ [⟨.dimension,last.text⟩] := by simp [unitLast]
  rw [whole]
  refine termsApart before (fun op => ?_) 0
  simp [readTerms,isBlank,isDelim,tokenValue,kind]

end

def MarksKept (name : Bytes) (ts : List Token) : Prop :=
  (readDeclaration name ts).text = (bareDeclaration name (takeMarks ts).1).text ++
      declarationEnd [] (takeMarks ts).2.1 (takeMarks ts).2.2 ∧
    ∀ depth, (readContents (depth + 1) .inline (readDeclaration name ts).text).value = ([],[readDeclaration name ts])

section
variable {name : Bytes} {ts value gathered : List Token} {important slashNine skip : Bool}
  (marks : takeMarks ts = (value,important,slashNine))
include marks

theorem filterUnkept (full : (important || slashNine)) (old : (bareDeclaration name value).isFilter) :
    ¬MarksKept name ts := by
  rintro ⟨shown,-⟩
  rw [declarationMarked,markedText,marks] at shown
  simp only [old] at shown
  have bare := append_cancel_left shown
  cases important <;> cases slashNine <;> simp [declarationEnd,ascii] at bare full

theorem regatheredKept (modern : (bareDeclaration name value).isFilter = false)
    (again : Declares (tokens (readDeclaration name ts).text) name skip gathered) : MarksKept name ts ↔
      ((takeMarks gathered).2.1 = important ∧ (takeMarks gathered).2.2 = slashNine) ∧
        bareDeclaration name (takeMarks gathered).1 = bareDeclaration name value := by
  have shown : (readDeclaration name ts).text = (bareDeclaration name (takeMarks ts).1).text ++
      declarationEnd [] (takeMarks ts).2.1 (takeMarks ts).2.2 := by
    rw [declarationMarked,markedText,marks]
    simp [modern]
  rw [← markedSame modern,← declarationMarked]
  have whole : readDeclaration name ts = (bareDeclaration name value).marked important slashNine := by
    rw [declarationMarked,marks]
  refine ⟨fun kept => ?_,fun same => ⟨shown,fun depth => ?_⟩⟩
  · have read := kept.2 0
    rw [declaresRead again] at read
    exact (List.cons.inj (Prod.mk.inj read).2).1.trans whole
  · rw [declaresRead again,same,whole]

variable (standing : Declares (tokens (bareDeclaration name value).text) name skip gathered)
  (apart : (bareDeclaration name value).isFilter = false → tokens (readDeclaration name ts).text =
    marksBehind important slashNine (tokens (bareDeclaration name value).text))
include standing apart

theorem keptExactly (full : (important || slashNine)) : MarksKept name ts ↔
    (bareDeclaration name value).isFilter = false ∧ ¬(important ∧ slashNine) ∧
      (important → ¬EndsHacked gathered) ∧
      bareDeclaration name (if slashNine && endsInNumber (tokens (bareDeclaration name value).text) then unitLast gathered
        else gathered) = bareDeclaration name value := by
  cases filter : (bareDeclaration name value).isFilter with
  | true => exact iff_of_false (filterUnkept marks full filter) fun kept => by cases kept.1
  | false =>
    have split := apart filter
    -- One case for each mark: they are printed in one order and taken off in the other.
    cases important <;> cases slashNine
    · cases full
    · obtain ⟨skip',gathered',again,taken⟩ := hackReread standing split
      rw [regatheredKept marks filter again,taken]
      simp
    · obtain ⟨skip',gathered',again,taken⟩ := importantReread standing split
      rw [regatheredKept marks filter again,taken,← hackedEnds]
      cases hacked : (takeSlashNine gathered).2 with
      | true => simp
      | false => simp [unhackedRest hacked]
    · obtain ⟨skip',gathered',again,hidden⟩ := bothReread standing split
      rw [regatheredKept marks filter again,hidden]
      simp

theorem numberUnkept (hacked : slashNine) (number : endsInNumber (tokens (bareDeclaration name value).text))
    (balanced : Balanced gathered) (alone : bareDeclaration name gathered = bareDeclaration name value) :
    ¬MarksKept name ts := by
  rw [keptExactly marks standing apart (by simp [hacked]),hacked,number]
  rintro ⟨modern,-,-,again⟩
  have last : endsInNumber gathered := numberGathered standing number
  rw [Bool.and_self,if_pos rfl,← alone] at again
  rw [← alone] at modern
  rcases filterOrProperty name gathered with same | same
  · rw [same] at modern
    cases modern
  rw [same] at again
  rcases filterOrProperty name (unitLast gathered) with other | other
  · rw [other] at again
    cases again
  · rw [other] at again
    exact unitApart balanced last (Declaration.property.inj again).2.1

end

/- Marks are printed and read back if and only if the declaration is no filter in the old notation, has only one of them,
and its value is read back with the mark behind it. With a hack behind it no value that ends with a number is. -/
theorem marksPrinted {name : Bytes} {ts value gathered : List Token} {important slashNine skip : Bool}
    (marks : takeMarks ts = (value,important,slashNine)) (full : (important || slashNine) = true)
    (standing : Declares (tokens (bareDeclaration name value).text) name skip gathered)
    (apart : (bareDeclaration name value).isFilter = false → tokens (readDeclaration name ts).text =
      marksBehind important slashNine (tokens (bareDeclaration name value).text)) :
    (important = true ↔ EndsImportant (trimTokens ts)) ∧
    (slashNine = true ↔ EndsHacked (takeImportant (trimTokens ts)).1) ∧
    (MarksKept name ts ↔ (bareDeclaration name value).isFilter = false ∧ ¬(important = true ∧ slashNine = true) ∧
      (important = true → ¬EndsHacked gathered) ∧
      bareDeclaration name (if slashNine && endsInNumber (tokens (bareDeclaration name value).text) then unitLast gathered
        else gathered) = bareDeclaration name value) ∧
    (slashNine = true → endsInNumber (tokens (bareDeclaration name value).text) = true → Balanced gathered →
      bareDeclaration name gathered = bareDeclaration name value → ¬MarksKept name ts) := by
  have important' : (takeImportant (trimTokens ts)).2 = important := congrArg (·.2.1) marks
  have slashNine' : (takeSlashNine (takeImportant (trimTokens ts)).1).2 = slashNine := congrArg (·.2.2) marks
  refine ⟨?_,?_,keptExactly marks standing apart full,numberUnkept marks standing apart⟩
  · rw [← important',importantEnds]
  · rw [← slashNine',hackedEnds]

def redToken : Token := ⟨.ident,ascii "red"⟩

def oneToken : Token := ⟨.number,ascii "1"⟩

def alphaTokens : List Token := [⟨.function,ascii "alpha("⟩,redToken,rightParen]

theorem sampleTexts : (bareDeclaration (ascii "color") [redToken]).text = ascii "color:red" ∧
    (bareDeclaration (ascii "zoom") [oneToken]).text = ascii "zoom:1" ∧
    (bareDeclaration (ascii "filter") alphaTokens).text = ascii "filter:alpha(red)" := by decide +kernel

theorem sampleFilters : (bareDeclaration (ascii "color") [redToken]).isFilter = false ∧
    (bareDeclaration (ascii "zoom") [oneToken]).isFilter = false ∧
    (bareDeclaration (ascii "filter") alphaTokens).isFilter = true := by decide +kernel

theorem redStanding : Declares (tokens (bareDeclaration (ascii "color") [redToken]).text) (ascii "color") false [redToken] := by
  rw [sampleTexts.1]
  exact ⟨_,_,.ident,rfl,rfl⟩

theorem oneStanding : Declares (tokens (bareDeclaration (ascii "zoom") [oneToken]).text) (ascii "zoom") false [oneToken] := by
  rw [sampleTexts.2.1]
  exact ⟨_,_,.ident,rfl,rfl⟩

theorem alphaStanding : Declares (tokens (bareDeclaration (ascii "filter") alphaTokens).text) (ascii "filter") false
    alphaTokens := by
  rw [sampleTexts.2.2]
  exact ⟨_,_,.ident,rfl,rfl⟩

theorem marksKeptAndLost :
    MarksKept (ascii "color") [redToken,space,bang,importantWord] ∧ MarksKept (ascii "color") [redToken.hacked] ∧
    ¬MarksKept (ascii "color") [redToken.hacked,bang,importantWord] ∧
    ¬MarksKept (ascii "zoom") [oneToken,space,⟨.ident,hack⟩] ∧
    ¬MarksKept (ascii "filter") (alphaTokens ++ [bang,importantWord]) := by
  obtain ⟨red,one,alpha⟩ := sampleFilters
  have word : endsInNumber (tokens (bareDeclaration (ascii "color") [redToken]).text) = false := by rw [sampleTexts.1]; rfl
  have unhacked : ¬EndsHacked [redToken] := by rw [← hackedEnds]; decide
  refine ⟨?_,?_,?_,?_,?_⟩
  · have marks : takeMarks [redToken,space,bang,importantWord] = ([redToken],true,false) := by decide
    exact (marksPrinted marks rfl redStanding fun _ => by decide +kernel).2.2.1.mpr ⟨red,by simp,fun _ => unhacked,rfl⟩
  · have marks : takeMarks [redToken.hacked] = ([redToken],false,true) := by decide
    exact (marksPrinted marks rfl redStanding fun _ => by decide +kernel).2.2.1.mpr ⟨red,by simp,by simp,by simp [word]⟩
  · have marks : takeMarks [redToken.hacked,bang,importantWord] = ([redToken],true,true) := by decide
    exact fun kept => ((marksPrinted marks rfl redStanding fun _ => by decide +kernel).2.2.1.mp kept).2.1 ⟨rfl,rfl⟩
  · have marks : takeMarks [oneToken,space,⟨.ident,hack⟩] = ([oneToken],false,true) := by decide
    have number : endsInNumber (tokens (bareDeclaration (ascii "zoom") [oneToken]).text) = true := by rw [sampleTexts.2.1]; rfl
    exact (marksPrinted marks rfl oneStanding fun _ => by decide +kernel).2.2.2 rfl number (by decide) rfl
  · have marks : takeMarks (alphaTokens ++ [bang,importantWord]) = (alphaTokens,true,false) := by decide
    refine fun kept => absurd ((marksPrinted marks rfl alphaStanding fun modern => ?_).2.2.1.mp kept).1 (by simp [alpha])
    exact absurd (alpha.symm.trans modern) (by decide)

end Cascade
