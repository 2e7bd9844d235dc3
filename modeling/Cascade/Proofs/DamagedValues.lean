import Mathlib.Data.List.Flatten
import Cascade.Proofs.OpenTexts
import Cascade.Proofs.OpenValues

/-! Values that are cut off and not read as if they were closed. Save in calculations, they end inside a string, a
location, a brace or a block of mere text with another in it, or with what is taken for a mark of the declaration. -/
namespace Cascade
open List
open Token (isBlank isDelim space)

variable {ts pad cut : List Token} {opening : Token} {m : Nat}

/- A value that is cut off, and the closed value that it is not read as, inside any functions. -/
inductive Damages : List Token → List Token → Prop where
  | string {before : List Token} {quote : UInt8} (balanced : Balanced before) (quotes : quote = 34 ∨ quote = 39)
      (text : Bytes) :
      Damages (before ++ [⟨.string,quote :: text⟩]) (before ++ [⟨.string,quote :: (text ++ [quote])⟩])
  | location {before : List Token} {name rest quote : Bytes} (balanced : Balanced before) (named : LocationName name)
      (cut : (name ++ 40 :: rest).getLast? ≠ some 41) (free : 40 ∉ quote) :
      Damages (before ++ [⟨.url,name ++ 40 :: rest⟩]) (before ++ [⟨.url,name ++ 40 :: (rest ++ quote ++ [41])⟩])
  | block {before inside pad : List Token} {opening : Token} {m : Nat} (balanced : Balanced before)
      (kind : opening.kind = .leftParen ∨ opening.kind = .leftBracket) (blank : Blanks pad)
      (level : levelOver (fun _ => false) 0 inside = some m) (lost : tokensText pad ≠ [] ∨ closers inside ≠ []) :
      Damages (before ++ opening :: inside) (shutBehind pad (before ++ opening :: inside))
  | brace {before inside pad : List Token} {opening : Token} {m : Nat} (balanced : Balanced before)
      (kind : opening.kind = .leftBrace) (blank : Blanks pad) (level : levelOver (fun _ => false) 0 inside = some m) :
      Damages (before ++ opening :: inside) (shutBehind pad (before ++ opening :: inside))
  | call {before cut closed : List Token} {opening : Token} (balanced : Balanced before)
      (kind : opening.kind = .function) (plain : mathFunctions.contains (lower opening.functionName) = false)
      (inner : Damages cut closed) :
      Damages (before ++ opening :: cut) (before ++ opening :: (closed ++ [rightParen]))

theorem braceOpens (kind : opening.kind = .leftBrace) : opening.opens := by
  simp [Token.opens,kind]

theorem balancedConcat {before t} (balanced : Balanced before) (opens : t.opens = false)
    (closes : t.closes = false) : Balanced (before ++ [t]) := by
  rw [Balanced,levelAppend,balanced]
  simp [levelOver,opens,closes]

theorem damagesLevel {closed} (damages : Damages cut closed) :
    Balanced closed ∧ ∃ m, levelOver (fun _ => false) 0 cut = some m := by
  induction damages with
  | string balanced _ _ => exact ⟨balancedConcat balanced rfl rfl,0,balancedConcat balanced rfl rfl⟩
  | location balanced _ _ _ => exact ⟨balancedConcat balanced rfl rfl,0,balancedConcat balanced rfl rfl⟩
  | block balanced kind blank level _ =>
    have level := openLevel balanced (textOpens kind) level
    exact ⟨shutLevel blank level,_,level⟩
  | brace balanced kind blank level =>
    have level := openLevel balanced (braceOpens kind) level
    exact ⟨shutLevel blank level,_,level⟩
  | @call before cut closed opening balanced kind _ _ ih =>
    obtain ⟨inner,m,level⟩ := ih
    have opens : opening.opens := by simp [Token.opens,kind]
    refine ⟨?_,_,openLevel balanced opens level⟩
    have shut := openLevel balanced opens inner
    rw [Balanced,← cons_append,← append_assoc,levelAppend,shut]
    rfl

theorem blankTerms (bare : trimTokens ts = []) (op) : readTerms op ts = [] := by
  induction ts with
  | nil => rw [readTerms]
  | cons t ts ih =>
    cases blank : t.isBlank with
    | true =>
      rw [trimTokensBlank blank] at bare
      rw [readTerms,if_pos blank,ih bare]
    | false =>
      rw [trimTokensSolid blank] at bare
      cases bare

theorem stringTerms {s} (one : trimTokens ts = [⟨.string,s⟩]) (op) : readTerms op ts = [⟨op,.quoted (unquote s)⟩] := by
  induction ts with
  | nil => cases one
  | cons t ts ih =>
    cases blank : t.isBlank with
    | true =>
      rw [trimTokensBlank blank] at one
      rw [readTerms,if_pos blank,ih one]
    | false =>
      rw [trimTokensSolid blank] at one
      obtain ⟨rfl,rest⟩ := List.cons.inj one
      have bare : trimTokens ts = [] := by rw [← trimTokensEnd,rest]; rfl
      simp [readTerms,isBlank,isDelim,tokenValue,blankTerms bare]

def argumentTerms : Component → List Term
  | .url s => [⟨0,.quoted s⟩]
  | .call _ (some terms) => terms
  | _ => []

theorem callTerms {name} (plain : mathFunctions.contains (lower name) = false) (args) :
    argumentTerms (readCall name args) = readTerms 0 args := by
  rw [readCall,plain]
  split
  · rename_i one
    exact (stringTerms one 0).symm
  · rename_i bare
    exact (blankTerms bare 0).symm
  · rfl

theorem termsApart {before us} (balanced : Balanced before) (apart : ∀ op, readTerms op ts ≠ readTerms op us) (op) :
    readTerms op (before ++ ts) ≠ readTerms op (before ++ us) := by
  obtain ⟨vs,op',read⟩ := termsThrough (balancedNested balanced) op
  rw [read,read]
  exact fun same => apart op' (append_cancel_left same)

theorem tokensTextAppend (ts us) : tokensText (ts ++ us) = tokensText ts ++ tokensText us :=
  flatMap_append

theorem tokensTextCons (t ts) : tokensText (t :: ts) = tokensText [t] ++ tokensText ts :=
  tokensTextAppend [t] ts

theorem solidText {t} (solid : t.isBlank = false) : tokensText [t] = t.text := by
  simp only [isBlank,Bool.or_eq_false_iff,decide_eq_false_iff_not] at solid
  simp [tokensText,solid]

theorem closersSome (level : levelOver (fun _ => false) 0 ts = some (m + 1)) : closers ts ≠ [] := by
  have length := (openingsLevel level [] rfl []).2
  intro bare
  rw [map_eq_nil_iff.mp bare] at length
  cases length

theorem closingLength (opening) : (tokensText [closingToken opening]).length = 1 := by
  rcases closingCases opening with same | same | same <;> rw [same] <;> rfl

theorem enclosedApart {inside} (blank : Blanks pad)
    (level : levelOver (fun _ => false) 0 inside = some m) (lost : tokensText pad ≠ [] ∨ closers inside ≠ []) :
    enclosedText opening inside ≠ enclosedText opening (shutBehind pad inside ++ [closingToken opening]) := by
  obtain ⟨left,right⟩ := cutOpen blank level opening
  have more : 0 < (tokensText pad).length + (tokensText (closers inside)).length := by
    rcases lost with padded | missing
    · have full := length_pos_iff.mpr padded
      omega
    · obtain ⟨us,last,closing⟩ := closersConcat missing
      rw [closing,tokensTextAppend,length_append,closingLength]
      omega
  intro same
  have lengths := congrArg List.length same
  rw [enclosedText,enclosedText,left,right,tokensTextCons,tokensTextCons opening (shutBehind pad inside)] at lengths
  simp only [shutBehind,tokensTextAppend,closingTokenText,length_append] at lengths
  omega

theorem openSplit (level : levelOver (fun _ => false) 0 ts = some (m + 1)) :
    ∃ before opening inside, ts = before ++ opening :: inside ∧ Balanced before ∧ opening.opens ∧
      levelOver (fun _ => false) 0 inside = some m := by
  induction ts using List.reverseRecOn generalizing m with
  | nil => cases level
  | append_singleton ts t ih =>
    rw [levelAppend] at level
    obtain ⟨k,front,back⟩ := Option.bind_eq_some_iff.mp level
    -- the block around the others is open before the last token, save if that one opens it
    have earlier : ∀ {j : Nat}, k = j + 1 → levelOver (fun _ => false) j [t] = some m →
        ∃ before opening inside, ts ++ [t] = before ++ opening :: inside ∧ Balanced before ∧ opening.opens ∧
          levelOver (fun _ => false) 0 inside = some m := by
      intro j deep last
      rw [deep] at front
      obtain ⟨before,opening,inside,rfl,balanced,opens,inner⟩ := ih front
      refine ⟨before,opening,inside ++ [t],by simp,balanced,opens,?_⟩
      rw [levelAppend,inner]
      exact last
    rcases levelCases back with ⟨opens,_,deeper⟩ | ⟨opens,closes,j,up,back⟩ | ⟨opens,closes,_,stays⟩
    · have same : k + 1 = m + 1 := Option.some.inj deeper
      cases k with
      | zero =>
        refine ⟨ts,t,[],rfl,front,opens,?_⟩
        rw [← Nat.succ.inj same]
        rfl
      | succ j => exact earlier rfl (by simpa [levelOver,opens] using same)
    · have same : j = m + 1 := Option.some.inj back
      exact earlier up (by simp [levelOver,opens,closes,same])
    · have same : k = m + 1 := Option.some.inj stays
      exact earlier same (by simp [levelOver,opens,closes])

theorem braceTerms (kind : opening.kind = .leftBrace ∨ opening.kind = .rightBrace) (op rest) :
    readTerms op (opening :: rest) = ⟨op,tokenValue opening⟩ :: readTerms 0 rest := by
  rw [readTerms]
  rcases kind with kind | kind <;> simp [isBlank,isDelim,kind]

theorem braceLength (kind : opening.kind = .leftBrace) (balanced : Balanced ts) (op) :
    (readTerms op (opening :: (ts ++ [closingToken opening]))).length = (readTerms 0 ts).length + 2 := by
  obtain ⟨us,op',read⟩ := termsThrough (balancedNested balanced) 0
  have alone := read []
  have brace : closingToken opening = ⟨.rightBrace,[125]⟩ := by simp [closingToken,kind]
  rw [append_nil] at alone
  rw [braceTerms (.inl kind),read,alone,brace,braceTerms (.inr rfl)]
  simp [readTerms]

theorem termsLength (blank : Blanks pad) (level : levelOver (fun _ => false) 0 ts = some m) (op) :
    (readTerms op ts).length ≤ (readTerms op (shutBehind pad ts)).length := by
  induction m generalizing ts op with
  | zero =>
    obtain ⟨us,op',read⟩ := termsThrough (balancedNested level) op
    have alone := read []
    rw [append_nil] at alone
    rw [shutBehind,closersBalanced level,append_nil,read,alone]
    simp [readTerms]
  | succ m ih =>
    obtain ⟨before,opening,inside,rfl,balanced,opens,level⟩ := openSplit level
    obtain ⟨us,op',read⟩ := termsThrough (balancedNested balanced) op
    rw [shutOpen balanced opens level,read,read,length_append,length_append]
    refine Nat.add_le_add_left ?_ _
    rcases opensKind opens with kind | kind
    · obtain ⟨left,right⟩ := cutOpen blank level opening
      rw [termsBlock kind,termsBlock kind,left,right]
      exact Nat.le_refl _
    · have inner := ih level 0
      rw [braceLength kind (shutLevel blank level),braceTerms (.inl kind),length_cons]
      omega

theorem damagesTerms {closed} (damages : Damages cut closed) (op) : readTerms op cut ≠ readTerms op closed := by
  have heads : ∀ {opening : Token} {op : UInt8} {ts us : List Token},
      (opening.kind = .function ∨ opening.kind = .leftParen ∨ opening.kind = .leftBracket) →
      readTerms op (opening :: ts) = readTerms op (opening :: us) → blockValue opening ts = blockValue opening us := by
    intro opening op ts us kind same
    rw [termsBlock kind,termsBlock kind] at same
    exact congrArg Term.value (List.cons.inj same).1
  induction damages generalizing op with
  | string balanced quotes text =>
    refine termsApart balanced (fun op same => stringLost quotes text ?_) op
    simpa [readTerms,isBlank,isDelim,tokenValue] using same
  | @location before name rest quote balanced named cut free =>
    refine termsApart balanced (fun op same => locationLost named rest cut free ?_) op
    simpa [readTerms,isBlank,isDelim,tokenValue] using same
  | @block before inside pad opening m balanced kind blank level lost =>
    rw [shutOpen balanced (textOpens kind) level]
    refine termsApart balanced (fun op same => ?_) op
    have other : opening.kind ≠ .function := by rcases kind with kind | kind <;> simp [kind]
    have texts := heads (.inr kind) same
    rw [blockValue,blockValue,if_neg other,if_neg other] at texts
    exact enclosedApart blank level lost (Component.ident.inj texts)
  | @brace before inside pad opening m balanced kind blank level =>
    rw [shutOpen balanced (braceOpens kind) level]
    refine termsApart balanced (fun op same => ?_) op
    have lengths := congrArg List.length same
    have more := termsLength blank level 0
    rw [braceLength kind (shutLevel blank level),braceTerms (.inl kind),length_cons] at lengths
    omega
  | @call before cut closed opening balanced kind plain inner ih =>
    obtain ⟨shut,m,level⟩ := damagesLevel inner
    refine termsApart balanced (fun op same => ?_) op
    have calls := congrArg argumentTerms (heads (.inl kind) same)
    rw [blockValue,blockValue,if_pos kind,if_pos kind,untilCloseOpen level,untilCloseBalanced shut (by rfl) [],
      callTerms plain,callTerms plain] at calls
    exact ih 0 calls

theorem closableOrDamaged (bare : pad = [] ∨ pad = [space]) (level : levelOver (fun _ => false) 0 ts = some m)
    (plain : ∀ t ∈ openings [] ts, t.kind = .function → mathFunctions.contains (lower t.functionName) = false) :
    Closable pad false ts ∨ Damages ts (shutBehind pad ts) := by
  have blank := bareBlanks bare
  induction m generalizing ts with
  | zero => exact .inl (.closed level)
  | succ m ih =>
    obtain ⟨before,opening,inside,rfl,balanced,opens,level⟩ := openSplit level
    rw [openingsOpen balanced opens level] at plain
    rcases opensKind opens with (kind | kind) | kind
    · rcases ih level (fun t mem => plain t (mem_append_left _ mem)) with closable | damages
      · exact .inl (.call balanced kind closable)
      · have closing : closingToken opening = rightParen := by simp [closingToken,kind]
        rw [shutOpen balanced opens level,closing]
        exact .inr (.call balanced kind (plain opening (by simp) kind) damages)
    · by_cases lost : tokensText pad ≠ [] ∨ closers inside ≠ []
      · exact .inr (.block balanced kind blank level lost)
      obtain ⟨unpadded,void⟩ := not_or.mp lost
      have empty : pad = [] := by
        rcases bare with rfl | rfl
        · rfl
        · exact absurd (by decide) unpadded
      cases m with
      | zero => exact .inl (.block balanced kind level empty)
      | succ m => exact absurd (closersSome level) void
    · exact .inr (.brace balanced kind blank level)

def closingBytes : List UInt8 := [34,39,41,93,125]

structure RunsOn (cut ts : List Token) (last : Token) : Prop where
  first : ts = [] ∨ ts.head? = cut.head?
  solid : last.isBlank = false
  kind : last.kind ≠ .ident
  text : ∃ text b, last.text = text ++ [b] ∧ b ∈ closingBytes ∧ tokensText cut <+: tokensText ts ++ text

theorem shutRunsOn {pad cut} (missing : closers cut ≠ []) :
    ∃ ts last, shutBehind pad cut = ts ++ [last] ∧ RunsOn cut ts last := by
  obtain ⟨us,opening,closing⟩ := closersConcat missing
  have full : cut ≠ [] := by
    rintro rfl
    exact missing rfl
  refine ⟨cut ++ pad ++ us,closingToken opening,by simp [shutBehind,closing],.inr ?_,
    closesSolid (closingCloses opening),(closingOther opening).1,[],?_⟩
  · rw [append_assoc,head?_append_of_ne_nil _ full]
  · obtain ⟨b,text,mem⟩ : ∃ b, (closingToken opening).text = [b] ∧ b ∈ closingBytes := by
      rcases closingCases opening with same | same | same <;> rw [same]
      · exact ⟨93,rfl,by decide⟩
      · exact ⟨125,rfl,by decide⟩
      · exact ⟨41,rfl,by decide⟩
    refine ⟨b,text,mem,?_⟩
    rw [append_nil,tokensTextAppend,tokensTextAppend,append_assoc]
    exact prefix_append _ _

theorem damagesRunOn {closed} (damages : Damages cut closed) :
    ∃ ts last, closed = ts ++ [last] ∧ RunsOn cut ts last := by
  have shared : ∀ {before : List Token} (t : Token), before = [] ∨ before.head? = (before ++ [t]).head? := by
    intro before t
    cases before with
    | nil => exact .inl rfl
    | cons u before => exact .inr rfl
  induction damages with
  | @string before quote _ quotes text =>
    refine ⟨before,_,rfl,shared _,rfl,by simp,quote :: text,quote,rfl,?_,?_⟩
    · rcases quotes with rfl | rfl <;> decide
    · exact ⟨[],by rw [append_nil,tokensTextAppend,solidText (by rfl)]⟩
  | @location before name rest quote _ _ _ _ =>
    refine ⟨before,_,rfl,shared _,rfl,by simp,name ++ 40 :: (rest ++ quote),41,by simp,by decide,?_⟩
    rw [tokensTextAppend,solidText (by rfl)]
    exact ⟨quote,by simp⟩
  | block balanced kind _ level _ => exact shutRunsOn (closersSome (openLevel balanced (textOpens kind) level))
  | brace balanced kind _ level =>
    exact shutRunsOn (closersSome (openLevel balanced (braceOpens kind) level))
  | @call before cut closed opening _ _ _ _ ih =>
    obtain ⟨ts,last,rfl,runs⟩ := ih
    refine ⟨before ++ opening :: (ts ++ [last]),rightParen,by simp,.inr (by cases before <;> rfl),rfl,by decide,[],41,rfl,
      by decide,?_⟩
    obtain ⟨text,b,ends,_,more,same⟩ := runs.text
    rw [append_nil,tokensTextAppend,tokensTextAppend before,tokensTextCons opening cut,tokensTextCons opening (ts ++ [last]),
      tokensTextAppend ts,solidText runs.solid,ends,← append_assoc (tokensText ts),← same]
    exact ⟨more ++ [b],by simp⟩

theorem trimmedPart (ts) : (trimTokens ts).Sublist ts := by
  have back := (dropWhile_sublist (l := (ts.dropWhile isBlank).reverse) isBlank).reverse
  rw [reverse_reverse] at back
  exact back.trans (dropWhile_sublist _)

theorem unimportantPart (ts) : (takeImportant ts).1.Sublist ts := by
  have rest : (trimTokens ts.dropLast).Sublist ts := (trimmedPart _).trans (dropLast_sublist ts)
  have either : ∀ (marked : Prop) [Decidable marked],
      (if marked then (trimTokens (trimTokens ts.dropLast).dropLast,true) else (ts,false)).1.Sublist ts := by
    intro marked _
    split
    · exact (trimmedPart _).trans ((dropLast_sublist _).trans rest)
    · exact List.Sublist.refl _
  rw [takeImportant]
  split
  · exact List.Sublist.refl _
  · exact either _

theorem shortenedText (kind text n) : (tokensText [⟨kind,text.take n⟩]).Sublist (tokensText [⟨kind,text⟩]) := by
  simp only [tokensText,flatMap_singleton]
  split
  · exact List.Sublist.refl _
  · split
    · exact List.Sublist.refl _
    · exact take_sublist n text

theorem unhackedPart (ts) : (tokensText (takeSlashNine ts).1).Sublist (tokensText ts) := by
  rcases eq_nil_or_concat ts with rfl | ⟨ts,last,rfl⟩
  · exact List.Sublist.refl _
  rw [concat_eq_append,takeSlashNine,getLast?_concat,dropLast_concat]
  dsimp only
  split
  · split
    · exact ((trimmedPart ts).trans (sublist_append_left ts [last])).flatMap _
    · rw [tokensTextAppend,tokensTextAppend]
      exact (shortenedText last.kind last.text _).append_left _
  · exact List.Sublist.refl _

theorem textApart {part whole b} (sub : part.Sublist whole) (mem : b ∈ closingBytes) :
    trim part ≠ trim (whole ++ [b]) := by
  have plain : b < 0x80 ∧ isSpace b.toNat = false := by
    simp only [closingBytes,mem_cons,not_mem_nil,or_false] at mem
    rcases mem with rfl | rfl | rfl | rfl | rfl <;> decide
  intro same
  have counts := congrArg (List.count b) same
  have fewer := sub.count_le b
  rw [trimCount plain.1 plain.2,trimCount plain.1 plain.2,count_append,count_singleton_self] at counts
  omega

theorem customApart (name text more) {b} (mem : b ∈ closingBytes) :
    customDeclaration name text ≠ customDeclaration name (text ++ more ++ [b]) := by
  intro same
  have values := (Declaration.property.inj same).2.1
  have texts := congrArg Term.value (List.cons.inj values).1
  exact textApart (sublist_append_left text more) mem (Component.ident.inj texts)

section
variable {cut ts : List Token} {last : Token} (runs : RunsOn cut ts last)
include runs

theorem runsOnText {part} (sub : part.Sublist (tokensText cut)) : trim part ≠ trim (tokensText (ts ++ [last])) := by
  obtain ⟨text,b,ends,mem,start⟩ := runs.text
  rw [tokensTextAppend,solidText runs.solid,ends,← append_assoc]
  exact textApart (sub.trans start.sublist) mem

theorem runsOnDeclaration (name) (trimmed : trimTokens cut = cut) : readDeclaration name (ts ++ [last]) =
    if isOldFilter name (trim (tokensText (ts ++ [last]))) then .filter name (trim (tokensText (ts ++ [last])))
    else .property name (readValue (ts ++ [last])) false false := by
  have whole : trimTokens (ts ++ [last]) = ts ++ [last] := by
    refine trimmedConcat runs.solid (fun t found => ?_)
    rcases runs.first with rfl | same
    · cases found
    rw [same] at found
    cases cut with
    | nil => cases found
    | cons u cut =>
      cases found
      exact trimmedSolid trimmed
  obtain ⟨unimportant,unhacked⟩ : (takeImportant (ts ++ [last])).2 = false ∧ (takeSlashNine (ts ++ [last])).2 = false := by
    obtain ⟨text,b,ends,mem,_⟩ := runs.text
    refine lastUnmarked ts runs.kind ?_
    rw [ends,getLast?_concat]
    rintro ⟨⟩
    exact absurd mem (by decide)
  rw [readDeclaration,whole,unimportantRest unimportant]
  simp only [unhackedRest unhacked]

theorem declarationApart {name} (trimmed : trimTokens cut = cut)
    (apart : ¬Unmarked name cut ∨ readValue cut ≠ readValue (ts ++ [last])) :
    readDeclaration name cut ≠ readDeclaration name (ts ++ [last]) := by
  have texts := runsOnText runs ((unhackedPart _).trans ((unimportantPart cut).flatMap _))
  intro same
  rw [runsOnDeclaration runs name trimmed,readDeclaration,trimmed] at same
  dsimp only at same
  split at same
  · split at same
    · exact texts (Declaration.filter.inj same).2
    · cases same
  rename_i modern
  split at same
  · cases same
  obtain ⟨_,values,important,hacked⟩ := Declaration.property.inj same
  rw [unimportantRest important] at modern values hacked
  rw [unhackedRest hacked] at modern values
  rcases apart with marked | apart
  · exact marked ⟨important,hacked,Bool.eq_false_iff.mpr modern⟩
  · exact apart values

end

theorem shutSame {name} (bare : pad = [] ∨ pad = [space])
    (level : levelOver (fun _ => false) 0 cut = some (m + 1)) (trimmed : trimTokens cut = cut)
    (ends : pad ≠ [] → ∀ t ∈ cut.getLast?, t.kind ≠ .comma)
    (plain : ∀ t ∈ openings [] cut, t.kind = .function → mathFunctions.contains (lower t.functionName) = false) :
    readDeclaration name (shutBehind pad cut) = readDeclaration name cut ↔
      Closable pad false cut ∧ Unmarked name cut ∧ isOldFilter name (trim (tokensText (shutBehind pad cut))) = false := by
  have missing := closersSome level
  constructor
  · intro same
    obtain ⟨ts,last,whole,runs⟩ := @shutRunsOn pad cut missing
    rw [whole] at same ⊢
    have unmarked : Unmarked name cut := by
      by_contra marked
      exact declarationApart runs trimmed (.inl marked) same.symm
    refine ⟨?_,unmarked,?_⟩
    · rcases closableOrDamaged bare level plain with closable | damages
      · exact closable
      · rw [whole] at damages
        exact absurd same.symm (declarationApart runs trimmed (.inr (damagesTerms damages 0)))
    · rw [runsOnDeclaration runs name trimmed,unmarkedDeclaration trimmed unmarked] at same
      split at same
      · cases same
      · rename_i modern
        exact Bool.eq_false_iff.mpr modern
  · rintro ⟨closable,unmarked,modern⟩
    exact declarationShut bare closable ends trimmed missing unmarked modern

end Cascade
