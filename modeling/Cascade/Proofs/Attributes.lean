import Cascade.Proofs.InnerTokens
import Cascade.Proofs.SharedBoxes

/-! Attribute selectors, read and written again in lower case, without the quotes that they do not need. -/
namespace Cascade
open List Component
open Token (space)

/- What a string stands for: its escapes are decoded, and a backslash before a newline goes with it. -/
def stringFrom : Nat → Bytes → Bytes
  | _,[] => []
  | skip + 1,_ :: s => stringFrom skip s
  | 0,b :: s =>
    if b == 92 then
      match escapeLength s with
      | some n => escapedText (s.take n) ++ stringFrom n s
      | none => stringFrom (newlineLength s) s
    else b :: stringFrom 0 s

def Component.denoted : Component → Bytes
  | .ident name => decoded name
  | .quoted contents => stringFrom 0 contents
  | _ => []

def Component.attrSense : Component → Option (Bytes × Bytes × Option Bytes × Bytes)
  | .attr name comparison value flag => some (lower name,comparison,value.map denoted,lower flag)
  | _ => none

def rereadAttr (text : Bytes) : Option Component :=
  match tokens text with
  | ⟨.leftBracket,_⟩ :: rest =>
    match untilClose 0 rest with
    | (inside,[_]) => readAttr inside
    | _ => none
  | _ => none

def Component.RereadsAlike (ctx : Context) (c : Component) : Prop :=
  ∃ again, rereadAttr (c.again ctx).text = some again ∧ again.attrSense = c.attrSense

def Token.compares (t : Token) : Bool :=
  t.kind ≠ .ident && t.kind ≠ .string && !t.isBlank && !t.opens && !t.closes

def StandsApart (name comparison rest : Bytes) : Prop :=
  ∃ t : Token, t.compares = true ∧ t.text = comparison ∧
    tokens (name ++ (comparison ++ rest)) = ⟨.ident,name⟩ :: t :: tokens rest

def attrTail (value : Component) (flag : Bytes) : Bytes :=
  value.text ++ ((if flag.isEmpty then [] else (if value.isQuoted then [] else [32]) ++ flag) ++ [93])

/- Attribute selectors that keep their sense: those that ask for presence only, and of the others those that
compare with some text, do not lose the blank before a flag, and whose comparison stands apart. -/
def KeepsSense (name comparison : Bytes) (value : Option Component) (flag : Bytes) : Prop :=
  ∀ v ∈ value, v ≠ .quoted [] ∧ (flag ≠ [] → ∀ w, v.bare = .ident w → isIdent (w ++ [32]) = false) ∧
    StandsApart (lower name) comparison (attrTail v.bare (lower flag))

def comparisons : List Bytes := [ascii "=",ascii "~=",ascii "|=",ascii "^=",ascii "$=",ascii "*="]

section
variable {ts : List Token} {c : Component} {flag : Bytes}

inductive AttrRead : List Token → Component → Prop where
  | present {before after : List Token} {name : Bytes} (left : Blanks before) (right : Blanks after) :
      AttrRead (before ++ ⟨.ident,name⟩ :: after) (.attr name [] none [])
  | compared {before between ahead tail : List Token} {comparison value : Token} {name flag : Bytes} {v : Component}
      (left : Blanks before) (middle : Blanks between) (right : Blanks ahead) (solid : comparison.isBlank = false)
      (kind : comparison.kind ≠ .ident ∧ comparison.kind ≠ .string) (valued : attrValue value = some v)
      (flagged : attrFlag tail = some flag) :
      AttrRead (before ++ ⟨.ident,name⟩ :: (between ++ comparison :: (ahead ++ value :: tail)))
        (.attr name comparison.text (some v) flag)

theorem attrFlagEnd (ts) : attrFlag (trimEnd ts) = attrFlag ts := by
  rw [attrFlag,attrFlag,trimTokensEnd]

theorem attrFlagParts (found : attrFlag ts = some flag) : flag = [] ∧ Blanks ts ∨
    ∃ before after, ts = before ++ ⟨.ident,flag⟩ :: after ∧ Blanks before ∧ Blanks after := by
  unfold attrFlag at found
  split at found
  · rename_i void
    cases found
    exact .inl ⟨rfl,trimTokensNone void⟩
  · rename_i one
    cases found
    obtain ⟨before,after,rfl,left,_,void⟩ := trimTokensFirst one
    have right : trimTokens after = [] := by rw [← trimTokensEnd,← void]; rfl
    exact .inr ⟨before,after,rfl,left,trimTokensNone right⟩
  · cases found

theorem readAttrRead (read : readAttr ts = some c) : AttrRead ts c := by
  unfold readAttr at read
  split at read
  · rename_i name rest first
    obtain ⟨before,behind,rfl,left,_,rfl⟩ := trimTokensFirst first
    rw [trimTokensEnd] at read
    split at read
    · rename_i void
      cases read
      exact .present left (trimTokensNone void)
    rename_i comparison rest second
    obtain ⟨between,behind,rfl,middle,solid,rfl⟩ := trimTokensFirst second
    split at read
    · cases read
    rename_i kind
    rw [trimTokensEnd] at read
    split at read
    · cases read
    rename_i value rest third
    obtain ⟨ahead,tail,rfl,right,_,rfl⟩ := trimTokensFirst third
    rw [attrFlagEnd] at read
    obtain ⟨v,valued,read⟩ := Option.bind_eq_some_iff.mp read
    obtain ⟨flag,flagged,read⟩ := Option.bind_eq_some_iff.mp read
    cases read
    exact .compared left middle right solid (not_or.mp kind) valued flagged
  · cases read

theorem readAttrCompared {comparison} (compares : comparison.compares) (name us) :
    readAttr (⟨.ident,name⟩ :: comparison :: us) =
      match trimTokens us with
      | [] => none
      | value :: tail => (attrValue value).bind fun v => (attrFlag tail).map fun flag =>
        .attr name comparison.text (some v) flag := by
  simp only [Token.compares,Bool.and_eq_true,decide_eq_true_eq,Bool.not_eq_true'] at compares
  obtain ⟨⟨⟨⟨ident,string⟩,solid⟩,_⟩,_⟩ := compares
  have first : trimTokens (⟨.ident,name⟩ :: comparison :: us) = _ := trimTokensSolid rfl
  have second : trimTokens (comparison :: us) = _ := trimTokensSolid solid
  simp only [readAttr,first,trimTokensEnd,second,if_neg (not_or.mpr ⟨ident,string⟩)]
  cases trimTokens us with
  | nil => rfl
  | cons value tail =>
    dsimp only
    cases attrValue value with
    | none => rfl
    | some v => cases attrFlag tail <;> rfl

end

inductive IsValue : Component → Prop where
  | ident {w : Bytes} (name : Identifier w) : IsValue (.ident w)
  | quoted {w : Bytes} (pieces : Pieces (contentsRule True) w) (complete : Complete w) : IsValue (.quoted w)

structure AttrFacts (name : Bytes) (value : Option Component) (flag : Bytes) : Prop where
  name : Identifier name
  value : ∀ v ∈ value, IsValue v
  flag : flag = [] ∨ Identifier flag

section
variable {ts : List Token} {name comparison flag : Bytes} {value : Option Component}

theorem innerValue {t v} (inner : t.IsInner) (valued : attrValue t = some v) : IsValue v := by
  unfold attrValue at valued
  split at valued
  · rename_i kind
    cases valued
    exact .ident (innerIdent inner kind)
  · rename_i kind
    cases valued
    obtain ⟨pieces,complete⟩ := innerString inner kind
    exact .quoted pieces complete
  · rename_i kind
    cases valued
    obtain ⟨pieces,complete⟩ := innerNumber inner kind
    exact .quoted pieces complete
  · cases valued

theorem attrFacts (inner : ∀ t ∈ ts, t.IsInner) (read : AttrRead ts (.attr name comparison value flag)) :
    AttrFacts name value flag := by
  cases read with
  | @present before after name left right =>
    have named : Identifier name := innerIdent (inner ⟨.ident,name⟩ (by simp)) rfl
    exact ⟨named,by simp,.inl rfl⟩
  | @compared before between ahead tail comparison t name flag v left middle right solid kind valued flagged =>
    have named : Identifier name := innerIdent (inner ⟨.ident,name⟩ (by simp)) rfl
    refine ⟨named,?_,?_⟩
    · rintro _ ⟨⟩
      exact innerValue (inner t (by simp)) valued
    · rcases attrFlagParts flagged with ⟨void,_⟩ | ⟨first,last,rfl,_,_⟩
      · exact .inl void
      · exact .inr (innerIdent (inner ⟨.ident,flag⟩ (by simp)) rfl)

end

section
variable {w : Bytes}

theorem stringName (skip s) (all : nameRun skip s = s.length) : stringFrom skip s = decodedFrom skip s := by
  fun_induction nameRun skip s with
  | case1 skip => cases skip <;> rfl
  | case2 skip b s ih => exact ih (Nat.succ.inj all)
  | case3 b s plain ih =>
    have other : ¬(b == 92) := by
      intro slash
      rw [beq_iff_eq.mp slash] at plain
      cases plain
    rw [stringFrom,decodedFrom,if_neg other,if_neg other,ih (Nat.succ.inj all)]
  | case4 b s _ slash n length ih => simp only [stringFrom,decodedFrom,slash,length,ih (Nat.succ.inj all),if_true]
  | case5 => cases all
  | case6 => cases all

theorem identDenoted (name : Identifier w) : (ident w).denoted = (quoted w).denoted := by
  have run : scan nameStep true 0 (w ++ []) = _ := scanPieces nameScanner w name.pieces name.complete (by simp [Ends])
  rw [append_nil] at run
  refine (stringName 0 w ?_).symm
  rw [nameRunScan,run]
  rfl

end

section
variable {w f name comparison rest : Bytes}

theorem identBefore (ends : EndsName w rest) (call : rest.head? ≠ some 40)
    (plus : rest.head? ≠ some 43) : tokens (w ++ rest) = ⟨.ident,w⟩ :: tokens rest := by
  refine wordToken ends call ?_
  cases rest with
  | nil => simp [startsRange]
  | cons b rest =>
    have other : b ≠ 43 := fun same => plus (congrArg some same)
    simp [startsRange,other]

theorem identBracket (word : Identifier w) : tokens (w ++ [93]) = [⟨.ident,w⟩,rightBracket] :=
  identBefore (identifierEnds word (by rintro _ ⟨⟩; exact ⟨rfl,rfl⟩) (by rintro _ ⟨⟩; rfl)) (by simp) (by simp)

theorem blankFlag (flag : Identifier f) : tokens (32 :: (f ++ [93])) = [space,⟨.ident,f⟩,rightBracket] := by
  rw [tokensSpace,identBracket flag]
  intro b first
  cases f with
  | nil => cases flag.starts
  | cons c f =>
    cases first
    exact (startsNameFirst flag.starts).1

theorem identifierJoined (word : Identifier w) (flag : Identifier f) (lost : isIdent (w ++ [32])) :
    Identifier (w ++ 32 :: f) := by
  have complete : Complete (w ++ [32]) := completeAppend word.complete (singleComplete (by decide) .nil)
  have front := identIdentifier complete (by simp) lost
  rw [append_cons]
  exact ⟨piecesAppend front.pieces flag.pieces,startsNameAppend front.starts f,completeAppend complete flag.complete⟩

theorem comparisonApart (word : Identifier name) (known : comparison ∈ comparisons) (rest) :
    StandsApart name comparison rest := by
  have apart : ∀ {t : Token}, t.compares → tokens (t.text ++ rest) = t :: tokens rest →
      (∀ b ∈ (t.text ++ rest).head?, isHexDigit b = false ∧ isBlankByte b = false ∧ breaksName b ∧ b ≠ 40 ∧ b ≠ 43) →
      StandsApart name t.text rest := by
    intro t compares token first
    have ends : EndsName name (t.text ++ rest) := identifierEnds word (fun b mem => ⟨(first b mem).1,(first b mem).2.1⟩)
      fun b mem => (first b mem).2.2.1
    refine ⟨t,compares,rfl,?_⟩
    rw [identBefore ends (fun call => (first 40 call).2.2.2.1 rfl) (fun plus => (first 43 plus).2.2.2.2 rfl),token]
  simp only [comparisons,mem_cons,not_mem_nil,or_false] at known
  rcases known with rfl | rfl | rfl | rfl | rfl | rfl
  · exact @apart ⟨.delim,ascii "="⟩ rfl rfl (by rintro _ ⟨⟩; decide)
  · exact @apart ⟨.matcher,ascii "~="⟩ rfl rfl (by rintro _ ⟨⟩; decide)
  · exact @apart ⟨.matcher,ascii "|="⟩ rfl rfl (by rintro _ ⟨⟩; decide)
  · exact @apart ⟨.matcher,ascii "^="⟩ rfl rfl (by rintro _ ⟨⟩; decide)
  · exact @apart ⟨.matcher,ascii "$="⟩ rfl rfl (by rintro _ ⟨⟩; decide)
  · exact @apart ⟨.matcher,ascii "*="⟩ rfl rfl (by rintro _ ⟨⟩; decide)

end

def Flat (ts : List Token) : Prop := ∀ t ∈ ts, t.opens = false ∧ t.closes = false

section
variable {ts us : List Token} {name comparison rest : Bytes} {again : Component}

theorem untilCloseFlat (flat : Flat ts) (level us) :
    untilClose level (ts ++ us) = (ts ++ (untilClose level us).1,(untilClose level us).2) := by
  induction ts with
  | nil => rfl
  | cons t ts ih =>
    obtain ⟨here,others⟩ := forall_mem_cons.mp flat
    rw [cons_append,untilClose]
    simp [here.1,here.2,ih others]

theorem plainFlat (plain : ∀ t ∈ ts, t.kind ∈ [TokenKind.ident,.string,.number,.whitespace,.comment]) : Flat ts := by
  intro t mem
  have kinds := plain t mem
  simp only [mem_cons,not_mem_nil,or_false] at kinds
  rcases kinds with kind | kind | kind | kind | kind <;> simp [Token.opens,Token.closes,kind]

theorem blanksFlat (blanks : Blanks ts) : Flat ts := by
  refine plainFlat fun t mem => ?_
  have blank := blanks t mem
  rw [Token.isBlank,Bool.or_eq_true,decide_eq_true_eq,decide_eq_true_eq] at blank
  rcases blank with kind | kind <;> simp [kind]

theorem valueFlat {ahead tail value v flag} (right : Blanks ahead)
    (valued : attrValue value = some v) (flagged : attrFlag tail = some flag) : Flat (ahead ++ value :: tail) := by
  have here : Flat [value] := by
    unfold attrValue at valued
    refine plainFlat (forall_mem_singleton.mpr ?_)
    split at valued
    · simp_all
    · simp_all
    · simp_all
    · cases valued
  refine forall_mem_append.mpr ⟨blanksFlat right,forall_mem_cons.mpr ⟨here value mem_cons_self,?_⟩⟩
  rcases attrFlagParts flagged with ⟨_,blanks⟩ | ⟨before,after,rfl,left,right⟩
  · exact blanksFlat blanks
  · exact forall_mem_append.mpr ⟨blanksFlat left,forall_mem_cons.mpr ⟨⟨rfl,rfl⟩,blanksFlat right⟩⟩

theorem betweenFlat {t last} (flat : Flat ts)
    (cut : untilClose 0 (⟨.ident,name⟩ :: t :: (ts ++ [last])) = (⟨.ident,name⟩ :: t :: ts,[last])) :
    t.opens = false ∧ t.closes = false := by
  have first : Flat [⟨.ident,name⟩] := forall_mem_singleton.mpr ⟨rfl,rfl⟩
  have inner : untilClose 0 (t :: (ts ++ [last])) = (t :: ts,[last]) := by
    have step := untilCloseFlat first 0 (t :: (ts ++ [last]))
    rw [singleton_append,cut] at step
    obtain ⟨front,back⟩ := Prod.mk.inj step
    exact Prod.ext (List.cons.inj front).2.symm back.symm
  rw [untilClose] at inner
  split at inner
  · cases inner
  rename_i shut
  have closes : t.closes = false := by simpa using shut
  cases opens : t.opens with
  | false => exact ⟨rfl,closes⟩
  | true =>
    -- A block that is opened takes the last bracket for its own.
    have taken : (untilClose 1 [last]).2 = [] := by
      rw [untilClose,if_neg (by simp)]
      rfl
    rw [opens,if_pos rfl,untilCloseFlat flat,taken] at inner
    cases (Prod.mk.inj inner).2

theorem rereadFlat {text} (parts : tokens text = ts ++ [rightBracket]) (flat : Flat ts) :
    rereadAttr (91 :: text) = readAttr ts := by
  have cut : untilClose 0 (tokens text) = (ts,[rightBracket]) := by
    have shut : untilClose 0 [rightBracket] = ([],[rightBracket]) := rfl
    rw [parts,untilCloseFlat flat,shut,append_nil]
  simp only [rereadAttr,tokensEnter,leftBracket,cut]

theorem rereadParts {text : Bytes} (read : rereadAttr (91 :: text) = some again) :
    ∃ inside last, untilClose 0 (tokens text) = (inside,[last]) ∧ readAttr inside = some again := by
  simp only [rereadAttr,tokensEnter,leftBracket] at read
  split at read
  · rename_i inside last cut
    exact ⟨inside,last,cut,read⟩
  · cases read

theorem rereadApart (apart : StandsApart name comparison rest) (parts : tokens rest = us ++ [rightBracket]) (flat : Flat us) :
    rereadAttr (91 :: (name ++ (comparison ++ rest))) =
      match trimTokens us with
      | [] => none
      | value :: tail => (attrValue value).bind fun v => (attrFlag tail).map fun flag => .attr name comparison (some v) flag := by
  obtain ⟨t,compares,rfl,whole⟩ := apart
  rw [parts] at whole
  have plain := compares
  simp only [Token.compares,Bool.and_eq_true,Bool.not_eq_true'] at plain
  have all : Flat (⟨.ident,name⟩ :: t :: us) :=
    forall_mem_cons.mpr ⟨⟨rfl,rfl⟩,forall_mem_cons.mpr ⟨⟨plain.1.2,plain.2⟩,flat⟩⟩
  rw [rereadFlat whole all,readAttrCompared compares]

end

section
variable {name comparison f w : Bytes} {v : Component}

theorem bareCases (value : IsValue v) : (∃ w, v.bare = .ident w ∧ Identifier w ∧ (ident w).denoted = v.denoted) ∨
    v = .quoted [] ∨
    ∃ w, v.bare = .quoted w ∧ Pieces (contentsRule True) w ∧ Complete w ∧ (quoted w).denoted = v.denoted := by
  cases value with
  | @ident w name => exact .inl ⟨w,rfl,name,rfl⟩
  | @quoted w pieces complete =>
    by_cases void : w = []
    · exact .inr (.inl (by rw [void]))
    cases ident : isIdent w with
    | true =>
      have name := identIdentifier complete void ident
      exact .inl ⟨w,if_pos ident,name,identDenoted name⟩
    | false => exact .inr (.inr ⟨w,if_neg (by simp [ident]),pieces,complete,rfl⟩)

section
variable (stands : StandsApart name comparison (attrTail v.bare f))
include stands

theorem rereadIdent (bare : v.bare = .ident w) (word : Identifier w) (flag : f = [] ∨ Identifier f ∧ isIdent (w ++ [32]) = false) :
    rereadAttr (91 :: (name ++ (comparison ++ attrTail v.bare f))) = some (.attr name comparison (some (.ident w)) f) := by
  rcases flag with rfl | ⟨flag,apart⟩
  · have parts : tokens (attrTail v.bare []) = [⟨.ident,w⟩] ++ [rightBracket] := by
      rw [bare]
      exact identBracket word
    rw [rereadApart stands parts (plainFlat (by simp))]
    rfl
  · have filled : f.isEmpty = false := isEmpty_eq_false_iff.mpr (identifierFilled flag)
    have ends : EndsName w (32 :: (f ++ [93])) := blankBehind word apart
    have parts : tokens (attrTail v.bare f) = [⟨.ident,w⟩,space,⟨.ident,f⟩] ++ [rightBracket] := by
      rw [bare,attrTail,filled]
      exact (identBefore ends (by simp) (by simp)).trans (congrArg (_ :: ·) (blankFlag flag))
    rw [rereadApart stands parts (plainFlat (by simp [space]))]
    rfl

theorem rereadLost (bare : v.bare = .ident w) (word : Identifier w) (flag : Identifier f) (lost : isIdent (w ++ [32])) :
    rereadAttr (91 :: (name ++ (comparison ++ attrTail v.bare f))) =
      some (.attr name comparison (some (.ident (w ++ 32 :: f))) []) := by
  have filled : f.isEmpty = false := isEmpty_eq_false_iff.mpr (identifierFilled flag)
  have parts : tokens (attrTail v.bare f) = [⟨.ident,w ++ 32 :: f⟩] ++ [rightBracket] := by
    have joined := identBracket (identifierJoined word flag lost)
    rw [append_assoc] at joined
    rw [bare,attrTail,filled]
    exact joined
  rw [rereadApart stands parts (plainFlat (by simp))]
  rfl

theorem rereadQuoted (bare : v.bare = .quoted w) (pieces : Pieces (contentsRule True) w) (complete : Complete w)
    (flag : f = [] ∨ Identifier f) :
    rereadAttr (91 :: (name ++ (comparison ++ attrTail v.bare f))) = some (.attr name comparison (some (.quoted w)) f) := by
  have same : ∀ g, some (attr name comparison (some (.quoted (unquote (quoteText w)))) g) =
      some (.attr name comparison (some (.quoted w)) g) := fun g => by rw [(quoteTextClosed pieces).2]
  rcases flag with rfl | flag
  · have parts : tokens (attrTail v.bare []) = [⟨.string,quoteText w⟩] ++ [rightBracket] := by
      rw [bare]
      exact quoteTextToken pieces complete [93]
    rw [rereadApart stands parts (plainFlat (by simp))]
    exact same []
  · have filled : f.isEmpty = false := isEmpty_eq_false_iff.mpr (identifierFilled flag)
    have parts : tokens (attrTail v.bare f) = [⟨.string,quoteText w⟩,⟨.ident,f⟩] ++ [rightBracket] := by
      rw [bare,attrTail,filled]
      exact (quoteTextToken pieces complete (f ++ [93])).trans (congrArg (_ :: ·) (identBracket flag))
    rw [rereadApart stands parts (plainFlat (by simp))]
    exact same f

theorem rereadEmpty (empty : v = .quoted []) (flag : f = [] ∨ Identifier f) :
    rereadAttr (91 :: (name ++ (comparison ++ attrTail v.bare f))) =
      if f = [] then none else some (.attr name comparison (some (.ident f)) []) := by
  rcases flag with rfl | flag
  · have parts : tokens (attrTail v.bare []) = [] ++ [rightBracket] := by
      rw [empty]
      rfl
    rw [rereadApart stands parts (plainFlat (by simp))]
    rfl
  · have filled := identifierFilled flag
    have parts : tokens (attrTail v.bare f) = [space,⟨.ident,f⟩] ++ [rightBracket] := by
      rw [empty,attrTail,if_neg (by simpa using filled)]
      exact blankFlag flag
    rw [rereadApart stands parts (plainFlat (by simp [space])),if_neg filled]
    rfl

theorem keptReread (value : IsValue v) (flag : f = [] ∨ Identifier f) (filled : v ≠ .quoted [])
    (apart : f ≠ [] → ∀ w, v.bare = .ident w → isIdent (w ++ [32]) = false) :
    ∃ u, rereadAttr (91 :: (name ++ (comparison ++ attrTail v.bare f))) = some (.attr name comparison (some u) f) ∧
      u.denoted = v.denoted := by
  rcases bareCases value with ⟨w,bare,word,same⟩ | empty | ⟨w,bare,pieces,complete,same⟩
  · have flag := flag.imp_right fun flag => And.intro flag (apart (identifierFilled flag) w bare)
    exact ⟨.ident w,rereadIdent stands bare word flag,same⟩
  · exact absurd empty filled
  · exact ⟨.quoted w,rereadQuoted stands bare pieces complete flag,same⟩

theorem rereadKept {first compared g u} (value : IsValue v) (flag : f = [] ∨ Identifier f)
    (read : rereadAttr (91 :: (name ++ (comparison ++ attrTail v.bare f))) = some (.attr first compared u g))
    (same : g = [] → f = []) : v ≠ .quoted [] ∧ (f ≠ [] → ∀ w, v.bare = .ident w → isIdent (w ++ [32]) = false) := by
  have filled : v ≠ .quoted [] := by
    intro empty
    rw [rereadEmpty stands empty flag] at read
    split at read
    · cases read
    · rename_i full
      cases read
      exact full (same rfl)
  refine ⟨filled,fun full w bare => ?_⟩
  cases lost : isIdent (w ++ [32]) with
  | false => rfl
  | true =>
    rcases bareCases value with ⟨x,written,word,_⟩ | empty | ⟨x,written,_⟩
    · cases bare.symm.trans written
      rw [rereadLost stands bare word (flag.resolve_left full) lost] at read
      cases read
      exact absurd (same rfl) full
    · exact absurd empty filled
    · cases bare.symm.trans written

end

theorem senseParts {c : Component} {n compared g u} (sense : c.attrSense = some (n,compared,u,g)) :
    ∃ first value flag, c = .attr first compared value flag ∧ lower first = n ∧ value.map denoted = u ∧
      lower flag = g := by
  unfold attrSense at sense
  split at sense
  · cases sense
    exact ⟨_,_,_,rfl,rfl,rfl,rfl⟩
  · cases sense

end

section
variable {s name comparison rest : Bytes} {t : Token} {ts : List Token}

theorem tokensRest (parts : tokens s = t :: ts) : ∃ rest, s = t.text ++ rest ∧ ts = tokens rest := by
  cases s with
  | nil => cases parts
  | cons b s =>
    rw [tokensCons] at parts
    obtain ⟨rfl,rfl⟩ := List.cons.inj parts
    exact ⟨_,by simp,rfl⟩

theorem blanksNone {b before} (solid : ¬StartsBlank b s) (parts : tokens (b :: s) = before ++ ts)
    (blanks : Blanks before) : before = [] := by
  cases before with
  | nil => rfl
  | cons t before =>
    have blank := blanks _ mem_cons_self
    rw [← (List.cons.inj parts).1,Token.isBlank,Bool.or_eq_true,decide_eq_true_eq,decide_eq_true_eq] at blank
    exact absurd (startBlank (firstTokenStart b s) blank) solid

theorem solidStart {b u} (solid : ¬StartsBlank b u) (other : ∀ c ∈ rest.head?, c ≠ 42) (n) :
    ¬StartsBlank b (u.take n ++ rest) := by
  rintro (blank | ⟨slash,star⟩)
  · exact solid (.inl blank)
  · rcases u with _ | ⟨c,u⟩
    · rw [take_nil] at star
      exact other 42 star rfl
    · cases n with
      | zero => exact other 42 star rfl
      | succ n => exact solid (.inr ⟨slash,star⟩)

theorem identLonger {first} (word : Identifier name) (parts : tokens (name ++ rest) = ⟨.ident,first⟩ :: ts) :
    ∃ more, first = name ++ more := by
  have reaches := identifierReaches word rest
  obtain ⟨back,text,_⟩ := tokensRest parts
  have longer : name.length ≤ first.length := by
    cases whole : name ++ rest with
    | nil => exact absurd (append_eq_nil_iff.mp whole).1 (identifierFilled word)
    | cons b u =>
      rw [whole] at parts reaches
      obtain ⟨kind,taken⟩ := Token.mk.inj (List.cons.inj parts).1
      have size := (identLikeKinds (startWord (firstTokenStart b u) (.inl kind))).2 kind
      have all := congrArg List.length whole
      rw [length_append,length_cons] at all
      rw [← taken,length_cons,length_take]
      omega
  obtain ⟨more,rfl⟩ := prefix_of_prefix_length_le ⟨rest,rfl⟩ ⟨back,text.symm⟩ longer
  exact ⟨more,rfl⟩

theorem apartReread {first flag value} (word : Identifier (lower name))
    (solid : ∃ b u n, comparison = b :: u.take n ∧ ¬StartsBlank b u) (other : ∀ b ∈ rest.head?, b ≠ 42)
    (read : rereadAttr (91 :: (lower name ++ (comparison ++ rest))) = some (.attr first comparison (some value) flag))
    (same : lower first = lower name) : StandsApart (lower name) comparison rest := by
  obtain ⟨inside,last,cut,read⟩ := rereadParts read
  have whole := untilCloseAppend 0 (tokens (lower name ++ (comparison ++ rest)))
  rw [cut] at whole
  cases readAttrRead read with
  | @compared before between ahead tail t value first flag v left middle right bare kind valued flagged =>
    simp only [append_assoc,cons_append] at whole
    have void : before = [] := by
      cases start : lower name with
      | nil => exact absurd start (identifierFilled word)
      | cons b s =>
        have letter := startsNameFirst (start ▸ word.starts)
        rw [start] at whole
        refine blanksNone ?_ whole.symm left
        rintro (blank | ⟨slash,_⟩)
        · exact absurd (letter.1.symm.trans blank) Bool.false_ne_true
        · exact letter.2.2 slash
    subst void
    obtain ⟨more,rfl⟩ := identLonger word whole.symm
    have short : more = [] := by
      rw [lowerBehind] at same
      exact Decidable.not_not.mp fun filled => lowerSome filled (append_right_eq_self.mp same)
    subst short
    rw [append_nil] at *
    obtain ⟨_,text,behind⟩ := tokensRest whole.symm
    cases append_cancel_left text
    have void : between = [] := by
      obtain ⟨b,u,n,start,apart⟩ := solid
      rw [start] at behind
      exact blanksNone (solidStart apart other n) behind.symm middle
    subst void
    obtain ⟨_,text,values⟩ := tokensRest behind.symm
    cases append_cancel_left text
    have cut : untilClose 0 (⟨.ident,lower name⟩ :: t :: ((ahead ++ value :: tail) ++ [last])) =
        (⟨.ident,lower name⟩ :: t :: (ahead ++ value :: tail),[last]) := by
      rw [append_assoc]
      rwa [← whole] at cut
    obtain ⟨opens,closes⟩ := betweenFlat (valueFlat right valued flagged) cut
    refine ⟨t,?_,rfl,?_⟩
    · simp [Token.compares,kind,bare,opens,closes]
    · rw [← values,← whole]
      rfl

end

theorem tailFirst {v} (value : IsValue v) (flag : Bytes) : ∀ b ∈ (attrTail v.bare flag).head?, b ≠ 42 := by
  have behind : ∀ b ∈ ((if flag.isEmpty then [] else ([] ++ [32]) ++ flag) ++ [93]).head?, b ≠ 42 := by
    cases flag <;> (rintro _ ⟨⟩; decide)
  rcases bareCases value with ⟨w,bare,word,_⟩ | empty | ⟨w,bare,_⟩
  · rw [bare]
    cases w with
    | nil => exact absurd rfl (identifierFilled word)
    | cons c w =>
      rintro _ ⟨⟩
      exact (startsNameFirst word.starts).2.1
  · rw [empty]
    exact behind
  · obtain ⟨quote,quotes,text,_⟩ := quoteTextCases w
    rw [bare,attrTail,Component.text,text]
    rintro _ ⟨⟩
    rcases quotes with rfl | rfl <;> decide

section
variable {s : Bytes} {front ts back : List Token} {close : Token} {name comparison flag : Bytes} {value : Option Component}

theorem writtenAttr (ctx v) :
    ((attr name comparison (some v) flag).again ctx).text =
      91 :: (lower name ++ (comparison ++ attrTail v.bare (lower flag))) := by
  rw [againAttr,Option.map_some,Component.text,attrText,attrTail]
  simp only [cons_append,append_assoc]

theorem presentAttr (ctx) (word : Identifier name) :
    rereadAttr ((attr name [] none []).again ctx).text = some (.attr (lower name) [] none []) := by
  have parts : tokens (lower name ++ [93]) = [⟨.ident,lower name⟩] ++ [rightBracket] := identBracket (identifierLower word)
  exact rereadFlat parts (plainFlat (by simp))

/- An attribute selector, written again and read from there, is one of the same sense exactly if it keeps its
sense. The comparisons that there are stand apart always. -/
theorem attributeWrittenAgain (text : isText s = true) (inside : tokens s = front ++ ts ++ close :: back)
    (read : readAttr ts = some (.attr name comparison value flag)) (ctx : Context) :
    ((attr name comparison value flag).RereadsAlike ctx ↔ KeepsSense name comparison value flag) ∧
    (comparison ∈ comparisons → ∀ rest, StandsApart (lower name) comparison rest) := by
  have inner : ∀ t ∈ ts, t.IsInner := by
    intro t mem
    obtain ⟨before,behind,rfl⟩ := append_of_mem mem
    exact ⟨s,front ++ before,behind ++ close :: back,text,by simp [inside],by simp⟩
  have facts := attrFacts inner (readAttrRead read)
  have word := identifierLower facts.name
  refine ⟨?_,comparisonApart word⟩
  cases readAttrRead read with
  | present =>
    have keeps : KeepsSense name [] none [] := fun _ void => nomatch void
    refine ⟨fun _ => keeps,fun _ => ⟨_,presentAttr ctx facts.name,?_⟩⟩
    rw [attrSense,attrSense,lowerTwice]
  | @compared before between ahead tail t _ _ _ v _ _ _ bare =>
    have solid := innerSolid (inner t (by simp)) bare
    have valued := facts.value v rfl
    have flagged : lower flag = [] ∨ Identifier (lower flag) := facts.flag.imp (congrArg lower) identifierLower
    have filled : flag ≠ [] ↔ lower flag ≠ [] := ⟨lowerSome,fun full void => full (congrArg lower void)⟩
    rw [Component.RereadsAlike,writtenAttr]
    constructor
    · rintro ⟨again,reread,sense⟩
      obtain ⟨first,value,g,rfl,same,denoted,flags⟩ := senseParts sense
      obtain ⟨u,rfl⟩ : ∃ u, value = some u := by
        cases value with
        | none => cases denoted
        | some u => exact ⟨u,rfl⟩
      have stands := apartReread word solid (tailFirst valued _) reread same
      obtain ⟨full,apart⟩ := rereadKept stands valued flagged reread fun void => by rw [← flags,void]; rfl
      rintro _ ⟨⟩
      exact ⟨full,fun flag => apart (filled.mp flag),stands⟩
    · intro keeps
      obtain ⟨full,apart,stands⟩ := keeps v rfl
      obtain ⟨u,reread,same⟩ := keptReread stands valued flagged full fun flag => apart (filled.mpr flag)
      refine ⟨_,reread,?_⟩
      rw [attrSense,attrSense,lowerTwice,lowerTwice,Option.map_some,Option.map_some,same]

def spacedAttr : List Token := [⟨.ident,ascii "A"⟩,⟨.delim,ascii "="⟩,⟨.string,ascii "\"b c\""⟩,space,⟨.ident,ascii "I"⟩]

def emptyAttr : List Token := [⟨.ident,ascii "a"⟩,⟨.delim,ascii "="⟩,⟨.string,ascii "\"\""⟩]

def escapedAttr : List Token := [⟨.ident,ascii "a"⟩,⟨.delim,ascii "="⟩,⟨.string,ascii "\"\\41\""⟩,space,⟨.ident,ascii "i"⟩]

def numberAttr : List Token := [⟨.ident,ascii "a"⟩,space,⟨.number,ascii "5"⟩,space,⟨.ident,ascii "b"⟩]

theorem sensesKeptAndLost :
    (tokens (ascii "[A=\"b c\" I]\x7b") = [leftBracket] ++ spacedAttr ++ rightBracket :: [⟨.leftBrace,[123]⟩] ∧
      readAttr spacedAttr = some (.attr (ascii "A") (ascii "=") (some (.quoted (ascii "b c"))) (ascii "I")) ∧
      (attr (ascii "A") (ascii "=") (some (.quoted (ascii "b c"))) (ascii "I")).RereadsAlike {}) ∧
    (tokens (ascii "[a=\"\"]\x7b") = [leftBracket] ++ emptyAttr ++ rightBracket :: [⟨.leftBrace,[123]⟩] ∧
      readAttr emptyAttr = some (.attr (ascii "a") (ascii "=") (some (.quoted [])) []) ∧
      ¬(attr (ascii "a") (ascii "=") (some (.quoted [])) []).RereadsAlike {}) ∧
    (tokens (ascii "[a=\"\\41\" i]\x7b") = [leftBracket] ++ escapedAttr ++ rightBracket :: [⟨.leftBrace,[123]⟩] ∧
      readAttr escapedAttr = some (.attr (ascii "a") (ascii "=") (some (.quoted (ascii "\\41"))) (ascii "i")) ∧
      ¬(attr (ascii "a") (ascii "=") (some (.quoted (ascii "\\41"))) (ascii "i")).RereadsAlike {}) ∧
    (tokens (ascii "[a 5 b]\x7b") = [leftBracket] ++ numberAttr ++ rightBracket :: [⟨.leftBrace,[123]⟩] ∧
      readAttr numberAttr = some (.attr (ascii "a") (ascii "5") (some (.ident (ascii "b"))) []) ∧
      ¬(attr (ascii "a") (ascii "5") (some (.ident (ascii "b"))) []).RereadsAlike {}) := by
  refine ⟨⟨rfl,rfl,?_⟩,⟨rfl,rfl,?_⟩,⟨rfl,rfl,?_⟩,⟨rfl,rfl,?_⟩⟩
  · obtain ⟨alike,apart⟩ := @attributeWrittenAgain (ascii "[A=\"b c\" I]\x7b") [leftBracket] spacedAttr _ _ _ _ _ _ rfl rfl rfl {}
    have quoted : (quoted (ascii "b c")).bare = .quoted (ascii "b c") := rfl
    have filled : ascii "b c" ≠ [] := by decide
    refine alike.mpr ?_
    rintro _ ⟨⟩
    refine ⟨fun same => filled (Component.quoted.inj same),fun _ w bare => ?_,apart (by decide) _⟩
    cases quoted.symm.trans bare
  · obtain ⟨alike,_⟩ := @attributeWrittenAgain (ascii "[a=\"\"]\x7b") [leftBracket] emptyAttr _ _ _ _ _ _ rfl rfl rfl {}
    exact fun again => (alike.mp again _ rfl).1 rfl
  · obtain ⟨alike,_⟩ := @attributeWrittenAgain (ascii "[a=\"\\41\" i]\x7b") [leftBracket] escapedAttr _ _ _ _ _ _ rfl rfl rfl {}
    intro again
    have apart := (alike.mp again _ rfl).2.1 (by decide) (ascii "\\41") rfl
    exact absurd apart (by decide)
  · obtain ⟨alike,_⟩ := @attributeWrittenAgain (ascii "[a 5 b]\x7b") [leftBracket] numberAttr _ _ _ _ _ _ rfl rfl rfl {}
    intro again
    obtain ⟨t,_,_,parts⟩ := (alike.mp again _ rfl).2.2
    have joined : tokens (lower (ascii "a") ++ (ascii "5" ++ attrTail (.ident (ascii "b")) (lower []))) =
        [⟨.ident,ascii "a5b"⟩,rightBracket] := rfl
    exact absurd (List.cons.inj (joined.symm.trans parts)).1 (by decide)

end

end Cascade
