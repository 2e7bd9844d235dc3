import Cascade.Proofs.SelectorText

/-! Selectors are read as they were written. -/
namespace Cascade
open List
open Component (spellAll spell)
open Token (isDelim isOneOf isBlank colon)

section
variable {whole rest : List Token} {p : Partial}

theorem readClass (name) : readSelectorFrom whole p (⟨.delim,[46]⟩ :: ⟨.ident,name⟩ :: rest) =
    readSelectorFrom whole (p.add (.className name)) rest := by
  rw [readSelectorFrom.eq_def]
  simp [isBlank,isOneOf,isDelim]

theorem readId (name : Bytes) : readSelectorFrom whole p (⟨.hash,35 :: name⟩ :: rest) =
    readSelectorFrom whole (p.add (.id name)) rest := by
  rw [readSelectorFrom.eq_def]
  simp [isBlank,isOneOf,isDelim]

theorem readPseudoClass (name) : readSelectorFrom whole p (colon :: ⟨.ident,name⟩ :: rest) =
    readSelectorFrom whole (p.add (.pseudoClass name)) rest := by
  rw [readSelectorFrom.eq_def]
  simp [colon,isBlank,isOneOf,isDelim]

theorem readPseudoElement (name) :
    readSelectorFrom whole p (colon :: colon :: ⟨.ident,name⟩ :: rest) =
      readSelectorFrom whole (p.add (.pseudoElement name)) rest := by
  rw [readSelectorFrom.eq_def]
  simp [colon,isBlank,isOneOf,isDelim]

theorem readPseudo {name ts c} (balanced : Balanced ts) (trimmed : trimTokens ts = ts)
    (call : readPseudoCall name ts = pure (some c)) :
    readSelectorFrom whole p (colon :: ⟨.function,name ++ [40]⟩ :: (ts ++ [rightParen]) ++ rest) =
      readSelectorFrom whole (p.add c) rest := by
  rw [readSelectorFrom.eq_def]
  simp [colon,isBlank,isOneOf,isDelim,untilCloseParen balanced,trimmed,call]

theorem typeKind (name) : typeToken name = ⟨.ident,name⟩ ∨ typeToken name = ⟨.delim,[42]⟩ ∧ name = [42] := by
  rw [typeToken]
  split
  · rename_i star
    exact .inr ⟨by rw [star]; rfl,star⟩
  · exact .inl rfl

theorem typeText (name) : (typeToken name).text = name := by
  rw [typeToken]
  split <;> rfl

theorem typeNamed (name) : (typeToken name).isElementName := by
  rcases typeKind name with kind | ⟨kind,_⟩ <;> rw [kind] <;> rfl

theorem typeBar (name) : (typeToken name).isDelim 124 = false := by
  rcases typeKind name with kind | ⟨kind,_⟩ <;> rw [kind] <;> rfl

theorem readAtType (name) : readSelectorFrom whole p (typeToken name :: rest) =
    readSelectorFrom whole (p.add (readElement (typeToken name) rest).1) (readElement (typeToken name) rest).2 := by
  rw [readSelectorFrom.eq_def]
  rcases typeKind name with kind | ⟨kind,_⟩ <;> rw [kind] <;> simp [isBlank,isOneOf,isDelim]

theorem readElementSpell {name ns : Bytes} {hasNs} (plain : ∀ t ∈ rest.head?, t.isDelim 124 = false)
    (spaced : hasNs = false → ns = []) :
    readSelectorFrom whole p ((Component.element name ns hasNs).spell ++ rest) =
      readSelectorFrom whole (p.add (.element name ns hasNs)) rest := by
  rw [spell]
  cases hasNs with
  | false =>
    have alone : readElement (typeToken name) rest = (.element name [] false,rest) := by
      rw [readElement.eq_def]
      cases rest with
      | nil => simp [typeText]
      | cons t rest =>
        have other := plain t rfl
        cases rest <;> simp [typeText,typeBar,other]
    rw [spaced rfl,if_neg Bool.false_ne_true,cons_append,readAtType,nil_append,alone]
  | true =>
    rw [if_pos rfl]
    split
    · rename_i void
      have bare : readElement ⟨.delim,[124]⟩ (typeToken name :: rest) = (.element name [] true,rest) := by
        simp [readElement,isDelim,typeNamed,typeText]
      rw [void]
      simp only [nil_append,cons_append]
      rw [readSelectorFrom.eq_def]
      simp [isBlank,isOneOf,isDelim,bare]
    · have both : readElement (typeToken ns) (⟨.delim,[124]⟩ :: typeToken name :: rest) = (.element name ns true,rest) := by
        have bar : isDelim ⟨.delim,[124]⟩ 124 := rfl
        simp [readElement,typeBar,typeNamed,typeText,bar]
      simp only [nil_append,cons_append]
      rw [readAtType,both]

theorem readCombinator {kind} (joins : kind ∈ combinatorBytes) (full : p.conditions ≠ []) :
    readSelectorFrom whole p (combinatorToken kind :: rest) = readSelectorFrom whole (p.join kind) rest := by
  rw [readSelectorFrom.eq_def]
  simp only [combinatorBytes,mem_cons,not_mem_nil,or_false] at joins
  rcases joins with rfl | rfl | rfl | rfl <;>
    simp [combinatorToken,Token.space,isBlank,isOneOf,full]

end

structure ReadBack (s : Component) (ss : List Component) : Prop where
  full : ss ≠ []
  whole : s = .ofSelectors ss
  spelled : s.spell = [Token.comma].intercalate (Component.spellAll ss)
  pieces : ∀ p ∈ Component.spellAll ss, Piece p
  read : readSelectors (Component.spellAll ss) = pure (some ss)

section
variable {s : Component} {ss : List Component} (back : ReadBack s ss) {name : Bytes}
include back

theorem backFramed : Framed s.spell := by
  have full : spellAll ss ≠ [] := by simpa [spellAllMap] using back.full
  rw [back.spelled]
  exact framedIntercalate full fun p mem => (back.pieces p mem).2

theorem backParts : commaParts s.spell = spellAll ss := by
  rw [back.spelled]
  exact commaPartsJoin fun p mem => ⟨(back.pieces p mem).1,framedSome (back.pieces p mem).2⟩

theorem backRelative : hasRelative s.spell = false := by
  rw [hasRelative,backParts back,any_eq_false]
  intro p mem
  have framed := (back.pieces p mem).2
  obtain ⟨t,head,_,other⟩ := framed.first
  obtain ⟨us,same⟩ := head?_eq_some_iff.mp head
  rw [framedTrim framed,same]
  simpa using other

theorem readNegation (known : lower name = ascii "not") : readPseudoCall name s.spell = pure (some (.negation s)) := by
  have several := back.full
  rw [readPseudoCall]
  simp [known,backRelative back,backParts back,back.read,← back.whole]

theorem readSelectorCall (known : lower name ∈ selectorFunctions) :
    readPseudoCall name s.spell = pure (some (.selectorCall name s)) := by
  have several := back.full
  have other : lower name ≠ ascii "not" := by
    intro same
    rw [same] at known
    exact absurd known (by decide)
  rw [readPseudoCall]
  simp [known,other,backRelative back,backParts back,back.read,← back.whole]

end

theorem conditionsBar {rule after cs} (conditions : ConditionsIn rule after cs)
    {rest} (plain : ∀ t ∈ rest.head?, t.isDelim 124 = false) :
    ∀ t ∈ ((spellAll cs).flatten ++ rest).head?, t.isDelim 124 = false := by
  cases conditions with
  | nil => exact plain
  | cons first =>
    cases first <;> rw [spellAll,spell] <;> rintro t ⟨⟩ <;> rfl

theorem completeRead {whole p} (full : p.conditions ≠ []) :
    readSelectorFrom whole p [] = pure (some p.complete) := by
  rw [readSelectorFrom]
  simp [full]

def ReadTo (s : Component) (p : Partial) : Prop :=
  p.conditions ≠ [] ∧ p.complete = s ∧ ∀ whole rest, (∀ t ∈ rest.head?, t.isDelim 124 = false) →
    readSelectorFrom whole {} (s.spell ++ rest) = readSelectorFrom whole p rest

theorem readToSelector {s p} (reads : ReadTo s p) : readSelector s.spell = pure (some s) := by
  obtain ⟨several,same,read⟩ := reads
  have whole := read s.spell [] (by simp)
  rw [append_nil] at whole
  rw [readSelector,whole,completeRead several,same]

theorem readMember {s p} (framed : Framed s.spell) (reads : ReadTo s p)
    {parts ss} (more : readSelectors parts = pure (some ss)) :
    readSelectors (s.spell :: parts) = pure (some (s :: ss)) := by
  rw [readSelectors]
  simp [framedTrim framed,readToSelector reads,more]

theorem readNone : readSelectors [] = pure (some []) := by rw [readSelectors]

theorem combinatorBar {kind} (joins : kind ∈ combinatorBytes) : (combinatorToken kind).isDelim 124 = false := by
  have others : combinatorBytes.all (fun k => !(combinatorToken k).isDelim 124) := rfl
  simpa using all_eq_true.mp others kind joins

section
variable {rule : NameRule}

theorem compoundSome {after cs} (compound : CompoundIn rule after cs) : cs ≠ [] := by
  cases compound <;> simp

mutual

theorem conditionRead : ∀ {after : Bytes} {c : Component}, ConditionIn rule after c →
    ∀ (whole : List Token) (p : Partial) (rest : List Token),
      readSelectorFrom whole p (c.spell ++ rest) = readSelectorFrom whole (p.add c) rest
  | _,_,.className _,_,_,_ => readClass _
  | _,_,.id _,_,_,_ => readId _
  | _,_,.pseudoClass _,_,_,_ => readPseudoClass _
  | _,_,.pseudoElement _,_,_,_ => readPseudoElement _
  | _,_,@ConditionIn.negation _ _ s inner,_,_,_ => by
    obtain ⟨ss,back⟩ := argumentRead inner
    rw [spell]
    exact @readPseudo _ _ _ (ascii "not") _ _ (spellBalanced s) (framedTrim (backFramed back)) (readNegation back rfl)
  | _,_,@ConditionIn.selectorCall _ _ _ s _ takes inner,_,_,_ => by
    obtain ⟨ss,back⟩ := argumentRead inner
    rw [spell]
    exact readPseudo (spellBalanced s) (framedTrim (backFramed back)) (readSelectorCall back takes)

theorem conditionsRead : ∀ {after : Bytes} {cs : List Component}, ConditionsIn rule after cs →
    ∀ (whole : List Token) (p : Partial) (rest : List Token),
      readSelectorFrom whole p ((spellAll cs).flatten ++ rest) =
        readSelectorFrom whole { p with conditions := p.conditions ++ cs } rest
  | _,_,.nil,_,p,_ => by simp [spellAll]
  | _,_,.cons first more,whole,p,rest => by
    rw [spellAll,flatten_cons,append_assoc,conditionRead first,conditionsRead more]
    simp [Partial.add]

theorem compoundRead : ∀ {after : Bytes} {cs : List Component}, CompoundIn rule after cs →
    ∀ (whole : List Token) (p : Partial) (rest : List Token), (∀ t ∈ rest.head?, t.isDelim 124 = false) →
      readSelectorFrom whole p ((Component.compound cs).spell ++ rest) =
        readSelectorFrom whole { p with conditions := p.conditions ++ cs } rest
  | _,_,.conditions first more,whole,p,rest,_ => conditionsRead (.cons first more) whole p rest
  | _,_,@CompoundIn.element _ _ name ns hasNs cs type more,whole,p,rest,plain => by
    have spaced : hasNs = false → ns = [] := by
      rintro rfl
      exact type.1
    rw [spell,spellAll,flatten_cons,append_assoc,
      readElementSpell (conditionsBar more plain) spaced,conditionsRead more]
    simp [Partial.add]

theorem chainRead : ∀ {after : Bytes} {s : Component}, ChainIn rule after s → ∃ p, ReadTo s p
  | _,_,@ChainIn.compound _ _ cs last => by
    refine ⟨{ conditions := cs },compoundSome last,rfl,fun whole rest plain => ?_⟩
    rw [compoundRead last whole {} rest plain]
    rfl
  | _,_,@ChainIn.complex _ _ kind s cs joins left last => by
    obtain ⟨q,full,same,before⟩ := chainRead left
    refine ⟨⟨some s,kind,cs⟩,compoundSome last,rfl,fun whole rest plain => ?_⟩
    have join : q.join kind = ⟨some s,kind,[]⟩ := by simp [Partial.join,full,same]
    rw [spell,append_assoc,cons_append,before whole _ (by rintro t ⟨⟩; exact combinatorBar joins),
      readCombinator joins full,join,compoundRead last _ _ _ plain]
    rfl

theorem selectorsRead : ∀ {after : Bytes} {ss : List Component}, SelectorsIn rule after ss →
    readSelectors (spellAll ss) = pure (some ss)
  | _,_,.last only => by
    obtain ⟨p,reads⟩ := chainRead only
    exact readMember (chainPiece only).2 reads readNone
  | _,_,.cons first rest => by
    obtain ⟨p,reads⟩ := chainRead first
    exact readMember (chainPiece first).2 reads (selectorsRead rest)

theorem argumentRead : ∀ {after : Bytes} {s : Component}, ArgumentIn rule after s → ∃ ss, ReadBack s ss
  | _,_,@ArgumentIn.single _ _ s only => by
    obtain ⟨p,reads⟩ := chainRead only
    exact ⟨[s],by simp,rfl,(intercalate_singleton ..).symm,selectorsPieces (.last only),
      readMember (chainPiece only).2 reads readNone⟩
  | _,_,.list several => ⟨_,by simp,rfl,rfl,selectorsPieces several,selectorsRead several⟩

end

end

/- Compounds joined by combinators, with lists in negations and functions to any depth, are read
as they were written where each name ends before what stands behind it. -/
theorem selectorReread {s : Component} (chain : ChainIn endedName [] s) :
    readSelector (tokens s.text) = pure (some s) := by
  obtain ⟨p,reads⟩ := chainRead chain
  have spelled := chainTokens chain (by intro b mem; cases mem)
  rw [append_nil,show tokens [] = [] from rfl,append_nil] at spelled
  rw [spelled]
  exact readToSelector reads

def typeOnly (name : Bytes) : Component := .compound [.element name [] false]

def nestedSelector : Component :=
  .complex 43
    (.compound [.element (ascii "a") (ascii "svg") true,.id (ascii "b"),
      .negation (.list [.complex 62 (.compound [.className (ascii "c")]) (typeOnly (ascii "d")),
        .compound [.selectorCall (ascii "IS") (.complex 126 (typeOnly (ascii "u")) (typeOnly universal))]])])
    (.compound [.element universal [] false,.pseudoElement (ascii "after")])

def rangeSelector : Component := .complex 43 (typeOnly (ascii "u")) (typeOnly (ascii "a"))

def escapeSelector : Component := .complex 32 (.compound [.className (ascii "\\61")]) (typeOnly (ascii "b"))

theorem typeAlone {rule name after} (type : TypeName rule name after) :
    CompoundIn rule after [.element name [] false] := .element ⟨rfl,type⟩ .nil

theorem nestedSelectorReread :
    (ChainIn endedName [] nestedSelector ∧ readSelector (tokens nestedSelector.text) = pure (some nestedSelector)) ∧
    (ChainIn loneName [] rangeSelector ∧ (readSelector (tokens rangeSelector.text)).value = none) ∧
    (ChainIn loneName [] escapeSelector ∧ (readSelector (tokens escapeSelector.text)).value =
      some (.compound [.className (ascii "\\61 b")])) := by
  have nested : ChainIn endedName [] nestedSelector := by
    refine .complex (by decide) (.compound (.element ?_ (.cons (.id ?_) (.cons (.negation (.list (.cons
      (.complex (by decide) (.compound (.conditions (.className ?_) .nil)) (typeAlone (Or.inr ?_)))
      (.last (.compound (.conditions (.selectorCall ?_ (by decide) (.single
        (.complex (by decide) (.compound (typeAlone (Or.inr ?_))) (typeAlone (Or.inl rfl))))) .nil)))))) .nil))))
      (.element ⟨rfl,Or.inl rfl⟩ (.cons (.pseudoElement ?_) .nil))
    · exact ⟨Or.inr (Or.inr ⟨by decide,by decide⟩),Or.inr ⟨by decide,by decide⟩⟩
    all_goals exact ⟨by decide,by decide⟩
  refine ⟨⟨nested,selectorReread nested⟩,⟨?_,?_⟩,?_,?_⟩
  · exact .complex (by decide) (.compound (typeAlone (Or.inr ⟨by decide,by decide⟩))) (typeAlone (Or.inr ⟨by decide,by decide⟩))
  · with_unfolding_all rfl
  · exact .complex (by decide) (.compound (.conditions (.className ⟨by decide,by decide⟩) .nil)) (typeAlone (Or.inr ⟨by decide,by decide⟩))
  · with_unfolding_all rfl

end Cascade
