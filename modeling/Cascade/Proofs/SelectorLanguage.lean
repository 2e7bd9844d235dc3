import Cascade.Optimizer.Selectors
import Cascade.Selector.Reader
import Cascade.Proofs.Closed

/-! The language of selectors: compounds joined by combinators from left to right, with lists of
them in negations and in functions that take selectors. What each name is written before is
kept track of, since its token may go on into it. -/
namespace Cascade
open List Component

/- What a name has to be before some text: a word, or what stands behind a hash sign. -/
structure NameRule where
  word : Bytes → Bytes → Prop
  hash : Bytes → Bytes → Prop

def loneName : NameRule where
  word name _ := name ≠ [] ∧ identLength name = name.length
  hash name _ := name ≠ [] ∧ nameRun 0 name = name.length

def endedName : NameRule where
  word name after := EndsName name after ∧ startsRange name after = false
  hash name after := name ≠ [] ∧ nameRun 0 (name ++ after.take 1) = name.length

def TypeName (rule : NameRule) (name after : Bytes) : Prop := name = universal ∨ rule.word name after

def TypeIn (rule : NameRule) (after name ns : Bytes) : Bool → Prop
  | false => ns = [] ∧ TypeName rule name after
  | true => (ns = [] ∨ TypeName rule ns (124 :: (name ++ after))) ∧ TypeName rule name after

def combinatorBytes : Bytes := [32,62,43,126]

def conditionsText (cs : List Component) : Bytes := (texts cs).flatten

def selectorsText (ss : List Component) : Bytes := [44].intercalate (texts ss)

section
variable (rule : NameRule)

mutual

inductive ConditionIn : Bytes → Component → Prop where
  | className {after name : Bytes} (fits : rule.word name after) : ConditionIn after (.className name)
  | id {after name : Bytes} (fits : rule.hash name after) : ConditionIn after (.id name)
  | pseudoClass {after name : Bytes} (fits : rule.word name after) : ConditionIn after (.pseudoClass name)
  | pseudoElement {after name : Bytes} (fits : rule.word name after) : ConditionIn after (.pseudoElement name)
  | negation {after : Bytes} {s : Component} (inner : ArgumentIn (41 :: after) s) : ConditionIn after (.negation s)
  | selectorCall {after name : Bytes} {s : Component} (fits : rule.word name (40 :: (s.text ++ 41 :: after)))
      (takes : lower name ∈ selectorFunctions) (inner : ArgumentIn (41 :: after) s) :
      ConditionIn after (.selectorCall name s)

inductive ConditionsIn : Bytes → List Component → Prop where
  | nil {after : Bytes} : ConditionsIn after []
  | cons {after : Bytes} {c : Component} {cs : List Component} (first : ConditionIn (conditionsText cs ++ after) c)
      (rest : ConditionsIn after cs) : ConditionsIn after (c :: cs)

inductive CompoundIn : Bytes → List Component → Prop where
  | conditions {after : Bytes} {c : Component} {cs : List Component}
      (first : ConditionIn (conditionsText cs ++ after) c) (rest : ConditionsIn after cs) : CompoundIn after (c :: cs)
  | element {after name ns : Bytes} {hasNs : Bool} {cs : List Component}
      (type : TypeIn rule (conditionsText cs ++ after) name ns hasNs) (rest : ConditionsIn after cs) :
      CompoundIn after (.element name ns hasNs :: cs)

inductive ChainIn : Bytes → Component → Prop where
  | compound {after : Bytes} {cs : List Component} (last : CompoundIn after cs) : ChainIn after (.compound cs)
  | complex {after : Bytes} {kind : UInt8} {s : Component} {cs : List Component} (joins : kind ∈ combinatorBytes)
      (left : ChainIn (kind :: (conditionsText cs ++ after)) s) (last : CompoundIn after cs) :
      ChainIn after (.complex kind s (.compound cs))

inductive SelectorsIn : Bytes → List Component → Prop where
  | last {after : Bytes} {s : Component} (only : ChainIn after s) : SelectorsIn after [s]
  | cons {after : Bytes} {s t : Component} {ss : List Component}
      (first : ChainIn (44 :: (selectorsText (t :: ss) ++ after)) s) (rest : SelectorsIn after (t :: ss)) :
      SelectorsIn after (s :: t :: ss)

inductive ArgumentIn : Bytes → Component → Prop where
  | single {after : Bytes} {s : Component} (only : ChainIn after s) : ArgumentIn after s
  | list {after : Bytes} {s t : Component} {ss : List Component} (several : SelectorsIn after (s :: t :: ss)) :
      ArgumentIn after (.list (s :: t :: ss))

end

end

def typeToken (name : Bytes) : Token := if name = universal then ⟨.delim,name⟩ else ⟨.ident,name⟩

def combinatorToken (kind : UInt8) : Token := if kind = 32 then Token.space else ⟨.delim,[kind]⟩

mutual

def Component.spell : Component → List Token
  | .className name => [⟨.delim,[46]⟩,⟨.ident,name⟩]
  | .id name => [⟨.hash,35 :: name⟩]
  | .pseudoClass name => [Token.colon,⟨.ident,name⟩]
  | .pseudoElement name => [Token.colon,Token.colon,⟨.ident,name⟩]
  | .negation s => Token.colon :: ⟨.function,ascii "not("⟩ :: (s.spell ++ [rightParen])
  | .selectorCall name s => Token.colon :: ⟨.function,name ++ [40]⟩ :: (s.spell ++ [rightParen])
  | .element name ns hasNs =>
    if hasNs then (if ns = [] then [] else [typeToken ns]) ++ [⟨.delim,[124]⟩,typeToken name]
    else [typeToken name]
  | .compound cs => (spellAll cs).flatten
  | .complex kind l r => l.spell ++ combinatorToken kind :: r.spell
  | .list ss => [Token.comma].intercalate (spellAll ss)
  | _ => []

def Component.spellAll : List Component → List (List Token)
  | [] => []
  | c :: cs => c.spell :: spellAll cs

end

theorem spellAllMap (cs) : spellAll cs = cs.map spell := by
  induction cs with
  | nil => rfl
  | cons c cs ih => rw [spellAll,ih]; rfl

theorem typePlain (name) : (typeToken name).isPlain := by
  rw [typeToken]
  split <;> rfl

theorem combinatorPlain (kind) : (combinatorToken kind).isPlain := by
  rw [combinatorToken]
  split <;> rfl

theorem elementPart (name ns hasNs) : OnePart .comma (element name ns hasNs).spell := by
  rw [spell]
  split
  · refine levelJoin ?_ (partCons rfl (partCons (typePlain name) rfl))
    split
    · rfl
    · exact partCons (typePlain ns) rfl
  · exact partCons (typePlain name) rfl

mutual

theorem spellBalanced : ∀ c : Component, Balanced c.spell
  | .className _ | .id _ | .pseudoClass _ | .pseudoElement _ => rfl
  | .element name ns hasNs => levelBalanced (elementPart name ns hasNs)
  | .negation s => by
    rw [spell]
    exact levelJoin (show Balanced [Token.colon] from rfl) (levelBlock rfl rfl (spellBalanced s))
  | .selectorCall name s => by
    rw [spell]
    exact levelJoin (show Balanced [Token.colon] from rfl) (levelBlock rfl rfl (spellBalanced s))
  | .compound cs => levelFlatten (spellAllBalanced cs)
  | .complex kind l r => by
    have joint : Balanced [combinatorToken kind] := levelBalanced (partCons (combinatorPlain kind) rfl)
    exact levelJoin (spellBalanced l) (levelJoin joint (spellBalanced r))
  | .list ss => balancedIntercalate (spellAllBalanced ss)
  | .number _ | .dimension .. | .quoted _ | .url _ | .ident _ | .hexColor _ | .call .. | .sum .. | .product ..
  | .expression _ | .declaration _ | .attr .. | .pseudoCall .. | .nth .. | .linear .. | .multiple _
  | .conditions .. | .condition .. => rfl

theorem spellAllBalanced : ∀ cs : List Component, ∀ p ∈ spellAll cs, Balanced p
  | [] => forall_mem_nil _
  | c :: cs => forall_mem_cons.mpr ⟨spellBalanced c,spellAllBalanced cs⟩

end

structure Framed (ts : List Token) : Prop where
  first : ∃ t ∈ ts.head?, t.isBlank = false ∧ t.isOneOf [62,43,126] = false
  last : ∃ t ∈ ts.getLast?, t.isBlank = false

section
variable {ts us vs : List Token}

theorem framedSome (framed : Framed ts) : ts ≠ [] := by
  rintro rfl
  obtain ⟨_,mem,_⟩ := framed.first
  cases mem

theorem framedJoin (first : Framed ts) (last : Framed us) : Framed (ts ++ vs ++ us) := by
  obtain ⟨t,head,solid⟩ := first.first
  obtain ⟨u,tail,ends⟩ := last.last
  refine ⟨⟨t,?_,solid⟩,u,?_,ends⟩
  · rw [append_assoc,head?_append,Option.mem_def.mp head]
    rfl
  · rw [getLast?_append,Option.mem_def.mp tail]
    rfl

theorem framedTrim (framed : Framed ts) : trimTokens ts = ts := by
  obtain ⟨t,head,solid,_⟩ := framed.first
  obtain ⟨u,tail,ends⟩ := framed.last
  obtain ⟨us,rfl⟩ := getLast?_eq_some_iff.mp tail
  have begins : (us ++ [u]).dropWhile Token.isBlank = us ++ [u] := by
    obtain ⟨vs,same⟩ := head?_eq_some_iff.mp head
    simp [same,solid]
  rw [trimTokens,begins,trimEndConcat,ends]
  rfl

theorem framedFlatten {parts} (full : parts ≠ []) (each : ∀ p ∈ parts, Framed p) : Framed parts.flatten := by
  induction parts with
  | nil => exact absurd rfl full
  | cons p ps ih =>
    have first := each p mem_cons_self
    cases ps with
    | nil => simpa using first
    | cons q ps =>
      have both := @framedJoin p _ [] first (ih (cons_ne_nil q ps) fun r mem => each r (mem_cons_of_mem p mem))
      rwa [append_nil] at both

theorem framedIntercalate {parts} (full : parts ≠ []) (each : ∀ p ∈ parts, Framed p) :
    Framed ([Token.comma].intercalate parts) := by
  induction parts with
  | nil => exact absurd rfl full
  | cons p ps ih =>
    have first := each p mem_cons_self
    cases ps with
    | nil => rwa [intercalate_singleton]
    | cons q ps =>
      rw [intercalate_cons_cons]
      exact framedJoin first (ih (cons_ne_nil q ps) fun r mem => each r (mem_cons_of_mem p mem))

end

theorem typeFramed (name) : Framed [typeToken name] := by
  have solid : (typeToken name).isBlank = false ∧ (typeToken name).isOneOf [62,43,126] = false := by
    rw [typeToken]
    split
    · rename_i star
      subst star
      exact ⟨rfl,rfl⟩
    · exact ⟨rfl,rfl⟩
  exact ⟨⟨_,rfl,solid⟩,_,rfl,solid.1⟩

theorem barFramed : Framed [⟨.delim,[124]⟩] := ⟨⟨_,rfl,rfl,rfl⟩,_,rfl,rfl⟩

theorem elementFramed (name ns hasNs) : Framed (element name ns hasNs).spell := by
  rw [spell]
  split
  · split
    · exact @framedJoin _ _ [] barFramed (typeFramed name)
    · exact @framedJoin _ _ [⟨.delim,[124]⟩] (typeFramed ns) (typeFramed name)
  · exact typeFramed name

/- What is written in one piece: no combinator before it, no comma or blank at an end of it. -/
def Piece (ts : List Token) : Prop := OnePart .comma ts ∧ Framed ts

theorem piecesFlatten {parts} (full : parts ≠ []) (each : ∀ p ∈ parts, Piece p) : Piece parts.flatten :=
  ⟨levelFlatten fun p mem => (each p mem).1,framedFlatten full fun p mem => (each p mem).2⟩

section
variable {rule : NameRule} {after : Bytes}

theorem callPiece (name) (s : Component) : Piece (Token.colon :: ⟨.function,name⟩ :: (s.spell ++ [rightParen])) := by
  refine ⟨levelJoin (show OnePart .comma [Token.colon] from rfl) (levelBlock rfl rfl (spellBalanced s)),⟨_,rfl,rfl,rfl⟩,?_⟩
  refine ⟨rightParen,?_,rfl⟩
  rw [← cons_append,← cons_append,getLast?_append]
  rfl

theorem conditionPiece {c} (condition : ConditionIn rule after c) : Piece c.spell := by
  cases condition with
  | className | id | pseudoClass | pseudoElement =>
    rw [spell]
    exact ⟨rfl,⟨_,rfl,rfl,rfl⟩,_,rfl,rfl⟩
  | negation | selectorCall =>
    rw [spell]
    exact callPiece _ _

theorem conditionsPieces : ∀ {after : Bytes} {cs : List Component}, ConditionsIn rule after cs →
    ∀ p ∈ spellAll cs, Piece p
  | _,_,.nil => forall_mem_nil _
  | _,_,.cons first rest => forall_mem_cons.mpr ⟨conditionPiece first,conditionsPieces rest⟩

theorem compoundPiece {cs} (compound : CompoundIn rule after cs) : Piece (Component.compound cs).spell := by
  rw [spell]
  cases compound with
  | conditions first rest =>
    refine piecesFlatten (by simp [spellAll]) (forall_mem_cons.mpr ⟨?_,conditionsPieces rest⟩)
    exact conditionPiece first
  | element type rest =>
    refine piecesFlatten (by simp [spellAll]) (forall_mem_cons.mpr ⟨?_,conditionsPieces rest⟩)
    exact ⟨elementPart ..,elementFramed ..⟩

theorem chainPiece : ∀ {after : Bytes} {s : Component}, ChainIn rule after s → Piece s.spell
  | _,_,.compound last => compoundPiece last
  | _,_,.complex joins left last => by
    obtain ⟨leftPart,leftFramed⟩ := chainPiece left
    obtain ⟨part,framed⟩ := compoundPiece last
    refine ⟨levelJoin leftPart (partCons (combinatorPlain _) part),?_⟩
    rw [spell,append_cons]
    exact framedJoin leftFramed framed

theorem selectorsPieces : ∀ {after : Bytes} {ss : List Component}, SelectorsIn rule after ss →
    ∀ p ∈ spellAll ss, Piece p
  | _,_,.last only => forall_mem_singleton.mpr (chainPiece only)
  | _,_,.cons first rest => forall_mem_cons.mpr ⟨chainPiece first,selectorsPieces rest⟩

end

end Cascade
