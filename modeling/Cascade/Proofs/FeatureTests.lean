import Cascade.Proofs.MediaGrammar
import Cascade.Proofs.QueryText

/-! Feature queries by their grammar, and what the reader takes them for. A word that negates is kept until a
parenthesis opens, so it is lost on a function. -/
namespace Cascade
open List Component
open Token (colon isBlank)

variable {t : FeatureTest} {ts : List Token}

structure Answers where
  declared : Declaration → Bool
  called : Bytes → Bool

mutual

def Component.comesTo (answers : Answers) : Component → Bool
  | .declaration d => answers.declared d
  | .ident text => answers.called text
  | .condition inner negated => inner.comesTo answers != negated
  | .conditions word members => joinedTruth word (outcomes answers members)
  | _ => false

def Component.outcomes (answers : Answers) : List Component → List Bool
  | [] => []
  | c :: cs => c.comesTo answers :: outcomes answers cs

end

theorem outcomesMap (answers cs) : outcomes answers cs = cs.map (comesTo answers) := by
  induction cs with
  | nil => rfl
  | cons c cs ih => rw [outcomes,ih]; rfl

inductive FeatureTest where
  | declared (name : Token) (value : List Token)
  | called (opening : Token) (arguments : List Token)
  | nested (inner : FeatureTest)
  | negated (inner : FeatureTest)
  | joined (word : Bytes) (members : List FeatureTest)

namespace FeatureTest

def isCall : FeatureTest → Bool
  | called .. => true
  | _ => false

def isNegated : FeatureTest → Bool
  | negated _ => true
  | _ => false

def startsCall : FeatureTest → Bool
  | called .. => true
  | joined _ (first :: _) => first.isCall
  | _ => false

def asksCall : FeatureTest → Bool
  | negated inner => inner.isCall
  | t => t.isCall

mutual

def holds (answers : Answers) : FeatureTest → Bool
  | declared name value => answers.declared (readDeclaration name.text value)
  | called opening arguments => answers.called (tokensText (opening :: (arguments ++ [rightParen])))
  | nested inner => inner.holds answers
  | negated inner => !inner.holds answers
  | joined word members => joinedTruth word (truths answers members)

def truths (answers : Answers) : List FeatureTest → List Bool
  | [] => []
  | t :: ts => t.holds answers :: truths answers ts

end

mutual

def taken (answers : Answers) : FeatureTest → Bool
  | declared name value => answers.declared (readDeclaration name.text value)
  | called opening arguments => answers.called (tokensText (opening :: (arguments ++ [rightParen])))
  | nested inner => inner.taken answers
  | negated inner => inner.taken answers != !inner.isCall
  | joined word members => joinedTruth word (takenAll answers false members)

/- Members in a row, the first behind a negation that is still pending or not: it waits for one
that is no function. -/
def takenAll (answers : Answers) (pending : Bool) : List FeatureTest → List Bool
  | [] => []
  | t :: ts =>
    (t.taken answers != (pending && !t.isNegated && !t.asksCall)) ::
      takenAll answers ((pending || t.isNegated) && t.asksCall) ts

end

mutual

/- Queries that the reader knows: no custom property and no property named like the word that
negates, and no parentheses around a function that stands first in them. -/
@[simp]
def isReadable : FeatureTest → Bool
  | declared name _ => name.kind = .ident && !isKeyword "not" name.text
  | called .. => true
  | nested inner => !inner.startsCall && inner.isReadable
  | negated inner => inner.isReadable
  | joined _ members => areReadable members

@[simp]
def areReadable : List FeatureTest → Bool
  | [] => true
  | t :: ts => t.isReadable && areReadable ts

end

mutual

def negatesCall : FeatureTest → Bool
  | declared .. | called .. => false
  | nested inner => inner.negatesCall
  | negated inner => inner.isCall || inner.negatesCall
  | joined _ members => anyNegatesCall members

def anyNegatesCall : List FeatureTest → Bool
  | [] => false
  | t :: ts => t.negatesCall || anyNegatesCall ts

end

end FeatureTest

section
variable (answers : Answers)

open FeatureTest

theorem asksPlain (plain : t.negatesCall = false) : (t.isNegated && t.asksCall) = false := by
  cases t with
  | negated inner =>
    simp only [negatesCall,Bool.or_eq_false_iff] at plain
    exact plain.1
  | _ => rfl

mutual

theorem takenHolds : ∀ t : FeatureTest, t.negatesCall = false → t.taken answers = t.holds answers
  | declared _ _,_ => rfl
  | called _ _,_ => rfl
  | nested inner,plain => by
    rw [taken,FeatureTest.holds,takenHolds inner (by simpa [negatesCall] using plain)]
  | negated inner,plain => by
    simp only [negatesCall,Bool.or_eq_false_iff] at plain
    rw [taken,FeatureTest.holds,takenHolds inner plain.2,plain.1]
    simp
  | joined word members,plain => by
    rw [taken,FeatureTest.holds,takenTruths members (by simpa [negatesCall] using plain)]

theorem takenTruths : ∀ ts : List FeatureTest, anyNegatesCall ts = false → takenAll answers false ts = truths answers ts
  | [],_ => rfl
  | t :: ts,plain => by
    simp only [anyNegatesCall,Bool.or_eq_false_iff] at plain
    rw [takenAll,truths,takenHolds t plain.1,Bool.false_or,asksPlain plain.1,takenTruths ts plain.2]
    simp

end

theorem negatedCall (negated : (t.isNegated && t.asksCall)) : t.taken answers = !t.holds answers := by
  cases t with
  | negated inner =>
    have call : inner.isCall := negated
    cases inner with
    | called => simp [taken,FeatureTest.holds,isCall]
    | _ => cases call
  | _ => cases negated

end

/- The parts of a query: what may be negated, what may be joined, what is joined by a word, and
what may stand in parentheses. -/
inductive Role where
  | operand
  | member
  | chain (word : Bytes)
  | whole

inductive Spells : Role → FeatureTest → List Token → Prop where
  | declared {name : Token} {value before between : List Token} (kind : name.kind = .ident ∨ name.kind = .customName)
      (blanks : Blanks before) (blanks' : Blanks between) (balanced : Balanced value) :
      Spells .operand (.declared name value)
        (leftParen :: (before ++ name :: (between ++ Token.colon :: value) ++ [rightParen]))
  | called {opening : Token} {arguments : List Token} (kind : opening.kind = .function) (balanced : Balanced arguments) :
      Spells .operand (.called opening arguments) (opening :: (arguments ++ [rightParen]))
  | nested {inner : FeatureTest} {ts before behind : List Token} (blanks : Blanks before) (blanks' : Blanks behind)
      (spelled : Spells .whole inner ts) :
      Spells .operand (.nested inner) (leftParen :: (before ++ ts ++ behind ++ [rightParen]))
  | plain {t : FeatureTest} {ts : List Token} (spelled : Spells .operand t ts) : Spells .member t ts
  | negated {t : FeatureTest} {ts between : List Token} {word : Token} (kind : word.kind = .ident)
      (is : isKeyword "not" word.text = true) (blanks : Blanks between) (spelled : Spells .operand t ts) :
      Spells .member (.negated t) (word :: (between ++ ts))
  | one {t : FeatureTest} {ts : List Token} {word : Bytes} (spelled : Spells .member t ts) :
      Spells (.chain word) (.joined word [t]) ts
  | more {t : FeatureTest} {members : List FeatureTest} {ts us before behind : List Token} {joint : Token} {word : Bytes}
      (joins : isJoint word) (kind : joint.kind = .ident) (is : sameLetters joint.text word = true)
      (blanks : Blanks before) (blanks' : Blanks behind) (first : Spells .member t ts)
      (rest : Spells (.chain word) (.joined word members) us) :
      Spells (.chain word) (.joined word (t :: members)) (ts ++ before ++ joint :: (behind ++ us))
  | single {t : FeatureTest} {ts : List Token} (spelled : Spells .member t ts) : Spells .whole t ts
  | joined {members : List FeatureTest} {ts : List Token} {word : Bytes} (several : 1 < members.length)
      (spelled : Spells (.chain word) (.joined word members) ts) : Spells .whole (.joined word members) ts

structure Shaped (t : FeatureTest) (ts : List Token) : Prop where
  ends : ∃ first inside, ts = first :: (inside ++ [rightParen]) ∧ first.isBlank = false ∧
    (t.startsCall = true ∧ first.kind = .function ∨ t.startsCall = false ∧
      (first.kind = .leftParen ∨ first.kind = .ident ∧ isKeyword "not" first.text = true))
  balanced : Balanced ts

theorem plainBalanced {t} (kind : t.kind = .ident ∨ t.kind = .customName ∨ t.kind = .colon)
    (balanced : Balanced ts) : Balanced (t :: ts) := by
  have plain : t.opens = false ∧ t.closes = false := by
    rcases kind with kind | kind | kind <;> simp [Token.opens,Token.closes,kind]
  have inner : levelOver (fun _ => false) 0 ts = some 0 := balanced
  rw [Balanced,levelOver,plain.1,plain.2]
  simpa using inner

theorem declaredBalanced {name value before between}
    (kind : name.kind = .ident ∨ name.kind = .customName) (blanks : Blanks before) (blanks' : Blanks between)
    (balanced : Balanced value) : Balanced (before ++ name :: (between ++ colon :: value)) := by
  have valued : Balanced (colon :: value) := plainBalanced (.inr (.inr rfl)) balanced
  have named := plainBalanced (kind.imp id Or.inl) (levelJoin (blanksBalanced blanks') valued)
  exact levelJoin (blanksBalanced blanks) named

theorem memberStarts (spelled : Spells .member t ts) : t.startsCall = t.isCall := by
  cases spelled with
  | negated => rfl
  | plain spelled => cases spelled <;> rfl

theorem spelledShaped {role} (spelled : Spells role t ts) : Shaped t ts := by
  induction spelled with
  | @declared name value before between kind blanks blanks' balanced =>
    have inside := declaredBalanced kind blanks blanks' balanced
    exact ⟨⟨_,_,rfl,rfl,.inr ⟨rfl,.inl rfl⟩⟩,levelBlock rfl rfl inside⟩
  | @called opening arguments kind balanced =>
    refine ⟨⟨_,_,rfl,by simp [isBlank,kind],.inl ⟨rfl,kind⟩⟩,?_⟩
    exact levelBlock (by simp [Token.opens,kind]) rfl balanced
  | nested blanks blanks' _ ih =>
    have inside := levelJoin (levelJoin (blanksBalanced blanks) ih.balanced) (blanksBalanced blanks')
    exact ⟨⟨_,_,rfl,rfl,.inr ⟨rfl,.inl rfl⟩⟩,levelBlock rfl rfl inside⟩
  | plain _ ih | single _ ih | joined _ _ ih => exact ih
  | @negated t ts between word kind is blanks spelled ih =>
    obtain ⟨first,inside,rfl,_⟩ := ih.ends
    refine ⟨⟨word,between ++ first :: inside,by simp,by simp [isBlank,kind],.inr ⟨rfl,.inr ⟨kind,is⟩⟩⟩,?_⟩
    exact plainBalanced (.inl kind) (levelJoin (blanksBalanced blanks) ih.balanced)
  | one spelled ih =>
    refine ⟨?_,ih.balanced⟩
    have ends := ih.ends
    rw [memberStarts spelled] at ends
    exact ends
  | @more t members ts us before behind joint word joins kind is blanks blanks' first rest ih ih' =>
    obtain ⟨a,inside,rfl,solid,starts⟩ := ih.ends
    obtain ⟨b,inside',rfl,_⟩ := ih'.ends
    rw [memberStarts first] at starts
    refine ⟨⟨a,inside ++ [rightParen] ++ before ++ joint :: (behind ++ b :: inside'),by simp,solid,starts⟩,?_⟩
    exact levelJoin (levelJoin ih.balanced (blanksBalanced blanks))
      (plainBalanced (.inl kind) (levelJoin (blanksBalanced blanks') ih'.balanced))

section
variable {ts blanks : List Token} (blank : Blanks blanks)
include blank

theorem readBlanks (j) : readConditionFrom j (blanks ++ ts) = readConditionFrom j ts := by
  induction blanks with
  | nil => rfl
  | cons t blanks ih =>
    obtain ⟨first,rest⟩ := forall_mem_cons.mp blank
    exact (readBlank first).trans (ih rest)

end

section
variable {j : Joined} {ts rest : List Token}

theorem readNotWord {t} (kind : t.kind = .ident) (is : isKeyword "not" t.text) :
    readConditionFrom j (t :: rest) = readConditionFrom { j with negate := true } rest := by
  have goes : j.word (lower t.text) = some { j with negate := true } := by
    rw [keywordLower (by decide) is,Joined.word,if_pos rfl]
  rw [readConditionFrom]
  simp [isBlank,kind,goes]

theorem readJoining {t word} (joint : isJoint word) (kind : t.kind = .ident)
    (is : sameLetters t.text word) (fits : j.combinator = [] ∨ j.combinator = word) :
    readConditionFrom j (t :: rest) = readConditionFrom { j with combinator := word } rest := by
  have small : lower t.text = word ∧ lower word = word := by
    rcases joint with rfl | rfl <;> exact ⟨letterCase is (by decide) (by decide),by decide⟩
  have same : readConditionFrom j (⟨.ident,word⟩ :: rest) = readConditionFrom { j with combinator := word } rest :=
    readJoint joint fits
  rw [readConditionFrom] at same ⊢
  simpa [isBlank,kind,small] using same

theorem readUnknown (balanced : Balanced ts) (inside : readInParens ts = none) :
    readConditionFrom j (leftParen :: (ts ++ rightParen :: rest)) = none := by
  rw [readConditionFrom]
  simp [leftParen,isBlank,untilCloseParen balanced,inside]

theorem readCalled {opening} (kind : opening.kind = .function) (balanced : Balanced ts) :
    readConditionFrom j (opening :: (ts ++ rightParen :: rest)) = readConditionFrom
      { j with members := j.members ++ [.ident (tokensText (opening :: (ts ++ [rightParen])))] } rest := by
  have cut := untilCloseParen balanced rest
  have text : enclosedText opening (ts ++ rightParen :: rest) = tokensText (opening :: (ts ++ [rightParen])) := by
    simp [enclosedText,cut,tokensText]
  rw [readConditionFrom]
  simp [isBlank,kind,cut,text]

end

structure OperandTaken (t : FeatureTest) (ts : List Token) : Prop where
  refused : t.isReadable = false → ∀ j rest, readConditionFrom j (ts ++ rest) = none
  read : t.isReadable = true → ∃ c : Component, (∀ answers, c.comesTo answers = t.taken answers) ∧
    ∀ j rest, readConditionFrom j (ts ++ rest) = readConditionFrom (if t.isCall then
      { j with members := j.members ++ [c] } else
      { j with members := j.members ++ [if j.negate then .condition c true else c],negate := false }) rest

structure MemberTaken (t : FeatureTest) (ts : List Token) : Prop where
  refused : t.isReadable = false → ∀ j rest, readConditionFrom j (ts ++ rest) = none
  read : t.isReadable = true → ∀ j : Joined, ∃ c : Component,
    (∀ answers, c.comesTo answers = (t.taken answers != (j.negate && !t.isNegated && !t.asksCall))) ∧
    ∀ rest, readConditionFrom j (ts ++ rest) = readConditionFrom
      { j with members := j.members ++ [c],negate := (j.negate || t.isNegated) && t.asksCall } rest

structure ChainTaken (word : Bytes) (members : List FeatureTest) (ts : List Token) : Prop where
  refused : FeatureTest.areReadable members = false → ∀ j : Joined, (j.combinator = [] ∨ j.combinator = word) →
    ∀ rest, readConditionFrom j (ts ++ rest) = none
  read : FeatureTest.areReadable members = true → ∀ j : Joined, (j.combinator = [] ∨ j.combinator = word) →
    ∃ (cs : List Component) (pending : Bool),
      (∀ answers, outcomes answers cs = FeatureTest.takenAll answers j.negate members) ∧
      ∀ rest, readConditionFrom j (ts ++ rest) = readConditionFrom
        ⟨j.members ++ cs,if 1 < members.length then word else j.combinator,pending⟩ rest

structure WholeTaken (t : FeatureTest) (ts : List Token) : Prop where
  refused : t.isReadable = false → ∀ behind, Blanks behind → readConditionFrom {} (ts ++ behind) = none
  read : t.isReadable = true → ∀ behind, Blanks behind →
    ∃ c, readConditionFrom {} (ts ++ behind) = some c ∧ ∀ answers, c.comesTo answers = t.taken answers

theorem takenLength (answers pending members) :
    (FeatureTest.takenAll answers pending members).length = members.length := by
  induction members generalizing pending with
  | nil => rfl
  | cons t members ih => rw [FeatureTest.takenAll,length_cons,ih,length_cons]

section
variable {name : Token} {value before between : List Token} (blanks : Blanks before) (blanks' : Blanks between)
include blanks blanks'

theorem readInsideDeclared (kind : name.kind = .ident) (other : isKeyword "not" name.text = false) :
    readInParens (before ++ name :: (between ++ colon :: value)) =
      some (.declaration (readDeclaration name.text value)) := by
  have solid : name.isBlank = false := by simp [isBlank,kind]
  have rest : trimTokens (trimEnd (between ++ colon :: value)) = colon :: trimEnd value := by
    rw [trimTokensEnd,trimBefore blanks',trimTokensSolid rfl]
  have bare : sameLetters name.text (ascii "not") = false := other
  rw [readInParens,trimBefore blanks,trimTokensSolid solid]
  simp only [kind,bare,rest,← readDeclarationEnd name.text value]
  rfl

theorem readInsideUnknown (kind : name.kind = .ident ∨ name.kind = .customName)
    (unknown : (FeatureTest.declared name value).isReadable = false) :
    readInParens (before ++ name :: (between ++ colon :: value)) = none := by
  have solid : name.isBlank = false := by rcases kind with kind | kind <;> simp [isBlank,kind]
  rw [readInParens,trimBefore blanks,trimTokensSolid solid]
  rcases kind with kind | kind
  · have is : isKeyword "not" name.text := by simpa [kind] using unknown
    have same : sameLetters name.text (ascii "not") := is
    rw [trimEndSolid rfl]
    simp only [kind,same]
    rw [readNotWord kind is,readBlanks blanks',readConditionFrom]
    rfl
  · simp [kind]

end

theorem declaredTaken {name value before between}
    (kind : name.kind = .ident ∨ name.kind = .customName) (blanks : Blanks before) (blanks' : Blanks between)
    (balanced : Balanced (before ++ name :: (between ++ colon :: value))) :
    OperandTaken (.declared name value)
      (leftParen :: (before ++ name :: (between ++ colon :: value) ++ [rightParen])) := by
  refine ⟨fun unknown j rest => ?_,fun known => ?_⟩
  · rw [cons_append,append_assoc]
    exact readUnknown balanced (readInsideUnknown blanks blanks' kind unknown)
  · simp only [FeatureTest.isReadable,Bool.and_eq_true,decide_eq_true_eq,Bool.not_eq_true'] at known
    refine ⟨.declaration (readDeclaration name.text value),fun answers => rfl,fun j rest => ?_⟩
    rw [cons_append,append_assoc]
    exact readParens balanced (readInsideDeclared blanks blanks' known.1 known.2)

theorem calledTaken {opening arguments} (kind : opening.kind = .function)
    (balanced : Balanced arguments) : OperandTaken (.called opening arguments) (opening :: (arguments ++ [rightParen])) := by
  refine ⟨fun unknown => absurd unknown (by simp [FeatureTest.isReadable]),fun _ => ?_⟩
  refine ⟨.ident (tokensText (opening :: (arguments ++ [rightParen]))),fun answers => rfl,fun j rest => ?_⟩
  rw [cons_append,append_assoc]
  exact readCalled kind balanced

section
variable {t : FeatureTest} {ts before behind : List Token} (shaped : Shaped t ts) (blanks : Blanks before)
  (blanks' : Blanks behind)
include shaped blanks blanks'

theorem readInsideWhole : readInParens (before ++ ts ++ behind) =
    if t.startsCall then none else readConditionFrom {} ts := by
  obtain ⟨first,inside,rfl,solid,starts⟩ := shaped.ends
  have trimmed : trimTokens (before ++ first :: (inside ++ [rightParen]) ++ behind) = first :: (inside ++ [rightParen]) := by
    rw [append_assoc,trimBefore blanks,cons_append,trimTokensSolid solid,trimBehind blanks',trimEndSolid rfl]
    rfl
  rw [readInParens,trimmed]
  rcases starts with ⟨call,kind⟩ | ⟨call,kind⟩
  · simp [call,kind]
  · have enters : first.kind = .leftParen ∨ first.kind = .ident ∧ sameLetters first.text (ascii "not") := kind
    simp only [call,if_pos enters]
    rfl

theorem nestedTaken (taken : WholeTaken t ts) :
    OperandTaken (.nested t) (leftParen :: (before ++ ts ++ behind ++ [rightParen])) := by
  have balanced : Balanced (before ++ ts ++ behind) :=
    levelJoin (levelJoin (blanksBalanced blanks) shaped.balanced) (blanksBalanced blanks')
  have inside := readInsideWhole shaped blanks blanks'
  have alone : Blanks [] := fun u mem => absurd mem not_mem_nil
  refine ⟨fun unknown j rest => ?_,fun known => ?_⟩
  · rw [cons_append,append_assoc]
    refine readUnknown balanced (inside.trans ?_)
    cases call : t.startsCall with
    | true => rfl
    | false =>
      have inner : t.isReadable = false := by simpa [call] using unknown
      simpa using taken.refused inner [] alone
  · simp only [FeatureTest.isReadable,Bool.and_eq_true,Bool.not_eq_true'] at known
    obtain ⟨c,read,same⟩ := taken.read known.2 [] alone
    rw [append_nil] at read
    rw [known.1,read] at inside
    refine ⟨c,fun answers => same answers,fun j rest => ?_⟩
    rw [cons_append,append_assoc]
    exact readParens balanced inside

end

theorem plainTaken (plain : t.isNegated = false) (taken : OperandTaken t ts) : MemberTaken t ts := by
  have asks : t.asksCall = t.isCall := by cases t <;> first | rfl | cases plain
  refine ⟨taken.refused,fun known j => ?_⟩
  obtain ⟨c,same,read⟩ := taken.read known
  refine ⟨if !t.isCall && j.negate then .condition c true else c,fun answers => ?_,fun rest => ?_⟩
  · rw [asks,plain,← same]
    cases t.isCall <;> cases j.negate <;> simp [comesTo]
  · rw [read,asks,plain]
    cases t.isCall <;> simp

theorem negatedTaken {between word} (kind : word.kind = .ident)
    (is : isKeyword "not" word.text) (blanks : Blanks between) (taken : OperandTaken t ts) :
    MemberTaken (.negated t) (word :: (between ++ ts)) := by
  have enters : ∀ (j : Joined) rest, readConditionFrom j (word :: (between ++ ts) ++ rest) =
      readConditionFrom { j with negate := true } (ts ++ rest) := by
    intro j rest
    rw [cons_append,append_assoc,readNotWord kind is,readBlanks blanks]
  refine ⟨fun unknown j rest => (enters j rest).trans (taken.refused unknown _ rest),fun known j => ?_⟩
  obtain ⟨c,same,read⟩ := taken.read known
  refine ⟨if t.isCall then c else .condition c true,fun answers => ?_,fun rest => ?_⟩
  · rw [FeatureTest.taken,← same]
    cases t.isCall <;> simp [comesTo,FeatureTest.isNegated]
  · rw [enters,read,FeatureTest.asksCall,FeatureTest.isNegated]
    cases t.isCall <;> simp

theorem oneTaken (word) (taken : MemberTaken t ts) : ChainTaken word [t] ts := by
  have alone : FeatureTest.areReadable [t] = t.isReadable := by simp [FeatureTest.areReadable]
  refine ⟨fun unknown j _ rest => taken.refused (alone ▸ unknown) j rest,fun known j _ => ?_⟩
  obtain ⟨c,same,read⟩ := taken.read (alone ▸ known) j
  exact ⟨[c],_,fun answers => congrArg (fun b => [b]) (same answers),read⟩

section
variable {t : FeatureTest} {members : List FeatureTest} {ts us before behind : List Token} {joint : Token} {word : Bytes}

theorem moreTaken (joins : isJoint word) (kind : joint.kind = .ident) (is : sameLetters joint.text word)
    (blanks : Blanks before) (blanks' : Blanks behind) (several : members ≠ []) (first : MemberTaken t ts)
    (others : ChainTaken word members us) :
    ChainTaken word (t :: members) (ts ++ before ++ joint :: (behind ++ us)) := by
  have goes : ∀ (j : Joined) rest, (j.combinator = [] ∨ j.combinator = word) →
      readConditionFrom j (before ++ joint :: (behind ++ us) ++ rest) =
        readConditionFrom { j with combinator := word } (us ++ rest) := by
    intro j rest fits
    rw [append_assoc,readBlanks blanks,cons_append,append_assoc,readJoining joins kind is fits,
      readBlanks blanks']
  have parts : ∀ rest, ts ++ before ++ joint :: (behind ++ us) ++ rest =
      ts ++ (before ++ joint :: (behind ++ us) ++ rest) := by simp
  refine ⟨fun unknown j fits rest => ?_,fun known j fits => ?_⟩
  · rw [parts]
    cases here : t.isReadable with
    | false => exact first.refused here j _
    | true =>
      obtain ⟨c,_,read⟩ := first.read here j
      rw [read,goes ⟨j.members ++ [c],j.combinator,_⟩ rest fits]
      refine others.refused ?_ _ (.inr rfl) rest
      simpa [here] using unknown
  · rw [FeatureTest.areReadable,Bool.and_eq_true] at known
    obtain ⟨c,same,read⟩ := first.read known.1 j
    obtain ⟨cs,pending,alike,further⟩ := others.read known.2
      ⟨j.members ++ [c],word,(j.negate || t.isNegated) && t.asksCall⟩ (.inr rfl)
    refine ⟨c :: cs,pending,fun answers => ?_,fun rest => ?_⟩
    · rw [outcomes,FeatureTest.takenAll,same,alike]
    · have long : 1 < (t :: members).length := by
        have := length_pos_iff.mpr several
        rw [length_cons]
        omega
      rw [parts,read,goes ⟨j.members ++ [c],j.combinator,_⟩ rest fits,further,if_pos long,ite_self,append_assoc,
        singleton_append]

end

theorem chainSome {role} (spelled : Spells role t ts) {word members}
    (chain : role = .chain word) (same : t = .joined word members) : members ≠ [] := by
  cases spelled <;> cases chain <;> cases same <;> simp

theorem readResult {behind} (blanks : Blanks behind) (j) : readConditionFrom j behind = j.result := by
  rw [← append_nil behind,readBlanks blanks,readConditionFrom]

theorem resultOne (c word pending) :
    ∃ d, Joined.result ⟨[c],word,pending⟩ = some d ∧ ∀ answers, d.comesTo answers = c.comesTo answers := by
  cases c with
  | declaration d =>
    cases d with
    | property => exact ⟨_,rfl,fun answers => Bool.xor_false _⟩
    | filter => exact ⟨_,rfl,fun answers => rfl⟩
  | _ => exact ⟨_,rfl,fun answers => rfl⟩

theorem singleTaken (taken : MemberTaken t ts) : WholeTaken t ts := by
  refine ⟨fun unknown behind _ => taken.refused unknown {} behind,fun known behind blanks => ?_⟩
  obtain ⟨c,same,read⟩ := taken.read known {}
  obtain ⟨d,result,alike⟩ := resultOne c [] ((false || t.isNegated) && t.asksCall)
  refine ⟨d,(read behind).trans ((readResult blanks _).trans result),fun answers => ?_⟩
  rw [alike,same]
  simp

theorem joinedTaken {word members} (several : 1 < members.length)
    (taken : ChainTaken word members ts) : WholeTaken (.joined word members) ts := by
  refine ⟨fun unknown behind _ => taken.refused unknown {} (.inl rfl) behind,fun known behind blanks => ?_⟩
  obtain ⟨cs,pending,same,read⟩ := taken.read known {} (.inl rfl)
  have long : cs.length = members.length := by
    have count := congrArg List.length (same ⟨fun _ => true,fun _ => true⟩)
    rwa [outcomesMap,length_map,takenLength] at count
  refine ⟨.conditions word cs,(read behind).trans ((readResult blanks _).trans ?_),fun answers => ?_⟩
  · rw [if_pos several]
    rw [← long] at several
    cases cs with
    | nil => cases several
    | cons c cs =>
      cases cs with
      | nil => exact absurd several (Nat.lt_irrefl 1)
      | cons d cs => simp [Joined.result]
  · exact congrArg (joinedTruth word) (same answers)

def RoleTaken : Role → FeatureTest → List Token → Prop
  | .operand,t,ts => OperandTaken t ts
  | .member,t,ts => MemberTaken t ts
  | .chain word,t,ts => ∀ members, t = .joined word members → ChainTaken word members ts
  | .whole,t,ts => WholeTaken t ts

theorem spelledTaken {role} (spelled : Spells role t ts) : RoleTaken role t ts := by
  induction spelled with
  | declared kind blanks blanks' balanced =>
    exact declaredTaken kind blanks blanks' (declaredBalanced kind blanks blanks' balanced)
  | called kind balanced => exact calledTaken kind balanced
  | nested blanks blanks' spelled ih => exact nestedTaken (spelledShaped spelled) blanks blanks' ih
  | plain spelled ih => exact plainTaken (by cases spelled <;> rfl) ih
  | negated kind is blanks _ ih => exact negatedTaken kind is blanks ih
  | one _ ih =>
    rintro members ⟨⟩
    exact oneTaken _ ih
  | more joins kind is blanks blanks' _ rest ih ih' =>
    rintro members ⟨⟩
    exact moreTaken joins kind is blanks blanks' (chainSome rest rfl rfl) ih (ih' _ rfl)
  | single _ ih => exact singleTaken ih
  | joined several _ ih => exact joinedTaken several (ih _ rfl)

/- A feature query of the grammar is read if it is readable, and comes to what is asked if it negates
no function. If it is a function negated, it comes to the opposite. -/
theorem featureQueryTaken {t : FeatureTest} {ts before behind : List Token} (spelled : Spells .whole t ts)
    (blanks : Blanks before) (blanks' : Blanks behind) :
    (readCondition (before ++ ts ++ behind)).isSome = t.isReadable ∧
      ∀ c, readCondition (before ++ ts ++ behind) = some c → ∀ answers,
        c.comesTo answers = t.taken answers ∧
        (t.negatesCall = false → c.comesTo answers = t.holds answers) ∧
        ((t.isNegated && t.asksCall) = true → c.comesTo answers = !t.holds answers) := by
  have taken : WholeTaken t ts := spelledTaken spelled
  have start : readCondition (before ++ ts ++ behind) = readConditionFrom {} (ts ++ behind) := by
    rw [readCondition,append_assoc,readBlanks blanks]
  rw [start]
  cases known : t.isReadable with
  | false =>
    rw [taken.refused known behind blanks']
    exact ⟨rfl,fun c found => absurd found (by simp)⟩
  | true =>
    obtain ⟨c,read,same⟩ := taken.read known behind blanks'
    rw [read]
    refine ⟨rfl,?_⟩
    rintro _ ⟨⟩ answers
    refine ⟨same answers,fun plain => (same answers).trans (takenHolds answers t plain),fun negated => ?_⟩
    rw [same,negatedCall answers negated]

def selectorQuery : List Token := [⟨.function,ascii "selector("⟩,⟨.ident,ascii "a"⟩,rightParen]

def customQuery : List Token := [leftParen,⟨.customName,ascii "--x"⟩,Token.colon,⟨.ident,ascii "y"⟩,rightParen]

def negation : List Token := [⟨.ident,ascii "not"⟩,Token.space]

theorem selectorQueryInverted :
    (∃ c, readCondition (negation ++ selectorQuery) = some c ∧
      ∀ answers, c.comesTo answers = answers.called (ascii "selector(a)")) ∧
    readCondition customQuery = none := by
  have bare : Blanks [] := fun t mem => absurd mem not_mem_nil
  have blank : Blanks [Token.space] := fun t mem => by rw [mem_singleton.mp mem]; rfl
  have negated : Spells .whole (.negated (.called _ _)) (negation ++ selectorQuery) :=
    .single (.negated rfl (by decide) blank (.called rfl (show Balanced [⟨.ident,ascii "a"⟩] from rfl)))
  constructor
  · obtain ⟨read,same⟩ := featureQueryTaken negated bare bare
    obtain ⟨c,found⟩ := Option.isSome_iff_exists.mp read
    refine ⟨c,by simpa using found,fun answers => ?_⟩
    rw [(same c found answers).2.2 rfl]
    exact Bool.not_not _
  · with_unfolding_all rfl

end Cascade
