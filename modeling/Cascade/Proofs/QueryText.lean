import Cascade.Condition.Reader
import Cascade.Proofs.Closed

/-! The conditions of feature queries as they are written and read again. -/
namespace Cascade
open List Component
open Component (text)
open Token (colon space isBlank)

variable {word s : Bytes} {c : Component}

def joinedTruth (word : Bytes) (verdicts : List Bool) : Bool :=
  if word = ascii "or" then verdicts.any id else verdicts.all id

mutual

def Component.isMet (answer : Declaration → Bool) : Component → Bool
  | .declaration d => answer d
  | .condition inner negated => inner.isMet answer != negated
  | .conditions word members => joinedTruth word (verdicts answer members)
  | _ => false

def Component.verdicts (answer : Declaration → Bool) : List Component → List Bool
  | [] => []
  | c :: cs => c.isMet answer :: verdicts answer cs

end

theorem verdictsMap (answer cs) : verdicts answer cs = cs.map (isMet answer) := by
  induction cs with
  | nil => rfl
  | cons c cs ih => rw [verdicts,ih]; rfl

def isJoint (word : Bytes) : Prop := word = ascii "and" ∨ word = ascii "or"

inductive Query (asks : Declaration → Prop) : Component → Prop where
  | declaration {name : Bytes} {value : List Term} {important slashNine : Bool}
      (asked : asks (.property name value important slashNine)) :
      Query asks (.declaration (.property name value important slashNine))
  | condition {inner : Component} (negated : Bool) (query : Query asks inner) :
      Query asks (.condition inner negated)
  | conditions {word : Bytes} {members : List Component} (joint : isJoint word) (full : members ≠ [])
      (each : ∀ c ∈ members, Query asks c) : Query asks (.conditions word members)

structure Readable (d : Declaration) : Prop where
  balanced : Balanced (tokens d.text)
  readBack : (readDeclaration d.rawName (tokens (d.text.drop (d.rawName.length + 1)))).text = d.text

/- A readable declaration that is told apart from the parenthesis behind it, and its name from
its colon and from the word that negates. -/
structure Askable (d : Declaration) : Prop extends Readable d where
  name : EndsName d.rawName [58]
  other : sameLetters d.rawName (ascii "not") = false
  closed : Closed d.text [41]

structure Enclosed (s : Bytes) : Prop where
  closed : ∀ rest, Closed s rest
  balanced : Balanced (tokens s)
  opens : ∃ u, s = 40 :: u
  shuts : ∃ ts, tokens s = leftParen :: (ts ++ [rightParen])

theorem enclosedParens (closed : Closed s [41]) (balanced : Balanced (tokens s)) : Enclosed (parenthesized s) := by
  have alone := parenthesizedAlone closed
  refine ⟨fun rest => ?_,?_,⟨_,rfl⟩,⟨_,alone⟩⟩
  · rw [Closed,parenthesizedTokens closed,alone]
    simp
  · rw [alone]
    exact levelBlock rfl rfl balanced

def jointTokens (word : Bytes) : List Token := [Token.space,⟨.ident,word⟩,Token.space]

theorem jointText (joint : isJoint word) (rest : Bytes) :
    tokens (32 :: (word ++ 32 :: 40 :: rest)) = jointTokens word ++ tokens (40 :: rest) := by
  have ends : EndsName word [32] := by rcases joint with rfl | rfl <;> decide
  have first : ∀ b ∈ (word ++ 32 :: 40 :: rest).head?, isBlankByte b = false := by
    rcases joint with rfl | rfl <;> simp [ascii] <;> decide
  have second : ∀ b ∈ (40 :: rest).head?, isBlankByte b = false := by simp; decide
  have inner : tokens (word ++ 32 :: 40 :: rest) = ⟨.ident,word⟩ :: tokens (32 :: 40 :: rest) :=
    wordToken ends (by simp) (by simp [startsRange])
  rw [tokensSpace first,inner,tokensSpace second]
  rfl

section
variable {t : Bytes} (joint : isJoint word) (first : Enclosed s) (second : Enclosed t)
include joint first second

theorem joinTokens (rest) :
    tokens (s ++ 32 :: (word ++ 32 :: t) ++ rest) =
      tokens s ++ jointTokens word ++ tokens t ++ tokens rest := by
  obtain ⟨u,rfl⟩ := second.opens
  have inner : tokens (40 :: (u ++ rest)) = tokens (40 :: u) ++ tokens rest := second.closed rest
  have outer := first.closed (32 :: (word ++ 32 :: 40 :: (u ++ rest)))
  rw [Closed,jointText joint,inner] at outer
  simpa using outer

theorem joinAlone :
    tokens (s ++ 32 :: (word ++ 32 :: t)) = tokens s ++ jointTokens word ++ tokens t := by
  simpa [tokens,tokensFrom] using joinTokens joint first second []

theorem enclosedJoin :
    Enclosed (s ++ 32 :: (word ++ 32 :: t)) := by
  have alone := joinAlone joint first second
  refine ⟨fun rest => ?_,?_,?_,?_⟩
  · rw [Closed,joinTokens joint first second,alone]
  · rw [alone]
    exact levelJoin (levelJoin first.balanced rfl) second.balanced
  · obtain ⟨u,rfl⟩ := first.opens
    exact ⟨_,rfl⟩
  · obtain ⟨ts,left⟩ := first.shuts
    obtain ⟨us,right⟩ := second.shuts
    refine ⟨ts ++ [rightParen] ++ jointTokens word ++ leftParen :: us,?_⟩
    rw [alone,left,right]
    simp

end

def memberText (word : Bytes) (c : Component) : Bytes :=
  if needsParens word c then parenthesized c.text else c.text

theorem memberTextsMap (word cs) : memberTexts word cs = cs.map (memberText word) := by
  induction cs with
  | nil => rfl
  | cons c cs ih => rw [memberTexts,ih]; rfl

theorem joinConditionsCons (word s t ts) :
    joinConditions word (s :: t :: ts) = s ++ 32 :: (word ++ 32 :: joinConditions word (t :: ts)) := by
  rw [joinConditions,intercalate_cons_cons]
  simp [joinConditions]

theorem enclosedMembers (joint : isJoint word) {texts} (full : texts ≠ [])
    (each : ∀ s ∈ texts, Enclosed s) : Enclosed (joinConditions word texts) := by
  induction texts with
  | nil => exact absurd rfl full
  | cons s ts ih =>
    cases ts with
    | nil =>
      rw [joinConditions,intercalate_singleton]
      exact each s mem_cons_self
    | cons t ts =>
      rw [joinConditionsCons]
      exact enclosedJoin joint (each s mem_cons_self)
        (ih (cons_ne_nil t ts) fun u mem => each u (mem_cons_of_mem s mem))

/- What holds of the text of every condition: it may stand in parentheses, and it needs
none unless it is a declaration or negated. -/
structure Written (c : Component) : Prop where
  closed : Closed c.text [41]
  balanced : Balanced (tokens c.text)
  enclosed : ∀ word, needsParens word c = false → Enclosed c.text

theorem memberEnclosed (written : Written c) (word) : Enclosed (memberText word c) := by
  rw [memberText]
  split
  · exact enclosedParens written.closed written.balanced
  · rename_i bare
    exact written.enclosed word (by simpa using bare)

theorem notText (enclosed : Enclosed s) (rest) :
    tokens (ascii "not " ++ s ++ rest) = ⟨.ident,ascii "not"⟩ :: space :: (tokens s ++ tokens rest) := by
  obtain ⟨u,rfl⟩ := enclosed.opens
  have second : ∀ b ∈ (40 :: (u ++ rest)).head?, isBlankByte b = false := by simp; decide
  have inner : tokens (ascii "not" ++ 32 :: 40 :: (u ++ rest)) =
      ⟨.ident,ascii "not"⟩ :: tokens (32 :: 40 :: (u ++ rest)) :=
    wordToken (by decide : EndsName (ascii "not") [32]) (by simp) (by simp [startsRange])
  have tail := enclosed.closed rest
  rw [tokensSpace second] at inner
  rw [Closed,cons_append] at tail
  rw [← tail,← inner]
  rfl

theorem notAlone (enclosed : Enclosed s) : tokens (ascii "not " ++ s) = ⟨.ident,ascii "not"⟩ :: space :: tokens s := by
  simpa [tokens,tokensFrom] using notText enclosed []

theorem queryWritten (query : Query Askable c) : Written c := by
  induction query with
  | declaration asked => exact ⟨asked.closed,asked.balanced,fun word bare => by cases bare⟩
  | @condition inner negated _ ih =>
    have enclosed := enclosedParens ih.closed ih.balanced
    cases negated with
    | false => exact ⟨enclosed.closed [41],enclosed.balanced,fun _ _ => enclosed⟩
    | true =>
      have alone := notAlone enclosed
      refine ⟨(notText enclosed [41]).trans (by rw [text,if_pos rfl,alone]; rfl),?_,fun word bare => by cases bare⟩
      rw [text,if_pos rfl,alone]
      exact enclosed.balanced
  | @conditions word members joint full each ih =>
    have enclosed : Enclosed (joinConditions word (members.map (memberText word))) := by
      exact enclosedMembers joint (by simpa using full) (forall_mem_map.mpr fun c there => memberEnclosed (ih c there) word)
    rw [← memberTextsMap] at enclosed
    exact ⟨enclosed.closed [41],enclosed.balanced,fun _ _ => enclosed⟩

variable {j : Joined} {ts rest : List Token}

theorem readBlank {t} (blank : t.isBlank) : readConditionFrom j (t :: rest) = readConditionFrom j rest := by
  rw [readConditionFrom,if_pos blank]

theorem readJoint (joint : isJoint word) (fits : j.combinator = [] ∨ j.combinator = word) :
    readConditionFrom j (⟨.ident,word⟩ :: rest) = readConditionFrom { j with combinator := word } rest := by
  have goes : j.word (lower word) = some { j with combinator := word } := by
    have small : lower word = word ∧ word ≠ ascii "not" := by rcases joint with rfl | rfl <;> decide
    rw [small.1,Joined.word,if_neg small.2,if_pos (show word = _ ∨ word = _ from joint)]
    rcases fits with bare | same
    · rw [if_neg fun other => other.1 bare]
    · rw [if_neg fun other => other.2 same]
  rw [readConditionFrom]
  simp [isBlank,goes]

theorem readNot : readConditionFrom j (⟨.ident,ascii "not"⟩ :: rest) =
    readConditionFrom { j with negate := true } rest := by
  have goes : j.word (lower (ascii "not")) = some { j with negate := true } := by
    rw [show lower (ascii "not") = ascii "not" by decide,Joined.word,if_pos rfl]
  rw [readConditionFrom]
  simp [isBlank,goes]

theorem readParens {inner} (balanced : Balanced ts) (inside : readInParens ts = some inner) :
    readConditionFrom j (leftParen :: (ts ++ rightParen :: rest)) =
      readConditionFrom { j with
        members := j.members ++ [if j.negate then .condition inner true else inner],negate := false } rest := by
  rw [readConditionFrom]
  simp [leftParen,isBlank,untilCloseParen balanced,inside]

def Joined.adding (j : Joined) (word : Bytes) (members : List Component) : Joined :=
  { members := j.members ++ members,combinator := if 1 < members.length then word else j.combinator }

def ReadAs (word : Bytes) (ts : List Token) (members : List Component) : Prop :=
  ∀ j : Joined, j.negate = false → (j.combinator = [] ∨ j.combinator = word) → ∀ rest,
    readConditionFrom j (ts ++ rest) = readConditionFrom (j.adding word members) rest

theorem readAsParens {ts inner} (balanced : Balanced ts) (inside : readInParens ts = some inner) (word) :
    ReadAs word (leftParen :: (ts ++ [rightParen])) [inner] := by
  intro j plain _ rest
  rw [cons_append,append_assoc]
  exact (readParens balanced inside).trans (by rw [plain]; rfl)

theorem readAsJoin (joint : isJoint word) {ts us ms ns} (first : ReadAs word ts ms)
    (second : ReadAs word us ns) (full : ms ≠ []) (more : ns ≠ []) :
    ReadAs word (ts ++ jointTokens word ++ us) (ms ++ ns) := by
  intro j plain fits rest
  have fits' : (j.adding word ms).combinator = [] ∨ (j.adding word ms).combinator = word := by
    rw [Joined.adding]
    split
    · exact .inr rfl
    · exact fits
  have several : 1 < (ms ++ ns).length := by
    have := length_pos_iff.mpr full
    have := length_pos_iff.mpr more
    rw [length_append]
    omega
  have step : readConditionFrom (j.adding word ms) (jointTokens word ++ (us ++ rest)) =
      readConditionFrom { j.adding word ms with combinator := word } (us ++ rest) := by
    rw [jointTokens,cons_append,readBlank rfl,cons_append,readJoint joint fits',cons_append,readBlank rfl]
    rfl
  rw [append_assoc,append_assoc,first j plain fits,step,second _ rfl (.inr rfl)]
  simp only [Joined.adding,if_pos several,ite_self,append_assoc]

theorem joinedTruthAppend (word as bs) :
    joinedTruth word (as ++ bs) = joinedTruth word [joinedTruth word as,joinedTruth word bs] := by
  simp only [joinedTruth]
  split <;> simp

theorem joinedTruthCons (word a bs) : joinedTruth word (a :: bs) = joinedTruth word [a,joinedTruth word bs] := by
  simp only [joinedTruth]
  split <;> simp

theorem joinedTruthOne (word a) : joinedTruth word [a] = a := by
  simp only [joinedTruth]
  split <;> simp

def byText (truth : Bytes → Bool) (d : Declaration) : Bool := truth d.text

def SameTruth (c d : Component) : Prop := ∀ truth, c.isMet (byText truth) = d.isMet (byText truth)

def JoinedTo (word : Bytes) (members : List Component) (c : Component) : Prop :=
  ∀ truth, joinedTruth word (verdicts (byText truth) members) = c.isMet (byText truth)

structure Reread (c : Component) : Prop where
  inside : ∃ d, readInParens (tokens c.text) = some d ∧ SameTruth d c
  among : ∀ word, isJoint word → needsParens word c = false →
    ∃ ms, ms ≠ [] ∧ ReadAs word (tokens c.text) ms ∧ JoinedTo word ms c

theorem readDeclarationEnd (name ts) : readDeclaration name (trimEnd ts) = readDeclaration name ts := by
  rw [readDeclaration,readDeclaration,trimTokensEnd]

theorem readInside {name} (other : sameLetters name (ascii "not") = false) (ts) :
    readInParens (⟨.ident,name⟩ :: Token.colon :: ts) = some (.declaration (readDeclaration name ts)) := by
  have colon : trimTokens (Token.colon :: trimEnd ts) = Token.colon :: trimEnd ts := by
    rw [trimTokensSolid rfl,trimEndTwice]
  have whole : trimTokens (⟨.ident,name⟩ :: Token.colon :: ts) = ⟨.ident,name⟩ :: Token.colon :: trimEnd ts := by
    rw [trimTokensSolid rfl,trimEndCons]
    rfl
  rw [readInParens,whole]
  simp only [colon,other,← readDeclarationEnd name ts]
  rfl

theorem declarationInside {d} (legible : Askable d) :
    ∃ e, readInParens (tokens d.text) = some e ∧ SameTruth e (.declaration d) := by
  obtain ⟨s,text⟩ : ∃ s, d.text = d.rawName ++ 58 :: s := by
    cases d with
    | property name value important slashNine => exact ⟨_,append_assoc ..⟩
    | filter name value => exact ⟨_,rfl⟩
  have spelled : tokens d.text = ⟨.ident,d.rawName⟩ :: colon :: tokens s := by
    have name : EndsName d.rawName (58 :: s) := legible.name
    rw [text,wordToken name (by simp) (by simp [startsRange]),tokensColon]
  have back := legible.readBack
  rw [show d.text.drop (d.rawName.length + 1) = s by simp [text,drop_append]] at back
  refine ⟨_,(congrArg readInParens spelled).trans (readInside legible.other _),fun truth => ?_⟩
  exact congrArg truth back

theorem resultTruth (word) {ms} (full : ms ≠ []) :
    ∃ d, readConditionFrom (Joined.adding {} word ms) [] = some d ∧ JoinedTo word ms d := by
  have done : readConditionFrom (Joined.adding {} word ms) [] = (Joined.adding {} word ms).result := by
    rw [readConditionFrom]
  have one : ∀ c, JoinedTo word [c] c := fun c truth => joinedTruthOne word _
  rw [done]
  cases ms with
  | nil => exact absurd rfl full
  | cons c cs =>
    cases cs with
    | nil =>
      cases c with
      | declaration d =>
        cases d with
        | property => exact ⟨_,rfl,fun truth => (one _ truth).trans (Bool.xor_false _).symm⟩
        | filter => exact ⟨_,rfl,one _⟩
      | _ => exact ⟨_,rfl,one _⟩
    | cons d cs =>
      refine ⟨.conditions word (c :: d :: cs),?_,fun truth => rfl⟩
      simp [Joined.adding,Joined.result]

theorem insideEnclosed (enclosed : Enclosed s) : readInParens (tokens s) = readConditionFrom {} (tokens s) := by
  obtain ⟨ts,shape⟩ := enclosed.shuts
  have whole : trimTokens (tokens s) = tokens s := by
    rw [shape,trimTokensSolid rfl,trimEndConcat]
    rfl
  rw [readInParens,whole,shape]
  simp [leftParen]

theorem insideNot (enclosed : Enclosed s) :
    readInParens (tokens (ascii "not " ++ s)) = readConditionFrom {} (tokens (ascii "not " ++ s)) := by
  obtain ⟨ts,shape⟩ := enclosed.shuts
  have alone := notAlone enclosed
  have whole : trimTokens (tokens (ascii "not " ++ s)) = tokens (ascii "not " ++ s) := by
    rw [alone,shape,trimTokensSolid rfl,← cons_append,← cons_append,trimEndConcat]
    rfl
  have same : sameLetters (ascii "not") (ascii "not") := by decide
  rw [readInParens,whole,alone]
  simp [same]

theorem readAsMember (written : Written c) (reread : Reread c) (joint : isJoint word) :
    ∃ ms, ms ≠ [] ∧ ReadAs word (tokens (memberText word c)) ms ∧ JoinedTo word ms c := by
  rw [memberText]
  split
  · obtain ⟨d,inside,same⟩ := reread.inside
    refine ⟨[d],cons_ne_nil d [],?_,fun truth => (joinedTruthOne word _).trans (same truth)⟩
    rw [parenthesizedAlone written.closed]
    exact readAsParens written.balanced inside word
  · rename_i bare
    exact reread.among word joint (by simpa using bare)

theorem readAsMembers (joint : isJoint word) {members} (full : members ≠ [])
    (written : ∀ c ∈ members, Written c) (reread : ∀ c ∈ members, Reread c) :
    ∃ ms, ms ≠ [] ∧ ReadAs word (tokens (joinConditions word (members.map (memberText word)))) ms ∧
      JoinedTo word ms (.conditions word members) := by
  induction members with
  | nil => exact absurd rfl full
  | cons c cs ih =>
    obtain ⟨ms,first,read,same⟩ := readAsMember (written c mem_cons_self) (reread c mem_cons_self) joint
    cases cs with
    | nil =>
      refine ⟨ms,first,?_,fun truth => (same truth).trans (joinedTruthOne word _).symm⟩
      rw [map_singleton,joinConditions,intercalate_singleton]
      exact read
    | cons d cs =>
      obtain ⟨ns,second,more,others⟩ := ih (cons_ne_nil d cs)
        (fun e mem => written e (mem_cons_of_mem c mem)) (fun e mem => reread e (mem_cons_of_mem c mem))
      have head := memberEnclosed (written c mem_cons_self) word
      have tail : Enclosed (joinConditions word ((d :: cs).map (memberText word))) := by
        refine enclosedMembers joint (by simp) (forall_mem_map.mpr fun e there => ?_)
        exact memberEnclosed (written e (mem_cons_of_mem c there)) word
      refine ⟨ms ++ ns,append_ne_nil_of_left_ne_nil first ns,?_,fun truth => ?_⟩
      · rw [map_cons,map_cons,joinConditionsCons,← map_cons,joinAlone joint head tail]
        exact readAsJoin joint read more first second
      · rw [verdictsMap,map_append,← verdictsMap,← verdictsMap,joinedTruthAppend,same truth,others truth]
        exact (joinedTruthCons word _ _).symm

theorem readAgain {ts ms} (full : ms ≠ []) (read : ReadAs word ts ms)
    (same : JoinedTo word ms c) : ∃ d, readConditionFrom {} ts = some d ∧ SameTruth d c := by
  obtain ⟨d,result,truth⟩ := resultTruth word full
  have whole := read {} rfl (.inl rfl) []
  rw [append_nil] at whole
  exact ⟨d,whole.trans result,fun answer => (truth answer).symm.trans (same answer)⟩

theorem queryReread (query : Query Askable c) : Reread c := by
  induction query with
  | declaration asked => exact ⟨declarationInside asked,fun word _ bare => by cases bare⟩
  | @condition inner negated query ih =>
    have written := queryWritten query
    have enclosed := enclosedParens written.closed written.balanced
    obtain ⟨d,inside,same⟩ := ih.inside
    cases negated with
    | false =>
      have alone := parenthesizedAlone written.closed
      have among : ∀ word, ReadAs word (tokens (parenthesized inner.text)) [d] ∧
          JoinedTo word [d] (.condition inner false) := fun word =>
        ⟨by rw [alone]; exact readAsParens written.balanced inside word,
          fun truth => (joinedTruthOne word _).trans ((same truth).trans (Bool.xor_false _).symm)⟩
      refine ⟨?_,fun word _ _ => ⟨[d],cons_ne_nil d [],among word⟩⟩
      rw [text,if_neg Bool.false_ne_true,nil_append,insideEnclosed enclosed]
      exact readAgain (cons_ne_nil d []) (among []).1 (among []).2
    | true =>
      refine ⟨⟨.condition d true,?_,fun truth => congrArg (· != true) (same truth)⟩,fun word _ bare => by cases bare⟩
      rw [text,if_pos rfl,insideNot enclosed,notAlone enclosed,readNot,readBlank rfl,
        parenthesizedAlone written.closed,readParens written.balanced inside,readConditionFrom]
      rfl
  | @conditions word members joint full each ih =>
    have written := queryWritten (.conditions joint full each)
    obtain ⟨ms,several,read,same⟩ := readAsMembers joint full (fun c mem => queryWritten (each c mem)) ih
    rw [← memberTextsMap] at read
    refine ⟨?_,fun other _ bare => ?_⟩
    · rw [insideEnclosed (written.enclosed word (by simp [needsParens]))]
      exact readAgain several read same
    · have alike : word = other := by simpa [needsParens] using bare
      rw [← alike]
      exact ⟨ms,several,read,same⟩

theorem queryRead (query : Query Askable c) (joined : ∀ d, c ≠ .declaration d) :
    ∃ d, readCondition (tokens c.text) = some d ∧ SameTruth d c := by
  have inside := (queryReread query).inside
  have written := queryWritten query
  have same : readInParens (tokens c.text) = readCondition (tokens c.text) := by
    cases query with
    | declaration => exact absurd rfl (joined _)
    | @condition inner negated inner_query =>
      have inner := queryWritten inner_query
      have enclosed := enclosedParens inner.closed inner.balanced
      cases negated with
      | false => exact insideEnclosed (written.enclosed [] rfl)
      | true => exact insideNot enclosed
    | @conditions word => exact insideEnclosed (written.enclosed word (by simp [needsParens]))
  rwa [same] at inside

theorem textTruth {d} (first : Query Askable c) (second : Query Askable d) (alike : c.text = d.text) :
    SameTruth c d := by
  obtain ⟨e,read,same⟩ := (queryReread first).inside
  obtain ⟨f,read',same'⟩ := (queryReread second).inside
  rw [alike,read'] at read
  cases read
  exact fun truth => (same truth).symm.trans (same' truth)

end Cascade
