import Cascade.Proofs.MediaTruth
import Cascade.Sheet.AtRule

/-! What lists of media queries match once they have been read and printed. An empty list matches everything. -/
namespace Cascade
open List
open Token (space opens comma closes)
open Noted (valuePure valueBind)
open MediaQuery (text)

variable {ts : List Token} {qs : List MediaQuery} {test : MediaTest}

def listMatches (types : Bytes → Bool) (features : List Token → Bool) (ts : List Token) : Bool :=
  (trimTokens ts).isEmpty || (commaParts ts).any fun p => meaning types features p == some true

theorem shutBalanced {n} (shut : (untilClose n ts).2 ≠ []) :
    levelOver (fun _ => false) n (untilClose n ts).1 = some 0 := by
  induction ts generalizing n with
  | nil => exact absurd rfl shut
  | cons t ts ih =>
    rw [untilClose] at shut ⊢
    split
    · rename_i stops
      rw [stops.2]
      rfl
    rename_i goes
    rw [if_neg goes] at shut
    have inner := ih shut
    cases opens : t.opens with
    | true => simpa [levelOver,opens] using inner
    | false =>
      cases closes : t.closes with
      | false => simpa [levelOver,opens,closes] using inner
      | true =>
        cases n with
        | zero => exact absurd ⟨closes,rfl⟩ goes
        | succ n => simpa [levelOver,opens,closes] using inner

theorem piecesPart {ps} (h : mediaPieces ts = some ps) : OnePart .comma ts := by
  fun_induction mediaPieces ts generalizing ps with
  | case1 => rfl
  | case2 t rest blank ih =>
    refine partCons ?_ (ih h)
    simp only [Token.isBlank,Bool.or_eq_true,decide_eq_true_eq] at blank
    rcases blank with kind | kind <;> simp [Token.isPlain,opens,closes,kind]
  | case3 t rest solid word ih =>
    obtain ⟨qs,found,rfl⟩ := Option.map_eq_some_iff.mp h
    exact partCons (by simp [Token.isPlain,opens,closes,word]) (ih found)
  | case4 t rest solid other opens ih =>
    obtain ⟨qs,found,rfl⟩ := Option.map_eq_some_iff.mp h
    obtain ⟨opening,shuts⟩ := opens
    have whole := untilCloseAppend 0 rest
    cases behind : (untilClose 0 rest).2 with
    | nil => rw [behind] at shuts; cases shuts
    | cons c us =>
      rw [behind] at shuts whole found ih
      have kind : c.kind = .rightParen := by simpa using shuts
      have block : OnePart .comma (t :: ((untilClose 0 rest).1 ++ [c])) :=
        levelBlock (by simp [opens,opening]) (by simp [closes,kind])
          (shutBalanced (by rw [behind]; exact cons_ne_nil c us))
      have joined := levelJoin block (ih found)
      rw [drop_one,tail_cons,cons_append,append_assoc,singleton_append,whole] at joined
      exact joined
  | case5 => cases h

theorem piecesSolid {p ps} (h : mediaPieces ts = some (p :: ps)) : ∃ t ∈ ts, t.isBlank = false := by
  by_contra bare
  push Not at bare
  induction ts with
  | nil => rw [mediaPieces] at h; cases h
  | cons t ts ih =>
    rw [mediaPieces,if_pos (by simpa using bare t mem_cons_self)] at h
    exact ih h fun u mem => bare u (mem_cons_of_mem t mem)

section
variable {s rest : Bytes}

theorem closedWord {w} (ends : EndsName w s) (filled : s ≠ []) (word : s.head? ≠ some 40)
    (plain : s.head? ≠ some 43) (closed : Closed s rest) : Closed (w ++ s) rest := by
  cases s with
  | nil => exact absurd rfl filled
  | cons b s =>
    have other : b ≠ 43 := fun same => plain (congrArg some same)
    have range : ∀ t, startsRange w (b :: t) = false := fun t => by simp [startsRange,other]
    have longer : EndsName w (b :: s ++ rest) := ends
    rw [Closed,append_assoc,wordToken longer word (range _),wordToken ends word (range _)]
    exact congrArg (_ :: ·) closed

theorem closedSpace (filled : s ≠ []) (solid : ∀ b ∈ s.head?, isBlankByte b = false) (closed : Closed s rest) :
    Closed (32 :: s) rest := by
  cases s with
  | nil => exact absurd rfl filled
  | cons b s =>
    have longer : ∀ c ∈ (b :: s ++ rest).head?, isBlankByte c = false := solid
    rw [Closed,cons_append,tokensSpace longer,tokensSpace solid]
    exact congrArg (_ :: ·) closed

end

/- A query as it may stand in a list: its text is a query of some kind, and the comma behind it
is no part of it. -/
structure MediaQuery.Listed (m : MediaQuery) : Prop where
  pieces : ∃ p ps, mediaPieces (tokens m.text) = some (p :: ps)
  apart : Closed m.text [44]
  solid : ∀ b ∈ m.text.head?, isBlankByte b = false

section
variable {types : Bytes → Bool} {features : List Token → Bool}

theorem intercalateCons {α : Type} (sep : List α) (a as more) :
    sep.intercalate ((a :: as) :: more) = a :: sep.intercalate (as :: more) := by
  cases more <;> simp [intercalate_cons_cons]

theorem commaTokens {texts : List Bytes} (apart : ∀ s ∈ texts, Closed s [44]) :
    tokens ([44].intercalate texts) = [comma].intercalate (texts.map tokens) := by
  induction texts with
  | nil => rfl
  | cons s texts ih =>
    have later := ih fun t mem => apart t (mem_cons_of_mem s mem)
    cases texts with
    | nil => rw [intercalate_singleton,map_singleton,intercalate_singleton]
    | cons t texts =>
      have cut : Closed s (44 :: [44].intercalate (t :: texts)) :=
        closedStop rfl _ s (apart s mem_cons_self)
      rw [intercalate_cons_cons,append_assoc,singleton_append,cut,map_cons,map_cons,
        intercalate_cons_cons,← map_cons,← later,append_assoc]
      rfl

theorem listedText {m : MediaQuery} (listed : m.Listed) : ∃ b s, m.text = b :: s ∧ isBlankByte b = false := by
  obtain ⟨p,ps,pieces⟩ := listed.pieces
  cases text : m.text with
  | nil =>
    rw [text,show tokens [] = [] from rfl,mediaPieces] at pieces
    cases pieces
  | cons b s => exact ⟨b,s,rfl,listed.solid b (by rw [text]; rfl)⟩

theorem listTokens {q} (listed : ∀ r ∈ q :: qs, r.Listed) :
    tokens (queryList [44] ((q :: qs).map MediaQuery.text)) =
      [comma].intercalate ((space :: tokens q.text) :: qs.map fun r => tokens r.text) := by
  obtain ⟨b,s,text,solid⟩ := listedText (listed q mem_cons_self)
  have texts : ∀ s ∈ (q :: qs).map MediaQuery.text, Closed s [44] :=
    forall_mem_map.mpr fun r there => (listed r there).apart
  have head : ∀ c ∈ ([44].intercalate ((q :: qs).map MediaQuery.text)).head?, isBlankByte c = false := by
    rw [map_cons,text,intercalateCons]
    rintro c ⟨⟩
    exact solid
  rw [queryList,if_neg (by simp),tokensSpace head,commaTokens texts,intercalateCons,map_map]
  rfl

theorem printedMatches (listed : ∀ q ∈ qs, q.Listed) :
    listMatches types features (tokens (queryList [44] (qs.map text))) =
      (qs.isEmpty || qs.any fun q => meaning types features (tokens q.text) == some true) := by
  cases qs with
  | nil => rfl
  | cons q qs =>
    obtain ⟨p,ps,pieces⟩ := (listed q mem_cons_self).pieces
    have each : ∀ part ∈ (space :: tokens q.text) :: qs.map (fun r => tokens r.text),
        OnePart .comma part ∧ part ≠ [] := by
      rw [forall_mem_cons]
      refine ⟨⟨partCons rfl (piecesPart pieces),cons_ne_nil _ _⟩,fun part mem => ?_⟩
      obtain ⟨r,there,rfl⟩ := mem_map.mp mem
      obtain ⟨p,ps,pieces⟩ := (listed r (mem_cons_of_mem q there)).pieces
      refine ⟨piecesPart pieces,fun bare => ?_⟩
      rw [bare,mediaPieces] at pieces
      cases pieces
    have filled : trimTokens (tokens (queryList [44] ((q :: qs).map text))) ≠ [] := by
      obtain ⟨t,mem,stays⟩ := piecesSolid pieces
      intro bare
      have blank := trimTokensNone bare t (by
        rw [listTokens listed]
        cases qs <;> simp [mem])
      rw [stays] at blank
      cases blank
    rw [listMatches,isEmpty_eq_false_iff.mpr filled,listTokens listed,commaPartsJoin each,any_cons,
      any_map,meaning,readTest,piecesSpace]
    rfl

end

/- A test that is told from the comma behind it where it is printed, and whose features are printed
as blocks that test the same. -/
structure MediaTest.Legible (ctx : Context) (types : Bytes → Bool) (features : List Token → Bool)
    (test : MediaTest) : Prop where
  named : test.Named types
  apart : ∀ negated type, test = .medium negated type [] → ∀ name ∈ [type,lower type], EndsName name [44]
  rendered : ∀ b ∈ test.blocks,
    Rendered features b (readFeature b) ∧ Rendered features b ((readFeature b).optimize ctx).value

section
variable {types : Bytes → Bool} {features : List Token → Bool} {m : MediaQuery} {test : MediaTest}

theorem enclosedListed (bare : m.medium = []) (full : m.features ≠ []) (stand : ∀ f ∈ m.features, f.Stands) :
    m.Listed := by
  have text := bareText bare full
  have enclosed := featuresEnclosed full stand
  rw [← text] at enclosed
  obtain ⟨u,opens⟩ := enclosed.opens
  refine ⟨?_,enclosed.closed [44],fun b mem => ?_⟩
  · rw [text]
    cases features : m.features with
    | nil => exact absurd features full
    | cons f fs =>
      rw [features] at stand
      exact ⟨_,_,featuresPieces f stand⟩
  · rw [opens] at mem
    cases mem
    rfl

section
variable (named : EndsName m.medium (if m.features.isEmpty then [] else [32]))
  (comma : m.features = [] → EndsName m.medium [44]) (stand : ∀ f ∈ m.features, f.Stands)
include named comma stand

theorem tailApart : Closed (m.medium ++ m.tail) [44] := by
  rw [MediaQuery.tail]
  cases features : m.features with
  | nil =>
    have word := wordToken (comma features) (by simp) (by simp [startsRange])
    have alone := wordToken named (by simp [features]) (by simp [features,startsRange])
    simp only [features,isEmpty_nil,if_true,append_nil] at alone ⊢
    rw [Closed,word,alone]
    rfl
  | cons f fs =>
    rw [features] at named stand
    have enclosed := featuresEnclosed (cons_ne_nil f fs) stand
    obtain ⟨u,opens⟩ := enclosed.opens
    have inner : Closed (32 :: joinConditions (ascii "and") ((f :: fs).map MediaFeature.text)) [44] :=
      closedSpace (by rw [opens]; exact cons_ne_nil _ _) (by rw [opens]; rintro b ⟨⟩; rfl) (enclosed.closed [44])
    have joint : EndsName (ascii "and") [32] := by decide
    have ends : EndsName (ascii "and") (32 :: joinConditions (ascii "and") ((f :: fs).map MediaFeature.text)) := joint
    have word := closedWord ends (cons_ne_nil _ _) (by simp) (by simp) inner
    have spaced := closedSpace (by simp [ascii]) (by simp [ascii]; decide) word
    exact closedWord (show EndsName m.medium (32 :: _) from named) (cons_ne_nil _ _) (by simp) (by simp) spaced

theorem mediumListed {negated} (restricts : Restricts negated m.restrictor) : m.Listed := by
  obtain ⟨x,u,same,word⟩ := wordCons named
  have start : isBlankByte x = false := (wordStart word).1
  have tail := tailApart named comma stand
  have bare : m.restrictor = [] → m.Listed := by
    intro void
    have text : m.text = m.medium ++ m.tail := by
      rw [mediumText named.1,void]
      rfl
    refine ⟨⟨_,_,freePieces named stand void⟩,by rw [text]; exact tail,fun b mem => ?_⟩
    rw [text,same] at mem
    cases mem
    exact start
  have restricted : ∀ keyword, ascii keyword ∈ reservedWords → isKeyword keyword m.restrictor → m.Listed := by
    intro keyword known is
    obtain ⟨full,letters⟩ := keywordLetters known is
    have text : m.text = m.restrictor ++ 32 :: (m.medium ++ m.tail) := by
      rw [mediumText named.1,isEmpty_eq_false_iff.mpr full,if_neg Bool.false_ne_true,append_assoc]
      rfl
    have solid : ∀ b ∈ (m.medium ++ m.tail).head?, isBlankByte b = false := by
      rw [same]
      rintro b ⟨⟩
      exact start
    have ends : EndsName m.restrictor (32 :: (m.medium ++ m.tail)) := lettersName full letters (by simp; decide)
    have spaced := closedSpace (by rw [same]; exact cons_ne_nil _ _) solid tail
    refine ⟨⟨_,_,restrictedPieces named stand known is⟩,?_,fun b mem => ?_⟩
    · rw [text]
      exact closedWord ends (cons_ne_nil _ _) (by simp) (by simp) spaced
    · obtain ⟨y,v,first,word⟩ := wordCons ends
      rw [text,first] at mem
      cases mem
      exact (wordStart word).1
  rcases restricts with ⟨void,_⟩ | ⟨is,_⟩ | ⟨is,_⟩
  · exact bare void
  · exact restricted "not" (by decide) is
  · exact restricted "only" (by decide) is

end

theorem spelledListed (spelled : test.Spelled m) (renders : Renders features test.blocks m.features)
    (named : test.Named types)
    (apart : ∀ negated type, test = .medium negated type [] → ∀ name ∈ [type,lower type], EndsName name [44]) :
    m.Listed := by
  have stand := rendersStand renders
  cases test with
  | medium negated type bs =>
    obtain ⟨name,_,restricts⟩ := spelled
    have ends := named.ends negated type bs rfl m.medium name
    have empty : m.features.isEmpty = bs.isEmpty := rendersEmpty renders
    rw [← empty] at ends
    refine mediumListed ends (fun bare => ?_) stand restricts
    have same := (rendersNone renders).mp bare
    simp only [MediaTest.blocks] at same
    exact apart negated type (by rw [same]) m.medium name
  | every bs => exact enclosedListed spelled.1 (fun bare => spelled.2 ((rendersNone renders).mp bare)) stand
  | negation b => exact enclosedListed spelled (fun bare => cons_ne_nil b [] ((rendersNone renders).mp bare)) stand
  | any bs =>
    obtain ⟨is,bare,full⟩ := spelled
    obtain ⟨filled,letters⟩ := keywordLetters (by decide) is
    refine mediumListed (lettersName filled letters ?_) (fun empty => absurd ((rendersNone renders).mp empty) full)
      stand (.inl ⟨bare,rfl⟩)
    split <;> simp
    decide

end

section
variable {ctx : Context} {types : Bytes → Bool} {features : List Token → Bool}

def Fits (ctx : Context) (types : Bytes → Bool) (features : List Token → Bool) (ts : List Token) : Prop :=
  (readQuery ts).value = none ∨ ∃ test, readTest ts = some test ∧ test.Legible ctx types features

theorem testQuery (read : readTest ts = some test) :
    ∃ m, (readQuery ts).value = some m ∧ m.features = test.blocks.map readFeature ∧ test.Spelled m := by
  obtain ⟨ps,pieces,grammar⟩ := Option.bind_eq_some_iff.mp read
  obtain ⟨m,added,blocks,spelled⟩ := testRead grammar
  refine ⟨m,?_,blocks,spelled⟩
  rw [readQuery,readPieces _ pieces,added]
  rfl

theorem unreadTest (unread : (readQuery ts).value = none) : readTest ts = none := by
  cases read : readTest ts with
  | none => rfl
  | some test =>
    obtain ⟨m,found,_⟩ := testQuery read
    rw [found] at unread
    cases unread

structure Prints (types : Bytes → Bool) (features : List Token → Bool) (tests : List MediaTest)
    (qs : List MediaQuery) : Prop where
  each : ∀ q ∈ qs, q.Listed ∧ ∃ test ∈ tests, meaning types features (tokens q.text) = test.printed types features
  all : ∀ test ∈ tests, ∃ q ∈ qs, meaning types features (tokens q.text) = test.printed types features

theorem printsMatches {tests} (prints : Prints types features tests qs) :
    listMatches types features (tokens (queryList [44] (qs.map text))) ↔
      tests = [] ∨ ∃ test ∈ tests, test.printed types features = some true := by
  rw [printedMatches fun q mem => (prints.each q mem).1,Bool.or_eq_true,List.isEmpty_iff,any_eq_true]
  refine or_congr ?_ ?_
  · constructor <;> rintro rfl <;> refine eq_nil_iff_forall_not_mem.mpr fun x mem => ?_
    · obtain ⟨q,bare,_⟩ := prints.all x mem
      cases bare
    · obtain ⟨_,test,bare,_⟩ := prints.each x mem
      cases bare
  · simp only [beq_iff_eq]
    constructor
    · rintro ⟨q,mem,holds⟩
      obtain ⟨_,test,there,same⟩ := prints.each q mem
      exact ⟨test,there,same.symm.trans holds⟩
    · rintro ⟨test,mem,holds⟩
      obtain ⟨q,there,same⟩ := prints.all test mem
      exact ⟨q,there,same.trans holds⟩

theorem printsDistinct {tests} (prints : Prints types features tests qs) :
    Prints types features tests (distinctBy text qs) := by
  refine ⟨fun q mem => prints.each q ((distinctFromSublist [] qs).subset mem),fun test mem => ?_⟩
  obtain ⟨q,there,same⟩ := prints.all test mem
  rcases distinctFromCovers text [] there with known | ⟨r,stays,alike⟩
  · cases known
  · exact ⟨r,stays,by rw [alike]; exact same⟩

theorem legiblePrinted {m} (legible : test.Legible ctx types features)
    (blocks : m.features = test.blocks.map readFeature) (spelled : test.Spelled m) :
    ∀ q ∈ [m,(m.optimize ctx).value],
      q.Listed ∧ meaning types features (tokens q.text) = test.printed types features := by
  intro q mem
  obtain ⟨spells,renders⟩ := queriesRender blocks spelled legible.rendered q mem
  exact ⟨spelledListed spells renders legible.named legible.apart,printedMeaning spells renders legible.named⟩

theorem spelledKept {m} (named : test.Named types) (blocks : m.features = test.blocks.map readFeature)
    (spelled : test.Spelled m) : ¬(m.medium = [] ∧ m.features.isEmpty) := by
  rintro ⟨bare,empty⟩
  rw [List.isEmpty_iff,blocks,map_eq_nil_iff] at empty
  cases test with
  | medium negated type bs => exact (named.ends negated type bs rfl m.medium spelled.1).1 bare
  | every bs => exact spelled.2 empty
  | negation b => cases empty
  | any bs => exact spelled.2.2 empty

theorem partsPrinted {parts} (fit : ∀ p ∈ parts, Fits ctx types features p) :
    Prints types features (parts.filterMap readTest) (readQueryParts parts).value ∧
    Prints types features (parts.filterMap readTest)
      ((readQueryParts parts).value.map fun q => (q.optimize ctx).value) := by
  induction parts with
  | nil => exact ⟨⟨forall_mem_nil _,forall_mem_nil _⟩,⟨forall_mem_nil _,forall_mem_nil _⟩⟩
  | cons p parts ih =>
    rw [forall_mem_cons] at fit
    have rest := ih fit.2
    simp only [readQueryParts,valueBind]
    rcases fit.1 with unread | ⟨test,read,legible⟩
    · rw [unread,filterMap_cons_none (unreadTest unread)]
      exact rest
    obtain ⟨m,found,blocks,spelled⟩ := testQuery read
    have kept := spelledKept legible.named blocks spelled
    have printed := legiblePrinted legible blocks spelled
    simp only [forall_mem_cons] at printed
    have more : ∀ {q : MediaQuery} {qs : List MediaQuery}, q.Listed →
        meaning types features (tokens q.text) = test.printed types features →
        Prints types features (parts.filterMap readTest) qs →
        Prints types features (test :: parts.filterMap readTest) (q :: qs) := by
      intro q qs listed same prints
      refine ⟨?_,?_⟩ <;> rw [forall_mem_cons]
      · refine ⟨⟨listed,test,mem_cons_self,same⟩,fun r mem => ?_⟩
        obtain ⟨fine,other,there,alike⟩ := prints.each r mem
        exact ⟨fine,other,mem_cons_of_mem test there,alike⟩
      · refine ⟨⟨q,mem_cons_self,same⟩,fun other mem => ?_⟩
        obtain ⟨r,there,alike⟩ := prints.all other mem
        exact ⟨r,mem_cons_of_mem q there,alike⟩
    rw [found,filterMap_cons_some read]
    simp only [valuePure,if_neg kept]
    exact ⟨more printed.1.1 printed.1.2 rest.1,more printed.2.1.1 printed.2.1.2 rest.2⟩

theorem sourceMatches (full : trimTokens ts ≠ []) : listMatches types features ts ↔
    ∃ test ∈ (commaParts ts).filterMap readTest, test.holds types features := by
  rw [listMatches,isEmpty_eq_false_iff.mpr full,Bool.false_or,any_eq_true]
  simp only [meaning,beq_iff_eq,Option.map_eq_some_iff,mem_filterMap]
  constructor
  · rintro ⟨p,mem,test,read,holds⟩
    exact ⟨test,⟨p,mem,read⟩,holds⟩
  · rintro ⟨test,⟨p,mem,read⟩,holds⟩
    exact ⟨p,mem,test,read,holds⟩

end

def Rule.queries : Rule → List MediaQuery
  | .media queries _ => queries
  | .importRule rule => rule.media
  | _ => []

def Rule.queriesText (r : Rule) : Bytes := queryList [44] (r.queries.map MediaQuery.text)

def Rule.front : Rule → Bytes
  | .media .. => ascii "@media"
  | .importRule rule => ascii "@import " ++ rule.location.text
  | _ => []

def Rule.back : Rule → Bytes
  | .media _ content => blockText [] [] (Rule.texts content)
  | .importRule _ => [59]
  | rule => rule.text

theorem queriesStand (r : Rule) : r.text = r.front ++ r.queriesText ++ r.back := by
  cases r with
  | media queries content =>
    simp [Rule.text,Rule.front,Rule.back,Rule.queriesText,Rule.queries,blockText]
  | _ => rfl

inductive Guarded (ts : List Token) : Rule → Prop where
  | media {name : Bytes} {prelude : List Token} {content : List Rule} {declarations : List Declaration} {rule : Rule}
      (base : splitAtRule name = ([],ascii "media")) (queries : trimTokens prelude = ts)
      (made : (readHeader name prelude).value.rule content declarations = some rule) : Guarded ts rule
  | imports {name : Bytes} {prelude : List Token} {location : Component} {rule : Rule}
      (base : (splitAtRule name).2 = ascii "import") (queries : readLocation (trimTokens prelude) = some (location,ts))
      (made : (readAtRule name prelude).value = some rule) : Guarded ts rule

def LeftOf (ctx : Context) (rule left : Rule) : Prop := left = rule ∨ (rule.optimize ctx).value = some left

section
variable {ctx : Context} {ts : List Token} {rule : Rule}

theorem mediaMade {name} (base : splitAtRule name = ([],ascii "media")) (prelude) (content declarations) :
    (readHeader name prelude).value.rule content declarations =
      some (.media (readQueries (trimTokens prelude)).value content) := by
  rw [readHeader,base]
  rfl

theorem importMade {name} (base : (splitAtRule name).2 = ascii "import") {prelude}
    {location} (found : readLocation (trimTokens prelude) = some (location,ts)) :
    (readAtRule name prelude).value = some (.importRule ⟨location,(readQueries ts).value⟩) := by
  have other : ¬ascii "import" = ascii "charset" := by decide
  rw [readAtRule,base]
  simp only [readImport,found]
  rfl

theorem guardedQueries (guarded : Guarded ts rule) {left} (stays : LeftOf ctx rule left) :
    left.queries = (readQueries ts).value ∨ left.queries = (optimizeQueries ctx (readQueries ts).value).value := by
  cases guarded with
  | media base queries made =>
    rw [mediaMade base,queries] at made
    cases made
    rcases stays with rfl | left
    · exact .inl rfl
    · simp only [Rule.optimize,valueBind] at left
      split at left <;> cases left
      exact .inr rfl
  | imports base queries made =>
    rw [importMade base queries] at made
    cases made
    rcases stays with rfl | left
    · exact .inl rfl
    · cases left
      exact .inr rfl

end

theorem printedUnmatched {types features} (fails : test.holds types features = false) :
    test.printed types features = some true ↔ ∃ b, test = .negation b := by
  cases test <;> simp [MediaTest.printed,fails]

/- Where a rule's queries do not match, those that are printed match exactly if none of them could be
read or one negates a feature. -/
theorem droppedQueriesWiden (ctx : Context) (types : Bytes → Bool) (features : List Token → Bool)
    {ts : List Token} {rule : Rule} (guarded : Guarded ts rule) (filled : trimTokens ts ≠ [])
    (fit : ∀ p ∈ commaParts ts, Fits ctx types features p) (unmatched : listMatches types features ts = false)
    {left : Rule} (stays : LeftOf ctx rule left) :
    left.text = left.front ++ left.queriesText ++ left.back ∧
    (listMatches types features (tokens left.queriesText) = true ↔
      (∀ p ∈ commaParts ts, readTest p = none) ∨ ∃ p ∈ commaParts ts, ∃ b, readTest p = some (.negation b)) := by
  obtain ⟨before,after⟩ := partsPrinted fit
  have prints : Prints types features ((commaParts ts).filterMap readTest) left.queries := by
    rcases guardedQueries guarded stays with same | same <;> rw [same]
    · exact before
    · rw [optimizeQueries,valueBind,Noted.valueMapM,valuePure]
      exact printsDistinct after
  have fails : ∀ test ∈ (commaParts ts).filterMap readTest, test.holds types features = false := by
    intro test mem
    cases holds : test.holds types features with
    | false => rfl
    | true => rw [(sourceMatches filled).mpr ⟨test,mem,holds⟩] at unmatched; cases unmatched
  refine ⟨queriesStand left,?_⟩
  rw [Rule.queriesText,printsMatches prints,filterMap_eq_nil_iff]
  refine or_congr Iff.rfl ?_
  constructor
  · rintro ⟨test,mem,printed⟩
    obtain ⟨b,rfl⟩ := (printedUnmatched (fails test mem)).mp printed
    obtain ⟨p,there,read⟩ := mem_filterMap.mp mem
    exact ⟨p,there,b,read⟩
  · rintro ⟨p,there,b,read⟩
    have mem := mem_filterMap.mpr ⟨p,there,read⟩
    exact ⟨.negation b,mem,(printedUnmatched (fails _ mem)).mpr ⟨b,rfl⟩⟩

def lengthQuery : List Token := [⟨.dimension,ascii "5px"⟩]

def colorScreen : List Token :=
  [⟨.ident,ascii "Screen"⟩,Token.space,⟨.ident,ascii "and"⟩,Token.space,leftParen] ++ colorWord "Color" ++ [rightParen]

def lengthOrScreen : List Token := lengthQuery ++ Token.comma :: colorScreen

theorem lengthUnread : (readQuery lengthQuery).value = none := by
  rw [readQuery,lengthQuery,readQueryFrom]
  rfl

theorem lengthWidened :
    (∃ rule, Guarded lengthQuery rule ∧ listMatches (fun _ => false) isColor lengthQuery = false ∧
      listMatches (fun _ => false) isColor (tokens rule.queriesText) = true) ∧
    ∃ rule, Guarded lengthOrScreen rule ∧ listMatches (fun _ => false) isColor lengthOrScreen = false ∧
      listMatches (fun _ => false) isColor (tokens rule.queriesText) = false := by
  have one : commaParts lengthQuery = [lengthQuery] := rfl
  have unread := unreadTest lengthUnread
  have length : Fits {} (fun _ => false) isColor lengthQuery := Or.inl lengthUnread
  constructor
  · have guarded : Guarded lengthQuery (.media (readQueries lengthQuery).value []) :=
      .media (show splitAtRule (ascii "@media") = _ by decide) rfl (mediaMade (by decide) lengthQuery [] [])
    have unmatched : listMatches (fun _ => false) isColor lengthQuery = false := by decide +kernel
    have widened := (droppedQueriesWiden {} _ isColor guarded (by decide) (by simpa [one] using length)
      unmatched (Or.inl rfl)).2.mpr (Or.inl (by simpa [one] using unread))
    exact ⟨_,guarded,unmatched,widened⟩
  · have found : readLocation (trimTokens (⟨.string,ascii "\"a\""⟩ :: lengthOrScreen)) =
        some (.quoted (ascii "a"),lengthOrScreen) := rfl
    exact ⟨_,.imports (show (splitAtRule (ascii "@import")).2 = _ by decide) found (importMade (by decide) found),
      by decide +kernel,by decide +kernel⟩

end Cascade
