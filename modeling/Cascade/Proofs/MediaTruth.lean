import Cascade.Optimizer.Rules
import Cascade.Proofs.MediaGrammar
import Cascade.Proofs.QueryText
import Cascade.Proofs.Repeated

/-! What media queries test once they have been read and printed. -/
namespace Cascade
open List MediaTest
open Token (space)
open MediaQuery (text write)
open MediaTest (ofPieces blocks)

variable {m : MediaQuery}

def MediaFeature.inside (f : MediaFeature) : Bytes :=
  match f.value with
  | none => f.name
  | some value => f.name ++ 58 :: Term.textOf value

theorem featureText (f : MediaFeature) : f.text = parenthesized f.inside := by
  obtain ⟨name,value⟩ := f
  cases value <;> rfl

structure MediaFeature.Stands (f : MediaFeature) : Prop where
  closed : Closed f.inside [41]
  balanced : Balanced (tokens f.inside)

structure Rendered (features : List Token → Bool) (b : List Token) (f : MediaFeature) : Prop extends f.Stands where
  same : features (tokens f.inside) = features b

structure Renders (features : List Token → Bool) (bs : List (List Token)) (fs : List MediaFeature) : Prop where
  each : ∀ f ∈ fs, ∃ b ∈ bs, Rendered features b f
  all : ∀ b ∈ bs, ∃ f ∈ fs, Rendered features b f

def printedBlocks (fs : List MediaFeature) : List (List Token) := fs.map fun f => tokens f.inside

section
variable {features : List Token → Bool} {bs : List (List Token)} {fs : List MediaFeature}

theorem rendersMap {g} (each : ∀ b ∈ bs, Rendered features b (g b)) : Renders features bs (bs.map g) := by
  constructor
  · intro f mem
    obtain ⟨b,there,rfl⟩ := mem_map.mp mem
    exact ⟨b,there,each b there⟩
  · intro b mem
    exact ⟨g b,mem_map_of_mem mem,each b mem⟩

variable (renders : Renders features bs fs)
include renders

theorem rendersNone : fs = [] ↔ bs = [] := by
  constructor <;> rintro rfl
  · refine eq_nil_iff_forall_not_mem.mpr fun b mem => ?_
    obtain ⟨f,bare,_⟩ := renders.all b mem
    cases bare
  · refine eq_nil_iff_forall_not_mem.mpr fun f mem => ?_
    obtain ⟨b,bare,_⟩ := renders.each f mem
    cases bare

theorem rendersEmpty : fs.isEmpty = bs.isEmpty := by
  rw [Bool.eq_iff_iff,List.isEmpty_iff,List.isEmpty_iff]
  exact rendersNone renders

theorem rendersStand : ∀ f ∈ fs, f.Stands := by
  intro f mem
  obtain ⟨b,_,rendered⟩ := renders.each f mem
  exact rendered.toStands

theorem rendersAll : (printedBlocks fs).all features = bs.all features := by
  rw [Bool.eq_iff_iff,all_eq_true,all_eq_true]
  constructor
  · intro holds b mem
    obtain ⟨f,there,rendered⟩ := renders.all b mem
    exact rendered.same ▸ holds _ (mem_map_of_mem there)
  · intro holds ts mem
    obtain ⟨f,there,rfl⟩ := mem_map.mp mem
    obtain ⟨b,given,rendered⟩ := renders.each f there
    exact rendered.same.trans (holds b given)

theorem rendersDistinct : Renders features bs (distinctBy MediaFeature.text fs) := by
  constructor
  · intro f mem
    exact renders.each f ((distinctFromSublist [] fs).subset mem)
  · intro b mem
    obtain ⟨f,there,rendered⟩ := renders.all b mem
    rcases distinctFromCovers MediaFeature.text [] there with known | ⟨g,stays,alike⟩
    · cases known
    · have inside : g.inside = f.inside := by simpa [featureText,parenthesized] using alike
      exact ⟨g,stays,⟨inside ▸ rendered.closed,inside ▸ rendered.balanced⟩,inside ▸ rendered.same⟩

end

theorem piecesSpace (ts) : mediaPieces (space :: ts) = mediaPieces ts := by
  rw [mediaPieces]
  rfl

theorem piecesWord (w ts) : mediaPieces (⟨.ident,w⟩ :: ts) = (mediaPieces ts).map (.word w :: ·) := by
  rw [mediaPieces]
  rfl

theorem piecesBlock {ts} (balanced : Balanced ts) (rest) :
    mediaPieces (leftParen :: (ts ++ rightParen :: rest)) = (mediaPieces rest).map (.block ts :: ·) := by
  rw [mediaPieces,untilCloseParen balanced]
  rfl

def andPieces (bs : List (List Token)) : List MediaPiece := bs.flatMap fun b => [.word (ascii "and"),.block b]

theorem andBlocks (bs) : blocksBehind "and" (andPieces bs) = some bs := by
  induction bs with
  | nil => rfl
  | cons b bs ih =>
    rw [andPieces,flatMap_cons,← andPieces]
    simp [blocksBehind,ih,isKeyword,sameLetters]

theorem standsEnclosed {f : MediaFeature} (stands : f.Stands) : Enclosed f.text :=
  featureText f ▸ enclosedParens stands.closed stands.balanced

theorem featuresEnclosed {fs} (full : fs ≠ []) (stand : ∀ f ∈ fs, f.Stands) :
    Enclosed (joinConditions (ascii "and") (fs.map MediaFeature.text)) := by
  exact enclosedMembers (.inl rfl) (by simpa using full) (forall_mem_map.mpr fun f there => standsEnclosed (stand f there))

theorem featuresPieces (f) {fs} (stand : ∀ g ∈ f :: fs, g.Stands) :
    mediaPieces (tokens (joinConditions (ascii "and") ((f :: fs).map MediaFeature.text))) =
      some (.block (tokens f.inside) :: andPieces (printedBlocks fs)) := by
  have here := stand f mem_cons_self
  have alone : tokens f.text = leftParen :: (tokens f.inside ++ [rightParen]) :=
    featureText f ▸ parenthesizedAlone here.closed
  induction fs generalizing f with
  | nil =>
    rw [map_singleton,joinConditions,intercalate_singleton,alone,piecesBlock here.balanced,mediaPieces]
    rfl
  | cons g fs ih =>
    have others := fun h mem => stand h (mem_cons_of_mem f mem)
    have next := others g mem_cons_self
    have more := ih g others next (featureText g ▸ parenthesizedAlone next.closed)
    have whole := joinAlone (.inl rfl) (standsEnclosed here) (featuresEnclosed (cons_ne_nil g fs) others)
    rw [map_cons,map_cons,joinConditionsCons,← map_cons,whole,alone,jointTokens]
    simp only [cons_append,append_assoc,nil_append]
    rw [piecesBlock here.balanced,piecesSpace,piecesWord,piecesSpace,more]
    rfl

def MediaQuery.tail (m : MediaQuery) : Bytes :=
  if m.features.isEmpty then []
  else 32 :: (ascii "and" ++ 32 :: joinConditions (ascii "and") (m.features.map MediaFeature.text))

theorem bareText (bare : m.medium = []) (full : m.features ≠ []) :
    m.text = joinConditions (ascii "and") (m.features.map MediaFeature.text) := by
  have printed : (m.features.map MediaFeature.text).isEmpty = false := by simpa using full
  simp only [text,write,bare,printed]
  exact append_nil _

theorem mediumText (full : m.medium ≠ []) :
    m.text = (if m.restrictor.isEmpty then [] else m.restrictor ++ [32]) ++ (m.medium ++ m.tail) := by
  have named : m.medium.isEmpty = false := by simpa using full
  rw [text,write,named,MediaQuery.tail]
  cases m.features <;> cases m.restrictor <;> simp [joinConditions,List.intercalate,ascii]

theorem tailPieces (named : EndsName m.medium (if m.features.isEmpty then [] else [32]))
    (stand : ∀ f ∈ m.features, f.Stands) :
    mediaPieces (tokens (m.medium ++ m.tail)) = some (.word m.medium :: andPieces (printedBlocks m.features)) := by
  rw [MediaQuery.tail]
  cases features : m.features with
  | nil =>
    rw [features] at named
    have word := wordToken named (by simp) (by simp [startsRange])
    simp only [isEmpty_nil,if_true] at word ⊢
    rw [word,piecesWord,tokens,tokensFrom,mediaPieces]
    rfl
  | cons f fs =>
    rw [features] at named stand
    obtain ⟨u,opens⟩ := (featuresEnclosed (cons_ne_nil f fs) stand).opens
    have pieces := featuresPieces f stand
    rw [opens] at pieces ⊢
    have apart : EndsName m.medium (32 :: (ascii "and" ++ 32 :: 40 :: u)) := named
    simp only [isEmpty_cons,Bool.false_eq_true,if_false]
    rw [wordToken apart (by simp) (by simp [startsRange]),jointText (.inl rfl),piecesWord,jointTokens]
    simp only [cons_append,nil_append]
    rw [piecesSpace,piecesWord,piecesSpace,pieces]
    rfl

theorem keywordPieces {keyword} (known : ascii keyword ∈ reservedWords) {w s : Bytes}
    (is : isKeyword keyword w) (solid : ∀ b ∈ s.head?, isBlankByte b = false) :
    mediaPieces (tokens (w ++ 32 :: s)) = (mediaPieces (tokens s)).map (.word w :: ·) := by
  obtain ⟨full,letters⟩ := keywordLetters known is
  have ends : EndsName w (32 :: s) := lettersName full letters (by simp; decide)
  rw [wordToken ends (by simp) (by simp [startsRange]),piecesWord,tokensSpace solid,piecesSpace]

section

theorem ofWord {w} (other : lower w ≠ ascii "not" ∧ lower w ≠ ascii "only") (bs) :
    ofPieces (.word w :: andPieces bs) = readMedium false w (andPieces bs) := by
  have plain : isKeyword "not" w = false ∧ isKeyword "only" w = false := by
    constructor <;> rw [Bool.eq_false_iff] <;> intro is
    · exact other.1 (keywordLower (by decide) is)
    · exact other.2 (keywordLower (by decide) is)
  cases bs with
  | nil => rfl
  | cons b bs =>
    rw [andPieces,flatMap_cons]
    simp [ofPieces,plain]

theorem readFree {w} (free : lower w ∉ reservedWords) (negated bs) :
    readMedium negated w (andPieces bs) = some (.medium negated w bs) := by
  rw [readMedium,if_neg (mt contains_iff_mem.mp free),andBlocks]
  rfl

section
variable {m : MediaQuery} (named : EndsName m.medium (if m.features.isEmpty then [] else [32]))
  (stand : ∀ f ∈ m.features, f.Stands)
include named stand

theorem freePieces (bare : m.restrictor = []) :
    mediaPieces (tokens m.text) = some (.word m.medium :: andPieces (printedBlocks m.features)) := by
  rw [mediumText named.1,bare,isEmpty_nil,if_pos rfl,nil_append,tailPieces named stand]

theorem restrictedPieces {keyword} (known : ascii keyword ∈ reservedWords)
    (is : isKeyword keyword m.restrictor) : mediaPieces (tokens m.text) =
      some (.word m.restrictor :: .word m.medium :: andPieces (printedBlocks m.features)) := by
  have full : m.restrictor.isEmpty = false := by simpa using (keywordLetters known is).1
  have solid : ∀ b ∈ (m.medium ++ m.tail).head?, isBlankByte b = false := by
    obtain ⟨x,u,same,word⟩ := wordCons named
    intro b mem
    rw [same] at mem
    cases mem
    exact (wordStart word).1
  have whole : m.text = m.restrictor ++ 32 :: (m.medium ++ m.tail) := by
    rw [mediumText named.1,full,if_neg Bool.false_ne_true,append_assoc]
    rfl
  rw [whole,keywordPieces known is solid,tailPieces named stand]
  rfl

theorem mediumAgain {negated} (restricts : Restricts negated m.restrictor) (free : lower m.medium ∉ reservedWords) :
    readTest (tokens m.text) = some (.medium negated m.medium (printedBlocks m.features)) := by
  rw [readTest]
  rcases restricts with ⟨bare,rfl⟩ | ⟨is,rfl⟩ | ⟨is,rfl⟩
  · have other : lower m.medium ≠ ascii "not" ∧ lower m.medium ≠ ascii "only" := by
      simp only [reservedWords,mem_cons,not_mem_nil,or_false,not_or] at free
      exact free.2.2
    rw [freePieces named stand bare,Option.bind_some,ofWord other,readFree free]
  · rw [restrictedPieces named stand (by decide) is,Option.bind_some,ofPieces,if_pos is,readFree free]
  · have other : ¬isKeyword "not" m.restrictor := fun negates =>
      absurd ((keywordLower (by decide) is).symm.trans (keywordLower (by decide) negates)) (by decide)
    rw [restrictedPieces named stand (by decide) is,Option.bind_some,ofPieces,if_neg other,
      if_pos is,readFree free]

theorem keywordMedium (is : isKeyword "or" m.medium) (bare : m.restrictor = []) :
    readTest (tokens m.text) = none := by
  have same := keywordLower (by decide) is
  have other : lower m.medium ≠ ascii "not" ∧ lower m.medium ≠ ascii "only" := by rw [same]; decide
  rw [readTest,freePieces named stand bare,Option.bind_some,ofWord other,readMedium,if_pos (by rw [same]; decide)]

end

theorem bareAgain (bare : m.medium = []) (full : m.features ≠ []) (stand : ∀ f ∈ m.features, f.Stands) :
    readTest (tokens m.text) = some (.every (printedBlocks m.features)) := by
  rw [readTest,bareText bare full]
  cases features : m.features with
  | nil => exact absurd features full
  | cons f fs =>
    rw [features] at stand
    rw [featuresPieces f stand,Option.bind_some,ofPieces,andBlocks]
    rfl

/- What a query comes to once it is printed: a negated feature comes to the opposite, and
alternatives are no query. -/
def MediaTest.printed (types : Bytes → Bool) (features : List Token → Bool) : MediaTest → Option Bool
  | .negation b => some (!(negation b).holds types features)
  | .any _ => none
  | test => some (test.holds types features)

variable {types : Bytes → Bool} {features : List Token → Bool}

/- The medium of a test, if it has one, is a name where it is printed, in small letters too,
and their case does not matter. -/
structure MediaTest.Named (types : Bytes → Bool) (test : MediaTest) : Prop where
  ends : ∀ negated type bs, test = .medium negated type bs → ∀ name ∈ [type,lower type],
    EndsName name (if bs.isEmpty then [] else [32])
  cased : ∀ negated type bs, test = .medium negated type bs → types (lower type) = types type

theorem printedMeaning {test : MediaTest} (spelled : test.Spelled m)
    (renders : Renders features test.blocks m.features) (named : test.Named types) :
    meaning types features (tokens m.text) = test.printed types features := by
  have stand := rendersStand renders
  have all := rendersAll renders
  rw [meaning]
  cases test with
  | medium negated type bs =>
    obtain ⟨name,free,restricts⟩ := spelled
    have ends := named.ends negated type bs rfl m.medium name
    have small : lower m.medium = lower type ∧ types m.medium = types type := by
      simp only [mem_cons,not_mem_nil,or_false] at name
      rcases name with same | same <;> rw [same]
      · exact ⟨rfl,rfl⟩
      · exact ⟨lowerTwice type,named.cased negated type bs rfl⟩
    have empty : m.features.isEmpty = bs.isEmpty := rendersEmpty renders
    rw [← empty] at ends
    rw [mediumAgain ends stand restricts (small.1 ▸ free)]
    simp only [Option.map_some,printed,MediaTest.holds,small.2,all,blocks]
  | every bs =>
    obtain ⟨bare,full⟩ := spelled
    rw [bareAgain bare (fun empty => full ((rendersNone renders).mp empty)) stand]
    simp only [Option.map_some,printed,MediaTest.holds,all,blocks]
  | negation b =>
    rw [bareAgain spelled (fun empty => absurd ((rendersNone renders).mp empty) (cons_ne_nil b [])) stand]
    simp [printed,MediaTest.holds,all,blocks]
  | any bs =>
    obtain ⟨is,bare,full⟩ := spelled
    obtain ⟨filled,letters⟩ := keywordLetters (by decide) is
    have ends : EndsName m.medium (if m.features.isEmpty then [] else [32]) := by
      refine lettersName filled letters ?_
      split <;> simp
      decide
    rw [keywordMedium ends stand is bare]
    rfl

def MediaTest.isConjunction : MediaTest → Bool
  | .medium .. | .every _ => true
  | .negation _ | .any _ => false

theorem printedSame (test : MediaTest) :
    test.printed types features = some (test.holds types features) ↔ test.isConjunction := by
  cases test <;> simp [printed,isConjunction]

theorem optimizedQuery (ctx) (m : MediaQuery) : (m.optimize ctx).value =
    ⟨lower m.restrictor,lower m.medium,
      distinctBy MediaFeature.text (m.features.map fun f => (f.optimize ctx).value)⟩ := by
  rw [MediaQuery.optimize,Noted.valueBind,Noted.valueMapM,Noted.valuePure]

theorem queriesRender {ctx} {test : MediaTest} (blocks : m.features = test.blocks.map readFeature)
    (spelled : test.Spelled m) (rendered : ∀ b ∈ test.blocks,
      Rendered features b (readFeature b) ∧ Rendered features b ((readFeature b).optimize ctx).value) :
    ∀ q ∈ [m,(m.optimize ctx).value], test.Spelled q ∧ Renders features test.blocks q.features := by
  simp only [forall_mem_cons,optimizedQuery,blocks,map_map]
  exact ⟨⟨spelled,rendersMap fun b mem => (rendered b mem).1⟩,
    ⟨spelledSmall spelled rfl rfl,rendersDistinct (rendersMap fun b mem => (rendered b mem).2)⟩,forall_mem_nil _⟩

/- A media query comes to the same once it is read and printed, optimized or not, if it tests
a medium or features one and all. A negated feature comes to the opposite, and alternatives
are printed as no query at all. -/
theorem mediaMeaningPrinted (ctx : Context) (types : Bytes → Bool) (features : List Token → Bool)
    {ts : List Token} {test : MediaTest} (read : readTest ts = some test) (named : test.Named types)
    (rendered : ∀ b ∈ test.blocks,
      Rendered features b (readFeature b) ∧ Rendered features b ((readFeature b).optimize ctx).value) :
    ∃ m, (readQuery ts).value = some m ∧ ∀ text ∈ [m.text,(m.optimize ctx).value.text],
      meaning types features (tokens text) = test.printed types features ∧
      (meaning types features (tokens text) = meaning types features ts ↔ test.isConjunction = true) := by
  obtain ⟨ps,pieces,grammar⟩ := Option.bind_eq_some_iff.mp read
  obtain ⟨m,added,blocks,spelled⟩ := testRead grammar
  have found : (readQuery ts).value = some m := by
    rw [readQuery,readPieces _ pieces,added]
    rfl
  have source : meaning types features ts = some (test.holds types features) := by
    rw [meaning,read]
    rfl
  refine ⟨m,found,(forall_mem_map (f := text) (l := [m,(m.optimize ctx).value])).mpr fun q mem => ?_⟩
  obtain ⟨spells,renders⟩ := queriesRender blocks spelled rendered q mem
  rw [printedMeaning spells renders named,source]
  exact ⟨rfl,printedSame test⟩

end

def isScreen (type : Bytes) : Bool := lower type == ascii "screen"

def isColor (ts : List Token) : Bool := lower (tokensText ts) == ascii "color"

def colorWord (name : String) : List Token := [⟨.ident,ascii name⟩]

theorem colorRendered : ∀ b ∈ [colorWord "Color",colorWord "color"], Rendered isColor b (readFeature b) ∧
    Rendered isColor b ((readFeature b).optimize {}).value := by
  simp only [forall_mem_cons]
  refine ⟨⟨⟨⟨?_,?_⟩,?_⟩,⟨?_,?_⟩,?_⟩,⟨⟨⟨?_,?_⟩,?_⟩,⟨?_,?_⟩,?_⟩,forall_mem_nil _⟩ <;> decide +kernel

def screenQuery : Bytes := ascii "NOT Screen and (Color) and (color)"

def negatedQuery : Bytes := ascii "not (color)"

theorem screenRead : readTest (tokens screenQuery) =
    some (.medium true (ascii "Screen") [colorWord "Color",colorWord "color"]) := by with_unfolding_all rfl

theorem negatedRead : readTest (tokens negatedQuery) = some (.negation (colorWord "color")) := by with_unfolding_all rfl

theorem screensPrinted :
    (∃ m, (readQuery (tokens screenQuery)).value = some m ∧ ∀ text ∈ [m.text,(m.optimize {}).value.text],
      meaning isScreen isColor (tokens text) = some false) ∧
    ∃ m, (readQuery (tokens negatedQuery)).value = some m ∧ ∀ text ∈ [m.text,(m.optimize {}).value.text],
      meaning isScreen isColor (tokens text) = some true ∧
      meaning isScreen isColor (tokens text) ≠ meaning isScreen isColor (tokens negatedQuery) := by
  constructor
  · have named : (medium true (ascii "Screen") [colorWord "Color",colorWord "color"]).Named isScreen := by
      constructor <;> rintro _ _ _ ⟨⟩
      · simp only [forall_mem_cons]
        exact ⟨by decide,by decide,forall_mem_nil _⟩
      · decide
    obtain ⟨m,found,printed⟩ := mediaMeaningPrinted {} isScreen isColor screenRead named colorRendered
    exact ⟨m,found,fun text mem => (printed text mem).1.trans (by decide)⟩
  · have named : (MediaTest.negation (colorWord "color")).Named isScreen := by
      constructor <;> rintro _ _ _ ⟨⟩
    obtain ⟨m,found,printed⟩ := mediaMeaningPrinted {} isScreen isColor negatedRead named fun b mem =>
      colorRendered b (mem_cons_of_mem _ mem)
    refine ⟨m,found,fun text mem => ⟨(printed text mem).1.trans (by decide),fun same => ?_⟩⟩
    cases (printed text mem).2.mp same

end Cascade
