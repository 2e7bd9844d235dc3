import Cascade.Proofs.MatchedElements
import Cascade.Proofs.Passing

/-! The boxes that selectors match: elements, and pseudo-elements of elements if a selector names them. -/
namespace Cascade
open List Component
open Component (again text matched)

variable {c s : Component} {cs ss : List Component}

abbrev Box (ε : Type) := ε × Option Bytes

def Component.pseudo : Component → Option Bytes
  | .pseudoElement name => some (lower name)
  | .pseudoClass name => if singleColonElements.contains (lower name) then some (lower name) else none
  | _ => none

def Component.conjuncts : Component → List Component
  | .compound cs => cs
  | c => [c]

def Component.pseudos (s : Component) : List Bytes := s.subject.conjuncts.filterMap pseudo

/- Every element answers to the universal condition, only boxes of a pseudo-element to its name, and
a combinator picks some of what its right side matches. -/
structure Scene (ε : Type) extends Matching (Box ε) where
  everything : condition universal = Set.univ
  named : ∀ name, condition (58 :: 58 :: name) ⊆ {b | b.2 = some name}
  single : ∀ name ∈ singleColonElements, condition (58 :: name) ⊆ {b | b.2 = some name}
  within : ∀ kind left right, combinator kind left right ⊆ right

variable {ε : Type}

/- What a single selector matches: elements, and other boxes if it names a pseudo-element. -/
def Component.covers (ctx : Context) (m : Scene ε) (s : Component) : Set (Box ε) :=
  {b | b ∈ s.matched ctx m.toMatching ∧ (b.2 = none ∨ s.pseudos ≠ [])}

def Component.boxes (ctx : Context) (m : Scene ε) (s : Component) : Set (Box ε) :=
  {b | ∃ t ∈ s.selectors, b ∈ t.covers ctx m}

def Component.isCondition : Component → Bool
  | .compound _ | .complex .. | .list _ => false
  | _ => true

mutual

def Component.Flat : Component → Prop
  | .list ss => Component.AllFlat ss
  | .compound cs => (∀ c ∈ cs, c.isCondition = true) ∧ Component.AllFlat cs
  | .complex _ left right => (left.isList = false ∧ right.isList = false) ∧ left.Flat ∧ right.Flat
  | .negation s | .selectorCall _ s => s.Flat
  | .element name _ _ => name ≠ []
  | _ => True

def Component.AllFlat : List Component → Prop
  | [] => True
  | c :: cs => c.Flat ∧ Component.AllFlat cs

end

theorem allFlat : Component.AllFlat cs ↔ ∀ c ∈ cs, c.Flat := by
  induction cs with
  | nil => simp [Component.AllFlat]
  | cons c cs ih => simp [Component.AllFlat,ih]

theorem ofSelectorsFlat (each : ∀ s ∈ ss, s.Flat) : (ofSelectors ss).Flat := by
  unfold ofSelectors
  split
  · exact each _ mem_cons_self
  · exact allFlat.mpr each

theorem flatShape : ShapeRule (fun t => t.text ≠ []) (fun c => c.isCondition ∧ c.Flat)
    fun s => s.Flat ∧ s.isList = false where
  className _ _ := ⟨rfl,trivial⟩
  element _ full _ := ⟨rfl,full⟩
  id _ _ := ⟨rfl,trivial⟩
  attr _ _ _ _ := ⟨rfl,trivial⟩
  pseudoElement _ _ := ⟨rfl,trivial⟩
  pseudoElementCall _ _ := ⟨rfl,trivial⟩
  pseudoClass _ _ := ⟨rfl,trivial⟩
  plain _ _ := ⟨rfl,trivial⟩
  nth _ _ _ _ := ⟨rfl,trivial⟩
  negation _ each := ⟨rfl,ofSelectorsFlat fun s mem => (each s mem).1⟩
  selectorCall _ _ _ each := ⟨rfl,ofSelectorsFlat fun s mem => (each s mem).1⟩
  compound _ each := ⟨⟨fun c mem => (each c mem).1,allFlat.mpr fun c mem => (each c mem).2⟩,rfl⟩
  complex _ left _ each :=
    ⟨⟨⟨left.2,rfl⟩,left.1,fun c mem => (each c mem).1,allFlat.mpr fun c mem => (each c mem).2⟩,rfl⟩

section

theorem encodeSome (c) : encode c ≠ [] := by
  rw [encode]
  split
  · simp
  · split
    · simp
    · split <;> simp

theorem lowerSome {name : Bytes} (full : name ≠ []) : lower name ≠ [] := by
  cases name with
  | nil => exact absurd rfl full
  | cons b s =>
    have first : scalars (b :: s) ≠ [] := by
      rw [scalars,characters,charactersFrom]
      split <;> simp
    rw [lowerScalars,encodeAll]
    cases code : scalars (b :: s) with
    | nil => exact absurd code first
    | cons c cs => simp [encodeSome]

variable {ctx : Context}

theorem simpleSome (simple : c.isSimple) (flat : c.Flat) : (c.again ctx).text ≠ [] := by
  cases c with
  | element name ns hasNs =>
    have again : (element name ns hasNs).again ctx = .element (lower name) (lower ns) hasNs := rfl
    rw [again,text]
    cases hasNs with
    | true => simp
    | false => exact lowerSome flat
  | attr name comparison value flag =>
    rw [againAttr]
    cases value with
    | none => exact cons_ne_nil _ _
    | some value => exact cons_ne_nil _ _
  | id | className | pseudoElement | pseudoClass => exact cons_ne_nil _ _
  | pseudoCall name args =>
    have again : (pseudoCall name args).again ctx =
        .pseudoCall (lower name) (Term.optimize (ctx.inFunction (lower name)) args).value := rfl
    exact cons_ne_nil _ _
  | nth name formula =>
    have again : (nth name formula).again ctx = .nth (lower name) (finishFormula (formula.again ctx)) := rfl
    exact cons_ne_nil _ _
  | _ => cases simple

theorem simpleCondition (simple : c.isSimple) : c.isCondition := by
  cases c with
  | compound | complex | list => cases simple
  | _ => rfl

theorem callText (call : c.isSimple = false) (condition : c.isCondition) (parsed : c.Parsed) :
    ∃ s, (c.again ctx).text = 58 :: s := by
  cases parsed with
  | simple alone => cases call.symm.trans alone
  | @negation s =>
    have again : (negation s).again ctx = .negation (s.again ctx) := rfl
    rw [again]
    exact ⟨_,rfl⟩
  | @selectorCall name s =>
    have again : (selectorCall name s).again ctx = .selectorCall (lower name) (s.again ctx) := rfl
    exact ⟨_,rfl⟩
  | compound | complex | list => cases condition

theorem conditionSome (condition : c.isCondition) (parsed : c.Parsed) (flat : c.Flat) : (c.again ctx).text ≠ [] := by
  cases simple : c.isSimple with
  | true => exact simpleSome simple flat
  | false =>
    obtain ⟨s,text⟩ : ∃ s, (c.again ctx).text = 58 :: s := callText simple condition parsed
    rw [text]
    exact cons_ne_nil _ _

theorem conditionUniversal {m : Scene ε} (condition : c.isCondition) (parsed : c.Parsed)
    (star : (c.again ctx).text = universal) : c.matched ctx m.toMatching = Set.univ := by
  cases simple : c.isSimple with
  | true => rw [simpleMatched _ simple,star,m.everything]
  | false =>
    obtain ⟨s,text⟩ : ∃ s, (c.again ctx).text = 58 :: s := callText simple condition parsed
    rw [text] at star
    cases star

end

theorem pseudosMem {q} : q ∈ s.pseudos ↔ ∃ c ∈ s.subject.conjuncts, c.pseudo = some q :=
  mem_filterMap

theorem conditionConjuncts (condition : c.isCondition) : c.subject.conjuncts = [c] := by
  cases c with
  | compound | complex | list => cases condition
  | _ => rfl

theorem conditionAgain (ctx) (condition : c.isCondition) (parsed : c.Parsed) :
    (c.again ctx).isCondition ∧ (c.again ctx).pseudo = c.pseudo := by
  cases parsed with
  | negation | selectorCall => exact ⟨rfl,rfl⟩
  | compound | complex | list => cases condition
  | simple alone =>
    cases c with
    | pseudoElement name =>
      have again : (pseudoElement name).again ctx = .pseudoElement (lower name) := rfl
      rw [again,pseudo,lowerTwice]
      exact ⟨rfl,rfl⟩
    | pseudoClass name =>
      have again : (pseudoClass name).again ctx = .pseudoClass (lower name) := rfl
      rw [again,pseudo,lowerTwice]
      exact ⟨rfl,rfl⟩
    | attr name comparison value flag =>
      rw [againAttr]
      exact ⟨rfl,rfl⟩
    | id | className | element | pseudoCall | nth => exact ⟨rfl,rfl⟩
    | _ => cases alone

theorem universalNamesNone (star : c.text = universal) : c.pseudo = none := by
  cases c with
  | pseudoElement | pseudoClass => cases star
  | _ => rfl

section
variable {ctx : Context}

theorem conditionsCover (ctx) {ds d} (mem : d ∈ ds) :
    d.text = universal ∨ ∃ e ∈ compoundConditions ctx ds, e.text = d.text := by
  obtain ⟨e,stays,same⟩ := mem_map.mp ((distinctTexts d.text).mpr (mem_map_of_mem (f := text) mem))
  rw [compoundConditions]
  split
  · by_cases star : e.text = universal
    · exact .inl (same.symm.trans star)
    · exact .inr ⟨e,mem_filter.mpr ⟨stays,by simpa using star⟩,same⟩
  · exact .inr ⟨e,stays,same⟩

theorem conditionsAgain (last : ∀ c ∈ cs, c.Lasts ctx) :
    (compound cs).again ctx = .compound (compoundConditions ctx (cs.map (again ctx))) := by
  rw [again,compoundOutcome,survivorsLast last]

theorem conditionLeft (apart : Apart ctx cs) (mem : c ∈ cs) (other : (c.again ctx).text ≠ universal) :
    c.again ctx ∈ compoundConditions ctx (cs.map (again ctx)) := by
  rcases conditionsCover ctx (mem_map_of_mem (f := again ctx) mem) with star | ⟨e,left,same⟩
  · exact absurd star other
  · obtain ⟨d,there,rfl⟩ := mem_map.mp (conditionsMem left)
    rwa [← apart d there c mem same]

theorem flattenSingle {b} {texts : List Bytes} (full : ∀ t ∈ texts, t ≠ []) (one : texts.flatten = [b]) :
    ∀ t ∈ texts, t = [b] := by
  cases texts with
  | nil => cases one
  | cons t rest =>
    have first := full t mem_cons_self
    rw [flatten_cons,append_eq_singleton_iff] at one
    rcases one with ⟨bare,_⟩ | ⟨same,bare⟩
    · exact absurd bare first
    · refine forall_mem_cons.mpr ⟨same,fun u later => ?_⟩
      exact absurd (flatten_eq_nil_iff.mp bare u later) (full u (mem_cons_of_mem _ later))

end

section
variable {ds : List Component}

theorem arrangeUniversal (star : ∃ d ∈ ds, d.text = universal) :
    ∃ e ∈ ds, e.text = universal ∧ arrangeSelectors true ds = [e] := by
  obtain ⟨d,mem,text⟩ := star
  have there : universal ∈ (distinctBy Component.text (sortSelectors ds)).map Component.text := by
    rw [distinctTexts,← text]
    exact mem_map_of_mem (mem_mergeSort.mpr mem)
  obtain ⟨e,stays,same⟩ := mem_map.mp there
  have source : ∀ e ∈ distinctBy Component.text (sortSelectors ds), e ∈ ds := fun e stays =>
    mem_mergeSort.mp ((distinctFromSublist _ _).subset stays)
  rw [arrangeSelectors,if_pos rfl,absorbUniversal]
  split
  · cases found : (distinctBy Component.text (sortSelectors ds)).find? fun s => s.text == universal with
    | none => exact absurd same (by simpa using find?_eq_none.mp found e stays)
    | some f => exact ⟨f,source f (mem_of_find?_eq_some found),by simpa using find?_some found,rfl⟩
  · rename_i few
    obtain ⟨f,only⟩ := length_eq_one_iff.mp (Nat.le_antisymm (Nat.not_lt.mp few) (length_pos_of_mem stays))
    rw [only,mem_singleton] at stays
    exact ⟨e,source e (by simp [only,stays]),same,by rw [only,stays]⟩

end

section
variable {ctx : Context} (keeps : ctx.keepHacks = true)
include keeps

theorem parsedStays (parsed : c.Parsed) : c.Lasts ctx := (fullTidied keeps c (parsedFull parsed)).lasts

theorem compoundUniversal (each : ∀ c ∈ cs, c.Parsed) (flat : (compound cs).Flat)
    (star : ((compound cs).again ctx).text = universal) :
    (∀ c ∈ cs, (c.again ctx).text = universal) ∧
      ∀ d ∈ compoundConditions ctx (cs.map (again ctx)), d.text = universal := by
  rw [conditionsAgain fun c mem => parsedStays keeps (each c mem),text,textsMap] at star
  have left : ∀ d ∈ compoundConditions ctx (cs.map (again ctx)), d.text = universal := by
    intro d mem
    refine flattenSingle (fun text there => ?_) star d.text (mem_map_of_mem mem)
    obtain ⟨e,stays,rfl⟩ := mem_map.mp there
    obtain ⟨c,inside,rfl⟩ := mem_map.mp (conditionsMem stays)
    exact conditionSome (flat.1 c inside) (each c inside) (allFlat.mp flat.2 c inside)
  refine ⟨fun c mem => ?_,left⟩
  rcases conditionsCover ctx (mem_map_of_mem (f := again ctx) mem) with same | ⟨e,stays,same⟩
  · exact same
  · exact same.symm.trans (left e stays)

theorem selectorSome (single : s.isList = false) (parsed : s.Parsed) (flat : s.Flat) : (s.again ctx).text ≠ [] := by
  cases parsed with
  | simple alone => exact simpleSome alone flat
  | negation inner => exact conditionSome rfl (.negation inner) flat
  | selectorCall inner => exact conditionSome rfl (.selectorCall inner) flat
  | list => cases single
  | complex left right =>
    rw [complexAgain (parsedStays keeps left),text]
    simp
  | @compound cs full each =>
    rw [conditionsAgain fun c mem => parsedStays keeps (each c mem),text,textsMap]
    have left := keptConditions ctx (by simpa using full : cs.map (again ctx) ≠ [])
    obtain ⟨d,mem⟩ := exists_mem_of_ne_nil _ left
    obtain ⟨c,inside,rfl⟩ := mem_map.mp (conditionsMem mem)
    intro bare
    exact conditionSome (flat.1 c inside) (each c inside) (allFlat.mp flat.2 c inside)
      (flatten_eq_nil_iff.mp bare _ (mem_map_of_mem mem))

theorem selectorUniversal {m : Scene ε} {s : Component} (single : s.isList = false) (parsed : s.Parsed) (flat : s.Flat)
    (star : (s.again ctx).text = universal) : s.matched ctx m.toMatching = Set.univ ∧ (s.again ctx).pseudos = [] := by
  have alike : s.isCondition → s.Parsed → s.matched ctx m.toMatching = Set.univ ∧ (s.again ctx).pseudos = [] := by
    intro condition parsed
    refine ⟨conditionUniversal condition parsed star,?_⟩
    rw [pseudos,conditionConjuncts (conditionAgain ctx condition parsed).1]
    simp [universalNamesNone star]
  cases parsed with
  | simple alone => exact alike (simpleCondition alone) (.simple alone)
  | negation inner => exact alike rfl (.negation inner)
  | selectorCall inner => exact alike rfl (.selectorCall inner)
  | list => cases single
  | complex left right =>
    have full := selectorSome keeps flat.1.1 left flat.2.1
    rw [complexAgain (parsedStays keeps left),text] at star
    have length := congrArg List.length star
    have one : universal.length = 1 := rfl
    simp only [length_append,length_singleton] at length
    exact absurd (length_eq_zero_iff.mp (by omega)) full
  | @compound cs _ each =>
    obtain ⟨all,left⟩ := compoundUniversal keeps each flat star
    constructor
    · ext b
      rw [matched,matchedAll]
      simp only [Set.mem_univ,iff_true]
      intro c mem
      rw [conditionUniversal (flat.1 c mem) (each c mem) (all c mem)]
      trivial
    · rw [conditionsAgain fun c mem => parsedStays keeps (each c mem),eq_nil_iff_forall_not_mem]
      intro q mem
      obtain ⟨d,there,names⟩ := pseudosMem.mp mem
      rw [universalNamesNone (left d there)] at names
      cases names

theorem selectorsAgain (full : ss ≠ []) (last : ∀ s ∈ ss, s.Lasts ctx) :
    (list ss).again ctx = .ofSelectors (arrangeSelectors ctx.aggressive (ss.map (again ctx))) := by
  have left := (@arrangedSelectors ctx.aggressive (ss.map (again ctx)) (by simpa using full)).1
  rw [again,listOutcome,survivorsLast last,leftSelectors,if_pos keeps]
  split
  · rename_i bare
    exact absurd bare left
  · rfl

theorem compoundMatchedThorough {m : Scene ε} (each : ∀ c ∈ cs, c.Parsed) (flat : ∀ c ∈ cs, c.isCondition)
    (apart : Apart ctx cs) (same : ∀ c ∈ cs, (c.again ctx).matched ctx m.toMatching = c.matched ctx m.toMatching) :
    ((compound cs).again ctx).matched ctx m.toMatching = (compound cs).matched ctx m.toMatching := by
  ext b
  rw [conditionsAgain fun c mem => parsedStays keeps (each c mem),matched,matched,matchedAll,matchedAll]
  constructor
  · intro all c mem
    by_cases star : (c.again ctx).text = universal
    · rw [conditionUniversal (flat c mem) (each c mem) star]
      trivial
    · rw [← same c mem]
      exact all _ (conditionLeft apart mem star)
  · intro all d mem
    obtain ⟨c,there,rfl⟩ := mem_map.mp (conditionsMem mem)
    rw [same c there]
    exact all c there

variable (thorough : ctx.aggressive = true)
include thorough

theorem listThorough (full : ss ≠ []) (each : ∀ s ∈ ss, s.Parsed) :
    (∃ s ∈ ss, (s.again ctx).text = universal ∧ (list ss).again ctx = .ofSelectors [s.again ctx]) ∨
      (∀ s ∈ ss, (s.again ctx).text ≠ universal) ∧ (list ss).again ctx =
        .ofSelectors (distinctBy text (sortSelectors (ss.map (again ctx)))) := by
  rw [selectorsAgain keeps full fun s mem => parsedStays keeps (each s mem),thorough]
  by_cases star : ∃ d ∈ ss.map (again ctx), d.text = universal
  · obtain ⟨d,mem,text,alone⟩ := arrangeUniversal star
    obtain ⟨s,there,rfl⟩ := mem_map.mp mem
    exact .inl ⟨s,there,text,by rw [alone]⟩
  · have others : ∀ d ∈ ss.map (again ctx), d.text ≠ universal := fun d mem text => star ⟨d,mem,text⟩
    refine .inr ⟨fun s mem => others _ (mem_map_of_mem mem),?_⟩
    rw [arrangeNarrow fun _ => others]

omit keeps thorough in
theorem sortedAgain (apart : Apart ctx ss) {d} :
    d ∈ distinctBy text (sortSelectors (ss.map (again ctx))) ↔ ∃ s ∈ ss, s.again ctx = d :=
  distinctAgain apart fun _ => mem_mergeSort

theorem matchedThorough {m : Scene ε} (parsed : c.Parsed) (flat : c.Flat) (legible : c.Legible ctx) :
    (c.again ctx).matched ctx m.toMatching = c.matched ctx m.toMatching := by
  induction parsed with
  | simple alone =>
    have rests := properRests _ (simpleFull alone).2 (parsedStays keeps (.simple alone))
    rw [simpleAgain _ alone,simpleMatched _ alone,(restsIff.mp rests).2]
  | negation inner ih => exact congrArg (·ᶜ) (ih flat legible)
  | @selectorCall name s inner ih => exact congrArg₂ m.function (lowerTwice name) (ih flat legible)
  | compound full each ih =>
    have inside := allLegible.mp legible.2
    have parts := allFlat.mp flat.2
    exact compoundMatchedThorough keeps each flat.1 legible.1 fun c mem => ih c mem (parts c mem) (inside c mem)
  | complex left right first second =>
    rw [complexAgain (parsedStays keeps left),matched,matched,first flat.2.1 legible.1,
      second flat.2.2 legible.2]
  | @list ss full single each ih =>
    have inside := allLegible.mp legible.2
    have parts := allFlat.mp flat
    ext b
    rw [matched,matchedAny]
    rcases listThorough keeps thorough full each with ⟨s,mem,star,alone⟩ | ⟨_,all⟩
    · have every := (selectorUniversal (m := m) keeps (single s mem) (each s mem) (parts s mem) star).1
      rw [alone,matchedSelectors,matchedAny]
      simp only [mem_singleton,exists_eq_left,ih s mem (parts s mem) (inside s mem),every,Set.mem_univ,true_iff]
      exact ⟨s,mem,by rw [every]; trivial⟩
    · rw [all,matchedSelectors,matchedAny]
      simp only [sortedAgain legible.1,exists_exists_and_eq_and]
      exact exists_congr fun s => and_congr_right fun mem => by rw [ih s mem (parts s mem) (inside s mem)]

omit thorough in
theorem pseudosAgain (single : s.isList = false) (parsed : s.Parsed) (flat : s.Flat) (legible : s.Legible ctx)
    (q) : q ∈ (s.again ctx).pseudos ↔ q ∈ s.pseudos := by
  have alike : ∀ {c : Component}, c.isCondition → c.Parsed → (q ∈ (c.again ctx).pseudos ↔ q ∈ c.pseudos) := by
    intro c condition parsed
    obtain ⟨still,names⟩ := conditionAgain ctx condition parsed
    rw [pseudosMem,pseudosMem,conditionConjuncts still,conditionConjuncts condition]
    simp [names]
  induction parsed with
  | simple alone => exact alike (simpleCondition alone) (.simple alone)
  | negation inner => exact alike rfl (.negation inner)
  | selectorCall inner => exact alike rfl (.selectorCall inner)
  | list => cases single
  | complex left right _ second =>
    rw [complexAgain (parsedStays keeps left)]
    exact second flat.1.2 flat.2.2 legible.2
  | @compound cs _ each _ =>
    rw [conditionsAgain fun c mem => parsedStays keeps (each c mem),pseudosMem,pseudosMem]
    constructor
    · rintro ⟨d,mem,names⟩
      obtain ⟨c,there,rfl⟩ := mem_map.mp (conditionsMem mem)
      exact ⟨c,there,(conditionAgain ctx (flat.1 c there) (each c there)).2 ▸ names⟩
    · rintro ⟨c,mem,names⟩
      have still := (conditionAgain ctx (flat.1 c mem) (each c mem)).2.trans names
      refine ⟨c.again ctx,conditionLeft legible.1 mem fun star => ?_,still⟩
      rw [universalNamesNone star] at still
      cases still

theorem coversAgain {m : Scene ε} (single : s.isList = false) (parsed : s.Parsed) (flat : s.Flat)
    (legible : s.Legible ctx) : (s.again ctx).covers ctx m = s.covers ctx m := by
  have names : (s.again ctx).pseudos ≠ [] ↔ s.pseudos ≠ [] := by
    simp only [ne_eq,eq_nil_iff_forall_not_mem,pseudosAgain keeps single parsed flat legible]
  ext b
  rw [covers,covers,matchedThorough keeps thorough parsed flat legible,names]

end

section
variable {ctx : Context} {m : Scene ε} {q : Bytes}

theorem conditionNamed (names : c.pseudo = some q) : c.matched ctx m.toMatching ⊆ {b | b.2 = some q} := by
  cases c with
  | pseudoElement name =>
    cases names
    exact m.named (lower name)
  | pseudoClass name =>
    rw [pseudo] at names
    split at names
    · rename_i single
      cases names
      exact m.single (lower name) (contains_iff_mem.mp single)
    · cases names
  | _ => cases names

theorem selectorNamed (single : s.isList = false) (parsed : s.Parsed) (flat : s.Flat) (names : q ∈ s.pseudos) :
    s.matched ctx m.toMatching ⊆ {b | b.2 = some q} := by
  have alike : ∀ {c : Component}, c.isCondition → q ∈ c.pseudos → c.matched ctx m.toMatching ⊆ {b | b.2 = some q} := by
    intro c condition names
    rw [pseudosMem,conditionConjuncts condition] at names
    exact conditionNamed (by simpa using names)
  induction parsed with
  | simple alone => exact alike (simpleCondition alone) names
  | negation | selectorCall => exact alike rfl names
  | list => cases single
  | complex _ _ _ second => exact (m.within ..).trans (second flat.1.2 flat.2.2 names)
  | compound =>
    obtain ⟨c,mem,named⟩ := pseudosMem.mp names
    exact fun b all => conditionNamed named (matchedAll.mp all c mem)

theorem coversNamed (single : s.isList = false) (parsed : s.Parsed) (flat : s.Flat) {b}
    (mem : b ∈ s.covers ctx m) (box : b.2 = some q) : q ∈ s.pseudos := by
  obtain ⟨matched,bare | full⟩ := mem
  · cases bare.symm.trans box
  · obtain ⟨p,names⟩ := exists_mem_of_ne_nil _ full
    have other : b.2 = some p := selectorNamed single parsed flat names matched
    cases other.symm.trans box
    exact names

end

def Component.IsWritten (s : Component) : Prop :=
  ∃ ts : List Token, (∀ t ∈ ts, t.text ≠ []) ∧ (readSelector ts).value = some s

theorem writtenShape (written : s.IsWritten) : s.Parsed ∧ s.Flat ∧ s.isList = false := by
  obtain ⟨ts,full,read⟩ := written
  exact ⟨(readSelectorParsed ts s read).1,readSelectorAs flatShape ts full s read⟩

section
variable {ctx : Context} (keeps : ctx.keepHacks = true) (thorough : ctx.aggressive = true) {ss : List Component}
  (filled : ss ≠ []) (written : ∀ s ∈ ss, s.IsWritten) (legible : (list ss).Legible ctx) (m : Scene ε)
include keeps thorough filled written legible

theorem universalBoxes (star : ∃ s ∈ ss, (s.again ctx).text = universal) :
    ((list ss).again ctx).boxes ctx m = {b | b.2 = none} := by
  rcases listThorough keeps thorough filled fun s mem => (writtenShape (written s mem)).1 with ⟨s,mem,text,alone⟩ | ⟨others,_⟩
  · obtain ⟨parsed,flat,single⟩ := writtenShape (written s mem)
    obtain ⟨every,names⟩ := selectorUniversal (m := m) keeps single parsed flat text
    have only : ((list ss).again ctx).selectors = [s.again ctx] := by
      rw [alone]
      exact selectorsSingle ((fullTidied keeps s (parsedFull parsed)).single single)
    rw [boxes,only]
    simp [covers,matchedThorough keeps thorough parsed flat (allLegible.mp legible.2 s mem),every,names]
  · obtain ⟨s,mem,text⟩ := star
    exact absurd text (others s mem)

theorem otherBoxes (others : ∀ s ∈ ss, (s.again ctx).text ≠ universal) :
    ((list ss).again ctx).boxes ctx m = (list ss).boxes ctx m := by
  rcases listThorough keeps thorough filled fun s mem => (writtenShape (written s mem)).1 with ⟨s,mem,text,_⟩ | ⟨_,all⟩
  · exact absurd text (others s mem)
  have left : ((list ss).again ctx).selectors = distinctBy text (sortSelectors (ss.map (again ctx))) := by
    rw [all,selectorsOfSelectors]
    intro d mem
    obtain ⟨s,there,rfl⟩ := (sortedAgain legible.1).mp mem
    obtain ⟨parsed,_,single⟩ := writtenShape (written s there)
    exact (fullTidied keeps s (parsedFull parsed)).single single
  ext b
  rw [boxes,left]
  simp only [sortedAgain legible.1,exists_exists_and_eq_and]
  refine exists_congr fun s => and_congr_right fun mem => ?_
  obtain ⟨parsed,flat,single⟩ := writtenShape (written s mem)
  rw [coversAgain keeps thorough single parsed flat (allLegible.mp legible.2 s mem)]

end

/- A list is kept when all is done to make it short. It matches the boxes it did if none of its selectors comes
to be the universal one, and else the elements alone: boxes of pseudo-elements that it names are lost. -/
theorem universalKeepsElements (ctx : Context) (keeps : ctx.keepHacks = true) (thorough : ctx.aggressive = true)
    {ss : List Component} (filled : ss ≠ []) (written : ∀ s ∈ ss, s.IsWritten)
    (legible : (list ss).Legible ctx) {ε : Type} (m : Scene ε) :
    (list ss).Lasts ctx ∧
    ((∀ s ∈ ss, (s.again ctx).text ≠ universal) →
      ((list ss).again ctx).boxes ctx m = (list ss).boxes ctx m) ∧
    ((∃ s ∈ ss, (s.again ctx).text = universal) → ((list ss).again ctx).boxes ctx m = {b | b.2 = none}) ∧
    ∀ b ∈ (list ss).boxes ctx m, b ∉ ((list ss).again ctx).boxes ctx m ↔
      (∃ s ∈ ss, (s.again ctx).text = universal) ∧ ∃ s ∈ ss, b ∈ s.covers ctx m ∧ ∃ q ∈ s.pseudos, b.2 = some q := by
  have shape := fun s mem => writtenShape (written s mem)
  have parsed : (list ss).Parsed := .list filled (fun s mem => (shape s mem).2.2) fun s mem => (shape s mem).1
  have cut := universalBoxes keeps thorough filled written legible m
  have same := otherBoxes keeps thorough filled written legible m
  refine ⟨parsedStays keeps parsed,same,cut,fun b there => ?_⟩
  constructor
  · intro lost
    by_cases star : ∃ s ∈ ss, (s.again ctx).text = universal
    · obtain ⟨s,mem,covered⟩ := there
      rw [cut star] at lost
      obtain ⟨q,box⟩ := Option.ne_none_iff_exists'.mp lost
      obtain ⟨single,flat,alone⟩ := shape s mem
      exact ⟨star,s,mem,covered,q,coversNamed alone single flat covered box,box⟩
    · exact absurd (same (fun s mem text => star ⟨s,mem,text⟩) ▸ there) lost
  · rintro ⟨star,_,_,_,q,_,box⟩ stays
    rw [cut star] at stays
    cases stays.symm.trans box

def lonelyScene : Scene Unit where
  condition text :=
    {b | ∀ name, text = 58 :: 58 :: name ∨ name ∈ singleColonElements ∧ text = 58 :: name → b.2 = some name}
  function _ inner := inner
  combinator _ _ right := right
  everything := by
    refine Set.eq_univ_of_forall fun b name written => ?_
    rcases written with double | ⟨_,single⟩
    · cases double
    · cases single
  named name b holds := holds name (Or.inl rfl)
  single name known b holds := holds name (Or.inr ⟨known,rfl⟩)
  within _ _ _ := Set.Subset.rfl

def beforeLinks : Component := .compound [.element (ascii "a") [] false,.pseudoElement (ascii "before")]

def starredList : List Component := [typeOnly universal,beforeLinks]

theorem starredListWritten : ∀ s ∈ starredList, s.IsWritten := by
  rw [starredList,forall_mem_cons,forall_mem_singleton]
  exact ⟨⟨(typeOnly universal).spell,by decide,by with_unfolding_all rfl⟩,beforeLinks.spell,by decide,by with_unfolding_all rfl⟩

theorem starredListLegible : (list starredList).Legible thorough := by
  have rests : starredList.map (again thorough) = starredList := rfl
  have parts : [element (ascii "a") [] false,.pseudoElement (ascii "before")].map (again thorough) =
      [.element (ascii "a") [] false,.pseudoElement (ascii "before")] := rfl
  have list : Apart thorough starredList :=
    apartAmong starredList (fun c mem => rests ▸ mem_map_of_mem mem) (by decide)
  have compound : Apart thorough [element (ascii "a") [] false,.pseudoElement (ascii "before")] :=
    apartAmong _ (fun c mem => parts ▸ mem_map_of_mem mem) (by decide)
  exact ⟨list,⟨apartSingle _,trivial,trivial⟩,⟨compound,trivial,trivial,trivial⟩,trivial⟩

theorem beforeLinksCover : ((),some (ascii "before")) ∈ beforeLinks.covers thorough lonelyScene := by
  have names : beforeLinks.pseudos = [ascii "before"] := rfl
  have element : (element (ascii "a") [] false).matched thorough lonelyScene.toMatching =
      lonelyScene.condition (ascii "a") := rfl
  have pseudo : (pseudoElement (ascii "before")).matched thorough lonelyScene.toMatching =
      lonelyScene.condition (58 :: 58 :: ascii "before") := rfl
  refine ⟨matchedAll.mpr fun c mem => ?_,.inr (by simp [names])⟩
  rcases mem_pair.mp mem with rfl | rfl
  · rintro name (double | ⟨_,single⟩)
    · cases double
    · cases single
  rintro name (double | ⟨known,single⟩)
  · cases double
    rfl
  · cases single
    exact absurd known (by decide)

theorem starredListLosesBefore : (∀ s ∈ starredList, s.IsWritten) ∧ (list starredList).Legible thorough ∧
    (list starredList).Lasts thorough ∧
    ((),some (ascii "before")) ∈ (list starredList).boxes thorough lonelyScene ∧
    ((),some (ascii "before")) ∉ ((list starredList).again thorough).boxes thorough lonelyScene := by
  obtain ⟨lasts,_,_,lost⟩ := universalKeepsElements thorough rfl rfl (cons_ne_nil _ _) starredListWritten
    starredListLegible lonelyScene
  have second : beforeLinks ∈ starredList := by simp [starredList]
  have there : ((),some (ascii "before")) ∈ (list starredList).boxes thorough lonelyScene :=
    ⟨beforeLinks,second,beforeLinksCover⟩
  have star : ∃ s ∈ starredList, (s.again thorough).text = universal := ⟨typeOnly universal,mem_cons_self,rfl⟩
  refine ⟨starredListWritten,starredListLegible,lasts,there,(lost _ there).mpr ?_⟩
  exact ⟨star,beforeLinks,second,beforeLinksCover,ascii "before",mem_singleton.mpr rfl,rfl⟩

end Cascade
