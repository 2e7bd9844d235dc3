import Cascade.Proofs.Joined
import Cascade.Rule.Pretty

/-! The readable spelling and the minimal one: they differ in white space and in semicolons before a closing brace. -/
namespace Cascade
open List
open Component (pretty text texts pretties)

def unspaced (s : Bytes) : Bytes := s.filter fun b => !isBlankByte b

def unended : Bytes → Bytes
  | [] => []
  | b :: s => if b = 59 ∧ (unended s).head? = some 125 then unended s else b :: unended s

def gist (s : Bytes) : Bytes := unended (unspaced s)

@[simp] theorem unspacedNil : unspaced [] = [] := rfl

@[simp] theorem unspacedAppend (s t) : unspaced (s ++ t) = unspaced s ++ unspaced t := filter_append ..

@[simp] theorem unspacedBlank (s : Bytes) : unspaced (32 :: s) = unspaced s := rfl

@[simp] theorem unspacedLine (s : Bytes) : unspaced (10 :: s) = unspaced s := rfl

@[simp] theorem unspacedMark {b} (s : Bytes) (mark : isBlankByte b = false) : unspaced (b :: s) = b :: unspaced s := by
  simp [unspaced,mark]

@[simp] theorem marksStay :
    isBlankByte 58 = false ∧ isBlankByte 59 = false ∧ isBlankByte 123 = false ∧ isBlankByte 125 = false := by
  decide

theorem unspacedCons (b) (s : Bytes) : unspaced (b :: s) = unspaced [b] ++ unspaced s :=
  unspacedAppend [b] s

theorem unspacedIndentation (depth) : unspaced (indentation depth) = [] := by
  simp [indentation,spaces,unspaced,isBlankByte]

theorem unspacedFlatten (ps : List Bytes) : unspaced ps.flatten = (ps.map unspaced).flatten := filter_flatten ..

theorem unspacedIntercalate (sep) (ps : List Bytes) :
    unspaced (sep.intercalate ps) = (unspaced sep).intercalate (ps.map unspaced) := by
  induction ps with
  | nil => rfl
  | cons p ps ih =>
    cases ps with
    | nil => simp
    | cons q ps => simp_all [intercalate_cons_cons]

theorem unendedLeft (s t) : unended (unended s ++ t) = unended (s ++ t) := by
  induction s with
  | nil => rfl
  | cons b s ih =>
    rw [unended]
    split
    · rename_i ends
      obtain ⟨u,same⟩ := head?_eq_some_iff.mp ends.2
      have next : (unended (s ++ t)).head? = some 125 := by
        rw [← ih,same,cons_append,unended,if_neg (by simp)]
        rfl
      rw [ih,cons_append,unended,if_pos ⟨ends.1,next⟩]
    · rw [cons_append,cons_append,unended,unended,ih]

theorem unendedRight (s t) : unended (s ++ unended t) = unended (s ++ t) := by
  induction s with
  | nil => simpa using unendedLeft t []
  | cons b s ih => rw [cons_append,cons_append,unended,unended,ih]

theorem unendedLast (s : Bytes) : unended (s ++ [59,125]) = unended (s ++ [125]) := by
  rw [← unendedRight s [59,125]]
  rfl

theorem gistOf {s t} (same : unspaced s = unspaced t) : gist s = gist t := congrArg unended same

theorem gistAppend {s s' t t'} (first : gist s = gist s') (second : gist t = gist t') :
    gist (s ++ t) = gist (s' ++ t') := by
  unfold gist at *
  rw [unspacedAppend,unspacedAppend,← unendedLeft,← unendedRight,first,second,unendedRight,unendedLeft]

theorem gistFlatten {ps qs : List Bytes} (same : ps.map gist = qs.map gist) : gist ps.flatten = gist qs.flatten := by
  induction ps generalizing qs with
  | nil =>
    cases qs with
    | nil => rfl
    | cons => cases same
  | cons p ps ih =>
    cases qs with
    | nil => cases same
    | cons q qs =>
      obtain ⟨head,tail⟩ := List.cons.inj same
      exact gistAppend head (ih tail)

mutual

def Component.numbers : Component → List Float
  | .number value | .dimension value _ => [value]
  | .call _ (some args) | .pseudoCall _ args | .expression args => Term.numbers args
  | .sum left _ right | .product left _ right | .complex _ left right => left.numbers ++ right.numbers
  | .declaration d => d.numbers
  | .list cs | .compound cs | .conditions _ cs => Component.allNumbers cs
  | .attr _ _ (some value) _ => value.numbers
  | .negation c | .selectorCall _ c | .nth _ c | .condition c _ => c.numbers
  | _ => []

def Component.allNumbers : List Component → List Float
  | [] => []
  | c :: cs => c.numbers ++ Component.allNumbers cs

def Term.numbers : List Term → List Float
  | [] => []
  | ⟨_,value⟩ :: ts => value.numbers ++ Term.numbers ts

def Declaration.numbers : Declaration → List Float
  | .property _ value _ _ => Term.numbers value
  | .filter .. => []

end

def Plain (xs : List Float) : Prop := ∀ x ∈ xs, exactNumber x = compactNumber x

theorem plainAppend {xs ys} : Plain (xs ++ ys) ↔ Plain xs ∧ Plain ys := forall_mem_append

@[simp] theorem unspacedParenthesized (s) : unspaced (parenthesized s) = parenthesized (unspaced s) :=
  unspacedAppend (40 :: s) [41]

theorem unspacedPadded (b) : unspaced [32,b,32] = unspaced [b] := by
  rw [unspacedBlank,unspacedCons,unspacedBlank,unspacedNil,append_nil]

theorem unspacedComma (b) : unspaced (if b == 44 then [44,32] else [b]) = unspaced [b] := by
  split
  · rename_i comma
    rw [eq_of_beq comma]
    rfl
  · rfl

def bareTerm (t : UInt8 × Bytes) : UInt8 × Bytes := (t.1,unspaced t.2)

def bareNext (t : UInt8 × Bytes) : Bytes := (if t.1 == 0 then [] else unspaced [t.1]) ++ t.2

theorem unspacedNext {next : UInt8 × Bytes → Bytes} (each : ∀ t, unspaced (next t) = bareNext (bareTerm t))
    (ts : List (UInt8 × Bytes)) : unspaced (ts.flatMap next) = (ts.map bareTerm).flatMap bareNext := by
  rw [flatMap_def,unspacedFlatten,map_map,flatMap_def,map_map]
  exact congrArg List.flatten (map_congr_left fun t _ => each t)

theorem joinedTermsAgree {ts us} (same : ts.map bareTerm = us.map bareTerm) :
    unspaced (joinTermsPretty ts) = unspaced (joinTerms us) := by
  cases ts with
  | nil =>
    cases us with
    | nil => rfl
    | cons => cases same
  | cons t ts =>
    cases us with
    | nil => cases same
    | cons u us =>
      obtain ⟨head,tail⟩ := List.cons.inj same
      rw [joinTermsPretty,joinTerms,unspacedAppend,unspacedAppend,unspacedNext,unspacedNext,tail,
        show unspaced t.2 = unspaced u.2 from congrArg Prod.snd head]
      · intro v
        rw [unspacedCons,bareTerm,bareNext]
        split <;> rfl
      · intro v
        rw [unspacedAppend,bareTerm,bareNext]
        split
        · rfl
        · rw [unspacedComma]

theorem declarationEndUnspaced (important slashNine) :
    unspaced (declarationEnd [32] important slashNine) = unspaced (declarationEnd [] important slashNine) := by
  cases important <;> cases slashNine <;> rfl

theorem listSeparatorUnspaced (depth s) : unspaced (listSeparator depth s) = [44] := by
  rw [listSeparator]
  split
  · rfl
  · rw [unspacedCons,unspacedLine,unspacedIndentation]
    rfl

mutual

theorem componentAgrees (depth) : ∀ c : Component, Plain c.numbers → unspaced (c.pretty depth) = unspaced c.text
  | .number value,plain => by
    rw [pretty,text,plain value mem_cons_self]
  | .dimension value _,plain => by
    rw [pretty,text,plain value mem_cons_self]
  | .quoted _,_ | .url _,_ | .ident _,_ | .hexColor _,_ | .sum ..,_ | .id _,_ | .className _,_ | .element ..,_ => by
    rw [pretty] <;> simp
  | .attr ..,_ | .pseudoElement _,_ | .pseudoClass _,_ | .multiple _,_ => by
    rw [pretty] <;> simp
  | .call _ none,_ => by
    rw [pretty,text]
  | .call _ (some args),plain => by
    simp [pretty,text,joinedTermsAgree (termsAgree depth args plain)]
  | .product ..,_ => by
    simp only [pretty,text,unspacedAppend,unspacedPadded]
  | .expression terms,plain => by
    rw [pretty,text,joinedTermsAgree (termsAgree depth terms plain)]
  | .declaration d,plain => by
    rw [pretty,text,declarationAgrees depth d plain]
  | .list ss,plain => by
    rw [pretty,text,unspacedIntercalate,unspacedIntercalate,listSeparatorUnspaced,
      componentsAgree 0 ss plain]
    rfl
  | .compound cs,plain => by
    rw [pretty,text,unspacedFlatten,unspacedFlatten,componentsAgree 0 cs plain]
  | .complex kind left right,plain => by
    obtain ⟨first,second⟩ := plainAppend.mp plain
    have between : unspaced (if kind == 32 then [32] else [32,kind,32]) = unspaced [kind] := by
      split
      · rename_i blank
        rw [eq_of_beq blank]
      · exact unspacedPadded kind
    simp only [pretty,text,unspacedAppend,between,componentAgrees depth left first,
      componentAgrees depth right second]
  | .pseudoCall _ args,plain => by
    simp [pretty,text,joinedTermsAgree (termsAgree depth args plain)]
  | .negation s,plain => by
    simp [pretty,text,componentAgrees depth s plain]
  | .selectorCall _ s,plain => by
    simp [pretty,text,componentAgrees depth s plain]
  | .nth _ s,plain => by
    simp [pretty,text,componentAgrees depth s plain]
  | .linear ..,_ => by
    simp [pretty,text,linearText]
  | .conditions combinator cs,plain => by
    rw [pretty,text,joinConditions,joinConditions,unspacedIntercalate,unspacedIntercalate,
      membersAgree combinator cs plain]
  | .condition inner negated,plain => by
    simp [pretty,text,componentAgrees depth inner plain]

theorem componentsAgree (depth) : ∀ cs : List Component, Plain (Component.allNumbers cs) →
    (pretties depth cs).map unspaced = (texts cs).map unspaced
  | [],_ => rfl
  | c :: cs,plain => by
    obtain ⟨first,rest⟩ := plainAppend.mp plain
    rw [pretties,texts,map_cons,map_cons,componentAgrees depth c first,
      componentsAgree depth cs rest]

theorem membersAgree (combinator) : ∀ cs : List Component, Plain (Component.allNumbers cs) →
    (Component.memberPretties combinator cs).map unspaced = (Component.memberTexts combinator cs).map unspaced
  | [],_ => rfl
  | c :: cs,plain => by
    obtain ⟨first,rest⟩ := plainAppend.mp plain
    rw [Component.memberPretties,Component.memberTexts,map_cons,map_cons,membersAgree combinator cs rest]
    split <;> simp [componentAgrees 0 c first]

theorem termsAgree (depth) : ∀ ts : List Term, Plain (Term.numbers ts) →
    (Term.pretties depth ts).map bareTerm = (Term.texts ts).map bareTerm
  | [],_ => rfl
  | ⟨op,value⟩ :: ts,plain => by
    obtain ⟨first,rest⟩ := plainAppend.mp plain
    rw [Term.pretties,Term.texts,map_cons,map_cons,bareTerm,bareTerm,componentAgrees depth value first,
      termsAgree depth ts rest]

theorem declarationAgrees (depth) : ∀ d : Declaration, Plain d.numbers → unspaced (d.pretty depth) = unspaced d.text
  | .property name value important slashNine,plain => by
    simp [Declaration.pretty,Declaration.text,joinedTermsAgree (termsAgree depth value plain),declarationEndUnspaced]
  | .filter ..,_ => by
    simp [Declaration.pretty,Declaration.text]

end

def MediaFeature.numbers (f : MediaFeature) : List Float := (f.value.map Term.numbers).getD []

def MediaQuery.numbers (q : MediaQuery) : List Float := q.features.flatMap MediaFeature.numbers

def Block.numbers (b : Block) : List Float := b.content.flatMap Declaration.numbers

def Keyframe.numbers (k : Keyframe) : List Float := k.content.flatMap Declaration.numbers

def Import.numbers (i : Import) : List Float := i.location.numbers ++ i.media.flatMap MediaQuery.numbers

mutual

def Rule.numbers : Rule → List Float
  | .ruleset selector content => selector.numbers ++ content.flatMap Declaration.numbers
  | .media queries content => queries.flatMap MediaQuery.numbers ++ Rule.allNumbers content
  | .supports condition content => condition.numbers ++ Rule.allNumbers content
  | .page _ content margins => content.flatMap Declaration.numbers ++ margins.flatMap Block.numbers
  | .margin block | .featureBlock block => block.numbers
  | .fontFace content | .viewport _ content | .counterStyle _ content => content.flatMap Declaration.numbers
  | .fontFeatures _ blocks => blocks.flatMap Block.numbers
  | .keyframes _ _ frames => frames.flatMap Keyframe.numbers
  | .keyframe frame => frame.numbers
  | .stop _ | .charset _ => []
  | .importRule rule => rule.numbers
  | .namespaceRule rule => rule.location.numbers
  | .query q => q.numbers
  | .feature f => f.numbers
  | .component c => c.numbers

def Rule.allNumbers : List Rule → List Float
  | [] => []
  | r :: rs => r.numbers ++ Rule.allNumbers rs

end

def Stylesheet.numbers (s : Stylesheet) : List Float :=
  s.imports.flatMap Import.numbers ++ (s.namespaces.flatMap fun n => n.location.numbers) ++ Rule.allNumbers s.content

theorem mapsAgree {α : Type} {numbers f g} {view : Bytes → Bytes} {xs : List α}
    (each : ∀ x, Plain (numbers x) → view (f x) = view (g x)) (plain : Plain (xs.flatMap numbers)) :
    (xs.map f).map view = (xs.map g).map view := by
  rw [map_map,map_map,map_inj_left]
  intro x mem
  exact each x fun n there => plain n (mem_flatMap.mpr ⟨x,mem,there⟩)

theorem featureAgrees (depth) (f : MediaFeature) (plain : Plain f.numbers) :
    unspaced (f.pretty depth) = unspaced f.text := by
  obtain ⟨name,value⟩ := f
  cases value with
  | none => rfl
  | some ts =>
    have same := joinedTermsAgree (termsAgree depth ts plain)
    simp [MediaFeature.pretty,MediaFeature.text,Term.prettyOf,Term.textOf,same]

theorem emptyAlike {ps qs : List Bytes} (same : ps.map unspaced = qs.map unspaced) : ps.isEmpty = qs.isEmpty := by
  rw [← isEmpty_map,same,isEmpty_map]

theorem queryAgrees (q : MediaQuery) (plain : Plain q.numbers) : unspaced q.pretty = unspaced q.text := by
  have same : (q.features.map (MediaFeature.pretty 0)).map unspaced = (q.features.map MediaFeature.text).map unspaced :=
    mapsAgree (featureAgrees 0) plain
  have tested : unspaced ((ascii " and ").intercalate (q.features.map (MediaFeature.pretty 0))) =
      unspaced ((ascii " and ").intercalate (q.features.map MediaFeature.text)) := by
    rw [unspacedIntercalate,unspacedIntercalate,same]
  rw [MediaQuery.pretty,MediaQuery.text,MediaQuery.write,MediaQuery.write,emptyAlike same,unspacedIntercalate,
    unspacedIntercalate,map_append,map_append]
  congr 2
  split
  · rfl
  · rw [map_singleton,map_singleton,tested]

theorem queriesAgree (qs : List MediaQuery) (plain : Plain (qs.flatMap MediaQuery.numbers)) :
    unspaced (queryList [44,32] (qs.map MediaQuery.pretty)) = unspaced (queryList [44] (qs.map MediaQuery.text)) := by
  have same : (qs.map MediaQuery.pretty).map unspaced = (qs.map MediaQuery.text).map unspaced :=
    mapsAgree queryAgrees plain
  rw [queryList,queryList,emptyAlike same]
  split
  · rfl
  · rw [unspacedBlank,unspacedBlank,unspacedIntercalate,unspacedIntercalate,same]
    rfl

theorem declarationsAgree (depth) {ds} (full : ds ≠ []) (plain : Plain (ds.flatMap Declaration.numbers)) :
    unspaced (ds.flatMap fun d => indentation depth ++ d.pretty depth ++ [59,10]) =
      unspaced (declarationsText ds) ++ [59] := by
  have texts : (ds.map (Declaration.pretty depth)).map unspaced = (ds.map Declaration.text).map unspaced :=
    mapsAgree (declarationAgrees depth) plain
  have ended : ∀ d : Declaration, unspaced (indentation depth ++ d.pretty depth ++ [59,10]) =
      unspaced (d.pretty depth) ++ [59] := by
    intro d
    rw [unspacedAppend,unspacedAppend,unspacedIndentation]
    rfl
  have several : (ds.map Declaration.text).map unspaced ≠ [] := by simpa using full
  have pieces : (ds.map fun d => unspaced (d.pretty depth)) = (ds.map Declaration.text).map unspaced := by
    rw [← texts,map_map]
    rfl
  calc unspaced (ds.flatMap fun d => indentation depth ++ d.pretty depth ++ [59,10])
      = ((ds.map fun d => unspaced (d.pretty depth)).map (· ++ [59])).flatten := by
        rw [flatMap_def,unspacedFlatten,map_map,map_map]
        simp only [Function.comp_def,ended]
    _ = unspaced (declarationsText ds) ++ [59] := by
        rw [pieces,endedEach several,declarationsText,unspacedIntercalate]
        rfl

theorem blockAgrees (depth) {header header' ds rules rules'}
    (headers : unspaced header = unspaced header') (plain : Plain (ds.flatMap Declaration.numbers))
    (inside : rules.map gist = rules'.map gist) :
    gist (prettyBlock depth header ds rules) = gist (blockText header' ds rules') := by
  have empty : rules.isEmpty = rules'.isEmpty := by rw [← isEmpty_map,inside,isEmpty_map]
  have opening : unspaced (indentation depth ++ header ++ [32,123,10]) = unspaced (header' ++ [123]) := by
    rw [unspacedAppend,unspacedAppend,unspacedIndentation,headers,unspacedAppend]
    rfl
  have closing : unspaced (indentation depth ++ [125,10]) = [125] := by
    rw [unspacedAppend,unspacedIndentation]
    rfl
  rw [prettyBlock,blockText,← empty,append_assoc _ (indentation depth)]
  by_cases bare : ds = []
  · subst bare
    refine gistAppend (gistAppend (gistOf ?_) (gistFlatten inside)) (gistOf closing)
    simpa [declarationsText] using opening
  have several := declarationsAgree (depth + 1) bare plain
  have full : ds.isEmpty = false := by simpa using bare
  by_cases last : rules = []
  · -- Nothing comes behind the declarations, and the semicolon of the last one stands before the brace.
    subst last
    have last' : rules' = [] := by simpa using empty
    subst last'
    have readable : unspaced (indentation depth ++ header ++ [32,123,10] ++
        (ds.flatMap fun d => indentation (depth + 1) ++ d.pretty (depth + 1) ++ [59,10]) ++ [] ++
        (indentation depth ++ [125,10])) = unspaced (header' ++ 123 :: declarationsText ds) ++ [59,125] := by
      rw [unspacedAppend,unspacedAppend,unspacedAppend,opening,several,closing]
      simp
    rw [flatten_nil,gist,readable,unendedLast]
    simp [gist]
  · have others : rules.isEmpty = false := by simpa using last
    refine gistAppend (gistAppend (gistOf ?_) (gistFlatten inside)) (gistOf closing)
    rw [unspacedAppend,opening,several,full,others]
    simp

theorem keyframeAgrees (depth) (k : Keyframe) (plain : Plain k.numbers) : gist (k.pretty depth) = gist k.text := by
  refine blockAgrees depth ?_ plain rfl
  rw [Keyframe.prettyStops]
  generalize k.stopsText = s
  induction s with
  | nil => rfl
  | cons b s ih => rw [flatMap_cons,unspacedAppend,unspacedComma,ih,← unspacedCons]

theorem blockPrettyAgrees (depth) (b : Block) (plain : Plain b.numbers) : gist (b.pretty depth) = gist b.text :=
  blockAgrees depth rfl plain rfl

theorem importAgrees (depth) (i : Import) (plain : Plain i.numbers) : gist (i.pretty depth) = gist i.text := by
  obtain ⟨location,media⟩ := plainAppend.mp plain
  refine gistOf ?_
  simp only [Import.pretty,Import.text,unspacedAppend,unspacedIndentation,componentAgrees depth _ location,
    queriesAgree _ media]
  rfl

theorem namespaceAgrees (depth) (n : Namespace) : gist (n.pretty depth) = gist n.text := by
  refine gistOf ?_
  simp [Namespace.pretty,unspacedIndentation]

theorem charsetAgrees (depth name) : gist (prettyCharset depth name) = gist (charsetText name) := by
  refine gistOf ?_
  simp [prettyCharset,unspacedIndentation]

mutual

theorem ruleAgrees (depth) : ∀ r : Rule, Plain r.numbers → gist (r.pretty depth) = gist r.text
  | .ruleset selector content,plain => by
    obtain ⟨first,rest⟩ := plainAppend.mp plain
    exact blockAgrees depth (componentAgrees depth selector first) rest rfl
  | .media queries content,plain => by
    obtain ⟨first,rest⟩ := plainAppend.mp plain
    refine blockAgrees depth ?_ (forall_mem_nil _) (rulesAgree (depth + 1) content rest)
    rw [unspacedAppend,unspacedAppend,queriesAgree queries first]
  | .supports condition content,plain => by
    obtain ⟨first,rest⟩ := plainAppend.mp plain
    refine blockAgrees depth ?_ (forall_mem_nil _) (rulesAgree (depth + 1) content rest)
    rw [unspacedAppend,unspacedAppend,componentAgrees depth condition first]
  | .page _ content margins,plain => by
    obtain ⟨first,rest⟩ := plainAppend.mp plain
    exact blockAgrees depth rfl first (mapsAgree (blockPrettyAgrees (depth + 1)) rest)
  | .margin block,plain | .featureBlock block,plain => blockPrettyAgrees depth block plain
  | .fontFace _,plain | .viewport _ _,plain | .counterStyle _ _,plain => blockAgrees depth rfl plain rfl
  | .fontFeatures _ _,plain =>
    blockAgrees depth rfl (forall_mem_nil _) (mapsAgree (blockPrettyAgrees (depth + 1)) plain)
  | .keyframes _ _ _,plain =>
    blockAgrees depth rfl (forall_mem_nil _) (mapsAgree (keyframeAgrees (depth + 1)) plain)
  | .keyframe frame,plain => keyframeAgrees depth frame plain
  | .stop _,_ => rfl
  | .charset name,_ => charsetAgrees depth name
  | .importRule rule,plain => importAgrees depth rule plain
  | .namespaceRule rule,_ => namespaceAgrees depth rule
  | .query q,plain => gistOf (queryAgrees q plain)
  | .feature f,plain => gistOf (featureAgrees depth f plain)
  | .component c,plain => gistOf (componentAgrees depth c plain)

theorem rulesAgree (depth) : ∀ rs : List Rule, Plain (Rule.allNumbers rs) →
    (Rule.pretties depth rs).map gist = (Rule.texts rs).map gist
  | [],_ => rfl
  | r :: rs,plain => by
    obtain ⟨first,rest⟩ := plainAppend.mp plain
    rw [Rule.pretties,Rule.texts,map_cons,map_cons,ruleAgrees depth r first,rulesAgree depth rs rest]

end

theorem rulePrettiesMap (depth rs) : Rule.pretties depth rs = rs.map (Rule.pretty depth) := by
  induction rs with
  | nil => rfl
  | cons r rs ih => simp [Rule.pretties,ih]

/- The two spellings of a rule, of any part of one and of a stylesheet have the same gist at each depth of
nesting, if numbers are spelled alike in both. -/
theorem readableTextAgrees (depth : Nat) : (∀ r : Rule, Plain r.numbers → gist (r.pretty depth) = gist r.text) ∧
    ∀ s : Stylesheet, Plain s.numbers → gist (s.pretty depth) = gist s.text := by
  refine ⟨ruleAgrees depth,fun s plain => ?_⟩
  obtain ⟨first,rest⟩ := plainAppend.mp plain
  obtain ⟨imports,_⟩ := plainAppend.mp first
  have charset : gist ((s.charset.map (prettyCharset depth)).getD []) = gist ((s.charset.map charsetText).getD []) := by
    cases s.charset with
    | none => rfl
    | some name => exact charsetAgrees depth name
  have namespaces : (s.namespaces.map (Namespace.pretty depth)).map gist = (s.namespaces.map Namespace.text).map gist := by
    simp [namespaceAgrees]
  have content := rulesAgree depth s.content rest
  rw [rulePrettiesMap,ruleTextsMap] at content
  exact gistAppend (gistAppend (gistAppend charset (gistFlatten (mapsAgree (importAgrees depth) imports)))
    (gistFlatten namespaces)) (gistFlatten content)

def printedPage : Stylesheet where
  charset := some (ascii "utf-8")
  content :=
    [.media [⟨ascii "only",ascii "print",[⟨ascii "min-width",some [⟨0,.dimension 12.0 (ascii "em")⟩]⟩]⟩]
      [.page (ascii ":first")
        [.property (ascii "margin") [⟨0,.number 1.5⟩,⟨44,.dimension (-2.0) (ascii "px")⟩] true false]
        [⟨ascii "top-left",[.filter (ascii "filter") (ascii "x")]⟩]]]

theorem printedPageAgrees : Plain printedPage.numbers ∧ printedPage.pretty 2 ≠ printedPage.text ∧
    gist (printedPage.pretty 2) = gist printedPage.text ∧
    gist ((Rule.component (.number 0.5)).pretty 0) ≠ gist (Rule.component (.number 0.5)).text := by
  have plain : Plain printedPage.numbers := by
    unfold Plain
    decide +kernel
  exact ⟨plain,by decide +kernel,(readableTextAgrees 2).2 printedPage plain,by decide +kernel⟩

end Cascade
