import Cascade.Proofs.Adjacent
import Cascade.Proofs.Identifiers
import Cascade.Proofs.Shape

/-! The prefixes of namespaces that selectors use. Optimizing writes them in lower case and leaves the
names that are declared as they are. -/
namespace Cascade
open List Component
open Component (again optimize)
open Noted (valueBind valuePure)

variable {c : Component} {ctx : Context} {p : Bytes}

/- No prefix stands for elements without a namespace, and a star for those of any. -/
def isPrefix (ns : Bytes) : Bool := !ns.isEmpty && ns != universal

mutual

/- The prefixes in a selector, of types of elements and of attributes. A bar behind the name of an
attribute makes it a prefix. -/
def Component.prefixes : Component → List Bytes
  | .element _ ns hasNs => if hasNs && isPrefix ns then [ns] else []
  | .attr name comparison value _ => if comparison == [124] && value.isSome then [name] else []
  | .list ss => allPrefixes ss
  | .compound cs => allPrefixes cs
  | .complex _ left right => left.prefixes ++ right.prefixes
  | .negation s | .selectorCall _ s => s.prefixes
  | _ => []

def Component.allPrefixes : List Component → List Bytes
  | [] => []
  | c :: cs => c.prefixes ++ allPrefixes cs

end

mutual

def Rule.prefixes : Rule → List Bytes
  | .ruleset selector _ => selector.prefixes
  | .media _ content | .supports _ content => Rule.allPrefixes content
  | .component c => c.prefixes
  | _ => []

def Rule.allPrefixes : List Rule → List Bytes
  | [] => []
  | r :: rs => r.prefixes ++ Rule.allPrefixes rs

end

def Stylesheet.prefixes (s : Stylesheet) : List Bytes := Rule.allPrefixes s.content

def Stylesheet.declaredNames (s : Stylesheet) : List Bytes := s.namespaces.map Namespace.name

def Stylesheet.Declared (s : Stylesheet) : Prop := ∀ p ∈ s.prefixes, p ∈ s.declaredNames

theorem allPrefixesMem {cs} : p ∈ allPrefixes cs ↔ ∃ c ∈ cs, p ∈ c.prefixes := by
  induction cs with
  | nil => simp [allPrefixes]
  | cons c cs ih => simp [allPrefixes,ih]

theorem rulePrefixesMem {rs} : p ∈ Rule.allPrefixes rs ↔ ∃ r ∈ rs, p ∈ r.prefixes := by
  induction rs with
  | nil => simp [Rule.allPrefixes]
  | cons r rs ih => simp [Rule.allPrefixes,ih]

def Lowers (given made : List Bytes) : Prop := ∀ p ∈ made, ∃ q ∈ given, p = lower q

/- What is not left is not always gone through, so that some of its prefixes may be as they were. -/
structure PrefixesMade (ctx : Context) (c : Component) : Prop where
  stem : ∀ p ∈ (c.again ctx).prefixes, ∃ q ∈ c.prefixes, p = q ∨ p = lower q
  lowers : c.Lasts ctx → Lowers c.prefixes (c.again ctx).prefixes

section
variable {ctx : Context}

theorem lowersPrefixes (lowers : Lowers c.prefixes (c.again ctx).prefixes) : PrefixesMade ctx c := by
  refine ⟨fun p mem => ?_,fun _ => lowers⟩
  obtain ⟨q,there,same⟩ := lowers p mem
  exact ⟨q,there,.inr same⟩

theorem noPrefixes (bare : (c.again ctx).prefixes = []) : PrefixesMade ctx c :=
  lowersPrefixes (bare ▸ forall_mem_nil _)

theorem loweredStar {ns star} (lowered : Lowered ns star) (is : star = universal) : ns = universal := by
  cases lowered with
  | nil => cases is
  | @byte b s t plain rest =>
    obtain ⟨head,rfl⟩ := List.cons.inj is
    cases rest
    have same : b = 42 := by
      rw [lowerByte] at head
      split at head
      · rename_i upper
        simp only [isUpperLetter] at upper
        grind
      · exact head
    rw [same]
    rfl
  | run _ right _ =>
    obtain ⟨rfl,_⟩ := List.cons.inj is
    exact absurd (right 42 mem_cons_self).1 (by decide)

theorem lowerPrefix (ns) : isPrefix (lower ns) = isPrefix ns := by
  have star : lower ns = universal ↔ ns = universal :=
    ⟨loweredStar (lowerLowered ns),fun same => congrArg lower same⟩
  have bare : lower ns = [] ↔ ns = [] :=
    ⟨fun empty => by_contra fun full => lowerSome full empty,fun same => congrArg lower same⟩
  rw [Bool.eq_iff_iff,isPrefix,isPrefix]
  simp [star,bare]

theorem elementPrefixes (name ns hasNs) : PrefixesMade ctx (.element name ns hasNs) := by
  refine lowersPrefixes fun p mem => ?_
  have made : (element name ns hasNs).again ctx = .element (lower name) (lower ns) hasNs := rfl
  rw [made,prefixes] at mem
  split at mem
  · rename_i used
    refine ⟨ns,?_,mem_singleton.mp mem⟩
    rw [prefixes,if_pos (by rwa [lowerPrefix] at used)]
    exact mem_singleton_self ns
  · cases mem

theorem attrPrefixes (name comparison value flag) : PrefixesMade ctx (.attr name comparison value flag) := by
  refine lowersPrefixes fun p mem => ?_
  rw [againAttr,prefixes,Option.isSome_map] at mem
  split at mem
  · rename_i used
    refine ⟨name,?_,mem_singleton.mp mem⟩
    rw [prefixes,if_pos used]
    exact mem_singleton_self name
  · cases mem

theorem ofSelectorsPrefixes {ss} : p ∈ (ofSelectors ss).prefixes ↔ ∃ s ∈ ss, p ∈ s.prefixes := by
  rw [Component.ofSelectors.eq_def]
  split
  · simp
  · rw [prefixes,allPrefixesMem]

theorem survivorPrefixes {ss} (each : ∀ s ∈ ss, PrefixesMade ctx s) {s}
    (left : s ∈ Outcome.survivors (optimizeAll ctx ss).value) : Lowers (allPrefixes ss) s.prefixes := by
  intro p used
  obtain ⟨t,there,lasts,rfl⟩ := survivorsFrom left
  obtain ⟨q,given,same⟩ := (each t there).lowers lasts p used
  exact ⟨q,allPrefixesMem.mpr ⟨t,there,given⟩,same⟩

theorem listPrefixes {ss} (each : ∀ s ∈ ss, PrefixesMade ctx s) : PrefixesMade ctx (.list ss) := by
  have outcome := listOutcome ctx ss
  split at outcome
  · refine ⟨fun p mem => ?_,fun lasts => ?_⟩
    · rw [again,outcome,prefixes,outcomesAgain,allPrefixesMem] at mem
      obtain ⟨_,made,used⟩ := mem
      obtain ⟨t,there,rfl⟩ := mem_map.mp made
      obtain ⟨q,given,same⟩ := (each t there).stem p used
      exact ⟨q,allPrefixesMem.mpr ⟨t,there,given⟩,same⟩
    · rw [Component.Lasts,outcome] at lasts
      cases lasts
  · refine lowersPrefixes fun p mem => ?_
    rw [again,outcome,ofSelectorsPrefixes] at mem
    obtain ⟨s,left,used⟩ := mem
    exact survivorPrefixes each (leftMem left) p used

theorem compoundPrefixes {cs} (each : ∀ c ∈ cs, PrefixesMade ctx c) : PrefixesMade ctx (.compound cs) := by
  refine lowersPrefixes fun p mem => ?_
  rw [again,compoundOutcome,prefixes,allPrefixesMem] at mem
  obtain ⟨c,left,used⟩ := mem
  exact survivorPrefixes each (conditionsMem left) p used

theorem complexPrefixes {kind left right} (first : PrefixesMade ctx left)
    (second : PrefixesMade ctx right) : PrefixesMade ctx (.complex kind left right) := by
  have both : ∀ {R : Bytes → Prop}, (∃ q ∈ left.prefixes, R q) ∨ (∃ q ∈ right.prefixes, R q) →
      ∃ q ∈ (complex kind left right).prefixes, R q := by
    rintro R (⟨q,there,same⟩ | ⟨q,there,same⟩)
    · exact ⟨q,mem_append_left _ there,same⟩
    · exact ⟨q,mem_append_right _ there,same⟩
  by_cases stays : left.Lasts ctx
  · have made := @complexAgain ctx kind left right stays
    refine ⟨fun p mem => ?_,fun lasts p mem => ?_⟩
    · rw [made] at mem
      exact both ((mem_append.mp mem).imp (first.stem p) (second.stem p))
    · rw [made] at mem
      exact both ((mem_append.mp mem).imp (first.lowers stays p) (second.lowers (complexLasts.mp lasts).2 p))
  · -- the right side is not gone through when the left one is dropped
    refine ⟨fun p mem => ?_,fun lasts => absurd (complexLasts.mp lasts).1 stays⟩
    unfold Component.Lasts at stays
    rw [again,optimize,valueBind,if_neg stays] at mem
    exact both ((mem_append.mp mem).imp (first.stem p) fun used => ⟨p,used,.inl rfl⟩)

def Component.isOther : Component → Bool
  | .list _ | .compound _ | .complex .. | .element .. | .attr .. | .negation _ | .selectorCall .. => false
  | _ => true

theorem otherPrefixes (other : c.isOther) : c.prefixes = [] := by
  cases c with
  | list | compound | complex | element | attr | negation | selectorCall => cases other
  | _ => rfl

theorem firmOther (firm : c.isFirm) : c.isOther := by
  cases c <;> simp_all [isFirm,isOther]

theorem againOther (other : c.isOther) : (c.again ctx).isOther := by
  cases c with
  | list | compound | complex | element | attr | negation | selectorCall => cases other
  | dimension | hexColor | call | linear | conditions | condition => exact firmOther (firmAgain ctx rfl)
  | _ => rfl

end

mutual

theorem componentPrefixes : ∀ c : Component, PrefixesMade ctx c
  | .list ss => listPrefixes (allPrefixesMade ss)
  | .compound cs => compoundPrefixes (allPrefixesMade cs)
  | .complex _ left right => complexPrefixes (componentPrefixes left) (componentPrefixes right)
  | .element name ns hasNs => elementPrefixes name ns hasNs
  | .attr name comparison value flag => attrPrefixes name comparison value flag
  | .negation s => ⟨(componentPrefixes s).stem,(componentPrefixes s).lowers⟩
  | .selectorCall _ s => ⟨(componentPrefixes s).stem,(componentPrefixes s).lowers⟩
  | .number _ | .dimension .. | .quoted _ | .url _ | .ident _ | .hexColor _ | .call .. | .sum .. | .product ..
  | .expression _ | .declaration _ | .id _ | .className _ | .pseudoElement _ | .pseudoClass _ | .pseudoCall ..
  | .nth .. | .linear .. | .multiple _ | .conditions .. | .condition .. => noPrefixes (otherPrefixes (againOther rfl))

theorem allPrefixesMade : ∀ cs : List Component, ∀ c ∈ cs, PrefixesMade ctx c
  | [] => forall_mem_nil _
  | c :: cs => forall_mem_cons.mpr ⟨componentPrefixes c,allPrefixesMade cs⟩

end

section
variable {ctx : Context} {given : List Bytes}

theorem selectorsPrefixes {s} (member : s ∈ c.selectors) (used : p ∈ s.prefixes) : p ∈ c.prefixes := by
  rw [Component.selectors.eq_def] at member
  split at member
  · exact allPrefixesMem.mpr ⟨s,member,used⟩
  · rwa [mem_singleton.mp member] at used

theorem lowersEnduring : Enduring ctx fun r => Lowers given r.selector.prefixes where
  union {a b} _ left right := by
    intro p mem
    obtain ⟨q,used,same⟩ := (componentPrefixes (.list (a.selectors ++ b.selectors))).stem p mem
    obtain ⟨s,member,here⟩ := allPrefixesMem.mp used
    have lowered : ∃ o ∈ given, q = lower o := by
      rcases mem_append.mp member with first | second
      · exact left q (selectorsPrefixes first here)
      · exact right q (selectorsPrefixes second here)
    obtain ⟨o,there,rfl⟩ := lowered
    refine ⟨o,there,?_⟩
    rcases same with rfl | rfl
    · rfl
    · exact lowerTwice o
  extend left _ := left
  covered {a b} lowers _ := by rwa [withoutCoveredSelector a b]

def Rule.Lowered (given : List Bytes) : Rule → Prop :=
  Rule.Meets (fun r => Lowers given r.selector.prefixes) fun r => Lowers given r.prefixes

theorem loweredPrefixes {rule : Rule} : rule.Lowered given ↔ Lowers given rule.prefixes := by
  cases rule <;> rfl

theorem arrangeLowered {rules} (all : ∀ r ∈ rules, r.Lowered given) :
    Lowers given (Rule.allPrefixes (arrangeRules ctx rules).value) := by
  intro p mem
  obtain ⟨r,there,used⟩ := rulePrefixesMem.mp mem
  exact loweredPrefixes.mp (arrangeMeets lowersEnduring all r there) p used

theorem loweredNone {rule : Rule} (bare : rule.prefixes = []) : rule.Lowered given :=
  loweredPrefixes.mpr (bare ▸ forall_mem_nil _)

theorem componentLowered (sub : c.prefixes ⊆ given) (lasts : c.Lasts ctx) : Lowers given (c.again ctx).prefixes := by
  intro p mem
  obtain ⟨q,used,same⟩ := (componentPrefixes c).lowers lasts p mem
  exact ⟨q,sub used,same⟩

theorem rulesetLowered {selector content} (sub : selector.prefixes ⊆ given) :
    ∀ r ∈ (Ruleset.optimize ctx ⟨selector,content⟩).value, r.Lowered given := by
  intro r made
  obtain ⟨lasts,_,rfl⟩ := optimizeRuleset made
  exact componentLowered sub lasts

end

mutual

theorem ruleLowered {given} : ∀ rule : Rule, rule.prefixes ⊆ given → ∀ r ∈ (rule.optimize ctx).value, r.Lowered given
  | .ruleset selector content,sub,r,made => rulesetLowered sub r made
  | .media _ content,sub,r,made | .supports _ content,sub,r,made => by
    rw [Rule.optimize] at made
    obtain ⟨_,rfl⟩ := leftOver made
    exact arrangeLowered (rulesLowered content sub)
  | .component c,sub,r,made => by
    rw [Rule.optimize,valueBind,valuePure] at made
    split at made <;> cases made
    rename_i lasts
    exact componentLowered sub lasts
  | .page ..,_,r,made | .fontFace _,_,r,made | .fontFeatures ..,_,r,made | .viewport ..,_,r,made
  | .counterStyle ..,_,r,made => by
    rw [Rule.optimize] at made
    obtain ⟨_,rfl⟩ := leftOver made
    exact loweredNone rfl
  | .margin _,_,r,made | .featureBlock _,_,r,made | .keyframe _,_,r,made => by
    obtain ⟨_,_,rfl⟩ := Option.map_eq_some_iff.mp made
    exact loweredNone rfl
  | .keyframes name vendor frames,_,r,made => by
    cases animationMade made
    exact loweredNone rfl
  | .stop _,_,r,made | .charset _,_,r,made | .importRule _,_,r,made | .namespaceRule _,_,r,made | .query _,_,r,made
  | .feature _,_,r,made => by
    cases made
    exact loweredNone rfl

theorem rulesLowered {given} : ∀ rules : List Rule, Rule.allPrefixes rules ⊆ given →
    ∀ r ∈ (Rule.optimizeAll ctx rules).value, r.Lowered given
  | [],_ => forall_mem_nil _
  | rule :: rules,sub => by
    obtain ⟨first,rest⟩ := append_subset.mp sub
    exact forall_mem_append.mpr ⟨fun r here => ruleLowered rule first r (Option.mem_toList.mp here),rulesLowered rules rest⟩

end

section
variable (ctx : Context) (s : Stylesheet)

theorem optimizedPrefixes : Lowers s.prefixes (s.optimize ctx).value.prefixes :=
  arrangeLowered (rulesLowered s.content fun _ mem => mem)

theorem optimizedNames : (s.optimize ctx).value.declaredNames = s.declaredNames := by
  have names : ∀ ns : List Namespace, ((ns.mapM (Namespace.optimize ctx)).value).map Namespace.name = ns.map Namespace.name := by
    intro ns
    rw [Noted.valueMapM,map_map]
    rfl
  exact names s.namespaces

theorem lowerDeclared (lowered : ∀ p ∈ s.prefixes, lower p ∈ s.declaredNames) : (s.optimize ctx).value.Declared := by
  intro p used
  obtain ⟨q,given,rfl⟩ := optimizedPrefixes ctx s p used
  rw [optimizedNames]
  exact lowered q given

end

theorem unnamedLower {ns} (other : isPrefix ns = false) : lower ns = ns := by
  rw [isPrefix,Bool.and_eq_false_iff,Bool.not_eq_false',List.isEmpty_iff,bne_eq_false_iff_eq] at other
  rcases other with rfl | rfl <;> rfl

def typeIn (ns : Bytes) : Component := .compound [.element (ascii "a") ns true]

def ruleIn (ns : Bytes) : Rule := (lone (typeIn ns) (wordDeclaration "--x" "y")).rule

theorem optimizeTypeIn (ns) : ((typeIn ns).optimize cautious).value = ⟨typeIn (lower ns),true⟩ := by
  rw [typeIn,compoundOutcome]
  rfl

section
variable {s : Stylesheet} {ns : Bytes} (only : s.content = [ruleIn ns])
include only

theorem optimizeRuleIn : (s.optimize cautious).value.content = [ruleIn (lower ns)] := by
  have content : (s.optimize cautious).value.content =
      (arrangeRules cautious (Rule.optimizeAll cautious s.content).value).value := rfl
  have rules : (Rule.optimizeAll cautious [ruleIn ns]).value = [ruleIn (lower ns)] :=
    optimizeLone (optimizeTypeIn ns) (wordRests "--x" "y" rfl) []
  rw [content,only,rules]
  rfl

variable (is : isPrefix ns = true)
include is

theorem ruleInDeclared : s.Declared ↔ ns ∈ s.declaredNames := by
  have used : s.prefixes = [ns] := by
    rw [Stylesheet.prefixes,only]
    simp [ruleIn,lone,typeIn,Ruleset.rule,Rule.allPrefixes,Rule.prefixes,prefixes,allPrefixes,is]
  rw [Stylesheet.Declared,used]
  exact forall_mem_singleton

theorem ruleInStays : (s.optimize cautious).value.Declared ↔ lower ns ∈ s.declaredNames := by
  rw [ruleInDeclared (optimizeRuleIn only) (by rwa [lowerPrefix]),optimizedNames]

end

/- Declared names stay as they are, while each prefix that is left is in lower case. Whatever the content, prefixes stay
declared just when each name that is declared is declared in lower case too. -/
theorem declaredPrefixes (ctx : Context) (s : Stylesheet) (declared : s.Declared) :
    (s.optimize ctx).value.declaredNames = s.declaredNames ∧
    (∀ p ∈ (s.optimize ctx).value.prefixes, ∃ q ∈ s.prefixes, q ∈ s.declaredNames ∧ p = lower q) ∧
    ((∀ q ∈ s.prefixes, lower q ∈ s.declaredNames) → (s.optimize ctx).value.Declared) ∧
    ((∀ (ctx : Context) (content : List Rule), Stylesheet.Declared { s with content := content } →
        (Stylesheet.optimize ctx { s with content := content }).value.Declared) ↔
      ∀ n ∈ s.declaredNames, lower n ∈ s.declaredNames) := by
  refine ⟨optimizedNames ctx s,fun p mem => ?_,lowerDeclared ctx s,fun stay n name => ?_,fun closed ctx content known => ?_⟩
  · obtain ⟨q,given,same⟩ := optimizedPrefixes ctx s p mem
    exact ⟨q,given,declared q given,same⟩
  · cases is : isPrefix n with
    | false => rwa [unnamedLower is]
    | true =>
      have before : Stylesheet.Declared { s with content := [ruleIn n] } := (ruleInDeclared rfl is).mpr name
      exact (@ruleInStays { s with content := [ruleIn n] } n rfl is).mp (stay cautious [ruleIn n] before)
  · exact lowerDeclared ctx _ fun q used => closed q (known q used)

def capitalPrefix : Bytes := ascii "@namespace SVG url(x);SVG|a\x7b--x:y\x7d"

def capitalNamespace : Namespace := ⟨.url (ascii "x"),ascii "SVG"⟩

def capitalSheet : Stylesheet := { namespaces := [capitalNamespace],content := [ruleIn (ascii "SVG")] }

theorem capitalPrefixRead : (Stylesheet.read capitalPrefix).value = capitalSheet := by with_unfolding_all rfl

theorem capitalPrefixLost : (Stylesheet.read capitalPrefix).value.Declared ∧
    ((Stylesheet.read capitalPrefix).value.optimize cautious).value.declaredNames = [ascii "SVG"] ∧
    ¬((Stylesheet.read capitalPrefix).value.optimize cautious).value.Declared ∧
    ¬∀ (ctx : Context) (content : List Rule), Stylesheet.Declared { capitalSheet with content := content } →
      (Stylesheet.optimize ctx { capitalSheet with content := content }).value.Declared := by
  rw [capitalPrefixRead]
  have named : isPrefix (ascii "SVG") = true := by decide
  have apart : lower (ascii "SVG") ∉ [ascii "SVG"] := by decide
  have declared : capitalSheet.Declared := (ruleInDeclared rfl named).mpr (mem_singleton_self _)
  obtain ⟨same,_,_,exactly⟩ := declaredPrefixes cautious capitalSheet declared
  refine ⟨declared,same,?_,?_⟩
  · rwa [ruleInStays rfl named]
  · rw [exactly]
    exact fun closed => apart (closed _ (mem_singleton_self _))

end Cascade
