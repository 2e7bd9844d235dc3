import Cascade.Proofs.Arrangement
import Cascade.Proofs.FiledRulesets
import Cascade.Proofs.VendorMarks

/-! Which rulesets come to share a list of selectors, while those with one body are merged across others and while
neighbours are combined. -/
namespace Cascade
open List

/- Rulesets being merged: the rules that are done with, the last one first, the ruleset that takes in later ones with
the rules it has passed, and the rules to come. -/
structure Merging where
  done : List Rule
  current : Option (Ruleset × List Rule)
  rules : List Rule

def Merging.pair (m : Merging) : Option (Ruleset × Ruleset) :=
  match m.current,m.rules with
  | some (r,passed),rule :: _ =>
    match Ruleset.ofRule? rule with
    | some other => if r.isMergeable other && passed.all (mayPass other) then some (r,other) else none
    | none => none
  | _,_ => none

def Merging.next (ctx : Context) (m : Merging) : Merging :=
  match m.current,m.rules with
  | none,[] => m
  | none,rule :: rules =>
    match Ruleset.ofRule? rule with
    | none => ⟨rule :: m.done,none,rules⟩
    | some r => ⟨m.done,some (r,[]),rules⟩
  | some (r,passed),[] => ⟨r.rule :: m.done,none,passed.reverse⟩
  | some (r,passed),rule :: rules =>
    match m.pair with
    | none => ⟨m.done,some (r,rule :: passed),rules⟩
    | some (a,b) => ⟨m.done,some ((a.union ctx b).value,passed),rules⟩

def merging (ctx : Context) (rules : List Rule) (n : Nat) : Merging := (Merging.next ctx)^[n] ⟨[],none,rules⟩

section
variable (ctx : Context)

theorem absorbRun (done r passed rules) :
    ∃ n, (Merging.next ctx)^[n] ⟨done,some (r,passed),rules⟩ =
      ⟨(absorb ctx r passed rules).value.1.rule :: done,none,(absorb ctx r passed rules).value.2⟩ := by
  induction rules generalizing r passed with
  | nil => exact ⟨1,rfl⟩
  | cons rule rules ih =>
    have go : ∀ {r' : Ruleset} {passed' : List Rule},
        Merging.next ctx ⟨done,some (r,passed),rule :: rules⟩ = ⟨done,some (r',passed'),rules⟩ →
        ∃ n, (Merging.next ctx)^[n] ⟨done,some (r,passed),rule :: rules⟩ =
          ⟨(absorb ctx r' passed' rules).value.1.rule :: done,none,(absorb ctx r' passed' rules).value.2⟩ := by
      intro r' passed' step
      obtain ⟨n,rest⟩ := ih r' passed'
      exact ⟨n + 1,by rw [Function.iterate_succ_apply,step,rest]⟩
    rw [absorb]
    split
    · rename_i other
      exact go (by simp only [Merging.next,Merging.pair,other])
    rename_i other is
    split
    · rename_i joins
      rw [Noted.valueBind]
      exact go (by simp only [Merging.next,Merging.pair,is,joins,if_true])
    · rename_i stays
      exact go (by simp only [Merging.next,Merging.pair,is,if_neg stays])

theorem absorbLength (r passed rules) : (absorb ctx r passed rules).value.2.length ≤ passed.length + rules.length := by
  induction rules generalizing r passed with
  | nil => simp [absorb]
  | cons rule rules ih =>
    have passes := ih r (rule :: passed)
    rw [length_cons] at passes
    rw [absorb,length_cons]
    split
    · omega
    split
    · rw [Noted.valueBind]
      exact Nat.le_trans (ih _ passed) (by omega)
    · omega

theorem mergeRun (count done rules) (enough : rules.length ≤ count) :
    ∃ n, (Merging.next ctx)^[n] ⟨done,none,rules⟩ = ⟨(mergeUpTo ctx count rules).value.reverse ++ done,none,[]⟩ := by
  induction count generalizing done rules with
  | zero =>
    rw [length_eq_zero_iff.mp (Nat.le_zero.mp enough)]
    exact ⟨0,rfl⟩
  | succ count ih =>
    cases rules with
    | nil => exact ⟨0,rfl⟩
    | cons rule rules =>
      rw [length_cons] at enough
      rw [mergeUpTo]
      split
      · rename_i other
        obtain ⟨n,rest⟩ := ih (rule :: done) rules (by omega)
        have step : Merging.next ctx ⟨done,none,rule :: rules⟩ = ⟨rule :: done,none,rules⟩ := by
          simp only [Merging.next,other]
        refine ⟨n + 1,?_⟩
        rw [Function.iterate_succ_apply,step,rest,Noted.valueBind,Noted.valuePure]
        simp
      · rename_i r is
        obtain ⟨n,absorbed⟩ := absorbRun ctx done r [] rules
        have short := absorbLength ctx r [] rules
        obtain ⟨k,rest⟩ := ih ((absorb ctx r [] rules).value.1.rule :: done) (absorb ctx r [] rules).value.2
          (by simp only [length_nil] at short; omega)
        have step : Merging.next ctx ⟨done,none,rule :: rules⟩ = ⟨done,some (r,[]),rules⟩ := by
          simp only [Merging.next,is]
        refine ⟨k + n + 1,?_⟩
        rw [Function.iterate_succ_apply,step,Function.iterate_add_apply,absorbed,rest]
        simp only [Noted.valueBind,Noted.valuePure]
        simp

end

structure Merging.Each (P : Ruleset → Prop) (m : Merging) : Prop where
  current : ∀ c ∈ m.current, P c.1 ∧ ∀ r ∈ rulesets c.2, P r
  rules : ∀ r ∈ rulesets m.rules, P r

def Slot.Holds (P : Ruleset → Prop) (slot : Slot) : Prop := ∀ rule ∈ slot.rule, rule.Meets P fun _ => True

section
variable {ctx : Context} {P : Ruleset → Prop}

theorem rulesetsCons {rule rules} : (∀ r ∈ rulesets (rule :: rules), P r) ↔
    (∀ r ∈ Ruleset.ofRule? rule, P r) ∧ ∀ r ∈ rulesets rules, P r := by
  rw [rulesets,filterMap_cons]
  cases Ruleset.ofRule? rule with
  | none => simp [rulesets]
  | some r => simp [rulesets]

theorem pairFits {m : Merging} {a b} (now : m.pair = some (a,b)) :
    a.isMergeable b ∧ (∃ passed, m.current = some (a,passed)) ∧
      ∃ rule rules, m.rules = rule :: rules ∧ Ruleset.ofRule? rule = some b := by
  unfold Merging.pair at now
  split at now
  · rename_i r passed rule rules current next
    split at now
    · rename_i other is
      split at now
      · rename_i joins
        cases now
        exact ⟨(Bool.and_eq_true_iff.mp joins).1,⟨passed,current⟩,rule,rules,next,is⟩
      · cases now
    · cases now
  · cases now

theorem pairEach {m : Merging} (each : m.Each P) {a b} (now : m.pair = some (a,b)) : P a ∧ P b := by
  obtain ⟨_,⟨passed,current⟩,rule,rules,next,is⟩ := pairFits now
  have ahead := each.rules
  rw [next,rulesetsCons] at ahead
  exact ⟨(each.current _ current).1,ahead.1 b is⟩

theorem noneOpen : ∀ c ∈ (none : Option (Ruleset × List Rule)), P c.1 ∧ ∀ r ∈ rulesets c.2, P r := by
  rintro _ ⟨⟩

theorem eachNext (enduring : Enduring ctx P) {m : Merging} (each : m.Each P) : (m.next ctx).Each P := by
  obtain ⟨done,current,rules⟩ := m
  cases rules with
  | nil =>
    cases current with
    | none => exact each
    | some c =>
      refine ⟨noneOpen,fun r mem => (each.current c rfl).2 r ?_⟩
      simpa [rulesets,Merging.next] using mem
  | cons rule rules =>
    obtain ⟨here,ahead⟩ := rulesetsCons.mp each.rules
    cases current with
    | none =>
      rw [Merging.next]
      dsimp only
      split
      · exact ⟨noneOpen,ahead⟩
      rename_i r is
      refine ⟨?_,ahead⟩
      rintro _ ⟨⟩
      exact ⟨here r is,forall_mem_nil _⟩
    | some c =>
      obtain ⟨r,passed⟩ := c
      obtain ⟨own,behind⟩ := each.current _ rfl
      rw [Merging.next]
      dsimp only
      split
      · refine ⟨?_,ahead⟩
        rintro _ ⟨⟩
        exact ⟨own,rulesetsCons.mpr ⟨here,behind⟩⟩
      rename_i a b now
      obtain ⟨first,second⟩ := pairEach each now
      refine ⟨?_,ahead⟩
      rintro _ ⟨⟩
      exact ⟨enduring.union (pairFits now).1 first second,behind⟩

variable {rules : List Rule} (enduring : Enduring ctx P) (all : ∀ r ∈ rulesets rules, P r)
include enduring all

theorem mergingEach (n) : (merging ctx rules n).Each P := by
  induction n with
  | zero => exact ⟨noneOpen,all⟩
  | succ n ih =>
    rw [merging,Function.iterate_succ_apply']
    exact eachNext enduring ih

theorem madeEach {n turn} (taken : (combining ctx rules n).turn = some turn)
    (each : ∀ slot ∈ (combining ctx rules n).slots, slot.Holds P) {slot}
    (made : turn.Makes ctx (combining ctx rules n) slot) : slot.Holds P := by
  have fits := turnFits taken
  cases turn with
  | place rule =>
    cases made
    rintro _ ⟨⟩
    rw [Rule.Meets,fits]
    trivial
  | unite last b =>
    cases made
    rintro _ ⟨⟩
    exact enduring.union fits.2.1 (each last.slot (openSlot fits.1) _ rfl) (all b (aheadGiven fits.2.2))
  | extend last b =>
    cases made
    rintro _ ⟨⟩
    exact enduring.extend (each last.slot (openSlot fits.1) _ rfl) (all b (aheadGiven fits.2))
  | start b =>
    rcases made with rfl | ⟨before,there,rfl⟩
    · rintro _ ⟨⟩
      exact all b (aheadGiven fits)
    · exact coveredMeets enduring (each before there)

end

inductive Unites (ctx : Context) (rules : List Rule) : Ruleset → Ruleset → Prop where
  | merged {n : Nat} {a b : Ruleset} (now : (merging ctx rules n).pair = some (a,b)) : Unites ctx rules a b
  | combined {n : Nat} {last : OpenRuleset} {b : Ruleset} (now : (combining ctx rules n).turn = some (.unite last b)) :
      Unites ctx rules last.ruleset b

inductive Component.Arises : Component → Prop where
  | read {ss : List Component} (each : ∀ s ∈ ss, s.IsLexed) : Arises (.ofSelectors ss)
  | optimized (ctx : Context) {s : Component} (before : s.Arises) : Arises (s.again ctx)

theorem arisesWellNamed {s : Component} (arises : s.Arises) : s.WellNamed := by
  induction arises with
  | read each => exact listedWellNamed fun s mem => lexedWellNamed (each s mem)
  | optimized ctx _ ih => exact wellNamedAgain ctx ih

/- A selector without a vendor's pseudo-class or pseudo-element: as far as the parts kept as they were written close
what they open, it shows the mark of a vendor only where one of them does. -/
structure Component.Unmarked (s : Component) : Prop where
  pseudo : s.hasVendorPseudo = false
  marks : (∀ piece ∈ s.verbatim, Rounded piece) → showsMark s.text = s.verbatim.any showsMark

theorem unmarkedOf {s : Component} (named : s.WellNamed) (pseudo : s.hasVendorPseudo = false) : s.Unmarked := by
  refine ⟨pseudo,fun rounded => ?_⟩
  have shows := (wellNamedShows named rounded).marks
  rwa [Component.marked,pseudo,Bool.false_or] at shows

/- What is known of rulesets on the way: those for a vendor have the selector of a ruleset that was there from the
start. -/
structure Ruleset.Native (rules : List Rule) (r : Ruleset) : Prop where
  named : r.selector.WellNamed
  given : r.selector.hasVendorPseudo = true → ∃ g ∈ rulesets rules, g.selector = r.selector

section
variable {ctx : Context} {rules : List Rule}

theorem mergeableVendor {a b : Ruleset} (mergeable : a.isMergeable b) :
    a.selector.hasVendorPseudo = false ∧ b.selector.hasVendorPseudo = false := by
  unfold Ruleset.isMergeable at mergeable
  simp only [Bool.and_eq_true,Bool.not_eq_true'] at mergeable
  exact ⟨mergeable.1.2,mergeable.2⟩

theorem selectorsWellNamed {s : Component} (named : s.WellNamed) : ∀ t ∈ s.selectors, t.WellNamed := by
  cases s with
  | list ss =>
    cases named
    assumption
  | _ => exact forall_mem_singleton.mpr named

theorem selectorsVendor (s : Component) : Component.anyVendorPseudo s.selectors = s.hasVendorPseudo := by
  cases s with
  | list ss => rfl
  | _ => exact Bool.or_false _

theorem nativeEnduring : Enduring ctx (Ruleset.Native rules) where
  union {a b} mergeable left right := by
    obtain ⟨first,second⟩ := mergeableVendor mergeable
    have both : (Component.list (a.selectors ++ b.selectors)).WellNamed :=
      .list (forall_mem_append.mpr ⟨selectorsWellNamed left.named,selectorsWellNamed right.named⟩)
    refine ⟨wellNamedAgain ctx both,fun vendor => ?_⟩
    have either := vendorAgain ctx both vendor
    rw [Component.hasVendorPseudo,anyVendorPseudoAny,any_append,← anyVendorPseudoAny,← anyVendorPseudoAny,
      Ruleset.selectors,Ruleset.selectors,selectorsVendor,selectorsVendor,first,second] at either
    cases either
  extend left _ := ⟨left.named,left.given⟩
  covered {a b} native _ := by
    have same := withoutCoveredSelector a b
    exact ⟨same ▸ native.named,same ▸ native.given⟩

theorem unitesEach {P} (enduring : Enduring ctx P) (all : ∀ r ∈ rulesets rules, P r) {a b}
    (unites : Unites ctx rules a b) : a.isMergeable b ∧ P a ∧ P b := by
  cases unites with
  | @merged n _ _ now => exact ⟨(pairFits now).1,pairEach (mergingEach enduring all n) now⟩
  | @combined n last _ now =>
    obtain ⟨current,mergeable,ahead⟩ := turnFits now
    have each := slotsKeep (fun _ _ known => known) (fun _ _ taken each _ => madeEach enduring all taken each) n
    exact ⟨mergeable,each last.slot (openSlot current) _ rfl,all b (aheadGiven ahead)⟩

theorem rulesetsEach {P rules} : (∀ rule ∈ rules, rule.Meets P fun _ => True) ↔ ∀ r ∈ rulesets rules, P r := by
  induction rules with
  | nil => simp [rulesets]
  | cons rule rules ih =>
    rw [forall_mem_cons,rulesetsCons,ih,Rule.Meets]
    cases Ruleset.ofRule? rule with
    | none => simp
    | some r => simp

theorem combinedRun (ctx rules) : (combineAdjacent ctx rules).value =
    (combining ctx rules rules.length).slots.reverse.filterMap Slot.rule := by
  rw [combineAdjacent,Noted.valueBind,Noted.valuePure,combineRun ctx ⟨[],none,rules⟩]
  rfl

end

/- Both when rulesets are merged and when they are combined, no selector with a vendor's pseudo-class or pseudo-element is
united with another, and none that shows a vendor's mark, except in a part that is kept as it was written. -/
theorem vendorSelectorsApart (ctx : Context) (rules : List Rule) (arise : ∀ r ∈ rulesets rules, r.selector.Arises) :
    (∃ n, merging ctx rules n = ⟨(mergeRulesets ctx rules).value.reverse,none,[]⟩) ∧
    (combineAdjacent ctx rules).value = (combining ctx rules rules.length).slots.reverse.filterMap Slot.rule ∧
    (∀ a b, Unites ctx rules a b → a.selector.Unmarked ∧ b.selector.Unmarked) ∧
    ∀ r, r ∈ rulesets (mergeRulesets ctx rules).value ∨ r ∈ rulesets (combineAdjacent ctx rules).value →
      (∃ given ∈ rulesets rules, given.selector = r.selector) ∨ r.selector.Unmarked := by
  have native : ∀ r ∈ rulesets rules, r.Native rules :=
    fun r mem => ⟨arisesWellNamed (arise r mem),fun _ => ⟨r,mem,rfl⟩⟩
  refine ⟨?_,combinedRun ctx rules,?_,?_⟩
  · obtain ⟨n,run⟩ := mergeRun ctx rules.length [] rules (Nat.le_refl _)
    exact ⟨n,by rw [merging,run,append_nil]; rfl⟩
  · intro a b unites
    obtain ⟨mergeable,first,second⟩ := unitesEach nativeEnduring native unites
    obtain ⟨left,right⟩ := mergeableVendor mergeable
    exact ⟨unmarkedOf first.named left,unmarkedOf second.named right⟩
  · intro r made
    have known : r.Native rules := by
      have meets := rulesetsEach.mpr native
      rcases made with merged | combined
      · exact rulesetsEach.mp (mergeMeets nativeEnduring _ meets) r merged
      · exact rulesetsEach.mp (combinedMeets nativeEnduring meets) r combined
    cases vendor : r.selector.hasVendorPseudo with
    | true => exact Or.inl (known.given vendor)
    | false => exact Or.inr (unmarkedOf known.named vendor)

def relativeArgument : List Token := [⟨.delim,[62]⟩,Token.colon,⟨.ident,ascii "-moz-x"⟩]

def relativeCondition : Component := plainPseudo (ascii "has") relativeArgument

def relativeSelector : Component := .compound [.element (ascii "a") [] false,relativeCondition]

def relativeRuleset : Ruleset := lone relativeSelector (wordDeclaration "color" "red")

def fellowRuleset : Ruleset := lone (typeOnly (ascii "b")) (wordDeclaration "color" "red")

theorem relativeLexed : relativeSelector.IsLexed := lexedAs "a:has(>:-moz-x)" rfl (by with_unfolding_all rfl)

theorem fellowLexed : (typeOnly (ascii "b")).IsLexed := lexedAs "b" rfl (by with_unfolding_all rfl)

theorem relativeArises : ∀ r ∈ rulesets [relativeRuleset.rule,fellowRuleset.rule], r.selector.Arises := by
  have one {s : Component} (lexed : s.IsLexed) : s.Arises := .read (forall_mem_singleton.mpr lexed)
  exact forall_mem_cons.mpr ⟨one relativeLexed,forall_mem_singleton.mpr (one fellowLexed)⟩

theorem relativeVendorShared : (∀ r ∈ rulesets [relativeRuleset.rule,fellowRuleset.rule], r.selector.Arises) ∧
    Unites {} [relativeRuleset.rule,fellowRuleset.rule] relativeRuleset fellowRuleset ∧
    relativeSelector.hasVendorPseudo = false ∧ relativeSelector.verbatim = [ascii "(>:-moz-x)"] ∧
    showsMark relativeSelector.text = true := by
  obtain ⟨_,_,unmarked,_⟩ := vendorSelectorsApart {} _ relativeArises
  have unites : Unites {} [relativeRuleset.rule,fellowRuleset.rule] relativeRuleset fellowRuleset :=
    @Unites.combined {} _ 1 (.of relativeRuleset) fellowRuleset rfl
  have kept : relativeSelector.verbatim = [ascii "(>:-moz-x)"] := by decide
  have left := (unmarked _ _ unites).1
  refine ⟨relativeArises,unites,left.pseudo,kept,?_⟩
  have marks : showsMark relativeSelector.text = relativeSelector.verbatim.any showsMark := by
    refine left.marks ?_
    rw [show relativeRuleset.selector = relativeSelector from rfl,kept]
    exact forall_mem_singleton.mpr rfl
  rw [marks,kept]
  rfl

end Cascade
