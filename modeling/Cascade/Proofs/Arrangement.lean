import Cascade.Optimizer.Rules
import Cascade.Proofs.Covering

/-! What holds of each of the rules that are arranged holds of what they are arranged to, if
joining and covering rulesets keeps it. -/
namespace Cascade
open List

variable {rules : List Rule}

structure Enduring (ctx : Context) (P : Ruleset → Prop) : Prop where
  union : ∀ {a b : Ruleset}, a.isMergeable b = true → P a → P b → P (a.union ctx b).value
  extend : ∀ {a b : Ruleset}, P a → P b → P (a.extend ctx b).value
  covered : ∀ {a b : Ruleset}, P a → (a.withoutCovered b).content ≠ [] → P (a.withoutCovered b)

def Rule.Meets (P : Ruleset → Prop) (Q : Rule → Prop) (rule : Rule) : Prop :=
  match Ruleset.ofRule? rule with
  | none => Q rule
  | some r => P r

variable {ctx : Context} {P : Ruleset → Prop} {Q : Rule → Prop}

theorem meetsRuleset {rule r} (is : Ruleset.ofRule? rule = some r) : rule.Meets P Q ↔ P r := by
  rw [Rule.Meets,is]

variable (enduring : Enduring ctx P)
include enduring

theorem coveredMeets {later} {slot : Slot} (meets : ∀ rule ∈ slot.rule, rule.Meets P Q) :
    ∀ rule ∈ (slot.coveredBy later).rule, rule.Meets P Q := by
  rcases coveredCases later slot with same | ⟨earlier,is,_,same⟩
  · rw [same]
    exact meets
  obtain ⟨rule,there,ruleset⟩ := Option.bind_eq_some_iff.mp is
  have here := (meetsRuleset ruleset).mp (meets rule there)
  rw [same]
  dsimp only
  split
  · exact nofun
  · rename_i full
    rintro _ ⟨⟩
    exact enduring.covered here (by simpa using full)

omit enduring in
theorem putDownMeets {done} (each : ∀ slot ∈ done, ∀ rule ∈ slot.rule, rule.Meets P Q)
    {current} (opened : ∀ o ∈ current, P o.ruleset) :
    ∀ slot ∈ putDown done current, ∀ rule ∈ slot.rule, rule.Meets P Q := by
  cases current with
  | none => exact each
  | some o =>
    refine forall_mem_cons.mpr ⟨?_,each⟩
    rintro rule ⟨⟩
    exact opened o rfl

theorem combineMeets {done} (each : ∀ slot ∈ done, ∀ rule ∈ slot.rule, rule.Meets P Q)
    {current} (opened : ∀ o ∈ current, P o.ruleset) (all : ∀ rule ∈ rules, rule.Meets P Q) :
    ∀ slot ∈ (combineFrom ctx done current rules).value, ∀ rule ∈ slot.rule, rule.Meets P Q := by
  induction rules generalizing done current with
  | nil =>
    intro slot mem
    exact putDownMeets each opened slot (mem_reverse.mp mem)
  | cons rule rules ih =>
    have down := putDownMeets each opened
    obtain ⟨here,rest⟩ := forall_mem_cons.mp all
    rw [combineFrom.eq_def]
    dsimp only
    split
    · have other : ∀ slot ∈ ⟨some rule,[]⟩ :: putDown done current, ∀ r ∈ slot.rule, r.Meets P Q := by
        refine forall_mem_cons.mpr ⟨?_,down⟩
        rintro r ⟨⟩
        exact here
      exact ih other nofun rest
    rename_i r is
    have one : P r := (meetsRuleset is).mp here
    have begins : ∀ slot ∈ (combineFrom ctx ((putDown done current).map (Slot.coveredBy r)) (some (.of r)) rules).value,
        ∀ rule ∈ slot.rule, rule.Meets P Q := by
      refine ih ?_ ?_ rest
      · exact forall_mem_map.mpr fun old there => coveredMeets enduring (down old there)
      · rintro o ⟨⟩
        exact one
    have joins : ∀ {last : OpenRuleset} {joined : Ruleset}, P joined →
        ∀ slot ∈ (combineFrom ctx done (some { last with ruleset := joined }) rules).value,
          ∀ rule ∈ slot.rule, rule.Meets P Q := by
      intro last joined made
      refine ih each ?_ rest
      rintro o ⟨⟩
      exact made
    split
    · exact begins
    rename_i last
    have before : P last.ruleset := opened last rfl
    split
    · rename_i mergeable
      exact joins (enduring.union mergeable before one)
    · split
      · exact joins (enduring.extend before one)
      · exact begins

theorem absorbMeets {r} (one : P r) {passed} (before : ∀ rule ∈ passed, rule.Meets P Q)
    (all : ∀ rule ∈ rules, rule.Meets P Q) : P (absorb ctx r passed rules).value.1 ∧
      ∀ rule ∈ (absorb ctx r passed rules).value.2, rule.Meets P Q := by
  induction rules generalizing r passed with
  | nil => exact ⟨one,fun rule mem => before rule (mem_reverse.mp mem)⟩
  | cons rule rules ih =>
    obtain ⟨here,rest⟩ := forall_mem_cons.mp all
    have passes := ih one (forall_mem_cons.mpr ⟨here,before⟩) rest
    rw [absorb]
    split
    · exact passes
    rename_i other is
    split
    · rename_i joins
      exact ih (enduring.union (Bool.and_eq_true_iff.mp joins).1 one ((meetsRuleset is).mp here)) before rest
    · exact passes

theorem mergeMeets (count) (all : ∀ rule ∈ rules, rule.Meets P Q) :
    ∀ rule ∈ (mergeUpTo ctx count rules).value, rule.Meets P Q := by
  induction count generalizing rules with
  | zero => exact all
  | succ count ih =>
    cases rules with
    | nil => exact all
    | cons rule rules =>
      obtain ⟨here,rest⟩ := forall_mem_cons.mp all
      rw [mergeUpTo]
      split
      · exact forall_mem_cons.mpr ⟨here,ih rest⟩
      · rename_i r is
        obtain ⟨joined,left⟩ := absorbMeets enduring ((meetsRuleset is).mp here) (forall_mem_nil _) rest
        exact forall_mem_cons.mpr ⟨joined,ih left⟩

theorem combinedMeets (all : ∀ rule ∈ rules, rule.Meets P Q) :
    ∀ rule ∈ (combineAdjacent ctx rules).value, rule.Meets P Q := by
  intro rule mem
  obtain ⟨slot,there,is⟩ := mem_filterMap.mp mem
  have opened : ∀ o ∈ (none : Option OpenRuleset), P o.ruleset := nofun
  exact combineMeets enduring (forall_mem_nil _) opened all slot there rule is

theorem arrangeMeets (all : ∀ rule ∈ rules, rule.Meets P Q) :
    ∀ rule ∈ (arrangeRules ctx rules).value, rule.Meets P Q := by
  rw [arrangeRules]
  split
  · exact combinedMeets enduring (mergeMeets enduring _ fun rule mem => all rule ((lastBySublist _).subset mem))
  · exact combinedMeets enduring all

end Cascade
