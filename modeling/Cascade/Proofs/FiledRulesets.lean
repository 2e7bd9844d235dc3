import Cascade.Proofs.Adjacent
import Cascade.Proofs.Passing
import Mathlib.Logic.Function.Iterate

/-! What rulesets are filed under while they are combined: the selectors they began with. A union gives them others
without filing them anew. -/
namespace Cascade
open List

structure Combining where
  done : List Slot
  current : Option OpenRuleset
  rules : List Rule

def Combining.slots (c : Combining) : List Slot := putDown c.done c.current

inductive Turn where
  | place (rule : Rule)
  | unite (last : OpenRuleset) (r : Ruleset)
  | extend (last : OpenRuleset) (r : Ruleset)
  | start (r : Ruleset)

def turnOf (current : Option OpenRuleset) (rule : Rule) : Turn :=
  match Ruleset.ofRule? rule with
  | none => .place rule
  | some r =>
    match current with
    | none => .start r
    | some last =>
      if last.ruleset.isMergeable r then .unite last r
      else if last.ruleset.selector.text == r.selector.text then .extend last r
      else .start r

def Combining.turn (c : Combining) : Option Turn := c.rules.head?.map (turnOf c.current)

def Combining.take (ctx : Context) (c : Combining) : Turn → Combining
  | .place rule => ⟨⟨some rule,[]⟩ :: c.slots,none,c.rules.tail⟩
  | .unite last r => ⟨c.done,some { last with ruleset := (last.ruleset.union ctx r).value },c.rules.tail⟩
  | .extend last r => ⟨c.done,some { last with ruleset := (last.ruleset.extend ctx r).value },c.rules.tail⟩
  | .start r => ⟨c.slots.map (Slot.coveredBy r),some (.of r),c.rules.tail⟩

def Combining.next (ctx : Context) (c : Combining) : Combining := c.turn.elim c (c.take ctx)

def combining (ctx : Context) (rules : List Rule) (n : Nat) : Combining :=
  (Combining.next ctx)^[n] ⟨[],none,rules⟩

def Turn.Fits (c : Combining) : Turn → Prop
  | .place rule => Ruleset.ofRule? rule = none
  | .unite last r => c.current = some last ∧ last.ruleset.isMergeable r = true ∧ r ∈ rulesets c.rules
  | .extend last r => c.current = some last ∧ r ∈ rulesets c.rules
  | .start r => r ∈ rulesets c.rules

theorem turnFits {c} {turn : Turn} (h : c.turn = some turn) : turn.Fits c := by
  obtain ⟨done,current,rules⟩ := c
  cases rules with
  | nil => cases h
  | cons rule rules =>
    simp only [Combining.turn,head?_cons,Option.map_some,Option.some.injEq] at h
    subst h
    unfold turnOf
    split
    · assumption
    rename_i r is
    have there : r ∈ rulesets (rule :: rules) := by simp [rulesets,is]
    split
    · exact there
    rename_i last
    split
    · exact ⟨rfl,by assumption,there⟩
    · split
      · exact ⟨rfl,there⟩
      · exact there

section
variable (ctx : Context)

theorem combineNext (c : Combining) : (combineFrom ctx c.done c.current c.rules).value =
    (combineFrom ctx (c.next ctx).done (c.next ctx).current (c.next ctx).rules).value := by
  obtain ⟨done,current,rules⟩ := c
  cases rules with
  | nil => rfl
  | cons rule rules =>
    rw [combineFrom]
    simp only [Combining.next,Combining.turn,head?_cons,Option.map_some,Option.elim_some]
    unfold turnOf
    cases Ruleset.ofRule? rule with
    | none => rfl
    | some r =>
      cases current with
      | none => rfl
      | some last =>
        dsimp only
        split
        · rfl
        · split <;> rfl

theorem rulesNext (c : Combining) : (c.next ctx).rules = c.rules.tail := by
  unfold Combining.next
  cases h : c.turn with
  | none =>
    have bare : c.rules = [] := by simpa [Combining.turn] using h
    simp [bare]
  | some turn => cases turn <;> rfl

theorem combineRun (c) : (combineFrom ctx c.done c.current c.rules).value =
    ((Combining.next ctx)^[c.rules.length] c).slots.reverse := by
  generalize count : c.rules.length = n
  induction n generalizing c with
  | zero =>
    rw [length_eq_zero_iff.mp count]
    rfl
  | succ n ih =>
    rw [combineNext,Function.iterate_succ_apply]
    apply ih
    simp [rulesNext,count]

variable (rules : List Rule)

theorem combiningNext (n) : combining ctx rules (n + 1) = (combining ctx rules n).next ctx :=
  Function.iterate_succ_apply' _ _ _

theorem rulesLeft (n) : (combining ctx rules n).rules = rules.drop n := by
  induction n with
  | zero => rfl
  | succ n ih => rw [combiningNext,rulesNext,ih,tail_drop]

end

def Turn.Makes (ctx : Context) (c : Combining) (slot : Slot) : Turn → Prop
  | .place rule => slot = ⟨some rule,[]⟩
  | .unite last r => slot = ⟨some (last.ruleset.union ctx r).value.rule,last.keys⟩
  | .extend last r => slot = ⟨some (last.ruleset.extend ctx r).value.rule,last.keys⟩
  | .start r => slot = (OpenRuleset.of r).slot ∨ ∃ before ∈ c.slots, slot = before.coveredBy r

theorem slotsTaken {ctx c} {turn : Turn} (fits : turn.Fits c) {slot}
    (mem : slot ∈ (c.take ctx turn).slots) : slot ∈ c.slots ∨ turn.Makes ctx c slot := by
  cases turn with
  | place rule => exact (mem_cons.mp mem).symm
  | unite last r | extend last r =>
    rcases mem_cons.mp mem with rfl | old
    · exact .inr rfl
    · refine .inl ?_
      rw [Combining.slots,fits.1]
      exact mem_cons_of_mem _ old
  | start r =>
    rcases mem_cons.mp mem with rfl | old
    · exact .inr (.inl rfl)
    · obtain ⟨before,there,rfl⟩ := mem_map.mp old
      exact .inr (.inr ⟨before,there,rfl⟩)

theorem openSlot {c : Combining} {last} (h : c.current = some last) : last.slot ∈ c.slots := by
  rw [Combining.slots,h]
  exact mem_cons_self

theorem slotsKeep {ctx rules} {holds : Nat → Slot → Prop}
    (later : ∀ n slot, holds n slot → holds (n + 1) slot)
    (makes : ∀ n turn, (combining ctx rules n).turn = some turn →
      (∀ slot ∈ (combining ctx rules n).slots, holds n slot) →
        ∀ slot, turn.Makes ctx (combining ctx rules n) slot → holds (n + 1) slot)
    (n) : ∀ slot ∈ (combining ctx rules n).slots, holds n slot := by
  induction n with
  | zero => exact forall_mem_nil _
  | succ n ih =>
    intro slot mem
    rw [combiningNext,Combining.next] at mem
    cases h : (combining ctx rules n).turn with
    | none =>
      rw [h] at mem
      exact later n slot (ih slot mem)
    | some turn =>
      rw [h] at mem
      rcases slotsTaken (turnFits h) mem with old | new
      · exact later n slot (ih slot old)
      · exact makes n turn h ih slot new

section
variable (ctx : Context) (rules : List Rule)

/- A union among the first so many turns that gave a selector to what is filed under some keys. -/
def United (n : Nat) (keys : List Bytes) (selector : Component) : Prop :=
  ∃ k < n, ∃ last r, (combining ctx rules k).turn = some (.unite last r) ∧ last.keys = keys ∧
    (last.ruleset.union ctx r).value.selector = selector

/- A slot is filed under its own selectors unless a union gave it others. -/
def Filed (n : Nat) (slot : Slot) : Prop := ∀ r, slot.rule.bind Ruleset.ofRule? = some r →
  slot.keys = r.texts ∨ United ctx rules n slot.keys r.selector

variable {ctx rules} {n : Nat}

theorem unitedLater {keys selector} (h : United ctx rules n keys selector) :
    United ctx rules (n + 1) keys selector := by
  obtain ⟨k,before,rest⟩ := h
  exact ⟨k,Nat.lt_succ_of_lt before,rest⟩

theorem filedMakes {turn} (taken : (combining ctx rules n).turn = some turn)
    (filed : ∀ slot ∈ (combining ctx rules n).slots, Filed ctx rules n slot) {slot}
    (made : turn.Makes ctx (combining ctx rules n) slot) : Filed ctx rules (n + 1) slot := by
  intro r is
  have fits := turnFits taken
  cases turn with
  | place rule =>
    cases made
    cases fits.symm.trans is
  | unite last b =>
    cases made
    cases is
    exact .inr ⟨n,Nat.lt_succ_self n,last,b,taken,rfl,rfl⟩
  | extend last b =>
    -- Neither the selector nor the keys change.
    cases made
    cases is
    exact (filed last.slot (openSlot fits.1) last.ruleset rfl).imp_right unitedLater
  | start b =>
    rcases made with rfl | ⟨before,there,rfl⟩
    · cases is
      exact .inl rfl
    · obtain ⟨earlier,was,same,_⟩ := coveredHolds is
      rw [coveredKeys,Ruleset.texts,Ruleset.selectors,same]
      exact (filed before there earlier was).imp_right unitedLater

end

section
variable {ctx : Context} {rules : List Rule} {n : Nat}

theorem aheadGiven {n r} (mem : r ∈ rulesets (combining ctx rules n).rules) : r ∈ rulesets rules := by
  rw [rulesLeft] at mem
  exact ((drop_sublist n rules).filterMap _).subset mem

theorem leftMade {r} (mem : r ∈ rulesets (combining ctx rules n).rules) :
    Made (selectorsOf rules) (∀ d ∈ ·, True) r := by
  exact ⟨fun s own => ⟨r,aheadGiven mem,own⟩,fun _ _ => trivial⟩

variable (spared : ∀ s, selectorsOf rules s → Spared ctx s)
  (settled : ∀ s, selectorsOf rules s → Settled ctx s)
include spared settled

theorem soundMakes {turn} (taken : (combining ctx rules n).turn = some turn)
    (sound : ∀ slot ∈ (combining ctx rules n).slots, slot.Sound (selectorsOf rules) fun _ => True)
    {slot} (makes : turn.Makes ctx (combining ctx rules n) slot) : slot.Sound (selectorsOf rules) fun _ => True := by
  have fits := turnFits taken
  cases turn with
  | place rule =>
    cases makes
    constructor <;> intro r is <;> cases fits.symm.trans is
  | unite last r =>
    cases makes
    obtain ⟨made,keys⟩ := soundOpen.mp (sound last.slot (openSlot fits.1))
    have next := leftMade fits.2.2
    refine (soundOpen (o := ⟨_,_⟩)).mpr ⟨madeUnion spared settled made next,?_⟩
    intro key mem
    exact (madeTexts spared settled made next key).mpr (mem_append_left _ (keys key mem))
  | extend last r =>
    cases makes
    obtain ⟨made,keys⟩ := soundOpen.mp (sound last.slot (openSlot fits.1))
    exact (soundOpen (o := ⟨_,_⟩)).mpr ⟨⟨made.selectors,fun _ _ => trivial⟩,keys⟩
  | start r =>
    rcases makes with rfl | ⟨before,there,rfl⟩
    · exact soundOpen.mpr ⟨leftMade fits,fun _ key => key⟩
    · exact coveredSound (sound before there)

end

def Slot.declarations (slot : Slot) : List Declaration :=
  ((slot.rule.bind Ruleset.ofRule?).map Ruleset.content).getD []

theorem coveredTakes {later} {slot : Slot} (h : (slot.coveredBy later).declarations ≠ slot.declarations) :
    ∃ earlier, slot.rule.bind Ruleset.ofRule? = some earlier ∧ earlier.selector.isList = false ∧
      ∃ key ∈ later.texts, key ∈ slot.keys := by
  rcases coveredCases later slot with same | ⟨earlier,is,met,same⟩
  · rw [same] at h
    exact absurd rfl h
  refine ⟨earlier,is,?_,met⟩
  by_contra list
  have whole : earlier.withoutCovered later = earlier := by
    rw [Ruleset.withoutCovered,if_pos (Bool.not_eq_false _ ▸ list)]
  refine h ?_
  rw [Slot.declarations,Slot.declarations,same,is,whole]
  cases empty : earlier.content with
  | nil => simp [empty]
  | cons d ds => simp [empty]

/- Whatever a ruleset takes from an earlier one it takes from a single selector. It has that selector too, unless a union
left the earlier ruleset with it under other keys. -/
theorem onlyFiledGoes (ctx : Context) (rules : List Rule) :
    (combineAdjacent ctx rules).value =
      (combining ctx rules rules.length).slots.reverse.filterMap Slot.rule ∧
    ∀ n r, (combining ctx rules n).turn = some (.start r) → ∀ slot ∈ (combining ctx rules n).slots,
      (slot.coveredBy r).declarations ≠ slot.declarations →
        ∃ earlier, slot.rule.bind Ruleset.ofRule? = some earlier ∧ earlier.selector.isList = false ∧
          (earlier.selector.text ∈ r.texts ∨ United ctx rules n slot.keys earlier.selector ∧
            ∃ key ∈ slot.keys, key ∈ r.texts ∧ key ≠ earlier.selector.text) ∧
          ((∀ s, selectorsOf rules s → Settled ctx s ∧ Spared ctx s) → earlier.selector.text ∈ r.texts) := by
  refine ⟨?_,?_⟩
  · rw [combineAdjacent,Noted.valueBind,Noted.valuePure,combineRun ctx ⟨[],none,rules⟩]
    rfl
  · intro n r _ slot mem takes
    obtain ⟨earlier,is,single,key,asked,own⟩ := coveredTakes takes
    have texts := singleTexts single
    refine ⟨earlier,is,single,?_,?_⟩
    · by_cases same : key = earlier.selector.text
      · exact Or.inl (same ▸ asked)
      refine Or.inr ⟨?_,key,own,asked,same⟩
      have filed := slotsKeep (fun _ _ filed r is => (filed r is).imp_right unitedLater)
        (fun _ _ taken filed _ => filedMakes taken filed) n slot mem
      rcases filed earlier is with filed | united
      · rw [filed,texts,mem_singleton] at own
        exact absurd own same
      · exact united
    · intro calm
      have sound := slotsKeep (fun _ _ sound => sound) (fun _ _ taken sound _ =>
        soundMakes (fun s h => (calm s h).2) (fun s h => (calm s h).1) taken sound) n slot mem
      have still := sound.keys earlier is key own
      rw [texts,mem_singleton] at still
      exact still ▸ asked

def misfiled : List Rule :=
  [(lone (typeSelector "a") (wordDeclaration "--x" "1")).rule,
    (lone (typeSelector "*") (wordDeclaration "--x" "1")).rule,
    (lone (typeSelector "b") (wordDeclaration "--y" "1")).rule,
    (lone (typeSelector "a") (wordDeclaration "--x" "2")).rule]

theorem universalUnion (d e) :
    ((lone (typeSelector "a") d).union thorough (lone (typeSelector "*") e)).value =
      lone (typeSelector "*") d := by
  have survive : Outcome.survivors (Component.optimizeAll thorough [typeSelector "a",typeSelector "*"]).value =
      [typeSelector "a",typeSelector "*"] := rfl
  have sorted : sortSelectors [typeSelector "a",typeSelector "*"] = [typeSelector "*",typeSelector "a"] := by
    have down : textAtMost (typeSelector "a") (typeSelector "*") = false := by decide
    simp [sortSelectors,List.mergeSort,List.MergeSort.Internal.splitInTwo,down]
  have left : leftSelectors thorough [typeSelector "a",typeSelector "*"] = [typeSelector "*"] := by
    rw [leftSpared fun _ _ => .inl rfl,arrangeSelectors,sorted]
    rfl
  have outcome : ((Component.list [typeSelector "a",typeSelector "*"]).optimize thorough).value =
      ⟨typeSelector "*",true⟩ := by
    rw [listOutcome,survive,left]
    rfl
  exact congrArg (fun o : Outcome => lone o.component d) outcome

theorem misfiledCombined : combining thorough misfiled 3 =
    ⟨[⟨some (lone (typeSelector "*") (wordDeclaration "--x" "1")).rule,[ascii "a"]⟩],
      some (.of (lone (typeSelector "b") (wordDeclaration "--y" "1"))),misfiled.drop 3⟩ := by
  have two : combining thorough misfiled 2 =
      ⟨[],some ⟨((lone (typeSelector "a") (wordDeclaration "--x" "1")).union thorough
        (lone (typeSelector "*") (wordDeclaration "--x" "1"))).value,[ascii "a"]⟩,misfiled.drop 2⟩ := rfl
  rw [universalUnion] at two
  rw [combiningNext,two]
  rfl

theorem universalMisfiled : ∃ slot ∈ (combining thorough misfiled 3).slots, ∃ later earlier,
    (combining thorough misfiled 3).turn = some (.start later) ∧ later.texts = [ascii "a"] ∧
    slot.declarations = [wordDeclaration "--x" "1"] ∧ (slot.coveredBy later).declarations = [] ∧
    slot.rule.bind Ruleset.ofRule? = some earlier ∧ earlier.selector.text = universal ∧
    United thorough misfiled 3 slot.keys earlier.selector ∧
    (combineAdjacent thorough misfiled).value =
      [(lone (typeSelector "b") (wordDeclaration "--y" "1")).rule,
        (lone (typeSelector "a") (wordDeclaration "--x" "2")).rule] := by
  obtain ⟨run,goes⟩ := onlyFiledGoes thorough misfiled
  have there : (⟨some (lone (typeSelector "*") (wordDeclaration "--x" "1")).rule,[ascii "a"]⟩ : Slot) ∈
      (combining thorough misfiled 3).slots := by
    rw [misfiledCombined]
    exact mem_cons_of_mem _ mem_cons_self
  have starts : (combining thorough misfiled 3).turn =
      some (.start (lone (typeSelector "a") (wordDeclaration "--x" "2"))) := by
    rw [misfiledCombined]
    rfl
  obtain ⟨earlier,is,_,either,_⟩ := goes 3 _ starts _ there (cons_ne_nil _ _).symm
  cases is
  refine ⟨_,there,_,_,starts,rfl,rfl,rfl,rfl,rfl,(either.resolve_left (by decide)).1,?_⟩
  rw [run]
  change (combining thorough misfiled (3 + 1)).slots.reverse.filterMap Slot.rule = _
  rw [combiningNext,misfiledCombined]
  rfl

end Cascade
