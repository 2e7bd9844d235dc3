import Cascade.Proofs.Claimants
import Cascade.Proofs.DeclarationBlock

/-! Rulesets with one body that are joined across others. For any one box and any one thing to set, a ruleset moves past
nothing. -/
namespace Cascade
open List Declaration
open Declaration (text face)
open Claimant (weight Like)

variable {σ : Type} [LinearOrder σ]

/- What a box must be for the conditions of a compound selector, as far as they exclude
each other: an element and an ID if the selector names one, and always its very
pseudo-element. -/
structure Compound.Fits (c box : Compound) : Prop where
  element : c.element = [] ∨ c.element = box.element
  id : c.id = [] ∨ c.id = box.id
  pseudoElement : c.pseudoElement = box.pseudoElement

theorem differFits {a b part : Bytes} (left : a = [] ∨ a = part) (right : b = [] ∨ b = part) : differ a b = false := by
  unfold differ
  rcases left with rfl | rfl
  · rfl
  · rcases right with rfl | rfl
    · simp
    · simp

theorem disjointFits {a b box : Compound} (left : a.Fits box) (right : b.Fits box) : a.isDisjoint b = false := by
  rw [Compound.isDisjoint,differFits left.element right.element,differFits left.id right.id,
    left.pseudoElement,right.pseudoElement]
  simp

def sameText (d e : Declaration) : Prop := d.text = e.text

theorem sameTextRefl (d) : sameText d d := rfl

theorem sameTextTrans (d e f) (left : sameText d e) (right : sameText e f) : sameText d f := left.trans right

theorem textRel {a b} (h : Option.Rel sameText a b) : a.map text = b.map text := by
  cases h with
  | none => rfl
  | some same => exact congrArg some same

section
variable {v : Sight σ} {box : Compound} {group : Bytes → Bool} {pool : Component → Prop}
  {block : List Declaration → Prop}

variable (admits : ∀ d, v.admits d = group d.key)
  (interact : ∀ p q, group p = true → group q = true → propertiesInteract p q = true)
  (fits : ∀ s, pool s → v.hits s.text = true → (Compound.of s.subject).Fits box)
include admits interact fits

theorem oneSilent {r u rule} (is : Ruleset.ofRule? rule = some u)
    (pass : mayPass r rule) (left : Made pool block r) (right : Made pool block u) :
    v.claimants r = [] ∨ v.claimants u = [] := by
  rw [mayPass,is] at pass
  rcases (Bool.or_eq_true _ _).mp pass with apart | disjoint
  · have never : ∀ d ∈ u.content, ∀ e ∈ r.content, propertiesInteract d.key e.key = false := by
      simpa [declarationsInteract] using apart
    by_cases said : ∃ d ∈ u.content, v.admits d
    · obtain ⟨d,hd,admitted⟩ := said
      refine .inl (claimantsNil (.inr ?_))
      intro e he
      by_contra other
      rw [Bool.not_eq_false,admits] at other
      rw [admits] at admitted
      have meet := interact d.key e.key admitted other
      rw [never d hd e he] at meet
      cases meet
    · push Not at said
      exact .inr (claimantsNil (.inr fun d hd => by simpa using said d hd))
  · by_cases seen : ∃ s ∈ u.selectors, v.hits s.text
    · obtain ⟨s,hs,hit⟩ := seen
      refine .inl (claimantsNil (.inl ?_))
      intro t ht
      by_contra other
      rw [Bool.not_eq_false] at other
      have meet := disjointFits (fits s (right.selectors s hs) hit) (fits t (left.selectors t ht) other)
      rw [areDisjoint,all_eq_true] at disjoint
      have apart := all_eq_true.mp (disjoint s hs) t ht
      rw [meet] at apart
      cases apart
    · push Not at seen
      exact .inr (claimantsNil (.inl fun s hs => by simpa using seen s hs))

theorem passCommutes {r passed} (pass : passed.all (mayPass r))
    (made : Made pool block r) (all : ∀ u ∈ rulesets passed, Made pool block u) :
    v.contest passed ++ v.claimants r = v.claimants r ++ v.contest passed := by
  by_cases silent : v.claimants r = []
  · rw [silent,append_nil,nil_append]
  have bare : v.contest passed = [] := by
    rw [Sight.contest,flatMap_eq_nil_iff]
    intro u mem
    obtain ⟨rule,there,is⟩ := mem_filterMap.mp mem
    have may := all_eq_true.mp pass rule there
    exact (oneSilent admits interact fits is may made (all u mem)).resolve_left silent
  rw [bare,append_nil,nil_append]

variable {ctx : Context} (keep : ctx.keepHacks = true) (settled : ∀ s, pool s → Settled ctx s)
  (legible : ∀ ds es, block ds → block es → declarationsText ds = declarationsText es →
    ds.map face = es.map face)
include keep settled legible

theorem joinAcross {r other passed} (same : r.body = other.body)
    (pass : passed.all (mayPass other)) (left : Made pool block r)
    (right : Made pool block other) (all : ∀ u ∈ rulesets passed, Made pool block u) :
    Option.Rel (Like sameText)
      (strongest weight (v.claimants r ++ (v.contest passed ++ v.claimants other)))
      (strongest weight (v.claimants (r.union ctx other).value ++ v.contest passed)) := by
  have faces := legible other.content r.content right.content left.content same.symm
  rw [passCommutes admits interact fits pass right all,← append_assoc,strongestAppend,
    strongestAppend _ (v.contest passed)]
  refine prevailRel likeEven ?_ (relRefl (likeRefl sameTextRefl) _)
  refine claimantsUnion (fun _ _ => .inl keep) settled left right sameTextRefl v (faceForall faces ?_)
  intro d _ e _ face
  obtain ⟨key,important,text⟩ := faceParts face
  exact ⟨important,by rw [admits,admits,key],text⟩

theorem absorbKeeps {r passed rules} (made : Made pool block r)
    (all : ∀ u ∈ rulesets (passed.reverse ++ rules), Made pool block u) :
    Option.Rel (Like sameText)
        (strongest weight (v.claimants r ++ v.contest (passed.reverse ++ rules)))
        (strongest weight (v.claimants (absorb ctx r passed rules).value.1 ++
          v.contest (absorb ctx r passed rules).value.2)) ∧
      ∀ u ∈ rulesets (absorb ctx r passed rules).value.2, Made pool block u := by
  induction rules generalizing r passed with
  | nil =>
    rw [append_nil] at all ⊢
    exact ⟨relRefl (likeRefl sameTextRefl) _,all⟩
  | cons rule rules ih =>
    have step : passed.reverse ++ rule :: rules = (rule :: passed).reverse ++ rules := by simp
    have moveOn := step ▸ @ih r (rule :: passed) made
    rw [absorb]
    split
    · exact moveOn all
    rename_i other is
    split
    · rename_i joins
      obtain ⟨mergeable,pass⟩ := (Bool.and_eq_true _ _).mp joins
      rw [← all_reverse] at pass
      obtain ⟨right,front,back⟩ : Made pool block other ∧
          (∀ u ∈ rulesets passed.reverse, Made pool block u) ∧ ∀ u ∈ rulesets rules, Made pool block u := by
        rw [rulesets,filterMap_append,filterMap_cons_some is] at all
        exact ⟨all other (by simp),fun u mem => all u (mem_append_left _ mem),
          fun u mem => all u (mem_append_right _ (mem_cons_of_mem _ mem))⟩
      have rest : ∀ u ∈ rulesets (passed.reverse ++ rules), Made pool block u := by
        intro u mem
        rw [rulesets,filterMap_append] at mem
        exact (mem_append.mp mem).elim (front u) (back u)
      obtain ⟨goesOn,result⟩ := ih (madeUnion (fun _ _ => .inl keep) settled made right) rest
      refine ⟨relTrans (likeTrans sameTextTrans) ?_ goesOn,result⟩
      rw [contestAppend,contestRuleset v is,contestAppend,← append_assoc (v.contest _),
        ← append_assoc,← append_assoc _ _ (v.contest rules),strongestAppend,
        strongestAppend _ (v.contest rules)]
      refine prevailRel likeEven ?_ (relRefl (likeRefl sameTextRefl) _)
      exact joinAcross admits interact fits keep settled legible (mergeableBody mergeable) pass made
        right front
    · exact moveOn all

theorem mergeKeeps (count) {rules} (all : ∀ u ∈ rulesets rules, Made pool block u) :
    Option.Rel (Like sameText) (strongest weight (v.contest rules))
      (strongest weight (v.contest (mergeUpTo ctx count rules).value)) := by
  induction count generalizing rules with
  | zero => exact relRefl (likeRefl sameTextRefl) _
  | succ count ih =>
    cases rules with
    | nil => exact relRefl (likeRefl sameTextRefl) _
    | cons rule rules =>
      rw [mergeUpTo]
      split
      · rename_i other
        rw [Noted.valueBind,Noted.valuePure,contestOther v other,contestOther v other]
        rw [rulesets,filterMap_cons_none other] at all
        exact ih all
      rename_i r is
      rw [rulesets,filterMap_cons_some is] at all
      have before : ∀ u ∈ rulesets ([].reverse ++ rules), Made pool block u := fun u mem =>
        all u (mem_cons_of_mem _ mem)
      obtain ⟨absorbs,left⟩ := absorbKeeps admits interact fits keep settled legible
        (all r mem_cons_self) before
      rw [contestRuleset v is]
      refine relTrans (likeTrans sameTextTrans) absorbs ?_
      rw [Noted.valueBind,Noted.valueBind,Noted.valuePure,contestRuleset v rfl,strongestAppend,
        strongestAppend]
      exact prevailRel likeEven (relRefl (likeRefl sameTextRefl) _) (ih left)

end

def Legible (source : List Ruleset) : Prop :=
  ∀ a ∈ source, ∀ b ∈ source, a.body = b.body →
    a.content.map face = b.content.map face

theorem toldLegible {source : List Ruleset} (told : ∀ r ∈ source, ∀ d ∈ r.content, d.Told) : Legible source := by
  have separable : Separable 59 text face fun d => ∃ r ∈ source, d ∈ r.content := by
    refine toldSeparable ?_
    rintro d ⟨r,there,mem⟩
    exact told r there d mem
  intro a left b right
  exact separable a.content b.content (fun _ mem => ⟨a,left,mem⟩) fun _ mem => ⟨b,right,mem⟩

/- Merging changes no text that any box gets from any group of properties that interact.
What a box sees goes by the texts of selectors, and the bodies of rulesets are compared
as they are written, so they have to be legible. -/
theorem mergedRulesApply (ctx : Context) (rules : List Rule) (keep : ctx.keepHacks = true)
    (settled : ∀ s, selectorsOf rules s → Settled ctx s) (legible : Legible (rulesets rules))
    (group : Bytes → Bool)
    (interact : ∀ p q, group p = true → group q = true → propertiesInteract p q = true)
    {β : Type} (kind : β → Compound) (matching : β → Bytes → Bool) (specificity : Bytes → σ)
    (fits : ∀ x s, selectorsOf rules s → matching x s.text = true →
      (Compound.of s.subject).Fits (kind x)) (x : β) :
    (Sight.winner ⟨matching x,specificity,fun d => group d.key⟩ (mergeRulesets ctx rules).value).map
        text =
      (Sight.winner ⟨matching x,specificity,fun d => group d.key⟩ rules).map text := by
  have all : ∀ u ∈ rulesets rules, Made (selectorsOf rules) (fun ds => ∃ r ∈ rulesets rules, r.content = ds) u :=
    fun u mem => ⟨fun s hs => ⟨u,mem,hs⟩,u,mem,rfl⟩
  have clear : ∀ ds es, (∃ r ∈ rulesets rules, r.content = ds) → (∃ r ∈ rulesets rules, r.content = es) →
      declarationsText ds = declarationsText es →
        ds.map face = es.map face := by
    rintro _ _ ⟨a,ha,rfl⟩ ⟨b,hb,rfl⟩
    exact legible a ha b hb
  have kept := mergeKeeps (v := ⟨matching x,specificity,fun d => group d.key⟩) (fun _ => rfl) interact
    (fits x) keep settled clear rules.length all
  exact (textRel (declarationRel kept)).symm

def typeSight (name property : String) : Sight Nat :=
  ⟨fun text => text == ascii name,fun _ => 0,fun d => d.key == ascii property⟩

def typeRuleset (name : String) (ds : List Declaration) : Ruleset := ⟨typeSelector name,ds⟩

theorem typeSettled (ctx name) (small : lower (ascii name) = ascii name)
    (narrow : ascii name ≠ universal) : Settled ctx (typeSelector name) :=
  ⟨rfl,typeRests ctx name small,fun _ => narrow⟩

def threeTypes (a b c : List Declaration) : List Rule :=
  [(typeRuleset "a" a).rule,(typeRuleset "b" b).rule,(typeRuleset "c" c).rule]

def thorough : Context := { aggressive := true,keepHacks := true }

section
variable {a b c : List Declaration}

theorem threeTypesSelectors {s} (h : selectorsOf (threeTypes a b c) s) :
    s = typeSelector "a" ∨ s = typeSelector "b" ∨ s = typeSelector "c" := by
  have mem : s ∈ [typeSelector "a",typeSelector "b",typeSelector "c"] := mem_flatMap.mpr h
  simpa using mem

theorem threeTypesSettled : ∀ s, selectorsOf (threeTypes a b c) s → Settled thorough s := by
  intro s h
  rcases threeTypesSelectors h with rfl | rfl | rfl
  · exact typeSettled thorough "a" rfl (by decide)
  · exact typeSettled thorough "b" rfl (by decide)
  · exact typeSettled thorough "c" rfl (by decide)

theorem threeTypesFit : ∀ s, selectorsOf (threeTypes a b c) s → (s.text == ascii "c") →
    (Compound.of s.subject).Fits { element := ascii "c" } := by
  intro s h hit
  rcases threeTypesSelectors h with rfl | rfl | rfl
  · exact absurd hit Bool.false_ne_true
  · exact absurd hit Bool.false_ne_true
  · exact ⟨.inr rfl,.inl rfl,rfl⟩

end

theorem lonePropertyInteracts (name p q) (left : (p == name)) (right : (q == name)) : propertiesInteract p q := by
  rw [beq_iff_eq.mp left,beq_iff_eq.mp right,propertiesInteract]
  simp

def otherBody : List Declaration := [wordDeclaration "--y" "1"]

def wordBody : List Declaration := [wordDeclaration "--x" "1"]

theorem wordsAcrossLegible : Legible (rulesets (threeTypes wordBody otherBody wordBody)) := by
  have words : ∀ r ∈ rulesets (threeTypes wordBody otherBody wordBody), ∀ d ∈ r.content,
      d = wordDeclaration "--x" "1" ∨ d = wordDeclaration "--y" "1" := by
    simp [threeTypes,rulesets,typeRuleset,wordBody,otherBody]
  refine toldLegible fun r there d mem => ?_
  rcases words r there d mem with rfl | rfl <;> exact ⟨rfl,by decide,by decide,by decide⟩

theorem wordsAcrossApply :
    (∀ s, selectorsOf (threeTypes wordBody otherBody wordBody) s → Settled thorough s) ∧
    Legible (rulesets (threeTypes wordBody otherBody wordBody)) ∧
    ((typeSight "c" "--x").winner
      (mergeRulesets thorough (threeTypes wordBody otherBody wordBody)).value).map text =
        some (ascii "--x:1") :=
  ⟨threeTypesSettled,wordsAcrossLegible,
    mergedRulesApply thorough _ rfl threeTypesSettled wordsAcrossLegible (· == ascii "--x")
      (lonePropertyInteracts _) (fun _ : Unit => { element := ascii "c" })
      (fun _ text => text == ascii "c") (fun _ => 0) (fun _ => threeTypesFit) ()⟩

def forgedBody : List Declaration := [wordDeclaration "--x" "1;color:red"]

def plainBody : List Declaration := [wordDeclaration "--x" "1",wordDeclaration "color" "red"]

theorem forgedMerge : (mergeRulesets thorough (threeTypes forgedBody otherBody plainBody)).value =
    [((typeRuleset "a" forgedBody).union thorough (typeRuleset "c" plainBody)).value.rule,
      (typeRuleset "b" otherBody).rule] := by
  with_unfolding_all rfl

theorem forgedBodyMisapplied :
    (∀ s, selectorsOf (threeTypes forgedBody otherBody plainBody) s → Settled thorough s) ∧
    (∀ p q, (p == ascii "color") = true → (q == ascii "color") = true → propertiesInteract p q = true) ∧
    (∀ s, selectorsOf (threeTypes forgedBody otherBody plainBody) s → (s.text == ascii "c") = true →
      (Compound.of s.subject).Fits { element := ascii "c" }) ∧
    ((typeSight "c" "color").winner (threeTypes forgedBody otherBody plainBody)).map text =
      some (ascii "color:red") ∧
    (typeSight "c" "color").winner
      (mergeRulesets thorough (threeTypes forgedBody otherBody plainBody)).value = none := by
  refine ⟨threeTypesSettled,lonePropertyInteracts _,threeTypesFit,rfl,?_⟩
  rw [forgedMerge,Sight.winner,contestRuleset _ (ofRuleRule _),contestRuleset _ (ofRuleRule _),
    claimantsNil (Or.inr ?_),claimantsNil (Or.inr ?_)]
  · rfl
  · intro d mem
    rw [mem_singleton.mp mem]
    rfl
  · intro d mem
    rw [mem_singleton.mp mem]
    rfl

end Cascade
