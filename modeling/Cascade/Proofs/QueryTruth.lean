import Cascade.Proofs.QueryText
import Cascade.Proofs.Repeated

/-! Conditions of feature queries come to the same once they are optimized, written and read
again. -/
namespace Cascade
open List
open Component (isMet text)

variable {cs : List Component}

def Declaration.asked (ctx : Context) : Declaration → Declaration
  | .property name value important slashNine =>
    .property (propertyName name)
      (finishValue name value (Term.optimize (ctx.inDeclaration (lower name)) value)).value important slashNine
  | d => d

def Component.queried (ctx : Context) (c : Component) : Component := (optimizeQueryCondition ctx c).value

variable {ctx : Context} {asks : Declaration → Prop}

theorem queriedCondition {inner} (query : Query asks inner) (negated) :
    (Component.condition inner negated).queried ctx = finishCondition (inner.queried ctx) negated := by
  cases query <;> rfl

theorem queriedMembers (each : ∀ c ∈ cs, Query asks c) :
    (Component.optimizeConditions ctx cs).value = cs.map (Component.queried ctx) := by
  induction cs with
  | nil => rfl
  | cons c cs ih =>
    have rest := ih fun d mem => each d (mem_cons_of_mem c mem)
    rw [map_cons,← rest]
    cases each c mem_cons_self <;> rfl

theorem queriedConditions (word) (each : ∀ c ∈ cs, Query asks c) :
    (Component.conditions word cs).queried ctx = finishConditions word (cs.map (Component.queried ctx)) := by
  rw [← queriedMembers each]
  rfl

theorem negatedInnersMap {inners} (negated : negatedInners cs = some inners) :
    cs = inners.map fun c => .condition c true := by
  induction cs generalizing inners with
  | nil => cases negated; rfl
  | cons c cs ih =>
    rw [negatedInners.eq_def] at negated
    split at negated
    · rename_i bare
      cases bare
    · rename_i inner rest same
      cases same
      obtain ⟨others,found,rfl⟩ := Option.map_eq_some_iff.mp negated
      rw [map_cons,← ih found]
    · cases negated

theorem joinedTruthSet (word) {as bs} (same : ∀ b, b ∈ as ↔ b ∈ bs) : joinedTruth word as = joinedTruth word bs := by
  rw [joinedTruth,joinedTruth,Bool.eq_iff_iff]
  split <;> simp [same]

theorem joinedTruthNegated {word} (joint : isJoint word) (bs) :
    joinedTruth word (bs.map (· != true)) = (joinedTruth (oppositeWord word) bs != true) := by
  rcases joint with rfl | rfl
  · rw [show oppositeWord (ascii "and") = ascii "or" by decide,joinedTruth,if_neg (by decide),joinedTruth,if_pos rfl]
    induction bs with
    | nil => rfl
    | cons b bs ih => simp_all
  · rw [show oppositeWord (ascii "or") = ascii "and" by decide,joinedTruth,if_pos rfl,joinedTruth,if_neg (by decide)]
    induction bs with
    | nil => rfl
    | cons b bs ih => simp_all

theorem oppositeJoint {word} (joint : isJoint word) : isJoint (oppositeWord word) := by
  rcases joint with rfl | rfl
  · exact .inr rfl
  · exact .inl rfl

theorem distinctTruth (word) (each : ∀ c ∈ cs, Query Askable c) :
    SameTruth (.conditions word (distinctBy text cs)) (.conditions word cs) := by
  intro truth
  have sub : distinctBy text cs ⊆ cs := (distinctFromSublist [] cs).subset
  refine joinedTruthSet word fun b => ?_
  rw [verdictsMap,verdictsMap,mem_map,mem_map]
  constructor
  · rintro ⟨c,mem,rfl⟩
    exact ⟨c,sub mem,rfl⟩
  · rintro ⟨c,mem,rfl⟩
    rcases distinctFromCovers text [] mem with known | ⟨d,stays,alike⟩
    · cases known
    · exact ⟨d,stays,textTruth (each d (sub stays)) (each c mem) alike truth⟩

theorem finishedConditions {word} (joint : isJoint word) (full : cs ≠ []) (each : ∀ c ∈ cs, Query Askable c) :
    Query Askable (finishConditions word cs) ∧ SameTruth (finishConditions word cs) (.conditions word cs) := by
  have once := distinctTruth word each
  have left : distinctBy text cs ≠ [] := fun bare => full (distinctNil bare)
  have each' : ∀ c ∈ distinctBy text cs, Query Askable c := fun c mem =>
    each c ((distinctFromSublist [] cs).subset mem)
  rw [finishConditions]
  split
  · rename_i inners negated
    have shape := negatedInnersMap negated
    split
    · rw [shape] at left each' once
      refine ⟨.condition true (.conditions (oppositeJoint joint) (by simpa using left) fun c mem => ?_),fun truth => ?_⟩
      · cases each' _ (mem_map_of_mem mem) with
        | condition _ inner => exact inner
      · rw [← once truth]
        have opposite := joinedTruthNegated joint (inners.map (isMet (byText truth)))
        rw [← verdictsMap] at opposite
        refine opposite.symm.trans ?_
        rw [isMet,verdictsMap,verdictsMap,map_map,map_map]
        rfl
    · exact ⟨.conditions joint left each',once⟩
  · exact ⟨.conditions joint left each',once⟩

theorem finishedCondition {c} (query : Query Askable c) (negated) :
    Query Askable (finishCondition c negated) ∧ SameTruth (finishCondition c negated) (.condition c negated) := by
  rw [finishCondition.eq_def]
  split
  · rename_i innermost
    cases query with
    | condition _ inner =>
      refine ⟨.condition false inner,fun truth => ?_⟩
      simp [isMet]
  · exact ⟨.condition negated query,fun truth => rfl⟩

theorem queriedTruth (ctx) {c} (query : Query (fun d => Askable (d.asked ctx)) c) :
    Query Askable (c.queried ctx) ∧ ∀ truth, (c.queried ctx).isMet (byText truth) =
      c.isMet fun d => truth (d.asked ctx).text := by
  induction query with
  | declaration asked => exact ⟨.declaration asked,fun truth => rfl⟩
  | @condition inner negated query ih =>
    obtain ⟨legible,same⟩ := ih
    obtain ⟨finished,truth⟩ := finishedCondition legible negated
    rw [queriedCondition query]
    exact ⟨finished,fun answer => (truth answer).trans (congrArg (· != negated) (same answer))⟩
  | @conditions word cs joint full each ih =>
    have legible : ∀ c ∈ cs.map (Component.queried ctx), Query Askable c := forall_mem_map.mpr fun d there => (ih d there).1
    obtain ⟨finished,truth⟩ := finishedConditions joint (by simpa using full) legible
    rw [queriedConditions word each]
    refine ⟨finished,fun answer => (truth answer).trans ?_⟩
    rw [isMet,isMet,verdictsMap,verdictsMap,map_map]
    exact congrArg (joinedTruth word) (map_congr_left fun c mem => (ih c mem).2 answer)

/- A condition of a feature query that is more than a declaration is read again once it is
optimized and written, and comes to what it came to before, however the browser answers to
the declarations as they are written. -/
theorem queryTruthKept (ctx : Context) {c : Component} (query : Query (fun d => Askable (d.asked ctx)) c)
    (joined : ∀ d, c ≠ .declaration d) :
    ∃ again, readCondition (tokens (optimizeQueryCondition ctx c).value.text) = some again ∧
      ∀ truth : Bytes → Bool, again.isMet (fun d => truth d.text) = c.isMet fun d => truth (d.asked ctx).text := by
  obtain ⟨legible,same⟩ := queriedTruth ctx query
  have stays : ∀ d, c.queried ctx ≠ .declaration d := by
    intro d
    cases query with
    | declaration => exact absurd rfl (joined _)
    | condition negated query =>
      rw [queriedCondition query,finishCondition.eq_def]
      split <;> exact nofun
    | @conditions word cs joint full each =>
      rw [queriedConditions word each,finishConditions]
      split
      · split <;> exact nofun
      · exact nofun
  obtain ⟨again,read,truth⟩ := queryRead legible stays
  exact ⟨again,read,fun answer => (truth answer).trans (same answer)⟩

def quotedValue (name value : String) : Declaration := .property (ascii name) [⟨0,.quoted (ascii value)⟩] false false

def contentA : Declaration := quotedValue "content" "a"

theorem contentAsked : contentA.asked {} = contentA := by with_unfolding_all rfl

theorem contentAskable : Askable (contentA.asked {}) := by
  rw [contentAsked]
  exact ⟨⟨rfl,by with_unfolding_all rfl⟩,by decide,by decide,rfl⟩

def nestedQuery : Component :=
  .conditions (ascii "or") [.condition (.declaration contentA) true,
    .condition (.conditions (ascii "and") [.declaration contentA,.conditions (ascii "and") [.declaration contentA]]) true]

theorem nestedQueryAsks : Query (fun d => Askable (d.asked {})) nestedQuery := by
  have leaf : Query (fun d => Askable (d.asked {})) (.declaration contentA) := .declaration contentAskable
  have inner : Query (fun d => Askable (d.asked {})) (.conditions (ascii "and") [.declaration contentA]) :=
    .conditions (.inl rfl) (by simp) (by simpa using leaf)
  refine .conditions (.inr rfl) (by simp) ?_
  simp only [forall_mem_cons]
  refine ⟨.condition true leaf,.condition true (.conditions (.inl rfl) (by simp) ?_),by simp⟩
  simp only [forall_mem_cons]
  exact ⟨leaf,inner,by simp⟩

theorem nestedQueryKept : Query (fun d => Askable (d.asked {})) nestedQuery ∧
    ∃ again, readCondition (tokens (optimizeQueryCondition {} nestedQuery).value.text) = some again ∧
      ∀ truth : Bytes → Bool, again.isMet (fun d => truth d.text) =
        nestedQuery.isMet fun d => truth (d.asked {}).text :=
  ⟨nestedQueryAsks,queryTruthKept {} nestedQueryAsks nofun⟩

def Misread (c : Component) : Prop := ∃ truth : Bytes → Bool,
  (readCondition (tokens (optimizeQueryCondition {} c).value.text)).map (Component.isMet fun d => truth d.text) ≠
    some (c.isMet fun d => truth (d.asked {}).text)

def openString : Declaration := quotedValue "content" "a\\"

theorem openStringReadable : Readable (openString.asked {}) := by
  rw [show openString.asked {} = openString by with_unfolding_all rfl]
  exact ⟨rfl,by with_unfolding_all rfl⟩

def upperNot : Declaration := quotedValue "NOT" "a"

theorem upperNotAsked : upperNot.asked {} = quotedValue "not" "a" := by with_unfolding_all rfl

theorem upperNotReadable : Readable (upperNot.asked {}) := by
  rw [upperNotAsked]
  exact ⟨rfl,by with_unfolding_all rfl⟩

/- A feature query has to ask for more than a lone declaration, and each of its declarations has
to be told apart from the parenthesis behind it and, as it is written, from a negation. -/
theorem queriesMisread :
    (Askable (contentA.asked {}) ∧ Misread (.declaration contentA)) ∧
    (EndsName openString.rawName [58] ∧ sameLetters openString.rawName (ascii "not") = false ∧
      Readable (openString.asked {}) ∧ Misread (.condition (.declaration openString) false)) ∧
    (EndsName upperNot.rawName [58] ∧ upperNot.rawName ≠ ascii "not" ∧ Readable (upperNot.asked {}) ∧
      Closed (upperNot.asked {}).text [41] ∧ Misread (.condition (.declaration upperNot) false)) := by
  refine ⟨⟨contentAskable,fun _ => true,by decide +kernel⟩,⟨by decide,by decide,openStringReadable,
    (· == openString.text),by decide +kernel⟩,by decide,by decide,upperNotReadable,?_,fun _ => true,by decide +kernel⟩
  rw [upperNotAsked]
  rfl

end Cascade
