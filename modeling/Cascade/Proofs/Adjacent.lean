import Cascade.Optimizer.Rules
import Cascade.Proofs.Covering
import Cascade.Proofs.ProperSelector

/-! Rulesets side by side, joined or freed of what later ones override. -/
namespace Cascade
open List
open Component (className list text)
open Declaration (again face)
open Component (text)
open Rule (optimizeAll optimize)
open Declaration (again face)
open Noted (valueBind valuePure)
open Ruleset (rule)
open Claimant (weight Like)

variable {ctx : Context} {r : Ruleset}

def standing (slots : List Slot) : List Rule := slots.reverse.filterMap Slot.rule

theorem standingCons (slot slots) : standing (slot :: slots) = standing slots ++ slot.rule.toList := by
  rw [standing,standing]
  cases h : slot.rule with
  | none => simp [h]
  | some rule => simp [h]

theorem soundOpen {pool known} {o : OpenRuleset} :
    o.slot.Sound pool known ↔
      Made pool (∀ d ∈ ·, known d) o.ruleset ∧ ∀ key ∈ o.keys, key ∈ o.ruleset.texts := by
  constructor
  · intro sound
    exact ⟨sound.made o.ruleset rfl,sound.keys o.ruleset rfl⟩
  · rintro ⟨made,keys⟩
    constructor <;> intro r is <;> cases is
    · exact made
    · exact keys

section
variable {σ : Type} [LinearOrder σ] {ctx : Context} {pool : Component → Prop}
  {known : Declaration → Prop} {understands : Declaration → Bool} {p : Bytes} {v : Sight σ}

theorem coveredStanding (reading : Reading ctx pool known understands)
    (admits : v.admits = heeds p understands) {later slots}
    (sound : ∀ slot ∈ slots, slot.Sound pool known) {ms ns}
    (rest : Thinned weight ms ns) (there : ∀ c ∈ v.claimants later, c ∈ ns) :
    Thinned weight (v.contest (standing slots) ++ ms)
      (v.contest (standing (slots.map (Slot.coveredBy later))) ++ ns) := by
  induction slots generalizing ms ns with
  | nil => exact rest
  | cons slot slots ih =>
    have here := coveredThinned reading admits (sound slot mem_cons_self) rest there
    rw [map_cons,standingCons,standingCons,contestAppend,contestAppend,append_assoc,
      append_assoc]
    exact ih (fun s mem => sound s (mem_cons_of_mem _ mem)) here
      fun c mem => mem_append_right _ (there c mem)

end

/- The slots that stand before the rules to come are as good as the slots put out. -/
def Kept {σ : Type} [LinearOrder σ] (ctx : Context) (v : Sight σ) (slots : List Slot) (rules : List Rule)
    (out : List Slot) : Prop :=
  Option.Rel (Claimant.Like (Rerun ctx))
    (strongest Claimant.weight (v.contest (standing slots ++ rules)))
    (strongest Claimant.weight (v.contest (out.filterMap Slot.rule)))

section
variable {σ : Type} [LinearOrder σ] {ctx : Context} {pool : Component → Prop}
  {known : Declaration → Prop} {v : Sight σ} {rule : Rule} {rules : List Rule} {slots out : List Slot}

theorem contestOpen (v : Sight σ) (slots) (o : OpenRuleset) (rules) :
    v.contest (standing (o.slot :: slots) ++ rules) =
      v.contest (standing slots) ++ (v.claimants o.ruleset ++ v.contest rules) := by
  rw [standingCons,append_assoc,contestAppend]
  exact congrArg _ (contestRuleset v (ofRuleRule o.ruleset) rules)

theorem otherKept (h : Kept ctx v (⟨some rule,[]⟩ :: slots) rules out) : Kept ctx v slots (rule :: rules) out := by
  rw [Kept,standingCons,append_assoc] at h
  exact h

theorem otherSound (other : Ruleset.ofRule? rule = none) (sound : ∀ slot ∈ slots, slot.Sound pool known) :
    ∀ slot ∈ ⟨some rule,[]⟩ :: slots, slot.Sound pool known := by
  refine forall_mem_cons.mpr ⟨?_,sound⟩
  constructor <;> intro r is <;> cases other.symm.trans is

theorem beginKept {understands p} (reading : Reading ctx pool known understands)
    (admits : v.admits = heeds p understands) (is : Ruleset.ofRule? rule = some r)
    (sound : ∀ slot ∈ slots, slot.Sound pool known)
    (h : Kept ctx v ((OpenRuleset.of r).slot :: slots.map (Slot.coveredBy r)) rules out) :
    Kept ctx v slots (rule :: rules) out := by
  have thinned : Thinned weight
      (v.contest (standing slots) ++ (v.claimants r ++ v.contest rules))
      (v.contest (standing (slots.map (Slot.coveredBy r))) ++ (v.claimants r ++ v.contest rules)) :=
    coveredStanding reading admits sound (thinnedRefl _) fun _ mem => mem_append_left _ mem
  rw [Kept,contestOpen] at h
  rw [Kept,contestAppend,contestRuleset v is,thinnedStrongest thinned]
  exact h

theorem beginSound (made : Made pool (∀ d ∈ ·, known d) r) (sound : ∀ slot ∈ slots, slot.Sound pool known) :
    ∀ slot ∈ (OpenRuleset.of r).slot :: slots.map (Slot.coveredBy r), slot.Sound pool known := by
  refine forall_mem_cons.mpr ⟨soundOpen.mpr ⟨made,fun _ key => key⟩,forall_mem_map.mpr fun before there => ?_⟩
  exact coveredSound (sound before there)

theorem joinKept {last : OpenRuleset} {joined} (is : Ruleset.ofRule? rule = some r)
    (alike : Option.Rel (Like (Rerun ctx)) (strongest weight (v.claimants last.ruleset ++ v.claimants r))
      (strongest weight (v.claimants joined)))
    (h : Kept ctx v (OpenRuleset.slot { last with ruleset := joined } :: slots) rules out) :
    Kept ctx v (last.slot :: slots) (rule :: rules) out := by
  have between := strongestBetween likeEven (likeRefl fun _ => .refl) (v.contest (standing slots))
    (v.contest rules) alike
  rw [Kept,contestOpen] at h ⊢
  rw [contestRuleset v is]
  refine relTrans (likeTrans fun _ _ _ => .trans) ?_ h
  simpa only [append_assoc] using between

theorem joinSound {last : OpenRuleset} {joined} (made : Made pool (∀ d ∈ ·, known d) joined)
    (keys : ∀ key ∈ last.keys, key ∈ joined.texts) (sound : ∀ slot ∈ last.slot :: slots, slot.Sound pool known) :
    ∀ slot ∈ OpenRuleset.slot { last with ruleset := joined } :: slots, slot.Sound pool known := by
  exact forall_mem_cons.mpr ⟨soundOpen.mpr ⟨made,keys⟩,(forall_mem_cons.mp sound).2⟩

end

theorem combineKeeps {σ} [LinearOrder σ] {ctx pool}
    {known understands p} {v : Sight σ}
    (reading : Reading ctx pool known understands) (admits : v.admits = heeds p understands)
    (single : shorthandsOf p = []) (done current) {rules}
    (sound : ∀ slot ∈ putDown done current, slot.Sound pool known)
    (made : ∀ r ∈ rulesets rules, Made pool (∀ d ∈ ·, known d) r) :
    Kept ctx v (putDown done current) rules (combineFrom ctx done current rules).value := by
  induction rules generalizing done current with
  | nil =>
    rw [Kept,append_nil]
    exact relRefl (likeRefl fun _ => .refl) _
  | cons rule rules ih =>
    rw [combineFrom]
    split
    · rename_i other
      rw [rulesets,filterMap_cons_none other] at made
      exact otherKept (ih _ none (otherSound other sound) made)
    rename_i r is
    rw [rulesets,filterMap_cons_some is] at made
    have here := made r mem_cons_self
    have rest := fun u mem => made u (mem_cons_of_mem _ mem)
    have begins := beginKept reading admits is sound (ih _ (some (.of r)) (beginSound here sound) rest)
    cases current with
    | none => exact begins
    | some last =>
      obtain ⟨lastMade,keys⟩ := soundOpen.mp (sound last.slot mem_cons_self)
      dsimp only
      split
      · rename_i mergeable
        have still : ∀ key ∈ last.keys, key ∈ (last.ruleset.union ctx r).value.texts := by
          intro key mem
          rw [madeTexts reading.spared reading.settled lastMade here]
          exact mem_append_left _ (keys key mem)
        have joined := madeUnion reading.spared reading.settled lastMade here
        exact joinKept is (unionKeeps reading admits lastMade here (mergeableBody mergeable))
          (ih done (some { last with ruleset := _ }) (joinSound joined still sound) rest)
      · split
        · rename_i same
          have joined := madeExtend reading.again reading.lasting lastMade here
          exact joinKept is (extendKeeps reading admits single lastMade here (beq_iff_eq.mp same))
            (ih done (some { last with ruleset := _ }) (joinSound joined keys sound) rest)
        · exact begins

theorem optimizeOther {rule} (other : Ruleset.ofRule? rule = none) :
    ∀ out, (optimize ctx rule).value = some out → Ruleset.ofRule? out = none := by
  intro out mem
  cases rule with
  | ruleset => cases other
  | keyframes name vendor frames =>
    simp only [optimize,optimizeAnimation] at mem
    split at mem <;> cases mem
    rfl
  | margin | featureBlock | keyframe =>
    obtain ⟨_,_,rfl⟩ := Option.map_eq_some_iff.mp mem
    rfl
  | fontFace | viewport | counterStyle =>
    simp only [optimize,keepContent,valueBind] at mem
    split at mem <;> cases mem
    rfl
  | media | supports | page | fontFeatures | component =>
    simp only [optimize,valueBind] at mem
    split at mem <;> cases mem
    rfl
  | stop | charset | importRule | namespaceRule | query | feature => cases mem; rfl

theorem optimizeRuleset {out} (h : (Ruleset.optimize ctx r).value = some out) : r.selector.Lasts ctx ∧
    (optimizeDeclarations ctx r.content).value ≠ [] ∧
      out = .ruleset (r.selector.again ctx) (optimizeDeclarations ctx r.content).value := by
  rw [Ruleset.optimize] at h
  split at h
  · cases h
  rw [valueBind] at h
  split at h
  · rename_i lasts
    rw [valueBind,keepContent] at h
    split at h <;> cases h
    rename_i filled
    exact ⟨lasts,by simpa using filled,rfl⟩
  · cases h

theorem optimizedRulesets {source} (mem : r ∈ rulesets (optimizeAll ctx source).value) :
    ∃ u ∈ rulesets source, u.selector.Lasts ctx ∧ r.selector = u.selector.again ctx ∧
      r.content = (optimizeDeclarations ctx u.content).value := by
  induction source with
  | nil => cases mem
  | cons rule source ih =>
    rw [optimizeAll,valueBind,valueBind,valuePure,rulesets,
      filterMap_append] at mem
    rcases mem_append.mp mem with here | old
    · obtain ⟨out,there,is⟩ := mem_filterMap.mp here
      have made := Option.mem_toList.mp there
      cases known : Ruleset.ofRule? rule with
      | none => cases (optimizeOther known out made).symm.trans is
      | some u =>
        cases rule with
        | ruleset selector content =>
          obtain ⟨lasts,_,rfl⟩ := optimizeRuleset made
          cases is
          exact ⟨⟨selector,content⟩,mem_cons_self,lasts,rfl,rfl⟩
        | _ => cases known
    · obtain ⟨u,there,found⟩ := ih old
      exact ⟨u,(sublist_cons_self rule source).filterMap _ |>.subset there,found⟩

inductive Reached {α : Type} (step : α → α) (start : α → Prop) : α → Prop where
  | start {a : α} (h : start a) : Reached step start a
  | again {a : α} (h : Reached step start a) : Reached step start (step a)

theorem reachedLasting (mild : ctx.Mild) {source d}
    (h : Reached (again ctx) (declarationsOf (optimizeAll ctx source).value) d) : d.Lasting ctx := by
  induction h with
  | start h =>
    obtain ⟨r,there,mem⟩ := h
    obtain ⟨u,_,_,_,content⟩ := optimizedRulesets there
    rw [content] at mem
    obtain ⟨_,_,stays,rfl⟩ := optimizeAllFrom (arrangedMem mem)
    exact lastingOnce mild stays
  | again _ ih => exact lastingOnce mild ih.stays

/- Joining rulesets side by side leaves every winner as it was, but for having been
optimized again or being written alike. -/
theorem adjacentRulesApply {σ : Type} [LinearOrder σ] (ctx : Context) (mild : ctx.Mild)
    (source rules : List Rule) (optimized : (Rule.optimizeAll ctx source).value = rules)
    (proper : ∀ r ∈ rulesets source, r.selector.isProper = true)
    (lists : Separable 44 text text (selectorsOf rules))
    (blocks : Separable 59 Declaration.text face
      (Reached (again ctx) (declarationsOf rules)))
    (understands : Declaration → Bool)
    (plain : ∀ d, d.overridesFallbacks = true → understands d = true)
    (alike : ∀ d e, Reached (again ctx) (declarationsOf rules) d →
      Reached (again ctx) (declarationsOf rules) e → d.text = e.text →
        understands d = understands e)
    (steadfast : ∀ d, Reached (again ctx) (declarationsOf rules) d →
      understands (d.again ctx) = understands d)
    (p : Bytes) (single : shorthandsOf p = []) (hits : Bytes → Bool) (specificity : Bytes → σ) :
    Option.Rel (Rerun ctx) (Sight.winner ⟨hits,specificity,heeds p understands⟩ rules)
      (Sight.winner ⟨hits,specificity,heeds p understands⟩ (combineAdjacent ctx rules).value) := by
  subst optimized
  have settled : ∀ s, selectorsOf (Rule.optimizeAll ctx source).value s → Settled ctx s := by
    rintro s ⟨r,there,mem⟩
    obtain ⟨u,given,lasts,selector,_⟩ := optimizedRulesets there
    rw [Ruleset.selectors,selector] at mem
    exact properSettled mild (proper u given) lasts s mem
  have reading : Reading ctx (selectorsOf (Rule.optimizeAll ctx source).value)
      (Reached (again ctx) (declarationsOf (Rule.optimizeAll ctx source).value)) understands :=
    ⟨mild,settled,lists,blocks,fun _ => .again,fun _ => reachedLasting mild,plain,alike,steadfast⟩
  refine declarationRel (combineKeeps reading (v := ⟨hits,specificity,heeds p understands⟩) rfl single
    [] none ?_ ?_)
  · intro slot mem
    cases mem
  · intro r mem
    exact ⟨fun s hs => ⟨r,mem,hs⟩,fun d hd => .start ⟨r,mem,hd⟩⟩

def lone (selector : Component) (d : Declaration) : Ruleset := ⟨selector,[d]⟩

section
variable {a a' b b' : Component} {d d' e e' : Declaration}

theorem optimizeWrapped (h : (d.optimize cautious).value = (d',true)) :
    ((Component.declaration d).optimize cautious).value = ⟨.declaration d',true⟩ := by
  rw [Component.optimize,valueBind,h]
  rfl

theorem optimizeLone (selects : (a.optimize cautious).value = ⟨a',true⟩)
    (declares : (d.optimize cautious).value = (d',true)) (source) :
    (optimizeAll cautious ((lone a d).rule :: source)).value =
      (lone a' d').rule :: (optimizeAll cautious source).value := by
  have content : (optimizeDeclarations cautious [d]).value = [d'] := by
    rw [optimizeDeclarations,valueBind,valuePure,optimizeOne declares,arrangeSingle]
  have whole : isHackedSelector cautious a = false := by simp [isHackedSelector,cautious]
  rw [optimizeAll,valueBind,valueBind,lone,rule,optimize,
    Ruleset.optimize,whole,if_neg Bool.false_ne_true,valueBind,selects,if_pos rfl,valueBind,
    content]
  rfl

theorem optimizePair (left : (a.optimize cautious).value = ⟨a',true⟩)
    (first : (d.optimize cautious).value = (d',true)) (right : (b.optimize cautious).value = ⟨b',true⟩)
    (second : (e.optimize cautious).value = (e',true)) :
    (optimizeAll cautious [(lone a d).rule,(lone b e).rule]).value =
      [(lone a' d').rule,(lone b' e').rule] :=
  (optimizeLone left first _).trans (congrArg _ (optimizeLone right second []))

end

def repeatedBody : List Rule :=
  [(lone (typeSelector "a") (wordDeclaration "--x" "1")).rule,
    (lone (typeSelector "b") (wordDeclaration "--x" "1")).rule,
    (lone (typeSelector "a") (wordDeclaration "--x" "2")).rule]

theorem repeatedBodyOptimized : (optimizeAll cautious repeatedBody).value = repeatedBody := by
  rw [repeatedBody,optimizeLone (typeRests cautious "a" rfl) (wordRests "--x" "1" rfl),
    optimizePair (typeRests cautious "b" rfl) (wordRests "--x" "1" rfl) (typeRests cautious "a" rfl)
      (wordRests "--x" "2" rfl)]

theorem repeatedBodySelectors {s} (h : selectorsOf repeatedBody s) : s = typeSelector "a" ∨ s = typeSelector "b" := by
  have mem : s ∈ [typeSelector "a",typeSelector "b",typeSelector "a"] := mem_flatMap.mpr h
  simpa [or_comm] using mem

theorem repeatedBodyReached {d} (h : Reached (again cautious) (declarationsOf repeatedBody) d) :
    d = wordDeclaration "--x" "1" ∨ d = wordDeclaration "--x" "2" := by
  induction h with
  | @start d h =>
    have mem : d ∈ [wordDeclaration "--x" "1",wordDeclaration "--x" "1",wordDeclaration "--x" "2"] := mem_flatMap.mpr h
    simpa using mem
  | again _ ih =>
    rcases ih with rfl | rfl
    · rw [again,wordRests "--x" "1" rfl]
      exact .inl rfl
    · rw [again,wordRests "--x" "2" rfl]
      exact .inr rfl

theorem repeatedBodyLists : Separable 44 text text (selectorsOf repeatedBody) := by
  refine separableOf ?_ fun _ _ _ _ same => same
  intro s h
  rcases repeatedBodySelectors h with rfl | rfl <;> decide

theorem repeatedBodyBlocks : Separable 59 Declaration.text face
    (Reached (again cautious) (declarationsOf repeatedBody)) := by
  refine toldSeparable fun d reached => ?_
  rcases repeatedBodyReached reached with rfl | rfl <;> exact ⟨rfl,by decide,by decide,by decide⟩

theorem repeatedBodyApplies :
    Separable 44 text text (selectorsOf repeatedBody) ∧
    Separable 59 Declaration.text face
      (Reached (again cautious) (declarationsOf repeatedBody)) ∧
    Option.Rel (Rerun cautious) (some (wordDeclaration "--x" "1"))
      (Sight.winner ⟨(· == ascii "b"),fun _ => 0,heeds (ascii "--x") fun _ => true⟩
        (combineAdjacent cautious repeatedBody).value) :=
  ⟨repeatedBodyLists,repeatedBodyBlocks,
    adjacentRulesApply cautious cautiousMild repeatedBody repeatedBody repeatedBodyOptimized (by decide)
      repeatedBodyLists repeatedBodyBlocks (fun _ => true) (fun _ _ => rfl) (fun _ _ _ _ _ => rfl)
      (fun _ _ => rfl) (ascii "--x") (by decide) (· == ascii "b") fun _ => 0⟩

theorem combineUnion {a b : Ruleset} (mergeable : a.isMergeable b) :
    (combineAdjacent ctx [a.rule,b.rule]).value = [(a.union ctx b).value.rule] := by
  simp only [combineAdjacent,combineFrom,ofRuleRule,OpenRuleset.of,mergeable]
  rfl

theorem combineExtend {a b : Ruleset} (apart : a.isMergeable b = false) (same : a.selector.text = b.selector.text) :
    (combineAdjacent ctx [a.rule,b.rule]).value = [(a.extend ctx b).value.rule] := by
  simp only [combineAdjacent,combineFrom,ofRuleRule,OpenRuleset.of,apart,same,beq_self_eq_true,Bool.false_eq_true]
  rfl

theorem winnerNone {σ} [LinearOrder σ] {v : Sight σ}
    (h : (∀ s ∈ r.selectors, v.hits s.text = false) ∨ ∀ d ∈ r.content, v.admits d = false) :
    v.winner [r.rule] = none := by
  rw [Sight.winner,contestRuleset v (ofRuleRule r),claimantsNil h]
  rfl

def strictSight (seen p : String) (understands : Declaration → Bool) : Sight Nat :=
  ⟨(· == ascii seen),fun _ => 0,heeds (ascii p) understands⟩

structure Lost (source : List Rule) (seen p : String) (understands : Declaration → Bool) : Prop where
  plain : ∀ d, d.overridesFallbacks = true → understands d = true
  single : shorthandsOf (ascii p) = []
  before : ((strictSight seen p understands).winner (Rule.optimizeAll cautious source).value).isSome = true
  after : (strictSight seen p understands).winner
    (combineAdjacent cautious (Rule.optimizeAll cautious source).value).value = none

def forgedName : List Rule :=
  [(lone (typeSelector "a") (wordDeclaration "--x" "y:1")).rule,
    (lone (typeSelector "b") (wordDeclaration "--x:y" "1")).rule]

theorem forgedNameLost : Lost forgedName "b" "--x:y" fun _ => true := by
  have optimized := optimizePair (typeRests cautious "a" rfl) (wordRests "--x" "y:1" rfl)
    (typeRests cautious "b" rfl) (wordRests "--x:y" "1" rfl)
  refine ⟨fun _ _ => rfl,by decide,by rw [forgedName,optimized]; rfl,?_⟩
  rw [forgedName,optimized]
  exact winnerNone (.inr (forall_mem_singleton.mpr rfl))

def twoWords : Declaration :=
  .property (ascii "--x") [⟨0,.ident (ascii "-y")⟩,⟨0,.ident (ascii "z")⟩] false false

def forgedWord : List Rule :=
  [(lone (typeSelector "a") (wordDeclaration "--x" "-y z")).rule,(lone (typeSelector "b") twoWords).rule]

def countsWords (d : Declaration) : Bool :=
  d.overridesFallbacks || match d with
    | .property _ value .. => value.length == 2
    | .filter .. => false

theorem forgedWordLost : Lost forgedWord "b" "--x" countsWords := by
  have both : (twoWords.optimize cautious).value = (twoWords,true) :=
    customRests rfl (cons_ne_nil _ _)
  have optimized := optimizePair (typeRests cautious "a" rfl) (wordRests "--x" "-y z" rfl)
    (typeRests cautious "b" rfl) both
  refine ⟨?_,by decide,by rw [forgedWord,optimized]; rfl,?_⟩
  · intro d plain
    rw [countsWords.eq_def,plain]
    rfl
  · rw [forgedWord,optimized]
    exact winnerNone (.inr (forall_mem_singleton.mpr rfl))

def twoClasses : Component := .list [.className (ascii "a"),.className (ascii "b")]

theorem twoClassesRest : twoClasses.Rests cautious := by
  have each : ∀ s ∈ [className (ascii "a"),.className (ascii "b")], s.Rests cautious := by
    intro s mem
    rcases mem_pair.mp mem with rfl | rfl <;> rfl
  have sorted : sortSelectors [className (ascii "a"),.className (ascii "b")] =
      [.className (ascii "a"),.className (ascii "b")] := mergeSort_of_pairwise (by decide)
  refine selectorsRest (cons_ne_nil _ _) each ?_
  rw [leftSelectors,if_pos cautiousMild.keeps,arrangeSelectors,sorted]
  rfl

def forgedList : List Rule :=
  [(lone (.className (ascii "a,.b")) (wordDeclaration "--x" "1")).rule,
    (lone twoClasses (wordDeclaration "--y" "1")).rule]

theorem forgedListLost : Lost forgedList ".a" "--y" fun _ => true := by
  have comma : (className (ascii "a,.b")).Rests cautious := rfl
  have optimized := optimizePair comma (wordRests "--x" "1" rfl) twoClassesRest (wordRests "--y" "1" rfl)
  refine ⟨fun _ _ => rfl,by decide,by rw [forgedList,optimized]; rfl,?_⟩
  rw [forgedList,optimized,combineExtend]
  · exact winnerNone (.inl (forall_mem_singleton.mpr rfl))
  · rfl
  · rfl

def margins (values : List Component) : Declaration :=
  .property (ascii "margin") (values.map (Term.mk 0)) false false

def strange : Component := .call (ascii "x") none

def pale : Component := .hexColor (ascii "#f0f8ff")

def twoNames : Declaration := margins [.ident (ascii "aliceblue"),strange,.ident (ascii "ALICEBLUE")]

theorem paleRests (ctx) : pale.Rests ctx := by
  have unnamed : shorterName? (ascii "#f0f8ff") = none := by decide +kernel
  have short : shortenHex (lower (ascii "#f0f8ff")) = ascii "#f0f8ff" := by decide
  rw [Component.Rests,pale,Component.optimize,valuePure,optimizeHex,short,unnamed]

theorem marginsOptimized {values values'} (full : values' ≠ [])
    (becomes : (finishValue (ascii "margin") (values.map (Term.mk 0))
      (Term.optimize (cautious.inDeclaration (ascii "margin")) (values.map (Term.mk 0)))).value =
        values'.map (Term.mk 0)) :
    ((margins values).optimize cautious).value = (margins values',true) := by
  have same : propertyName (ascii "margin") = ascii "margin" := by decide
  have needed : cautious.minimums.needsDeclaration (ascii "margin") := needsDeclarationFree _
  have value : finishedValue cautious (ascii "margin") (values.map (Term.mk 0)) = values'.map (Term.mk 0) :=
    becomes
  have kept : (values'.map (Term.mk 0)).isEmpty = false := by simpa using full
  rw [margins,optimizeProperty cautiousMild.keeps,same,value,if_pos needed,kept]
  rfl

theorem twoNamesOnce : (twoNames.optimize cautious).value = (margins [pale,strange,pale],true) :=
  marginsOptimized (cons_ne_nil _ _) rfl

theorem marginsTwice : ((margins [pale,strange,pale]).optimize cautious).value = (margins [pale,strange],true) := by
  have terms : (Term.optimize (cautious.inDeclaration (ascii "margin"))
      ([pale,strange,pale].map (Term.mk 0))).value = [pale,strange,pale].map (Term.mk 0) := by
    have rests : (pale.optimize (cautious.inDeclaration (ascii "margin"))).value = ⟨pale,true⟩ :=
      paleRests _
    simp only [map_cons,Term.optimize,valueBind,rests]
    rfl
  have plain : Declaration.isCustomName (ascii "margin") = false := rfl
  apply marginsOptimized (cons_ne_nil _ _)
  rw [finishValue,plain,if_neg Bool.false_ne_true,valueBind,terms]
  rfl

def wantsThree (d : Declaration) : Bool := d.overridesFallbacks || d.text != (margins [pale,strange]).text

def shrinkingValue : List Rule :=
  [(lone (typeSelector "a") twoNames).rule,(lone (typeSelector "a") (wordDeclaration "--y" "1")).rule]

theorem shrinkingValueLost : Lost shrinkingValue "a" "margin" wantsThree := by
  have optimized := optimizePair (typeRests cautious "a" rfl) twoNamesOnce (typeRests cautious "a" rfl)
    (wordRests "--y" "1" rfl)
  refine ⟨?_,by decide,by rw [shrinkingValue,optimized]; rfl,?_⟩
  · intro d plain
    rw [wantsThree,plain]
    rfl
  · rw [shrinkingValue,optimized,combineExtend (by rfl) (by rfl)]
    refine winnerNone (.inr ?_)
    intro d mem
    rw [extendContent,lone,lone,singleton_append] at mem
    have old := arrangedMem mem
    rw [optimizeBoth marginsTwice (wordRests "--y" "1" rfl),mem_pair] at old
    rcases old with rfl | rfl <;> rfl

def shrinkingSelector : List Rule :=
  [(lone (.declaration twoNames) (wordDeclaration "--x" "1")).rule,
    (lone (typeSelector "b") (wordDeclaration "--x" "1")).rule]

theorem shrinkingSelectorLost :
    Lost shrinkingSelector "margin:#f0f8ff x() #f0f8ff" "--x" fun _ => true := by
  have next := optimizeWrapped marginsTwice
  have last : ∀ s ∈ [.declaration (margins [pale,strange,pale]),typeSelector "b"], s.Lasts cautious ∧
      (s.again cautious).isList = false ∧ ((s.again cautious).text == ascii "margin:#f0f8ff x() #f0f8ff") = false := by
    intro s mem
    rcases mem_pair.mp mem with rfl | rfl
    · rw [Component.Lasts,Component.again,next]
      exact ⟨rfl,rfl,rfl⟩
    · exact ⟨rfl,rfl,rfl⟩
  have lasts : (list [.declaration (margins [pale,strange,pale]),typeSelector "b"]).Lasts cautious :=
    (listLasts cautiousMild).mpr (remainingStay (fun s mem => (last s mem).1) (cons_ne_nil _ _))
  have optimized := optimizePair (optimizeWrapped twoNamesOnce) (wordRests "--x" "1" rfl)
    (typeRests cautious "b" rfl) (wordRests "--x" "1" rfl)
  refine ⟨fun _ _ => rfl,by decide,by rw [shrinkingSelector,optimized]; rfl,?_⟩
  rw [shrinkingSelector,optimized,combineUnion (by rfl)]
  refine winnerNone (.inl ?_)
  have each : ∀ s ∈ remaining cautious [.declaration (margins [pale,strange,pale]),typeSelector "b"],
      s.isList = false ∧ (s.text == ascii "margin:#f0f8ff x() #f0f8ff") = false := by
    intro s mem
    obtain ⟨c,there,_,rfl⟩ := remainingFrom mem
    exact (last c there).2
  have both : (lone (.declaration (margins [pale,strange,pale])) (wordDeclaration "--x" "1")).selectors ++
      (lone (typeSelector "b") (wordDeclaration "--x" "1")).selectors =
        [.declaration (margins [pale,strange,pale]),typeSelector "b"] := rfl
  rw [unionAgain,both,listAgain cautiousMild lasts,selectorsOfSelectors fun s mem => (each s mem).1]
  exact fun s mem => (each s mem).2

/- None of the conditions on rulesets side by side can go. -/
theorem joinedWinnersLost : cautious.Mild ∧
    Lost forgedName "b" "--x:y" (fun _ => true) ∧ Lost forgedList ".a" "--y" (fun _ => true) ∧
    Lost forgedWord "b" "--x" countsWords ∧ Lost shrinkingValue "a" "margin" wantsThree ∧
    Lost shrinkingSelector "margin:#f0f8ff x() #f0f8ff" "--x" fun _ => true :=
  ⟨cautiousMild,forgedNameLost,forgedListLost,forgedWordLost,shrinkingValueLost,shrinkingSelectorLost⟩

end Cascade
