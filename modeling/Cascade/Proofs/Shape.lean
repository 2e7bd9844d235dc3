import Cascade.Proofs.Adjacent
import Cascade.Proofs.AnimationStops
import Cascade.Proofs.Arrangement
import Cascade.Proofs.WellRead

/-! The shape of an optimized stylesheet. -/
namespace Cascade
open List
open Rule (optimize)
open Declaration (again isCustomName)
open Noted (valueBind valuePure)

variable {ds : List Declaration}

def Declaration.Shaped : Declaration → Prop
  | .property name value .. => value ≠ [] ∧ (Declaration.isCustomName name = true ∨ lower name = name)
  | .filter .. => True

def Filled (ds : List Declaration) : Prop := ds ≠ [] ∧ ∀ d ∈ ds, d.Shaped

mutual

def Rule.Shaped : Rule → Prop
  | .ruleset selector content => selector.Arranged ∧ Filled content
  | .media _ content | .supports _ content => content ≠ [] ∧ Rule.AllShaped content
  | .page _ content margins =>
    (content ≠ [] ∨ margins ≠ []) ∧ (∀ d ∈ content, d.Shaped) ∧ ∀ b ∈ margins, Filled b.content
  | .fontFeatures _ blocks => blocks ≠ [] ∧ ∀ b ∈ blocks, Filled b.content
  | .keyframes _ _ frames => ∀ k ∈ frames, Filled k.content
  | .margin block | .featureBlock block => Filled block.content
  | .keyframe frame => Filled frame.content
  | .fontFace content | .viewport _ content | .counterStyle _ content => Filled content
  | .component c => c.Arranged
  | .stop _ | .charset _ | .importRule _ | .namespaceRule _ | .query _ | .feature _ => True

def Rule.AllShaped : List Rule → Prop
  | [] => True
  | r :: rs => r.Shaped ∧ Rule.AllShaped rs

end

theorem allShaped {rs} : Rule.AllShaped rs ↔ ∀ r ∈ rs, r.Shaped := by
  induction rs with
  | nil => simp [Rule.AllShaped]
  | cons r rs ih => simp [Rule.AllShaped,ih]

section

theorem withoutOverriddenSome (full : ds ≠ []) : (withoutOverridden ds).1 ≠ [] := by
  induction ds with
  | nil => exact absurd rfl full
  | cons d ds ih =>
    rcases prunedStep d ds with stays | ⟨hidden,goes⟩
    · exact stays ▸ cons_ne_nil _ _
    · cases ds with
      | nil => simp [isOverridden,withoutOverridden] at hidden
      | cons e ds => exact goes ▸ ih (cons_ne_nil e ds)

theorem arrangeSome (full : ds ≠ []) : arrangeDeclarations ds ≠ [] := by
  obtain ⟨d,mem⟩ := exists_mem_of_ne_nil _ (withoutOverriddenSome full)
  obtain ⟨e,stays,_⟩ := lastByCovers Declaration.text mem
  exact ne_nil_of_mem (mem_mergeSort.mpr stays)

theorem nameShaped (written) : isCustomName (propertyName written) ∨
    lower (propertyName written) = propertyName written := by
  rw [propertyName]
  split
  · rename_i custom
    exact .inl custom
  · exact .inr (lowerTwice written)

variable {ctx : Context} (keeps : ctx.keepHacks = true)
include keeps

theorem shapedAgain {d : Declaration} (stays : (d.optimize ctx).value.2) : (d.again ctx).Shaped := by
  cases d with
  | property written value important slashNine =>
    obtain ⟨needed,full,_⟩ := (propertyStays keeps written value important slashNine).mp stays
    rw [again,optimizeProperty keeps,if_pos needed]
    exact ⟨full,nameShaped written⟩
  | filter name value =>
    rw [againFilter]
    trivial

theorem blockShaped (ds) : ∀ d ∈ (optimizeDeclarations ctx ds).value, d.Shaped := by
  intro d mem
  obtain ⟨e,_,stays,rfl⟩ := optimizeAllFrom (arrangedMem mem)
  exact shapedAgain keeps stays

theorem blockFilled {ds} (full : (optimizeDeclarations ctx ds).value.isEmpty = false) :
    Filled (optimizeDeclarations ctx ds).value := ⟨by simpa using full,blockShaped keeps ds⟩

theorem boxShaped (b : Block) : ∀ c ∈ (b.optimize ctx).value, Filled c.content := by
  rw [Block.optimize,valueBind,valuePure]
  split
  · exact nofun
  · rename_i full
    rintro c ⟨⟩
    exact blockFilled keeps (Bool.eq_false_iff.mpr full)

theorem boxesShaped (bs) : ∀ c ∈ (Block.optimizeAll ctx bs).value, Filled c.content := by
  induction bs with
  | nil => exact forall_mem_nil _
  | cons b bs ih =>
    rw [Block.optimizeAll,valueBind,valueBind,valuePure]
    exact forall_mem_append.mpr ⟨fun c mem => boxShaped keeps b c (Option.mem_toList.mp mem),ih⟩

theorem frameShaped (k : Keyframe) : ∀ f ∈ (k.optimize ctx).value, Filled f.content := by
  intro f made
  obtain ⟨full,rfl⟩ := optimizeFrame.mp made
  exact ⟨full,blockShaped keeps k.content⟩

omit keeps in
theorem insertFilled {k} (new : Filled k.content) {fs} (each : ∀ f ∈ fs, Filled f.content) :
    ∀ f ∈ Keyframe.insert Keyframe.body Keyframe.joinStops k fs, Filled f.content := by
  induction fs with
  | nil => exact forall_mem_singleton.mpr new
  | cons f fs ih =>
    obtain ⟨first,rest⟩ := forall_mem_cons.mp each
    rw [Keyframe.insert]
    split
    · exact forall_mem_cons.mpr ⟨first,rest⟩
    · exact forall_mem_cons.mpr ⟨first,ih rest⟩

omit keeps in
theorem groupFilled {ks} (each : ∀ k ∈ ks, Filled k.content) : ∀ k ∈ Keyframe.groupByBody ks, Filled k.content := by
  induction ks using List.reverseRecOn with
  | nil => exact forall_mem_nil _
  | append_singleton ks k ih =>
    obtain ⟨before,last⟩ := forall_mem_append.mp each
    rw [Keyframe.groupByBody,foldl_append]
    exact insertFilled (last k mem_cons_self) (ih before)

theorem framesShaped (ks) : ∀ k ∈ (optimizeFrames ctx ks).value, Filled k.content := by
  rw [optimizeFrames,valueBind,valuePure]
  refine groupFilled fun k mem => ?_
  rw [optimizeAllFrames] at mem
  obtain ⟨g,_,made⟩ := mem_filterMap.mp mem
  exact frameShaped keeps g k made

end

section
variable {ctx : Context}

theorem termsSteady {ts} (steady : ∀ t ∈ ts, t.value.isSteady) :
    ∀ t ∈ (Term.optimize ctx ts).value, t.value.isSteady := by
  induction ts with
  | nil => exact forall_mem_nil _
  | cons t ts ih =>
    obtain ⟨op,value⟩ := t
    obtain ⟨first,rest⟩ := forall_mem_cons.mp steady
    rw [Term.optimize,valueBind,valueBind,valuePure]
    split
    · exact forall_mem_cons.mpr ⟨steadyOptimized ctx first,ih rest⟩
    · exact ih rest

theorem valueSteady {value} (steady : ∀ t ∈ value, t.value.isSteady) (name) :
    ∀ t ∈ finishedValue ctx name value, t.value.isSteady := by
  rw [finishedValue,finishValue]
  split
  · exact steady
  intro t mem
  rcases (refineRefines (lower name) _).stems t mem with ⟨u,there,same⟩ | new
  · rw [← same]
    exact termsSteady steady u there
  · exact new

theorem valueStays {name value} (steady : ∀ t ∈ value, t.value.isSteady)
    (full : finishedValue ctx name value ≠ []) : finishedValue ctx name (finishedValue ctx name value) ≠ [] := by
  have last : ∀ t ∈ (Term.optimize (ctx.inDeclaration (lower name)) value).value,
      t.value.Lasts (ctx.inDeclaration (lower name)) := fun t mem => steadyLasts _ (termsSteady steady t mem)
  unfold finishedValue finishValue at full ⊢
  split
  · rename_i custom
    rwa [if_pos custom] at full
  · rename_i plain
    rw [if_neg plain] at full
    exact fun bare => full (refinedStay _ last bare)

structure Declaration.Sound (ctx : Context) (d : Declaration) : Prop where
  shaped : d.Shaped
  steady : d.Steady
  stays : (d.optimize ctx).value.2 = true

variable (keeps : ctx.keepHacks = true)
include keeps

theorem soundAgain {d : Declaration} (steady : d.Steady) (stays : (d.optimize ctx).value.2) :
    (d.again ctx).Sound ctx := by
  refine ⟨shapedAgain keeps stays,?_,?_⟩
  · cases d with
    | property written value important slashNine =>
      obtain ⟨needed,_,_⟩ := (propertyStays keeps written value important slashNine).mp stays
      rw [again,optimizeProperty keeps,if_pos needed]
      exact valueSteady steady _
    | filter name value =>
      rw [againFilter]
      trivial
  · cases d with
    | property written value important slashNine =>
      obtain ⟨needed,full,own⟩ := (propertyStays keeps written value important slashNine).mp stays
      rw [again,optimizeProperty keeps,if_pos needed,propertyStays keeps,propertyNameTwice]
      exact ⟨needed,valueStays steady full,own⟩
    | filter name value => rwa [againFilter]

theorem blockSound (steady : ∀ d ∈ ds, d.Steady) : ∀ d ∈ (optimizeDeclarations ctx ds).value, d.Sound ctx := by
  intro d mem
  obtain ⟨e,there,stays,rfl⟩ := optimizeAllFrom (arrangedMem mem)
  exact soundAgain keeps (steady e there) stays

omit keeps in
theorem blockStays (full : ds ≠ []) (stays : ∀ d ∈ ds, (d.optimize ctx).value.2) :
    (optimizeDeclarations ctx ds).value ≠ [] := by
  refine arrangeSome ?_
  cases ds with
  | nil => exact absurd rfl full
  | cons d ds =>
    rw [Declaration.optimizeAll,valueBind,valueBind,valuePure,if_pos (stays d mem_cons_self)]
    exact cons_ne_nil _ _

end

structure Ruleset.Sound (ctx : Context) (r : Ruleset) : Prop where
  full : r.selector.Full
  arranged : r.selector.Arranged
  held : r.content ≠ []
  content : ∀ d ∈ r.content, d.Sound ctx

section
variable {ctx : Context} (keeps : ctx.keepHacks = true)
include keeps

theorem soundEnduring : Enduring ctx (Ruleset.Sound ctx) where
  union {a b} _ left right := by
    obtain ⟨full,own⟩ := selectorsFull left.full
    have others := (selectorsFull right.full).2
    have both : ∀ s ∈ a.selectors ++ b.selectors, s.Full ∧ s.isList = false :=
      forall_mem_append.mpr ⟨own,others⟩
    have tidied := fullTidied keeps (.list (a.selectors ++ b.selectors))
      ⟨append_ne_nil_of_left_ne_nil full _,fun s mem => (both s mem).2,allFull.mpr fun s mem => (both s mem).1⟩
    exact ⟨tidied.full,tidied.arranged,left.held,left.content⟩
  extend {a b} left right := by
    have each : ∀ d ∈ a.content ++ b.content, d.Sound ctx := forall_mem_append.mpr ⟨left.content,right.content⟩
    exact ⟨left.full,left.arranged,
      blockStays (append_ne_nil_of_left_ne_nil left.held _) fun d mem => (each d mem).stays,
      blockSound keeps fun d mem => (each d mem).steady⟩
  covered {a b} sound full := by
    obtain ⟨stays,content⟩ := withoutCoveredContent a b
    have same := withoutCoveredSelector a b
    refine ⟨by rw [same]; exact sound.full,by rw [same]; exact sound.arranged,full,fun d mem => ?_⟩
    rw [content] at mem
    exact sound.content d (mem_of_mem_filter mem)

omit keeps in
theorem meetsShaped {rule : Rule} (meets : rule.Meets (Ruleset.Sound ctx) Rule.Shaped) : rule.Shaped := by
  cases rule with
  | ruleset selector content =>
    have sound : Ruleset.Sound ctx ⟨selector,content⟩ := meets
    exact ⟨sound.arranged,sound.held,fun d mem => (sound.content d mem).shaped⟩
  | _ => exact meets

theorem rulesetMeets {selector content} (full : selector.Full) (steady : ∀ d ∈ content, d.Steady) :
    ∀ r ∈ (Ruleset.optimize ctx ⟨selector,content⟩).value, r.Meets (Ruleset.Sound ctx) Rule.Shaped := by
  intro r made
  have tidied := fullTidied keeps selector full
  obtain ⟨_,filled,rfl⟩ := optimizeRuleset made
  exact ⟨tidied.full,tidied.arranged,filled,blockSound keeps steady⟩

theorem arrangeShaped {rules} (all : ∀ r ∈ rules, r.Meets (Ruleset.Sound ctx) Rule.Shaped) :
    ∀ r ∈ (arrangeRules ctx rules).value, r.Shaped :=
  fun r mem => meetsShaped (arrangeMeets (soundEnduring keeps) all r mem)

theorem insideShaped {rules} (all : ∀ r ∈ rules, r.Meets (Ruleset.Sound ctx) Rule.Shaped)
    (full : (arrangeRules ctx rules).value.isEmpty = false) :
    (arrangeRules ctx rules).value ≠ [] ∧ Rule.AllShaped (arrangeRules ctx rules).value :=
  ⟨by simpa using full,allShaped.mpr (arrangeShaped keeps all)⟩

omit keeps in
theorem leftOver {empty : Bool} {rule r : Rule} (made : r ∈ if empty then none else some rule) :
    empty = false ∧ r = rule := by
  cases empty with
  | true => cases made
  | false => exact ⟨rfl,(Option.some.inj made).symm⟩

theorem animationMeets (name vendor frames) :
    ∀ r ∈ (optimizeAnimation ctx name vendor frames).value, r.Meets (Ruleset.Sound ctx) Rule.Shaped := by
  intro r made
  cases animationMade made
  exact @framesShaped (ctx.inVendor (lower vendor)) keeps frames

end

mutual

theorem ruleMeets {ctx} (keeps : ctx.keepHacks) : ∀ rule : Rule, rule.WellRead →
    ∀ r ∈ (rule.optimize ctx).value, r.Meets (Ruleset.Sound ctx) Rule.Shaped
  | .ruleset selector content,well,r,made => rulesetMeets keeps well.1 well.2 r made
  | .media _ content,well,r,made => by
    rw [optimize] at made
    obtain ⟨filled,rfl⟩ := leftOver made
    exact insideShaped keeps (rulesMeet keeps content well) filled
  | .supports _ content,well,r,made => by
    rw [optimize] at made
    obtain ⟨filled,rfl⟩ := leftOver made
    exact insideShaped keeps (rulesMeet keeps content well) filled
  | .page _ content margins,_,r,made => by
    rw [optimize] at made
    obtain ⟨filled,rfl⟩ := leftOver made
    refine ⟨?_,blockShaped keeps content,boxesShaped keeps margins⟩
    simpa [Decidable.or_iff_not_imp_left] using filled
  | .margin block,_,r,made => by
    obtain ⟨b,left,rfl⟩ := Option.map_eq_some_iff.mp made
    exact boxShaped keeps block b left
  | .fontFace content,_,r,made => by
    rw [optimize] at made
    obtain ⟨filled,rfl⟩ := leftOver made
    exact blockFilled keeps filled
  | .fontFeatures _ blocks,_,r,made => by
    rw [optimize] at made
    obtain ⟨filled,rfl⟩ := leftOver made
    exact ⟨by simpa using filled,boxesShaped keeps (blocks.map Block.lowerNamed)⟩
  | .featureBlock block,_,r,made => by
    obtain ⟨b,left,rfl⟩ := Option.map_eq_some_iff.mp made
    exact boxShaped keeps block.lowerNamed b left
  | .keyframes name vendor frames,_,r,made => animationMeets keeps name vendor frames r made
  | .keyframe frame,_,r,made => by
    obtain ⟨k,left,rfl⟩ := Option.map_eq_some_iff.mp made
    exact frameShaped keeps frame k left
  | .viewport vendor content,_,r,made => by
    rw [optimize] at made
    obtain ⟨filled,rfl⟩ := leftOver made
    exact @blockFilled (ctx.inVendor (lower vendor)) keeps content filled
  | .counterStyle name content,_,r,made => by
    rw [optimize] at made
    obtain ⟨filled,rfl⟩ := leftOver made
    exact blockFilled keeps filled
  | .stop _,_,r,made | .charset _,_,r,made | .importRule _,_,r,made | .namespaceRule _,_,r,made | .query _,_,r,made
  | .feature _,_,r,made => by
    cases made
    trivial
  | .component c,full,r,made => by
    rw [optimize,valueBind,valuePure] at made
    split at made <;> cases made
    exact (fullTidied keeps c full).arranged

theorem rulesMeet {ctx} (keeps : ctx.keepHacks) : ∀ rules : List Rule, Rule.AllWellRead rules →
    ∀ r ∈ (Rule.optimizeAll ctx rules).value, r.Meets (Ruleset.Sound ctx) Rule.Shaped
  | [],_ => forall_mem_nil _
  | rule :: rules,well => forall_mem_append.mpr ⟨fun r here =>
    ruleMeets keeps rule well.1 r (Option.mem_toList.mp here),rulesMeet keeps rules well.2⟩

end

/- The shape of what any text is optimized to, at every depth: each list of selectors has several
members in the order of their texts, no block is empty, and each declaration has a value and
a name in lower case. -/
theorem optimizedShape (ctx : Context) (keeps : ctx.keepHacks = true) (bytes : Bytes) :
    ∀ rule ∈ ((Stylesheet.read bytes).value.optimize ctx).value.content, rule.Shaped := by
  have read := allWellRead.mpr (readMade wellReadMade bytes)
  exact arrangeShaped keeps (rulesMeet keeps _ read)

def unsortedTypes : Bytes := ascii "b,A,b\x7b--x:y\x7d"

def types (names : List String) : List Component := names.map fun name => typeOnly (ascii name)

def typesRule (names : List String) : Rule := .ruleset (.list (types names)) [wordDeclaration "--x" "y"]

theorem unsortedTypesRead : (Stylesheet.read unsortedTypes).value.content = [typesRule ["b","A","b"]] := by
  with_unfolding_all rfl

theorem typesSorted : sortSelectors (types ["b","a","b"]) = types ["a","b","b"] := by
  have ab : textAtMost (typeOnly (ascii "a")) (typeOnly (ascii "b")) := by decide
  have ba : textAtMost (typeOnly (ascii "b")) (typeOnly (ascii "a")) = false := by decide
  have bb : textAtMost (typeOnly (ascii "b")) (typeOnly (ascii "b")) := by decide
  simp [types,sortSelectors,List.mergeSort,List.MergeSort.Internal.splitInTwo,ab,ba,bb]

theorem typesOptimized : ((Component.list (types ["b","A","b"])).optimize cautious).value =
    ⟨.list (types ["a","b"]),true⟩ := by
  have survive : Outcome.survivors (Component.optimizeAll cautious (types ["b","A","b"])).value =
      types ["b","a","b"] := rfl
  rw [Component.optimize,valueBind,finishList,survive,
    if_pos (show cautious.keepHacks from rfl),valueBind,valuePure]
  dsimp only
  rw [arrangeSelectors,typesSorted]
  rfl

theorem unsortedTypesOptimized : ((Stylesheet.read unsortedTypes).value.optimize cautious).value.content =
    [typesRule ["a","b"]] := by
  have rules : (Rule.optimizeAll cautious [typesRule ["b","A","b"]]).value = [typesRule ["a","b"]] := by
    have word : (optimizeDeclarations cautious [wordDeclaration "--x" "y"]).value = [wordDeclaration "--x" "y"] := by
      rw [optimizeDeclarations,valueBind,optimizeOne (wordRests "--x" "y" rfl),valuePure,arrangeSingle]
    have whole : isHackedSelector cautious (.list (types ["b","A","b"])) = false := rfl
    rw [Rule.optimizeAll,valueBind,valueBind,valuePure,typesRule,optimize,Ruleset.optimize,whole,
      if_neg Bool.false_ne_true,valueBind,typesOptimized,if_pos rfl,valueBind,word]
    rfl
  have content : ∀ s : Stylesheet, (s.optimize cautious).value.content =
      (arrangeRules cautious (Rule.optimizeAll cautious s.content).value).value := fun _ => rfl
  rw [content,unsortedTypesRead,rules]
  rfl

theorem unsortedTypesShaped : cautious.keepHacks = true ∧
    ((Stylesheet.read unsortedTypes).value.optimize cautious).value.content = [typesRule ["a","b"]] ∧
    ∀ rule ∈ ((Stylesheet.read unsortedTypes).value.optimize cautious).value.content, rule.Shaped :=
  ⟨rfl,unsortedTypesOptimized,optimizedShape cautious rfl unsortedTypes⟩

end Cascade
