import Cascade.Proofs.LowerCase
import Cascade.Proofs.Repeated

/-! What has been optimized and stays does so however often it is optimized again, and a
declaration keeps its name and its importance. -/
namespace Cascade
open List Outcome
open Component (list optimize optimizeAll text)
open Noted (valueBind valuePure)

variable {ss cs : List Component} {c : Component}

def Component.again (ctx : Context) (c : Component) : Component := (c.optimize ctx).value.component

def Component.Lasts (ctx : Context) (c : Component) : Prop := (c.optimize ctx).value.kept = true

def Component.Rests (ctx : Context) (c : Component) : Prop := (c.optimize ctx).value = ⟨c,true⟩

theorem outcomesEach (ctx cs) : (optimizeAll ctx cs).value = cs.map fun c => (c.optimize ctx).value := by
  induction cs with
  | nil => rfl
  | cons c cs ih => rw [optimizeAll,valueBind,valueBind,valuePure,ih,map_cons]

theorem outcomesAgain (ctx cs) : (optimizeAll ctx cs).value.map (·.component) = cs.map (Component.again ctx) := by
  rw [outcomesEach,map_map]
  rfl

theorem restsIff {ctx} : c.Rests ctx ↔ c.Lasts ctx ∧ c.again ctx = c := by
  rw [Component.Rests,Component.Lasts,Component.again]
  constructor
  · intro rests
    rw [rests]
    exact ⟨rfl,rfl⟩
  · rintro ⟨lasts,same⟩
    exact congrArg₂ Outcome.mk same lasts

def Component.isSteady : Component → Bool
  | .expression _ | .declaration _ | .list _ | .compound _ | .complex .. | .negation _
  | .selectorCall .. => false
  | _ => true

theorem steadyLasts (ctx) (steady : c.isSteady) : c.Lasts ctx := by
  cases c with
  | expression | declaration | list | compound | complex | negation | selectorCall => cases steady
  | call name args => cases args <;> rfl
  | attr name comparison value flag =>
    cases value with
    | none => rfl
    | some value => cases value <;> rfl
  | condition inner negated =>
    cases inner with
    | declaration d => cases d <;> rfl
    | _ => rfl
  | _ => rfl

/- What stands in values and queries, and never becomes anything else. -/
def Component.isFirm : Component → Bool
  | .number _ | .dimension .. | .ident _ | .hexColor _ | .call .. | .linear .. | .multiple _ | .conditions ..
  | .condition .. => true
  | _ => false

open Component (again isFirm isSteady)

inductive Component.IsColor : Component → Prop where
  | name (name : Bytes) : IsColor (.ident name)
  | hash (text : Bytes) : IsColor (.hexColor text)
  | call (name : Bytes) (args : Option (List Term)) : IsColor (.call name args)

theorem hexMade (text) : (optimizeHex text).IsColor := by
  rw [optimizeHex]
  split
  · exact .name _
  · exact .hash _

theorem shortestMade (c : Rgb) (alpha) : (c.shortest alpha).IsColor := by
  rw [Rgb.shortest]
  split
  · dsimp only
    split
    · exact .name _
    · split
      · exact .name _
      · exact .hash _
    · exact .hash _
  · dsimp only
    split <;> exact .call _ _

theorem colorMade {name args} (h : colorCall? name args = some c) : c.IsColor := by
  rw [colorCall?] at h
  dsimp only at h
  split at h
  · cases h
  split at h
  · obtain ⟨rgb,_,rfl⟩ := Option.map_eq_some_iff.mp h
    exact shortestMade rgb _
  · obtain ⟨rgb,_,rfl⟩ := Option.map_eq_some_iff.mp h
    exact shortestMade rgb _
  · cases h

theorem colorFirm (color : c.IsColor) : c.isFirm := by
  cases color <;> rfl

theorem firmAgain (ctx) (firm : c.isFirm) : (c.again ctx).isFirm := by
  cases c with
  | dimension value unit =>
    rw [again,optimize,valuePure,optimizeDimension]
    split
    · rfl
    · dsimp only
      split <;> rfl
  | hexColor text => exact colorFirm (hexMade text)
  | call name args =>
    cases args with
    | none => rfl
    | some args =>
      rw [again,optimize,valueBind,valuePure]
      dsimp only
      cases h : colorCall? (lower name) (Term.optimize (ctx.inFunction (lower name)) args).value with
      | none => rfl
      | some c => exact colorFirm (colorMade h)
  | linear step offset =>
    rw [again,optimize,valuePure]
    dsimp only
    split <;> rfl
  | conditions combinator members =>
    rw [again,optimize,valueBind,valuePure,finishConditions]
    split
    · split <;> rfl
    · rfl
  | condition inner negated =>
    have finished (c) : (finishCondition c negated).isFirm := by
      rw [finishCondition.eq_def]
      split <;> rfl
    rw [again]
    cases inner with
    | declaration d =>
      cases d with
      | property => rfl
      | filter =>
        simp only [optimize,valueBind,valuePure]
        exact finished _
    | _ =>
      simp only [optimize,valueBind,valuePure]
      exact finished _
  | number | ident | multiple => rfl
  | _ => cases firm

theorem steadyOptimized (ctx) (steady : c.isSteady) : (c.again ctx).isSteady := by
  have firmSteady {c : Component} (firm : c.isFirm) : c.isSteady := by
    cases c <;> simp_all [isFirm,isSteady]
  cases c with
  | expression | declaration | list | compound | complex | negation | selectorCall => cases steady
  | dimension | hexColor | call | linear | conditions | condition => exact firmSteady (firmAgain ctx rfl)
  | attr name comparison value flag =>
    cases value with
    | none => rfl
    | some value => cases value <;> rfl
  | _ => rfl

/- What refining makes of a value: it is never emptied, and nothing new comes in but what
is steady. -/
structure Refines (terms refined : List Term) : Prop where
  empty : refined = [] → terms = []
  stems : ∀ t ∈ refined, (∃ u ∈ terms, u.value = t.value) ∨ t.value.isSteady = true

section
variable {terms : List Term}

theorem refinesSelf (terms) : Refines terms terms :=
  ⟨fun h => h,fun t mem => .inl ⟨t,mem,rfl⟩⟩

theorem refinesTrans {refined again} (left : Refines terms refined)
    (right : Refines refined again) : Refines terms again := by
  refine ⟨fun h => left.empty (right.empty h),?_⟩
  intro t mem
  rcases right.stems t mem with ⟨u,there,same⟩ | steady
  · rw [← same]
    exact left.stems u there
  · exact .inr steady

theorem boxLengthNil (keys) : boxLength keys = 0 → keys = [] := by
  fun_cases boxLength keys
  case case10 => exact length_eq_zero_iff.mp
  all_goals exact nofun

theorem collapseRefines (terms) : Refines terms (collapseBox terms) := by
  refine ⟨?_,fun t mem => .inl ⟨t,(collapseBoxPrefix terms).subset mem,rfl⟩⟩
  intro h
  rcases take_eq_nil_iff.mp h with bare | bare
  · exact map_eq_nil_iff.mp (boxLengthNil _ bare)
  · exact bare

theorem weightRefines (terms) : Refines terms (optimizeWeight terms) := by
  rw [optimizeWeight.eq_def]
  split
  · split
    · exact ⟨nofun,fun t mem => .inr (by rw [mem_singleton.mp mem]; rfl)⟩
    · exact refinesSelf _
  · exact refinesSelf _

theorem fontRefines (terms) : Refines terms (optimizeFont terms) := by
  rw [optimizeFont]
  split
  · rename_i place weight _
    refine ⟨fun h => modify_eq_nil_iff.mp h,?_⟩
    intro t mem
    obtain ⟨i,found⟩ := mem_iff_getElem?.mp mem
    rw [getElem?_modify] at found
    obtain ⟨u,there,rfl⟩ := Option.map_eq_some_iff.mp found
    split
    · exact .inr rfl
    · exact .inl ⟨u,mem_of_getElem? there,rfl⟩
  · exact refinesSelf _

theorem noneRefines (terms) : Refines terms (optimizeNone terms) := by
  rw [optimizeNone.eq_def]
  split
  · split
    · exact ⟨nofun,fun t mem => .inr (by rw [mem_singleton.mp mem]; rfl)⟩
    · exact refinesSelf _
  · exact refinesSelf _

theorem namesRefine (terms) : Refines terms (terms.map shortenName) := by
  refine ⟨fun h => map_eq_nil_iff.mp h,?_⟩
  intro t mem
  obtain ⟨u,there,rfl⟩ := mem_map.mp mem
  rw [shortenName]
  split
  · split
    · exact .inr rfl
    · exact .inl ⟨u,there,rfl⟩
  · exact .inl ⟨u,there,rfl⟩

theorem refineRefines (property terms) : Refines terms (refineTerms property terms) := by
  rw [refineTerms]
  split
  · exact refinesSelf _
  have shaped : Refines terms
      (if boxProperties.contains property && 1 < terms.length && terms.length ≤ 4 && isSpaced terms
      then collapseBox terms
      else if property = ascii "font-weight" then optimizeWeight terms
      else if property = ascii "font" then optimizeFont terms else terms) := by
    split
    · exact collapseRefines terms
    split
    · exact weightRefines terms
    · split
      · exact fontRefines terms
      · exact refinesSelf terms
  have zeroed : ∀ ts, Refines ts (if noneProperties.contains property then optimizeNone ts else ts) := by
    intro ts
    split
    · exact noneRefines ts
    · exact refinesSelf ts
  have colored : ∀ ts, Refines ts (if colorlessProperties.contains property then ts else ts.map shortenName) := by
    intro ts
    split
    · exact refinesSelf ts
    · exact namesRefine ts
  exact refinesTrans (refinesTrans shaped (zeroed _)) (colored _)

end

/- Contexts in which nothing goes for being a hack or for being universal. -/
structure Context.Mild (ctx : Context) : Prop where
  keeps : ctx.keepHacks = true
  cautious : ctx.aggressive = false

section
variable {ctx : Context}

theorem termsStay {ts} (last : ∀ t ∈ ts, t.value.Lasts ctx) (h : (Term.optimize ctx ts).value = []) : ts = [] := by
  cases ts with
  | nil => rfl
  | cons t ts =>
    obtain ⟨op,value⟩ := t
    have kept : (value.optimize ctx).value.kept := last ⟨op,value⟩ mem_cons_self
    rw [Term.optimize,valueBind,valueBind,valuePure,if_pos kept] at h
    cases h

theorem refinedStay {ts} (property)
    (last : ∀ t ∈ (Term.optimize ctx ts).value, t.value.Lasts ctx)
    (h : refineTerms property
      (Term.optimize ctx (refineTerms property (Term.optimize ctx ts).value)).value = []) :
    refineTerms property (Term.optimize ctx ts).value = [] := by
  have refined := refineRefines property (Term.optimize ctx ts).value
  have lasting : ∀ t ∈ refineTerms property (Term.optimize ctx ts).value, t.value.Lasts ctx := by
    intro t mem
    rcases refined.stems t mem with ⟨u,there,same⟩ | steady
    · rw [← same]
      exact last u there
    · exact steadyLasts ctx steady
  exact termsStay lasting ((refineRefines property _).empty h)

theorem survivorsLast (last : ∀ c ∈ cs, c.Lasts ctx) :
    survivors (optimizeAll ctx cs).value = cs.map (again ctx) := by
  have all : ∀ o ∈ (optimizeAll ctx cs).value, o.kept := by
    rw [outcomesEach]
    exact forall_mem_map.mpr last
  rw [survivors,filter_eq_self.mpr all,outcomesAgain]

theorem survivorsStay (last : ∀ c ∈ cs, c.Lasts ctx) (h : survivors (optimizeAll ctx cs).value = []) :
    cs = [] := by
  rw [survivorsLast last] at h
  exact map_eq_nil_iff.mp h

theorem survivorsRest (rest : ∀ c ∈ cs, c.Rests ctx) : survivors (optimizeAll ctx cs).value = cs := by
  rw [survivorsLast fun c mem => (restsIff.mp (rest c mem)).1]
  exact (map_congr_left fun c mem => (restsIff.mp (rest c mem)).2).trans (map_id _)

theorem survivorsFrom {s} (mem : s ∈ survivors (optimizeAll ctx cs).value) :
    ∃ c ∈ cs, c.Lasts ctx ∧ c.again ctx = s := by
  rw [survivors,outcomesEach] at mem
  obtain ⟨o,there,rfl⟩ := mem_map.mp mem
  obtain ⟨made,kept⟩ := mem_filter.mp there
  obtain ⟨c,given,rfl⟩ := mem_map.mp made
  exact ⟨c,given,kept,rfl⟩

def remaining (ctx : Context) (ss : List Component) : List Component :=
  distinctBy text (sortSelectors (survivors (Component.optimizeAll ctx ss).value))

theorem remainingFrom {s} (mem : s ∈ remaining ctx ss) : ∃ c ∈ ss, c.Lasts ctx ∧ c.again ctx = s :=
  survivorsFrom (mem_mergeSort.mp ((distinctFromSublist _ _).subset mem))

theorem remainingStay (last : ∀ s ∈ ss, s.Lasts ctx) (full : ss ≠ []) : remaining ctx ss ≠ [] := by
  intro bare
  have sorted := distinctNil bare
  rw [sortSelectors,← length_eq_zero_iff,length_mergeSort,length_eq_zero_iff] at sorted
  exact full (survivorsStay last sorted)

theorem dropHacksValue (ss) : (dropHacks ss).value = ss.filter fun s => !isHtmlHack s.text := by
  induction ss with
  | nil => rfl
  | cons s ss ih =>
    rw [dropHacks]
    split
    · rename_i hack
      rw [valueBind,ih,filter_cons_of_neg (by simp [hack])]
    · rename_i other
      rw [valueBind,valuePure,ih,filter_cons_of_pos (by simp [other])]

def leftSelectors (ctx : Context) (ss : List Component) : List Component :=
  arrangeSelectors ctx.aggressive (if ctx.keepHacks then ss else ss.filter fun s => !isHtmlHack s.text)

theorem listOutcome (ctx ss) : ((list ss).optimize ctx).value =
    match leftSelectors ctx (survivors (optimizeAll ctx ss).value) with
    | [] => ⟨.list ((optimizeAll ctx ss).value.map (·.component)),false⟩
    | out => ⟨.ofSelectors out,true⟩ := by
  rw [optimize,valueBind,finishList,leftSelectors]
  split
  · rw [valueBind,valuePure]
    dsimp only
    cases arrangeSelectors ctx.aggressive (survivors (optimizeAll ctx ss).value) <;> rfl
  · rw [valueBind,dropHacksValue]
    dsimp only
    generalize arrangeSelectors ctx.aggressive (List.filter ..) = out
    cases out <;> rfl

theorem listOptimized (mild : ctx.Mild) (ss) : ((list ss).optimize ctx).value =
    match remaining ctx ss with
    | [] => ⟨.list ((optimizeAll ctx ss).value.map (·.component)),false⟩
    | out => ⟨.ofSelectors out,true⟩ := by
  rw [listOutcome,leftSelectors,if_pos mild.keeps,arrangeSelectors,mild.cautious,if_neg Bool.false_ne_true,
    ← remaining]

theorem listLasts (mild : ctx.Mild) : (list ss).Lasts ctx ↔ remaining ctx ss ≠ [] := by
  rw [Component.Lasts,listOptimized mild]
  cases remaining ctx ss <;> simp

theorem listAgain (mild : ctx.Mild) (lasts : (list ss).Lasts ctx) :
    (list ss).again ctx = .ofSelectors (remaining ctx ss) := by
  have full := (listLasts mild).mp lasts
  rw [again,listOptimized mild]
  split
  · rename_i bare
    exact absurd bare full
  · rfl

theorem finishCompoundMild (mild : ctx.Mild) (os) : finishCompound ctx os =
    ⟨.compound (distinctBy text (survivors os)),
      !(distinctBy text (survivors os)).isEmpty⟩ := by
  rw [finishCompound,mild.cautious]
  rfl

theorem propertyNameTwice (name) : propertyName (propertyName name) = propertyName name := by
  rw [propertyName,propertyName]
  split
  · rfl
  · split
    · rfl
    · exact lowerTwice name

def finishedValue (ctx : Context) (name : Bytes) (value : List Term) : List Term :=
  (finishValue name value (Term.optimize (ctx.inDeclaration (lower name)) value)).value

theorem optimizeProperty (keeps : ctx.keepHacks) (written value) (important slashNine) :
    ((Declaration.property written value important slashNine).optimize ctx).value =
      if ctx.minimums.needsDeclaration (propertyName written) then
        (.property (propertyName written) (finishedValue ctx (propertyName written) value) important
            slashNine,
          !(finishedValue ctx (propertyName written) value).isEmpty &&
            !isForeign ctx.vendor (propertyName written))
      else (.property (propertyName written) value important slashNine,false) := by
  simp only [Declaration.optimize,keeps,Bool.not_true,Bool.false_and,Bool.false_eq_true,if_false]
  cases ctx.minimums.needsDeclaration (propertyName written) with
  | false => rfl
  | true =>
    simp only [Bool.not_true,Bool.false_eq_true,if_false,if_true,valueBind]
    rw [← finishedValue]
    cases (finishedValue ctx (propertyName written) value).isEmpty with
    | true => rfl
    | false =>
      cases isForeign ctx.vendor (propertyName written) <;> rfl

theorem propertyStays (keeps : ctx.keepHacks) (written value important slashNine) :
    ((Declaration.property written value important slashNine).optimize ctx).value.2 ↔
      ctx.minimums.needsDeclaration (propertyName written) ∧
      finishedValue ctx (propertyName written) value ≠ [] ∧
      isForeign ctx.vendor (propertyName written) = false := by
  rw [optimizeProperty keeps]
  split
  · rename_i needed
    simp [needed]
  · rename_i unneeded
    simp [unneeded]

end

mutual

theorem componentLasts {ctx} (mild : ctx.Mild) : ∀ c : Component, c.Lasts ctx → (c.again ctx).Lasts ctx
  | .expression terms,kept => by
    rw [Component.Lasts,optimize,valueBind,valuePure] at kept
    rw [again,optimize,valueBind,valuePure]
    rw [Component.Lasts,optimize,valueBind,valuePure]
    dsimp only at kept ⊢
    rw [Bool.not_eq_true',isEmpty_eq_false_iff] at kept ⊢
    exact fun bare => kept (refinedStay ctx.declaration (termsLast mild terms) bare)
  | .declaration d,kept => declarationLasts mild d kept
  | .list selectors,kept => by
    have last : ∀ s ∈ remaining ctx selectors, s.Lasts ctx := by
      intro s mem
      obtain ⟨t,there,lasts,rfl⟩ := remainingFrom mem
      exact allLast mild selectors t there lasts
    have full := (listLasts mild).mp kept
    rw [listAgain mild kept,Component.ofSelectors.eq_def]
    split
    · rename_i s one
      exact last s (by rw [one]; exact mem_cons_self)
    · exact (listLasts mild).mpr (remainingStay last full)
  | .compound conditions,kept => by
    rw [Component.Lasts,optimize,valueBind,valuePure,finishCompoundMild mild] at kept
    rw [again,optimize,valueBind,valuePure,finishCompoundMild mild]
    have last : ∀ c ∈ distinctBy text (survivors (optimizeAll ctx conditions).value), c.Lasts ctx := by
      intro c mem
      obtain ⟨d,there,lasts,rfl⟩ := survivorsFrom ((distinctFromSublist _ _).subset mem)
      exact allLast mild conditions d there lasts
    rw [Component.Lasts,optimize,valueBind,valuePure,finishCompoundMild mild]
    dsimp only at kept ⊢
    rw [Bool.not_eq_true',isEmpty_eq_false_iff] at kept ⊢
    exact fun bare => kept (survivorsStay last (distinctNil bare))
  | .complex kind left right,kept => by
    rw [Component.Lasts,optimize,valueBind] at kept
    rw [again,optimize,valueBind]
    split at kept
    · rename_i leftKept
      have leftAgain : ((left.optimize ctx).value.component.optimize ctx).value.kept :=
        componentLasts mild left leftKept
      rw [if_pos leftKept,Component.Lasts,valueBind,valuePure,optimize,
        valueBind,if_pos leftAgain]
      exact componentLasts mild right kept
    · cases kept
  | .negation selector,kept => componentLasts mild selector kept
  | .selectorCall _ selector,kept => componentLasts mild selector kept
  | .number _,_ | .dimension ..,_ | .quoted _,_ | .url _,_ | .ident _,_ | .hexColor _,_
  | .call ..,_ | .sum ..,_ | .product ..,_ | .id _,_ | .className _,_ | .element ..,_
  | .attr ..,_ | .pseudoElement _,_ | .pseudoClass _,_ | .pseudoCall ..,_ | .nth ..,_
  | .linear ..,_ | .multiple _,_ | .conditions ..,_ | .condition ..,_ =>
    steadyLasts ctx (steadyOptimized ctx rfl)

theorem allLast {ctx} (mild : ctx.Mild) : ∀ cs : List Component, ∀ c ∈ cs, c.Lasts ctx → (c.again ctx).Lasts ctx
  | [] => forall_mem_nil _
  | c :: cs => forall_mem_cons.mpr ⟨componentLasts mild c,allLast mild cs⟩

theorem termsLast {ctx} (mild : ctx.Mild) : ∀ ts : List Term, ∀ t ∈ (Term.optimize ctx ts).value, t.value.Lasts ctx
  | [] => forall_mem_nil _
  | ⟨op,value⟩ :: ts => by
    rw [Term.optimize,valueBind,valueBind,valuePure]
    split
    · rename_i kept
      exact forall_mem_cons.mpr ⟨componentLasts mild value kept,termsLast mild ts⟩
    · exact termsLast mild ts

theorem declarationLasts {ctx} (mild : ctx.Mild) : ∀ d : Declaration,
    (d.optimize ctx).value.2 → ((d.optimize ctx).value.1.optimize ctx).value.2
  | .property written value important slashNine,kept => by
    obtain ⟨needed,full,own⟩ := (propertyStays mild.keeps written value important slashNine).mp kept
    rw [optimizeProperty mild.keeps,if_pos needed,propertyStays mild.keeps,propertyNameTwice]
    refine ⟨needed,?_,own⟩
    unfold finishedValue finishValue at full ⊢
    split
    · rename_i custom
      rw [if_pos custom] at full
      exact full
    · rename_i plain
      rw [if_neg plain] at full
      have last := @termsLast (ctx.inDeclaration (lower (propertyName written))) ⟨mild.keeps,mild.cautious⟩ value
      exact fun bare => full (refinedStay _ last bare)
  | .filter name value,kept => by
    rw [Declaration.optimize] at kept ⊢
    split at kept
    · rename_i needed
      rw [if_pos needed,valuePure,Declaration.optimize,if_pos needed]
      rfl
    · cases kept

end

def Declaration.again (ctx : Context) (d : Declaration) : Declaration := (d.optimize ctx).value.1

structure Declaration.Lasting (ctx : Context) (d : Declaration) : Prop where
  stays : (d.optimize ctx).value.2 = true
  name : (d.again ctx).key = d.key

section
variable {ctx : Context}

theorem againProperty (written value important slashNine) :
    ∃ value', (Declaration.property written value important slashNine).again ctx =
      .property (propertyName written) value' important slashNine := by
  rw [Declaration.again,Declaration.optimize]
  split
  · exact ⟨value,rfl⟩
  split
  · exact ⟨value,rfl⟩
  simp only [valueBind]
  split
  · exact ⟨_,rfl⟩
  · split <;> exact ⟨_,rfl⟩

theorem againFilter (name value) : (Declaration.filter name value).again ctx = .filter name value := by
  rw [Declaration.again,Declaration.optimize]
  split <;> rfl

theorem againImportant (d : Declaration) : (d.again ctx).isImportant = d.isImportant := by
  cases d with
  | property written value important slashNine =>
    obtain ⟨value',becomes⟩ := againProperty written value important slashNine
    rw [becomes]
    rfl
  | filter name value => rw [againFilter]

theorem againKey (d : Declaration) : ((d.again ctx).again ctx).key = (d.again ctx).key := by
  cases d with
  | property written value important slashNine =>
    obtain ⟨value',becomes⟩ := againProperty written value important slashNine
    obtain ⟨value'',twice⟩ := againProperty (propertyName written) value' important slashNine
    rw [becomes,twice]
    exact propertyNameTwice written
  | filter name value => rw [againFilter,againFilter]

variable (mild : ctx.Mild)
include mild

theorem lastingOnce {d : Declaration} (stays : (d.optimize ctx).value.2) :
    (d.again ctx).Lasting ctx := ⟨declarationLasts mild d stays,againKey d⟩

omit mild in
theorem optimizeAllEach (ds) :
    (Declaration.optimizeAll ctx ds).value = (ds.filter fun d => (d.optimize ctx).value.2).map (Declaration.again ctx) := by
  induction ds with
  | nil => rfl
  | cons d ds ih =>
    rw [Declaration.optimizeAll,valueBind,valueBind,valuePure,ih,filter_cons]
    split <;> rfl

omit mild in
theorem optimizeAllLasting {ds} (last : ∀ d ∈ ds, d.Lasting ctx) :
    (Declaration.optimizeAll ctx ds).value = ds.map (Declaration.again ctx) := by
  rw [optimizeAllEach,filter_eq_self.mpr fun d mem => (last d mem).stays]

omit mild in
theorem optimizeAllFrom {ds d} (mem : d ∈ (Declaration.optimizeAll ctx ds).value) :
    ∃ e ∈ ds, (e.optimize ctx).value.2 ∧ e.again ctx = d := by
  rw [optimizeAllEach] at mem
  obtain ⟨e,there,rfl⟩ := mem_map.mp mem
  obtain ⟨given,stays⟩ := mem_filter.mp there
  exact ⟨e,given,stays,rfl⟩

end

end Cascade
