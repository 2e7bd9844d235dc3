import Cascade.Proofs.Heeded
import Cascade.Proofs.ParsedSelector
import Mathlib.Data.List.Nodup
import Mathlib.Data.Set.Basic

/-! The elements that selectors match. A condition is known by how it is written once optimized, and all else by its
parts. -/
namespace Cascade
open List Component
open Component (again text)

variable {cs : List Component} {c : Component}

/- The elements that conditions match, and those that functions and combinators make of others. -/
structure Matching (ε : Type) where
  condition : Bytes → Set ε
  function : Bytes → Set ε → Set ε
  combinator : UInt8 → Set ε → Set ε → Set ε

variable {ε : Type}

mutual

def Component.matched (ctx : Context) (m : Matching ε) : Component → Set ε
  | .list ss => matchedByAny ctx m ss
  | .compound cs => matchedByAll ctx m cs
  | .complex kind left right => m.combinator kind (left.matched ctx m) (right.matched ctx m)
  | .negation s => (s.matched ctx m)ᶜ
  | .selectorCall name s => m.function (lower name) (s.matched ctx m)
  | c => m.condition (c.again ctx).text

def Component.matchedByAny (ctx : Context) (m : Matching ε) : List Component → Set ε
  | [] => ∅
  | c :: cs => c.matched ctx m ∪ matchedByAny ctx m cs

def Component.matchedByAll (ctx : Context) (m : Matching ε) : List Component → Set ε
  | [] => Set.univ
  | c :: cs => c.matched ctx m ∩ matchedByAll ctx m cs

end

def Apart (ctx : Context) (cs : List Component) : Prop :=
  ∀ c ∈ cs, ∀ d ∈ cs, (c.again ctx).text = (d.again ctx).text → c.again ctx = d.again ctx

mutual

/- A selector of which each list and compound, at any depth, can be told apart by the texts of its members. -/
def Component.Legible (ctx : Context) : Component → Prop
  | .list ss => Apart ctx ss ∧ Component.AllLegible ctx ss
  | .compound cs => Apart ctx cs ∧ Component.AllLegible ctx cs
  | .complex _ left right => left.Legible ctx ∧ right.Legible ctx
  | .negation s | .selectorCall _ s => s.Legible ctx
  | _ => True

def Component.AllLegible (ctx : Context) : List Component → Prop
  | [] => True
  | c :: cs => c.Legible ctx ∧ Component.AllLegible ctx cs

end

theorem allLegible {ctx} : Component.AllLegible ctx cs ↔ ∀ c ∈ cs, c.Legible ctx := by
  induction cs with
  | nil => simp [Component.AllLegible]
  | cons c cs ih => simp [Component.AllLegible,ih]

section
variable {ctx : Context} {m : Matching ε} {x : ε}

theorem matchedAny : x ∈ matchedByAny ctx m cs ↔ ∃ c ∈ cs, x ∈ c.matched ctx m := by
  induction cs with
  | nil => simp [matchedByAny]
  | cons c cs ih => simp [matchedByAny,ih]

theorem matchedAll : x ∈ matchedByAll ctx m cs ↔ ∀ c ∈ cs, x ∈ c.matched ctx m := by
  induction cs with
  | nil => simp [matchedByAll]
  | cons c cs ih => simp [matchedByAll,ih]

theorem matchedSelectors (ctx) (m : Matching ε) (ss) :
    (ofSelectors ss).matched ctx m = matchedByAny ctx m ss := by
  unfold ofSelectors
  split
  · simp [matchedByAny]
  · rfl

/- The texts decide which of the results are left, in whatever order, and nothing is lost by it. -/
theorem distinctAgain {ds} (apart : Apart ctx cs) (results : ∀ d, d ∈ ds ↔ d ∈ cs.map (again ctx)) {d} :
    d ∈ distinctBy text ds ↔ ∃ c ∈ cs, c.again ctx = d := by
  rw [distinctMem,results,mem_map]
  intro a first b second same
  obtain ⟨c,there,rfl⟩ := mem_map.mp ((results a).mp first)
  obtain ⟨d,here,rfl⟩ := mem_map.mp ((results b).mp second)
  exact apart c there d here same

end

section
variable {ctx : Context} (m : Matching ε)

theorem simpleMatched (simple : c.isSimple) : c.matched ctx m = m.condition (c.again ctx).text := by
  cases c with
  | id | className | element | attr | pseudoElement | pseudoClass | pseudoCall | nth => rfl
  | _ => cases simple

theorem simpleAgain (simple : c.isSimple) :
    (c.again ctx).matched ctx m = m.condition ((c.again ctx).again ctx).text := by
  cases c with
  | attr name comparison value flag =>
    rw [againAttr]
    rfl
  | id | className | element | pseudoElement | pseudoClass | pseudoCall | nth => rfl
  | _ => cases simple

variable (mild : ctx.Mild)
include mild

theorem parsedLasts (parsed : c.Parsed) : c.Lasts ctx :=
  (fullTidied mild.keeps c (parsedFull parsed)).lasts

theorem compoundAgain (last : ∀ c ∈ cs, c.Lasts ctx) :
    (compound cs).again ctx = .compound (distinctBy text (cs.map (again ctx))) := by
  rw [again,compoundOutcome,survivorsLast last,compoundConditions,mild.cautious]
  rfl

theorem sortedListAgain {ss} (lasts : (list ss).Lasts ctx) (last : ∀ s ∈ ss, s.Lasts ctx) :
    (list ss).again ctx =
      .ofSelectors (distinctBy text (sortSelectors (ss.map (again ctx)))) := by
  rw [listAgain mild lasts,remaining,survivorsLast last]

theorem compoundMatched (last : ∀ c ∈ cs, c.Lasts ctx) (apart : Apart ctx cs)
    (each : ∀ c ∈ cs, (c.again ctx).matched ctx m = c.matched ctx m) :
    ((compound cs).again ctx).matched ctx m = (compound cs).matched ctx m := by
  ext x
  rw [compoundAgain mild last,matched,matched,matchedAll,matchedAll]
  simp only [distinctAgain apart fun _ => Iff.rfl,forall_exists_index,and_imp,forall_apply_eq_imp_iff₂]
  exact forall₂_congr fun c mem => by rw [each c mem]

theorem listMatched {ss} (lasts : (list ss).Lasts ctx) (last : ∀ s ∈ ss, s.Lasts ctx)
    (apart : Apart ctx ss) (each : ∀ s ∈ ss, (s.again ctx).matched ctx m = s.matched ctx m) :
    ((list ss).again ctx).matched ctx m = (list ss).matched ctx m := by
  have sorted : ∀ d, d ∈ sortSelectors (ss.map (again ctx)) ↔ d ∈ ss.map (again ctx) :=
    fun _ => mem_mergeSort
  ext x
  rw [sortedListAgain mild lasts last,matchedSelectors,matched,matchedAny,matchedAny]
  simp only [distinctAgain apart sorted,exists_exists_and_eq_and]
  exact exists_congr fun s => and_congr_right fun mem => by rw [each s mem]

theorem parsedMatched (parsed : c.Parsed) (legible : c.Legible ctx) :
    (c.again ctx).matched ctx m = c.matched ctx m := by
  induction parsed with
  | simple alone =>
    have rests := properRests _ (simpleFull alone).2 (parsedLasts mild (.simple alone))
    rw [simpleAgain m alone,simpleMatched m alone,(restsIff.mp rests).2]
  | negation inner ih => exact congrArg (·ᶜ) (ih legible)
  | @selectorCall name s inner ih => exact congrArg₂ m.function (lowerTwice name) (ih legible)
  | compound full each ih =>
    have inside := allLegible.mp legible.2
    exact compoundMatched m mild (fun c mem => parsedLasts mild (each c mem)) legible.1 fun c mem => ih c mem (inside c mem)
  | complex left right first second =>
    rw [complexAgain (parsedLasts mild left),matched,matched,first legible.1,second legible.2]
  | list full single each ih =>
    have inside := allLegible.mp legible.2
    exact listMatched m mild (parsedLasts mild (.list full single each)) (fun s mem => parsedLasts mild (each s mem))
      legible.1 fun s mem => ih s mem (inside s mem)

end

/- A selector or a list stays when it is optimized with care, and it matches the elements it did, whatever
they are, if no two different members of a list or a compound are written alike. -/
theorem optimizedSelectorMatches (ctx : Context) (mild : ctx.Mild) {s : Component} (read : s.IsRead) :
    s.Lasts ctx ∧ (s.Legible ctx → ∀ {ε : Type} (m : Matching ε), (s.again ctx).matched ctx m = s.matched ctx m) := by
  have parsed := isReadParsed read
  exact ⟨parsedLasts mild parsed,fun legible _ m => parsedMatched m mild parsed legible⟩

theorem apartAmong {ctx} (ds : List Component) (become : ∀ c ∈ cs, c.again ctx ∈ ds)
    (different : (ds.map text).Nodup) : Apart ctx cs :=
  fun c first d second same => inj_on_of_nodup_map different (become c first) (become d second) same

def textMatching : Matching Bytes where
  condition text := {text}
  function _ inner := inner
  combinator _ left right := left ∪ right

def unsortedClasses : List Component := [classOnly (ascii "y"),classOnly (ascii "x"),classOnly (ascii "y")]

def childSelector (parent call : String) (s : Component) : Component :=
  .complex 62 (typeOnly (ascii parent)) (.compound [.negation (.compound [.selectorCall (ascii call) s])])

def childSelectors : List Component :=
  [childSelector "B" "IS" (.list unsortedClasses),childSelector "b" "is" (.list unsortedClasses)]

theorem childSelectorsRead : (list childSelectors).IsRead :=
  spelledRead childSelectors (cons_ne_nil _ _) (by with_unfolding_all rfl)

theorem childSelectorsAlike (s) :
    (childSelector "B" "IS" s).again cautious = (childSelector "b" "is" s).again cautious := by
  have type : lower (ascii "B") = lower (ascii "b") := by decide
  have call : lower (ascii "IS") = lower (ascii "is") := by decide
  have lasts (name : String) : (typeOnly (ascii name)).Lasts cautious := rfl
  rw [childSelector,childSelector,complexAgain (lasts "B"),complexAgain (lasts "b")]
  simp only [typeOnly,again,optimize,optimizeAll,type,call]

theorem apartSingle {ctx} (c) : Apart ctx [c] := apartAmong [c.again ctx] (by simp) (nodup_singleton _)

theorem childSelectorsLegible : (list childSelectors).Legible cautious := by
  have alone (name : String) : (classOnly (ascii name)).Legible cautious := ⟨apartSingle _,trivial,trivial⟩
  have rests (name : String) : (classOnly (ascii name)).again cautious = classOnly (ascii name) := rfl
  have classes : Apart cautious unsortedClasses :=
    apartAmong [classOnly (ascii "x"),classOnly (ascii "y")] (by simp [unsortedClasses,rests]) (by decide)
  have child (parent call : String) : (childSelector parent call (.list unsortedClasses)).Legible cautious :=
    ⟨⟨apartSingle _,trivial,trivial⟩,apartSingle _,
      ⟨apartSingle _,⟨classes,alone "y",alone "x",alone "y",trivial⟩,trivial⟩,trivial⟩
  have all : Apart cautious childSelectors :=
    apartAmong [(childSelector "b" "is" (.list unsortedClasses)).again cautious]
      (by simp [childSelectors,childSelectorsAlike]) (nodup_singleton _)
  exact ⟨all,child "B" "IS",child "b" "is",trivial⟩

def escapedSelectors : List Component := [escapeSelector,classOnly (ascii "\\61 b")]

theorem escapedSelectorsRead : (list escapedSelectors).IsRead :=
  spelledRead escapedSelectors (cons_ne_nil _ _) (by with_unfolding_all rfl)

theorem escapedSelectorsAgain : (list escapedSelectors).again cautious = escapeSelector := by
  have lasts := parsedLasts cautiousMild (isReadParsed escapedSelectorsRead)
  have last : ∀ s ∈ escapedSelectors, s.Lasts cautious := by
    rw [escapedSelectors,forall_mem_cons,forall_mem_singleton]
    exact ⟨rfl,rfl⟩
  have rest : escapedSelectors.map (again cautious) = escapedSelectors := rfl
  have sorted : sortSelectors escapedSelectors = escapedSelectors := mergeSort_of_pairwise (by decide)
  rw [sortedListAgain cautiousMild lasts last,rest,sorted]
  rfl

theorem childSelectorsMatch :
    ((list childSelectors).IsRead ∧ (list childSelectors).Legible cautious ∧
      (list childSelectors).Lasts cautious ∧
      ((list childSelectors).again cautious).matched cautious textMatching =
        (list childSelectors).matched cautious textMatching) ∧
    ((list escapedSelectors).IsRead ∧ (list escapedSelectors).Lasts cautious ∧
      (list escapedSelectors).again cautious = escapeSelector ∧
      ascii ".\\61 b" ∈ (list escapedSelectors).matched cautious textMatching ∧
      ascii ".\\61 b" ∉ escapeSelector.matched cautious textMatching) := by
  obtain ⟨lasts,keeps⟩ := optimizedSelectorMatches cautious cautiousMild childSelectorsRead
  have still := (optimizedSelectorMatches cautious cautiousMild escapedSelectorsRead).1
  refine ⟨⟨childSelectorsRead,childSelectorsLegible,lasts,keeps childSelectorsLegible textMatching⟩,
    escapedSelectorsRead,still,escapedSelectorsAgain,?_,?_⟩
  · exact Or.inr (Or.inl ⟨rfl,trivial⟩)
  · rintro (⟨first,_⟩ | ⟨second,_⟩)
    · exact absurd (show ascii ".\\61 b" = ascii ".\\61" from first) (by decide)
    · exact absurd (show ascii ".\\61 b" = ascii "b" from second) (by decide)

end Cascade
