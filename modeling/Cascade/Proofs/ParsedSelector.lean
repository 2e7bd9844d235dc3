import Cascade.Proofs.ProperSelector
import Cascade.Proofs.SelectorReread
import Cascade.Proofs.SelectorShape

/-! What selectors are read as, and what optimizing makes of them: it comes to rest at once. -/
namespace Cascade
open List Component

def Component.isSimple : Component → Bool
  | .id _ | .className _ | .element .. | .attr .. | .pseudoElement _ | .pseudoClass _ => true
  | .pseudoCall _ args => args.all fun t => t.value.isWord
  | .nth _ formula => formula.isFormula
  | _ => false

inductive Component.Parsed : Component → Prop where
  | simple {c : Component} (alone : c.isSimple = true) : Parsed c
  | negation {s : Component} (inner : Parsed s) : Parsed (.negation s)
  | selectorCall {name : Bytes} {s : Component} (inner : Parsed s) : Parsed (.selectorCall name s)
  | compound {cs : List Component} (full : cs ≠ []) (each : ∀ c ∈ cs, Parsed c) : Parsed (.compound cs)
  | complex {kind : UInt8} {l r : Component} (left : Parsed l) (right : Parsed r) : Parsed (.complex kind l r)
  | list {ss : List Component} (full : ss ≠ []) (single : ∀ s ∈ ss, s.isList = false)
      (each : ∀ s ∈ ss, Parsed s) : Parsed (.list ss)

theorem ofSelectorsParsed {ss} (full : ss ≠ [])
    (each : ∀ s ∈ ss, s.Parsed ∧ s.isList = false) : (ofSelectors ss).Parsed := by
  unfold ofSelectors
  split
  · exact (each _ mem_cons_self).1
  · exact .list full (fun s mem => (each s mem).2) fun s mem => (each s mem).1

theorem simpleFull {c : Component} (simple : c.isSimple) : c.Full ∧ c.isProper := by
  cases c with
  | id | className | element | attr | pseudoElement | pseudoClass => exact ⟨trivial,rfl⟩
  | pseudoCall | nth => exact ⟨trivial,simple⟩
  | _ => cases simple

theorem parsedFull {c : Component} (parsed : c.Parsed) : c.Full := by
  induction parsed with
  | simple alone => exact (simpleFull alone).1
  | negation _ ih | selectorCall _ ih => exact ih
  | compound full _ ih => exact ⟨full,allFull.mpr ih⟩
  | complex _ _ left right => exact ⟨left,right⟩
  | list full single _ ih => exact ⟨full,single,allFull.mpr ih⟩

theorem areProperOf {cs} (each : ∀ c ∈ cs, c.isProper) : areProper cs := by
  induction cs with
  | nil => rfl
  | cons c cs ih =>
    have rest := ih fun d mem => each d (mem_cons_of_mem c mem)
    simp [areProper,each c mem_cons_self,rest]

theorem parsedProper {c : Component} (parsed : c.Parsed) : c.isProper := by
  induction parsed with
  | simple alone => exact (simpleFull alone).2
  | negation _ ih | selectorCall _ ih => exact ih
  | compound _ _ ih => exact areProperOf ih
  | complex _ _ left right => simp [isProper,left,right]
  | list _ single _ ih =>
    simp only [isProper,areProperOf ih,Bool.true_and,all_eq_true]
    intro s mem
    simp [single s mem]

theorem nthFormula {ts formula} (read : readNth ts = some formula) : formula.isFormula := by
  unfold readNth nthOfText at read
  repeat' split at read
  all_goals cases read
  all_goals rfl

theorem parsedShape : ShapeRule (fun _ => True) Component.Parsed fun s => s.Parsed ∧ s.isList = false where
  className _ _ := .simple rfl
  element _ _ _ := .simple rfl
  id _ _ := .simple rfl
  attr _ _ _ _ := .simple rfl
  pseudoElement _ _ := .simple rfl
  pseudoElementCall _ _ := .simple rfl
  pseudoClass _ _ := .simple rfl
  plain _ _ := .simple rfl
  nth _ _ _ read := .simple (nthFormula read)
  negation full each := .negation (ofSelectorsParsed full each)
  selectorCall _ _ full each := .selectorCall (ofSelectorsParsed full each)
  compound full each := ⟨.compound full each,rfl⟩
  complex _ left full each := ⟨.complex left.1 (.compound full each),rfl⟩

theorem readSelectorParsed (ts) : ∀ s ∈ (readSelector ts).value, s.Parsed ∧ s.isList = false :=
  readSelectorAs parsedShape ts fun _ _ => trivial

def Component.IsRead (s : Component) : Prop :=
  ∃ ss, ss ≠ [] ∧ (∀ t ∈ ss, ∃ ts, (readSelector ts).value = some t) ∧ s = .ofSelectors ss

theorem isReadParsed {s : Component} (read : s.IsRead) : s.Parsed := by
  obtain ⟨ss,full,each,rfl⟩ := read
  refine ofSelectorsParsed full fun t mem => ?_
  obtain ⟨ts,made⟩ := each t mem
  exact readSelectorParsed ts t made

/- What is left of a selector or a list once it has been optimized stays and is written as before when it
is optimized again. -/
theorem optimizedSelectorRests (ctx : Context) {s : Component} (read : s.IsRead) (lasts : s.Lasts ctx) :
    (s.again ctx).Lasts ctx ∧ ((s.again ctx).again ctx).text = (s.again ctx).text := by
  have rests := properRests s (parsedProper (isReadParsed read)) lasts
  obtain ⟨stays,same⟩ := restsIff.mp rests
  exact ⟨stays,congrArg text same⟩

def sweeping : Context := { aggressive := true }

def classOnly (name : Bytes) : Component := .compound [.className name]

def hackSelector (name : String) : Component :=
  .complex 32 (.complex 32 (typeOnly universal) (typeOnly (ascii name))) (typeOnly (ascii "b"))

def hackedSelectors : List Component :=
  [.compound [.element universal [] false,.className (ascii "a")],hackSelector "HTML",classOnly (ascii "a")]

theorem spelledRead (ss : List Component) (filled : ss ≠ [])
    (each : ss.map (fun s => (readSelector s.spell).value) = ss.map some) : (ofSelectors ss).IsRead :=
  ⟨ss,filled,fun s mem => ⟨s.spell,map_inj_left.mp each s mem⟩,rfl⟩

theorem hackedSelectorsRead : (list hackedSelectors).IsRead :=
  spelledRead hackedSelectors (cons_ne_nil _ _) (by with_unfolding_all rfl)

theorem hackedSelectorsLeft : ((list hackedSelectors).optimize sweeping).value =
    ⟨classOnly (ascii "a"),true⟩ := by
  have survive : Outcome.survivors (optimizeAll sweeping hackedSelectors).value =
      [classOnly (ascii "a"),hackSelector "html",classOnly (ascii "a")] := rfl
  have others : ([classOnly (ascii "a"),hackSelector "html",classOnly (ascii "a")].filter fun s => !isHtmlHack s.text) =
      [classOnly (ascii "a"),classOnly (ascii "a")] := rfl
  have sorted : sortSelectors [classOnly (ascii "a"),classOnly (ascii "a")] =
      [classOnly (ascii "a"),classOnly (ascii "a")] := mergeSort_of_pairwise (by decide)
  have left : leftSelectors sweeping (Outcome.survivors (optimizeAll sweeping hackedSelectors).value) =
      [classOnly (ascii "a")] := by
    rw [survive,leftSelectors,if_neg (by decide),others,arrangeSelectors,sorted]
    rfl
  rw [listOutcome,left]
  rfl

theorem hackedSelectorsRest : (list hackedSelectors).IsRead ∧ (list hackedSelectors).Lasts sweeping ∧
    (list hackedSelectors).again sweeping = classOnly (ascii "a") ∧
    (classOnly (ascii "a")).Lasts sweeping ∧ ((classOnly (ascii "a")).again sweeping).text = ascii ".a" := by
  have lasts : (list hackedSelectors).Lasts sweeping := congrArg Outcome.kept hackedSelectorsLeft
  have becomes : (list hackedSelectors).again sweeping = classOnly (ascii "a") :=
    congrArg Outcome.component hackedSelectorsLeft
  have rests := optimizedSelectorRests sweeping hackedSelectorsRead lasts
  rw [becomes] at rests
  exact ⟨hackedSelectorsRead,lasts,becomes,rests⟩

end Cascade
