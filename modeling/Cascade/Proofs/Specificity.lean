import Cascade.Proofs.MatchedElements
import Mathlib.Algebra.GroupWithZero.Nat
import Mathlib.Algebra.Order.Group.Nat
import Mathlib.Algebra.Order.Monoid.Prod

/-! How specific selectors are. Optimizing with care counts once what is repeated in a compound or a list,
and leaves all else as it counts. -/
namespace Cascade
open List Component
open Component (text again)

variable {cs : List Component} {c : Component}

abbrev Specificity := ℕ ×ₗ ℕ ×ₗ ℕ

namespace Specificity

def ofIds (n : ℕ) : Specificity := toLex (n,0)

def ofClasses (n : ℕ) : Specificity := toLex (0,toLex (n,0))

def ofTypes (n : ℕ) : Specificity := toLex (0,toLex (0,n))

end Specificity

mutual

/- Conditions add up, and the highest of a list counts. Functions that are not known to take selectors
weigh as they are said to, by name and arguments. -/
def Component.specificity (plain : Bytes → Bytes → Specificity) : Component → Specificity
  | .list ss => joint plain max ss
  | .compound cs => joint plain (· + ·) cs
  | .complex _ left right => left.specificity plain + right.specificity plain
  | .negation s => s.specificity plain
  | .selectorCall name s => if lower name == ascii "where" then 0 else s.specificity plain
  | .id _ => .ofIds 1
  | .className _ | .attr .. | .nth .. => .ofClasses 1
  | .pseudoClass name => if singleColonElements.contains (lower name) then .ofTypes 1 else .ofClasses 1
  | .pseudoCall name args => plain (lower name) (Term.textOf args)
  | .pseudoElement _ => .ofTypes 1
  | .element name _ _ => if lower name == universal then 0 else .ofTypes 1
  | _ => 0

def Component.joint (plain : Bytes → Bytes → Specificity) (op : Specificity → Specificity → Specificity) :
    List Component → Specificity
  | [] => 0
  | c :: cs => op (c.specificity plain) (joint plain op cs)

end

mutual

/- The same, but for members of a list or a compound that come to be written like one before them. -/
def Component.once (ctx : Context) (plain : Bytes → Bytes → Specificity) : Component → Specificity
  | .list ss => jointOnce ctx plain max [] ss
  | .compound cs => jointOnce ctx plain (· + ·) [] cs
  | .complex _ left right => left.once ctx plain + right.once ctx plain
  | .negation s => s.once ctx plain
  | .selectorCall name s => if lower name == ascii "where" then 0 else s.once ctx plain
  | c => c.specificity plain

def Component.jointOnce (ctx : Context) (plain : Bytes → Bytes → Specificity)
    (op : Specificity → Specificity → Specificity) (seen : List Bytes) : List Component → Specificity
  | [] => 0
  | c :: cs =>
    if seen.contains (c.again ctx).text then jointOnce ctx plain op seen cs
    else op (c.once ctx plain) (jointOnce ctx plain op ((c.again ctx).text :: seen) cs)

end

mutual

def Component.Unrepeated (ctx : Context) : Component → Prop
  | .list ss => Component.AllUnrepeated ctx ss
  | .compound cs => (cs.map fun c => (c.again ctx).text).Nodup ∧ Component.AllUnrepeated ctx cs
  | .complex _ left right => left.Unrepeated ctx ∧ right.Unrepeated ctx
  | .negation s | .selectorCall _ s => s.Unrepeated ctx
  | _ => True

def Component.AllUnrepeated (ctx : Context) : List Component → Prop
  | [] => True
  | c :: cs => c.Unrepeated ctx ∧ Component.AllUnrepeated ctx cs

end

theorem allUnrepeated {ctx} : Component.AllUnrepeated ctx cs ↔ ∀ c ∈ cs, c.Unrepeated ctx := by
  induction cs with
  | nil => simp [Component.AllUnrepeated]
  | cons c cs ih => simp [Component.AllUnrepeated,ih]

section
variable {α : Type} {key : α → Bytes}

theorem distinctFirst {seen as b} :
    b ∈ distinctFrom key seen as ↔ key b ∉ seen ∧ as.find? (fun a => key a == key b) = some b := by
  induction as generalizing seen with
  | nil => simp [distinctFrom]
  | cons a as ih =>
    rw [distinctFrom,find?_cons]
    by_cases same : key a = key b
    · rw [beq_iff_eq.mpr same]
      by_cases known : key a ∈ seen
      · rw [if_pos (contains_iff_mem.mpr known),ih,← same]
        simp [known]
      · rw [if_neg (mt contains_iff_mem.mp known),mem_cons,ih,← same]
        simp [known,eq_comm]
    · rw [beq_eq_false_iff_ne.mpr same]
      have other : b ≠ a := fun equal => same (by rw [equal])
      by_cases known : key a ∈ seen
      · rw [if_pos (contains_iff_mem.mpr known),ih]
      · rw [if_neg (mt contains_iff_mem.mp known),mem_cons,ih]
        simp [other,Ne.symm same]

theorem distinctSorted (ss s) : s ∈ distinctBy text (sortSelectors ss) ↔ s ∈ distinctBy text ss := by
  have alike : (sortSelectors ss).filter (fun t => t.text == s.text) = ss.filter fun t => t.text == s.text := by
    refine filterMergeSort (textsTrans text) (textsTotal text) fun a _ left b _ right => ?_
    rw [notBefore,beq_iff_eq.mp left,beq_iff_eq.mp right]
    exact List.le_refl _
  rw [distinctBy,distinctBy,distinctFirst,distinctFirst,← head?_filter,← head?_filter,alike]

end

section
variable {plain : Bytes → Bytes → Specificity}

theorem specificityNonneg (a : Specificity) : 0 ≤ a := by
  refine Prod.Lex.le_iff.mpr ?_
  rcases Nat.eq_zero_or_pos (ofLex a).1 with bare | full
  · refine .inr ⟨bare.symm,Prod.Lex.le_iff.mpr ?_⟩
    rcases Nat.eq_zero_or_pos (ofLex (ofLex a).2).1 with bare | full
    · exact .inr ⟨bare.symm,Nat.zero_le _⟩
    · exact .inl full
  · exact .inl full

theorem highestBound {bound} : joint plain max cs ≤ bound ↔ ∀ c ∈ cs, c.specificity plain ≤ bound := by
  induction cs with
  | nil => simp [joint,specificityNonneg]
  | cons c cs ih => simp [joint,ih]

theorem highestSame {ds} (same : ∀ c, c ∈ cs ↔ c ∈ ds) :
    joint plain max cs = joint plain max ds := by
  refine eq_of_forall_ge_iff fun bound => ?_
  simp only [highestBound,same]

theorem selectorsSpecificity (ss) : (ofSelectors ss).specificity plain = joint plain max ss := by
  unfold ofSelectors
  split
  · simp [joint,specificityNonneg]
  · rfl

end

section
variable {ctx : Context} {plain : Bytes → Bytes → Specificity} {op : Specificity → Specificity → Specificity}

theorem simpleOnce (simple : c.isSimple) : c.once ctx plain = c.specificity plain := by
  cases c with
  | id | className | element | attr | pseudoElement | pseudoClass | pseudoCall | nth => rfl
  | _ => cases simple

theorem simpleSpecificity (simple : c.isSimple) : (c.again ctx).specificity plain = c.specificity plain := by
  cases c with
  | id | className | pseudoElement | nth => rfl
  | attr name comparison value flag =>
    rw [againAttr]
    rfl
  | element name ns hasNs =>
    have again : (element name ns hasNs).again ctx = .element (lower name) (lower ns) hasNs := rfl
    rw [again,specificity,specificity,lowerTwice]
  | pseudoClass name =>
    have again : (pseudoClass name).again ctx = .pseudoClass (lower name) := rfl
    rw [again,specificity,specificity,lowerTwice]
  | pseudoCall name args =>
    have again : (pseudoCall name args).again ctx = .pseudoCall (lower name) args := by
      rw [again,optimize,Noted.valueBind,wordsTwice simple]
      rfl
    rw [again,specificity,specificity,lowerTwice]
  | _ => cases simple

theorem callSpecificity {name s} : ((selectorCall name s).again ctx).specificity plain =
    if lower name == ascii "where" then 0 else (s.again ctx).specificity plain := by
  have again : (selectorCall name s).again ctx = .selectorCall (lower name) (s.again ctx) := rfl
  rw [again,specificity,lowerTwice]

theorem jointDistinct (each : ∀ c ∈ cs, (c.again ctx).specificity plain = c.once ctx plain) (seen) :
    joint plain op (distinctFrom text seen (cs.map (again ctx))) =
      jointOnce ctx plain op seen cs := by
  induction cs generalizing seen with
  | nil => rfl
  | cons c cs ih =>
    have rest := ih fun d mem => each d (mem_cons_of_mem c mem)
    rw [map_cons,distinctFrom,jointOnce]
    split
    · exact rest seen
    · rw [joint,each c mem_cons_self,rest]

theorem jointCongr {ds} (each : List.Forall₂ (fun c d => c.specificity plain = d.specificity plain) cs ds) :
    joint plain op cs = joint plain op ds := by
  induction each with
  | nil => rfl
  | cons same _ ih => rw [joint,joint,same,ih]

theorem jointOnceLe (mono : ∀ a b c d, a ≤ b → c ≤ d → op a c ≤ op b d) (right : ∀ a b, b ≤ op a b)
    (each : ∀ c ∈ cs, c.once ctx plain ≤ c.specificity plain) (seen) :
    jointOnce ctx plain op seen cs ≤ joint plain op cs := by
  induction cs generalizing seen with
  | nil => exact le_refl _
  | cons c cs ih =>
    have rest := ih fun d mem => each d (mem_cons_of_mem c mem)
    rw [jointOnce,joint]
    split
    · exact (rest seen).trans (right _ _)
    · exact mono _ _ _ _ (each c mem_cons_self) (rest _)

theorem onceLe (parsed : c.Parsed) : c.once ctx plain ≤ c.specificity plain := by
  induction parsed with
  | simple alone => exact le_of_eq (simpleOnce alone)
  | negation _ ih => exact ih
  | selectorCall _ ih =>
    rw [once,specificity]
    split
    · exact le_refl _
    · exact ih
  | compound _ _ ih =>
    refine jointOnceLe (fun _ _ _ _ => add_le_add) (fun a b => ?_) ih []
    calc b = 0 + b := (zero_add b).symm
      _ ≤ a + b := add_le_add (specificityNonneg a) (le_refl b)
  | complex _ _ first second => exact add_le_add first second
  | list _ _ _ ih => exact jointOnceLe (fun _ _ _ _ => max_le_max) (fun _ _ => le_max_right _ _) ih []

variable (mild : ctx.Mild)
include mild

theorem againOnce (parsed : c.Parsed) : (c.again ctx).specificity plain = c.once ctx plain := by
  induction parsed with
  | simple alone => rw [simpleSpecificity alone,simpleOnce alone]
  | negation _ ih => exact ih
  | selectorCall _ ih => rw [callSpecificity,once,ih]
  | compound _ each ih =>
    rw [compoundAgain mild fun c mem => parsedLasts mild (each c mem)]
    exact jointDistinct ih []
  | complex left _ first second =>
    rw [complexAgain (parsedLasts mild left),specificity,once,first,second]
  | list full single each ih =>
    rw [sortedListAgain mild (parsedLasts mild (.list full single each)) fun s mem => parsedLasts mild (each s mem),
      selectorsSpecificity,highestSame (distinctSorted _)]
    exact jointDistinct ih []

theorem againUnrepeated (parsed : c.Parsed) (legible : c.Legible ctx) (unrepeated : c.Unrepeated ctx) :
    (c.again ctx).specificity plain = c.specificity plain := by
  induction parsed with
  | simple alone => exact simpleSpecificity alone
  | negation _ ih => exact ih legible unrepeated
  | selectorCall _ ih => rw [callSpecificity,specificity,ih legible unrepeated]
  | @compound cs _ each ih =>
    have inside := allLegible.mp legible.2
    have free := allUnrepeated.mp unrepeated.2
    have all : distinctBy text (cs.map (again ctx)) = cs.map (again ctx) := by
      refine distinctFromSelf ?_ fun _ _ => not_mem_nil
      rw [map_map]
      exact unrepeated.1
    rw [compoundAgain mild fun c mem => parsedLasts mild (each c mem),all]
    refine jointCongr (List.forall₂_map_left_iff.mpr (List.forall₂_same.mpr fun c mem => ?_))
    exact ih c mem (inside c mem) (free c mem)
  | complex left _ first second =>
    rw [complexAgain (parsedLasts mild left),specificity,specificity,
      first legible.1 unrepeated.1,second legible.2 unrepeated.2]
  | @list ss full single each ih =>
    have inside := allLegible.mp legible.2
    have free := allUnrepeated.mp unrepeated
    rw [sortedListAgain mild (parsedLasts mild (.list full single each)) fun s mem => parsedLasts mild (each s mem),
      selectorsSpecificity,highestSame (distinctSorted _)]
    refine eq_of_forall_ge_iff fun bound => ?_
    rw [specificity,highestBound,highestBound]
    simp only [distinctAgain legible.1 fun _ => Iff.rfl,forall_exists_index,and_imp,forall_apply_eq_imp_iff₂]
    exact forall₂_congr fun s mem => by rw [ih s mem (inside s mem) (free s mem)]

end

/- A selector that is optimized with care stays, and what is repeated in a compound or a list of it counts
once. It is as specific as it was if no compound repeats a condition and members of lists can be told
apart by their texts. -/
theorem optimizedSpecificity (ctx : Context) (mild : ctx.Mild) (plain : Bytes → Bytes → Specificity)
    {ts : List Token} {s : Component} (read : (readSelector ts).value = some s) :
    s.Lasts ctx ∧ (s.again ctx).specificity plain = s.once ctx plain ∧ s.once ctx plain ≤ s.specificity plain ∧
      (s.Legible ctx → s.Unrepeated ctx → (s.again ctx).specificity plain = s.specificity plain) := by
  have parsed := (readSelectorParsed ts s read).1
  exact ⟨parsedLasts mild parsed,againOnce mild parsed,onceLe parsed,againUnrepeated mild parsed⟩

def idOnly (name : String) : Component := .compound [.id (ascii name)]

def unsortedArguments : List Component := [classOnly (ascii "y"),idOnly "z",classOnly (ascii "y")]

def idParent : Component := .complex 62 (idOnly "x") (.compound [.negation (.list unsortedArguments)])

theorem idParentRead : ∃ ts, (readSelector ts).value = some idParent := ⟨idParent.spell,by with_unfolding_all rfl⟩

theorem idParentLegible : idParent.Legible cautious := by
  have single (c : Component) : Apart cautious [c] := apartAmong [c.again cautious] (by simp) (nodup_singleton _)
  have word : (classOnly (ascii "y")).again cautious = classOnly (ascii "y") := rfl
  have id : (idOnly "z").again cautious = idOnly "z" := rfl
  have arguments : Apart cautious unsortedArguments :=
    apartAmong [classOnly (ascii "y"),idOnly "z"] (by simp [unsortedArguments,word,id]) (by decide)
  exact ⟨⟨single _,trivial,trivial⟩,single _,
    ⟨arguments,⟨single _,trivial,trivial⟩,⟨single _,trivial,trivial⟩,⟨single _,trivial,trivial⟩,trivial⟩,trivial⟩

theorem idParentUnrepeated : idParent.Unrepeated cautious := by
  have single (text : Bytes) : [text].Nodup := nodup_singleton text
  exact ⟨⟨single _,trivial,trivial⟩,single _,
    ⟨⟨single _,trivial,trivial⟩,⟨single _,trivial,trivial⟩,⟨single _,trivial,trivial⟩,trivial⟩,trivial⟩

theorem idParentAsSpecific : (∃ ts, (readSelector ts).value = some idParent) ∧ idParent.Legible cautious ∧
    idParent.Unrepeated cautious ∧ idParent.Lasts cautious ∧
    ∀ plain, (idParent.again cautious).specificity plain = .ofIds 2 := by
  obtain ⟨ts,read⟩ := idParentRead
  have kept := fun plain => optimizedSpecificity cautious cautiousMild plain read
  refine ⟨⟨ts,read⟩,idParentLegible,idParentUnrepeated,(kept fun _ _ => 0).1,fun plain => ?_⟩
  rw [(kept plain).2.2.2 idParentLegible idParentUnrepeated]
  rfl

def repeatedClass : Component := .compound [.className (ascii "a"),.className (ascii "a")]

theorem repeatedClassWeakened : (∃ ts, (readSelector ts).value = some repeatedClass) ∧ repeatedClass.Lasts cautious ∧
    ∀ plain, (repeatedClass.again cautious).specificity plain = .ofClasses 1 ∧
      repeatedClass.specificity plain = .ofClasses 2 ∧
      (repeatedClass.again cautious).specificity plain < repeatedClass.specificity plain := by
  have read : ∃ ts, (readSelector ts).value = some repeatedClass :=
    ⟨repeatedClass.spell,by with_unfolding_all rfl⟩
  have one : ∀ plain, (repeatedClass.again cautious).specificity plain = .ofClasses 1 := fun _ => rfl
  have two : ∀ plain, repeatedClass.specificity plain = .ofClasses 2 := fun _ => rfl
  refine ⟨read,rfl,fun plain => ⟨one plain,two plain,?_⟩⟩
  rw [one,two]
  decide

end Cascade
