import Cascade.Proofs.Claimants
import Cascade.Proofs.NameOrder

/-! Selectors that say something: no compound is without conditions and no list without
selectors. They stay when they are optimized, and come out with every list in order. -/
namespace Cascade
open List
open Component (text again optimize)

def Increasing (ss : List Component) : Prop := ss.Pairwise fun s t => before s.text t.text = true

instance (ss : List Component) : Decidable (Increasing ss) := inferInstanceAs (Decidable (List.Pairwise ..))

mutual

def Component.Arranged : Component → Prop
  | .list ss => 1 < ss.length ∧ Increasing ss ∧ Component.AllArranged ss
  | .compound cs => Component.AllArranged cs
  | .complex _ left right => left.Arranged ∧ right.Arranged
  | .negation s | .selectorCall _ s => s.Arranged
  | _ => True

def Component.AllArranged : List Component → Prop
  | [] => True
  | c :: cs => c.Arranged ∧ Component.AllArranged cs

end

mutual

def Component.Full : Component → Prop
  | .list ss => ss ≠ [] ∧ (∀ s ∈ ss, s.isList = false) ∧ Component.AllFull ss
  | .compound cs => cs ≠ [] ∧ Component.AllFull cs
  | .complex _ left right => left.Full ∧ right.Full
  | .negation s | .selectorCall _ s => s.Full
  | .expression _ | .declaration _ => False
  | _ => True

def Component.AllFull : List Component → Prop
  | [] => True
  | c :: cs => c.Full ∧ Component.AllFull cs

end

section
variable {cs : List Component}

theorem allArranged : Component.AllArranged cs ↔ ∀ c ∈ cs, c.Arranged := by
  induction cs with
  | nil => simp [Component.AllArranged]
  | cons c cs ih => simp [Component.AllArranged,ih]

theorem allFull : Component.AllFull cs ↔ ∀ c ∈ cs, c.Full := by
  induction cs with
  | nil => simp [Component.AllFull]
  | cons c cs ih => simp [Component.AllFull,ih]

end

theorem steadyFull {c : Component} (steady : c.isSteady) : c.Full ∧ c.Arranged ∧ c.isList = false := by
  cases c with
  | expression | declaration | list | compound | complex | negation | selectorCall => cases steady
  | _ => exact ⟨trivial,trivial,rfl⟩

theorem ofSelectorsFull {ss} (full : ss ≠ [])
    (each : ∀ s ∈ ss, s.Full ∧ s.isList = false) : (Component.ofSelectors ss).Full := by
  rw [Component.ofSelectors.eq_def]
  split
  · exact (each _ mem_cons_self).1
  · exact ⟨full,fun s mem => (each s mem).2,allFull.mpr fun s mem => (each s mem).1⟩

theorem selectorsFull {s : Component} (full : s.Full) :
    s.selectors ≠ [] ∧ ∀ t ∈ s.selectors, t.Full ∧ t.isList = false := by
  cases single : s.isList with
  | false =>
    rw [selectorsSingle single]
    refine ⟨cons_ne_nil s [],fun t mem => ?_⟩
    rw [mem_singleton.mp mem]
    exact ⟨full,single⟩
  | true =>
    cases s with
    | list ss => exact ⟨full.1,fun t mem => ⟨allFull.mp full.2.2 t mem,full.2.1 t mem⟩⟩
    | _ => cases single

section
variable {aggressive : Bool} {ss : List Component}

theorem sortedIncreasing (ss) : Increasing (distinctBy text (sortSelectors ss)) := by
  have order : (distinctBy text (sortSelectors ss)).Pairwise fun s t => textAtMost s t :=
    (pairwise_mergeSort (textsTrans text) (textsTotal text) ss).sublist
      (distinctFromSublist _ _)
  have apart := pairwise_map.mp (@distinctFromNodup _ text [] (sortSelectors ss))
  refine (order.and apart).imp ?_
  rintro s t ⟨atMost,differs⟩
  rw [beforeLex]
  exact Decidable.byContradiction fun other =>
    differs (List.le_antisymm (notBefore.mp atMost) (List.not_lt.mp other))

theorem absorbCases (ss) : absorbUniversal ss = ss ∨ ∃ s ∈ ss, absorbUniversal ss = [s] := by
  rw [absorbUniversal]
  split
  · split
    · rename_i s found
      exact .inr ⟨s,mem_of_find?_eq_some found,rfl⟩
    · exact .inl rfl
  · exact .inl rfl

theorem arrangeMem {s} (mem : s ∈ arrangeSelectors aggressive ss) : s ∈ ss := by
  have source : ∀ s ∈ distinctBy text (sortSelectors ss), s ∈ ss := fun s mem =>
    mem_mergeSort.mp ((distinctFromSublist _ _).subset mem)
  rw [arrangeSelectors] at mem
  split at mem
  · rcases absorbCases (distinctBy text (sortSelectors ss)) with same | ⟨t,there,single⟩
    · exact source s (same ▸ mem)
    · rw [single,mem_singleton] at mem
      exact source s (mem ▸ there)
  · exact source s mem

theorem arrangedSelectors (full : ss ≠ []) :
    arrangeSelectors aggressive ss ≠ [] ∧ Increasing (arrangeSelectors aggressive ss) := by
  have sorted : distinctBy text (sortSelectors ss) ≠ [] := by
    intro bare
    have empty := distinctNil bare
    rw [sortSelectors,← length_eq_zero_iff,length_mergeSort,length_eq_zero_iff] at empty
    exact full empty
  rw [arrangeSelectors]
  split
  · rcases absorbCases (distinctBy text (sortSelectors ss)) with same | ⟨s,mem,single⟩
    · rw [same]
      exact ⟨sorted,sortedIncreasing ss⟩
    · rw [single]
      exact ⟨cons_ne_nil s [],pairwise_singleton ..⟩
  · exact ⟨sorted,sortedIncreasing ss⟩

end

structure Tidied (ctx : Context) (c : Component) : Prop where
  lasts : c.Lasts ctx
  full : (c.again ctx).Full
  arranged : (c.again ctx).Arranged
  single : c.isList = false → (c.again ctx).isList = false

section
variable {ctx : Context}

theorem tidiedOf {c d} (made : (c.optimize ctx).value = ⟨d,true⟩) (full : d.Full) (arranged : d.Arranged)
    (single : c.isList = false → d.isList = false) : Tidied ctx c := by
  have becomes : c.again ctx = d := by rw [again,made]
  exact ⟨by rw [Component.Lasts,made],by rwa [becomes],by rwa [becomes],by rwa [becomes]⟩

theorem steadyTidied {c} (steady : c.isSteady) : Tidied ctx c := by
  obtain ⟨full,arranged,single⟩ := steadyFull (steadyOptimized ctx steady)
  exact ⟨steadyLasts ctx steady,full,arranged,fun _ => single⟩

def compoundConditions (ctx : Context) (cs : List Component) : List Component :=
  if ctx.aggressive && 1 < (distinctBy Component.text cs).length then
    (distinctBy Component.text cs).filter fun c => c.text != universal
  else distinctBy Component.text cs

theorem conditionsMem {ctx cs c} (mem : c ∈ compoundConditions ctx cs) : c ∈ cs := by
  rw [compoundConditions] at mem
  split at mem
  · exact (distinctFromSublist _ _).subset (mem_of_mem_filter mem)
  · exact (distinctFromSublist _ _).subset mem

theorem keptConditions (ctx) {cs} (full : cs ≠ []) : compoundConditions ctx cs ≠ [] := by
  rw [compoundConditions]
  split
  · rename_i several
    -- At most one of several conditions of different texts is the universal one.
    have apart := @distinctFromNodup _ text [] cs
    have count := (Bool.and_eq_true_iff.mp several).2
    rw [← distinctBy] at apart
    cases left : distinctBy text cs with
    | nil => simp [left] at count
    | cons c rest =>
      cases rest with
      | nil => simp [left] at count
      | cons d rest =>
        rw [left] at apart
        by_cases star : c.text = universal
        · have other : d.text ≠ universal := by
            intro same
            simp [star,same] at apart
          simp [star,other]
        · simp [star]
  · exact fun bare => full (distinctNil bare)

theorem severalLength {ss : List Component} (full : ss ≠ []) (several : ∀ s, ss ≠ [s]) : 1 < ss.length := by
  match ss with
  | [] => exact absurd rfl full
  | [s] => exact absurd rfl (several s)
  | _ :: _ :: _ => simp

theorem compoundTidied {cs} (full : cs ≠ []) (each : ∀ c ∈ cs, Tidied ctx c) : Tidied ctx (.compound cs) := by
  have left := keptConditions ctx (by simpa using full : cs.map (again ctx) ≠ [])
  have made : ((Component.compound cs).optimize ctx).value =
      ⟨.compound (compoundConditions ctx (cs.map (again ctx))),true⟩ := by
    rw [optimize,Noted.valueBind,Noted.valuePure,finishCompound,
      survivorsLast fun c mem => (each c mem).lasts,← compoundConditions]
    simp [left]
  have members : ∀ c ∈ compoundConditions ctx (cs.map (again ctx)), c.Full ∧ c.Arranged := by
    intro c mem
    obtain ⟨d,there,rfl⟩ := mem_map.mp (conditionsMem mem)
    exact ⟨(each d there).full,(each d there).arranged⟩
  exact tidiedOf made ⟨left,allFull.mpr fun c mem => (members c mem).1⟩
    (allArranged.mpr fun c mem => (members c mem).2) fun _ => rfl

theorem listTidied (keeps : ctx.keepHacks) {ss} (full : ss ≠ [])
    (single : ∀ s ∈ ss, s.isList = false) (each : ∀ s ∈ ss, Tidied ctx s) : Tidied ctx (.list ss) := by
  have survive := survivorsLast fun s mem => (each s mem).lasts
  obtain ⟨left,order⟩ := @arrangedSelectors ctx.aggressive (ss.map (again ctx)) (by simpa using full)
  have made : ((Component.list ss).optimize ctx).value =
      ⟨.ofSelectors (arrangeSelectors ctx.aggressive (ss.map (again ctx))),true⟩ := by
    rw [listOutcome,survive,leftSelectors,if_pos keeps]
    split
    · rename_i bare
      exact absurd bare left
    · rfl
  have members : ∀ s ∈ arrangeSelectors ctx.aggressive (ss.map (again ctx)),
      (s.Full ∧ s.isList = false) ∧ s.Arranged := by
    intro s mem
    obtain ⟨t,there,rfl⟩ := mem_map.mp (arrangeMem mem)
    exact ⟨⟨(each t there).full,(each t there).single (single t there)⟩,(each t there).arranged⟩
  refine tidiedOf made (ofSelectorsFull left fun s mem => (members s mem).1) ?_ fun single => by cases single
  rw [Component.ofSelectors.eq_def]
  split
  · rename_i s only
    exact (members s (by rw [only]; exact mem_cons_self)).2
  · rename_i several
    exact ⟨severalLength left several,order,allArranged.mpr fun s mem => (members s mem).2⟩

end

mutual

theorem fullTidied {ctx} (keeps : ctx.keepHacks) : ∀ c : Component, c.Full → Tidied ctx c
  | .list ss,full => listTidied keeps full.1 full.2.1 (allTidied keeps ss full.2.2)
  | .compound cs,full => compoundTidied full.1 (allTidied keeps cs full.2)
  | .complex kind left right,full => by
    have l := fullTidied keeps left full.1
    have r := fullTidied keeps right full.2
    have leftKept : (left.optimize ctx).value.kept := l.lasts
    have made : ((Component.complex kind left right).optimize ctx).value =
        ⟨.complex kind (left.again ctx) (right.again ctx),true⟩ := by
      rw [optimize,Noted.valueBind,if_pos leftKept]
      exact congrArg (Outcome.mk _) r.lasts
    exact tidiedOf made ⟨l.full,r.full⟩ ⟨l.arranged,r.arranged⟩ fun _ => rfl
  | .negation s,full => by
    have inner := fullTidied keeps s full
    exact ⟨inner.lasts,inner.full,inner.arranged,fun _ => rfl⟩
  | .selectorCall _ s,full => by
    have inner := fullTidied keeps s full
    exact ⟨inner.lasts,inner.full,inner.arranged,fun _ => rfl⟩
  | .expression _,full | .declaration _,full => full.elim
  | .number _,_ | .dimension ..,_ | .quoted _,_ | .url _,_ | .ident _,_ | .hexColor _,_ | .call ..,_ | .sum ..,_
  | .product ..,_ | .id _,_ | .className _,_ | .element ..,_ | .attr ..,_ | .pseudoElement _,_ | .pseudoClass _,_
  | .pseudoCall ..,_ | .nth ..,_ | .linear ..,_ | .multiple _,_ | .conditions ..,_ | .condition ..,_ => steadyTidied rfl

theorem allTidied {ctx} (keeps : ctx.keepHacks) : ∀ cs : List Component, Component.AllFull cs → ∀ c ∈ cs, Tidied ctx c
  | [],_ => forall_mem_nil _
  | d :: ds,full => forall_mem_cons.mpr ⟨fullTidied keeps d full.1,allTidied keeps ds full.2⟩

end

end Cascade
