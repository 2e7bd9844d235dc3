import Cascade.Proofs.StopVoices

/-! Longhands that go because a shorthand is declared behind them, whether or not browsers may ignore its value. -/
namespace Cascade
open List Declaration

def Goes (d : Declaration) (after : List Declaration) : Prop :=
  (withoutOverridden (d :: after)).1 = (withoutOverridden after).1

/- The last declaration that is left of a shorthand, as important as a longhand before it. -/
structure Outdoes (e d : Declaration) (after : List Declaration) : Prop where
  last : lastOf e.key (withoutOverridden after).1 = some e
  short : e.key ∈ shorthandsOf d.key
  strong : d.isImportant ≤ e.isImportant

section
variable {p : Bytes} {d : Declaration} {ds : List Declaration}

theorem lastOfCons (d ds) : lastOf p (d :: ds) = (lastOf p ds).or (if d.key == p then some d else none) := by
  rw [← singleton_append,lastOfAppend]
  cases same : d.key == p <;> simp [lastOf,same]

theorem lastOfKey (found : lastOf p ds = some d) : d ∈ ds ∧ d.key = p := by
  rw [lastOf] at found
  exact ⟨mem_reverse.mp (mem_of_find?_eq_some found),by simpa using find?_some found⟩

theorem declaredLast (p ds) :
    (withoutOverridden ds).2.lookup p = (lastOf p (withoutOverridden ds).1).map isImportant := by
  induction ds with
  | nil => rfl
  | cons d ds ih =>
    rw [withoutOverridden]
    split
    · rename_i seen
      rw [lastOfCons]
      cases same : d.key == p with
      | false => simpa using ih
      | true =>
        rw [beq_iff_eq.mp same] at seen
        rw [ih] at seen ⊢
        obtain ⟨e,found⟩ := Option.isSome_iff_exists.mp (by simpa using seen)
        rw [found]
        rfl
    · rename_i fresh
      split
      · exact ih
      rw [lastOfCons,lookup_cons]
      cases same : d.key == p with
      | false =>
        have other : (p == d.key) = false := beq_eq_false_iff_ne.mpr (beq_eq_false_iff_ne.mp same).symm
        simpa [other] using ih
      | true =>
        have name : p = d.key := (beq_iff_eq.mp same).symm
        have bare : lastOf p (withoutOverridden ds).1 = none := by
          rw [← name,ih] at fresh
          simpa using fresh
        rw [bare,name]
        simp

end

section
variable {d : Declaration} {after : List Declaration}

theorem overriddenIff : isOverridden (withoutOverridden after).2 d ↔ ∃ e, Outdoes e d after := by
  rw [isOverridden,any_eq_true]
  constructor
  · rintro ⟨short,mem,hidden⟩
    rw [declaredLast] at hidden
    cases found : lastOf short (withoutOverridden after).1 with
    | none => simp [found] at hidden
    | some e =>
      obtain ⟨_,rfl⟩ := lastOfKey found
      refine ⟨e,found,mem,?_⟩
      cases h : d.isImportant <;> simp_all
  · rintro ⟨e,found,mem,strong⟩
    refine ⟨e.key,mem,?_⟩
    rw [declaredLast,found]
    cases h : d.isImportant with
    | false => exact Bool.or_true _
    | true =>
      rw [h] at strong
      simp [Bool.eq_true_of_true_le strong]

theorem goesIff : Goes d after ↔ (∀ e ∈ (withoutOverridden after).1, e.key ≠ d.key) ∧ ∃ e, Outdoes e d after := by
  have longer : ∀ ds : List Declaration, d :: ds ≠ ds := fun ds same => by
    simpa using congrArg List.length same
  rw [Goes,withoutOverridden,declaredLast,← overriddenIff,← lastOfNone]
  split
  · rename_i seen
    refine ⟨fun same => absurd same (longer _),fun rule => ?_⟩
    rw [rule.1] at seen
    cases seen
  rename_i fresh
  split
  · rename_i hidden
    exact ⟨fun _ => ⟨by simpa using fresh,hidden⟩,fun _ => rfl⟩
  · rename_i stays
    exact ⟨fun same => absurd same (longer _),fun rule => absurd rule.2 stays⟩

theorem prunedNames {f} (keeps : ∀ x, (f x).key = x.key ∧ (f x).isImportant = x.isImportant) (ds) :
    withoutOverridden (ds.map f) = ((withoutOverridden ds).1.map f,(withoutOverridden ds).2) := by
  induction ds with
  | nil => rfl
  | cons d ds ih =>
    have alike : isOverridden (withoutOverridden ds).2 (f d) = isOverridden (withoutOverridden ds).2 d := by
      simp only [isOverridden,keeps d]
    simp only [map_cons,withoutOverridden,ih,alike,keeps d]
    split
    · rfl
    · split <;> rfl

theorem goesNames {f} (keeps : ∀ x, (f x).key = x.key ∧ (f x).isImportant = x.isImportant) :
    Goes (f d) (after.map f) ↔ Goes d after := by
  have size : ∀ d after, Goes d after ↔
      (withoutOverridden (d :: after)).1.length = (withoutOverridden after).1.length := by
    intro d after
    refine ⟨congrArg List.length,fun same => ?_⟩
    have shorter : (withoutOverridden after).1.Sublist (withoutOverridden (d :: after)).1 := by
      rcases prunedStep d after with stays | ⟨_,goes⟩
      · exact stays ▸ sublist_cons_self ..
      · rw [goes]
    exact (shorter.eq_of_length same.symm).symm
  rw [size,size,← map_cons,prunedNames keeps,prunedNames keeps,length_map,length_map]

end

section
variable {before after : List Declaration}

theorem prunedSuffix (before after) :
    ∃ front, (withoutOverridden (before ++ after)).1 = front ++ (withoutOverridden after).1 := by
  induction before with
  | nil => exact ⟨[],rfl⟩
  | cons d ds ih =>
    obtain ⟨front,same⟩ := ih
    rcases prunedStep d (ds ++ after) with stays | ⟨_,goes⟩
    · exact ⟨d :: front,stays.trans (congrArg (d :: ·) same)⟩
    · exact ⟨front,goes.trans same⟩

theorem lastOfUnrepeated {ds} (distinct : Distinct ds) {e}
    (last : lastOf e.key ds = some e) : e ∈ lastBy text ds := by
  induction ds with
  | nil => cases last
  | cons d ds ih =>
    have tail : Distinct ds := fun a ha b hb =>
      distinct a (mem_cons_of_mem d ha) b (mem_cons_of_mem d hb)
    rw [lastOfCons] at last
    rw [lastBy]
    cases found : lastOf e.key ds with
    | some c =>
      rw [found] at last
      have later := ih tail (found.trans last)
      split
      · exact later
      · exact mem_cons_of_mem d later
    | none =>
      rw [found] at last
      have same : d = e := by
        cases named : d.key == e.key <;> simp_all
      subst same
      -- A copy behind would have the same name, and there is none.
      rw [if_neg]
      · exact mem_cons_self
      · intro again
        obtain ⟨c,later,text⟩ := mem_map.mp (contains_iff_mem.mp again)
        have name := (distinct c (mem_cons_of_mem d later) d mem_cons_self text).1
        exact lastOfNone.mp found c later name

end

section
variable {d : Declaration} {after : List Declaration}

theorem prunedGoes (goes : Goes d after) : (withoutOverridden (d :: after)).1 = (withoutOverridden after).1 := goes

theorem prunedStays (stays : ¬Goes d after) : (withoutOverridden (d :: after)).1 = d :: (withoutOverridden after).1 :=
  (prunedStep d after).resolve_right fun both => stays both.2

end

/- A longhand goes exactly if it is not declared again and a shorthand behind it outdoes it. Each shorthand that does is
left in the block; a change of values alone never changes what goes. -/
theorem longhandGoesForShorthand (ctx : Context) (block : List Declaration) {before after : List Declaration}
    {d : Declaration} (split : (optimizeAll ctx block).value = before ++ d :: after) :
    (Goes d after ↔ (∀ e ∈ (withoutOverridden after).1, e.key ≠ d.key) ∧ ∃ e, Outdoes e d after) ∧
    (∀ e, Outdoes e d after → e ∈ after ∧
      (∃ f ∈ (optimizeDeclarations ctx block).value, f.text = e.text) ∧
      (Distinct (optimizeAll ctx block).value → e ∈ (optimizeDeclarations ctx block).value)) ∧
    (Goes d after → (∀ e, Outdoes e d after → e.overridesFallbacks = true) →
      ∃ e ∈ after, e.key ∈ shorthandsOf d.key ∧ e.overridesFallbacks = true ∧ d.isImportant ≤ e.isImportant ∧
        ∃ f ∈ (optimizeDeclarations ctx block).value, f.text = e.text) ∧
    ∀ f : Declaration → Declaration, (∀ x, (f x).key = x.key ∧ (f x).isImportant = x.isImportant) →
      (Goes (f d) (after.map f) ↔ Goes d after) := by
  have result : (optimizeDeclarations ctx block).value =
      sortDeclarations (lastBy text (withoutOverridden (before ++ d :: after)).1) := by
    rw [optimizeDeclarations,Noted.valueBind,Noted.valuePure,split]
    rfl
  obtain ⟨front,kept⟩ := prunedSuffix (before ++ [d]) after
  rw [append_assoc,singleton_append] at kept
  have stays : ∀ e, Outdoes e d after → e ∈ after ∧
      (∃ f ∈ (optimizeDeclarations ctx block).value, f.text = e.text) ∧
      (Distinct (optimizeAll ctx block).value → e ∈ (optimizeDeclarations ctx block).value) := by
    intro e outdoes
    have there := (lastOfKey outdoes.last).1
    have among : e ∈ (withoutOverridden (before ++ d :: after)).1 := by
      rw [kept]
      exact mem_append_right front there
    refine ⟨(withoutOverriddenSublist after).subset there,?_,fun distinct => ?_⟩
    · obtain ⟨f,left,text⟩ := lastByCovers text among
      exact ⟨f,by rw [result,sortDeclarations,mem_mergeSort]; exact left,text⟩
    · rw [result,sortDeclarations,mem_mergeSort]
      rw [split] at distinct
      refine lastOfUnrepeated (fun a ha b hb => ?_) (by rw [kept,lastOfAppend,outdoes.last]; rfl)
      have sub := (withoutOverriddenSublist (before ++ d :: after)).subset
      exact distinct a (sub ha) b (sub hb)
  refine ⟨goesIff,stays,fun goes plain => ?_,fun f keeps => goesNames keeps⟩
  obtain ⟨e,outdoes⟩ := (goesIff.mp goes).2
  exact ⟨e,(stays e outdoes).1,outdoes.short,plain e outdoes,outdoes.strong,(stays e outdoes).2.1⟩

theorem animationRests (word) : ∀ name ∈ [ascii "animation-name",ascii "animation"],
    ((property name [⟨0,.ident word⟩] false false).optimize cautious).value =
      (.property name [⟨0,.ident word⟩] false false,true) := by
  simp only [forall_mem_cons]
  exact ⟨valueRests rfl rfl (cons_ne_nil _ _),valueRests rfl rfl (cons_ne_nil _ _),forall_mem_nil _⟩

def animationName : Declaration := wordDeclaration "animation-name" "spin"

def nameBeforeAnimation (word : String) : List Declaration := [animationName,wordDeclaration "animation" word]

theorem nameBeforeAnimationValue (word) : (optimizeAll cautious (nameBeforeAnimation word)).value =
    [] ++ animationName :: [wordDeclaration "animation" word] := by
  have rests := fun word => animationRests word
  simp only [forall_mem_cons] at rests
  exact optimizeBoth (rests (ascii "spin")).1 (rests (ascii word)).2.1

theorem nameGoes (word) : Goes animationName [wordDeclaration "animation" word] := by
  have free : isOverridden [] (wordDeclaration "animation" word) = false := by simp [isOverridden]
  have alone : (withoutOverridden [wordDeclaration "animation" word]).1 = [wordDeclaration "animation" word] := by
    simp [withoutOverridden,free]
  refine goesIff.mpr ⟨?_,wordDeclaration "animation" word,?_,?_,Bool.false_le _⟩
  · rw [alone]
    simp only [forall_mem_cons]
    exact ⟨show ascii "animation" ≠ ascii "animation-name" by decide,forall_mem_nil _⟩
  · rw [alone,lastOfCons]
    simp [lastOf]
  · show ascii "animation" ∈ shorthandsOf (ascii "animation-name")
    decide

theorem ignoredAnimationOutdoes :
    (Goes animationName [wordDeclaration "animation" "turn"] ∧
      ∃ e ∈ [wordDeclaration "animation" "turn"], e.key ∈ shorthandsOf animationName.key ∧
        e.overridesFallbacks = true ∧ animationName.isImportant ≤ e.isImportant ∧
        ∃ f ∈ (optimizeDeclarations cautious (nameBeforeAnimation "turn")).value, f.text = e.text) ∧
    Goes animationName [wordDeclaration "animation" "-x-turn"] ∧
      ∀ e ∈ [wordDeclaration "animation" "-x-turn"], e.overridesFallbacks = false := by
  obtain ⟨_,_,safe,_⟩ := longhandGoesForShorthand cautious (nameBeforeAnimation "turn") (nameBeforeAnimationValue _)
  refine ⟨⟨nameGoes "turn",safe (nameGoes "turn") fun e outdoes => ?_⟩,nameGoes "-x-turn",fun e mem => ?_⟩
  · rw [mem_singleton.mp (lastOfKey outdoes.last).1]
    decide
  · rw [mem_singleton.mp mem]
    decide

end Cascade
