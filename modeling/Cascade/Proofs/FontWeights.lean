import Cascade.Optimizer.Terms
import Mathlib.Data.List.TakeWhile

/-! The weight of a font in the shorthand: which term is taken for it, and when that term belongs to
the name of the family. -/
namespace Cascade
open List

/- What a term of a font says about the weight: one of the two words that are rewritten, or that the
weight is given otherwise. -/
inductive WeightWord where
  | normal
  | bold
  | given
  deriving DecidableEq

def WeightWord.weight? : WeightWord → Option Float
  | .normal => some 400.0
  | .bold => some 700.0
  | .given => none

/- The height of a line, which stands behind a slash, says nothing. -/
def Term.weightWord (t : Term) : Option WeightWord :=
  if t.op == 47 then none
  else match t.value with
    | .number _ => some .given
    | .ident name =>
      if lower name = ascii "bold" then some .bold
      else if lower name = ascii "bolder" ∨ lower name = ascii "lighter" then some .given
      else if lower name = ascii "normal" then some .normal
      else none
    | _ => none

def Term.isSize (t : Term) : Bool :=
  match t.value with
  | .dimension .. => true
  | _ => false

def weightWords (terms : List Term) : List WeightWord :=
  (terms.takeWhile fun t => t.op != 44).filterMap Term.weightWord

def heardFrom : Nat → List Term → List (Nat × WeightWord)
  | _,[] => []
  | i,t :: terms =>
    if t.op == 44 then []
    else (t.weightWord.map fun word => (i,word)).toList ++ heardFrom (i + 1) terms

/- The first word that is not `normal` decides, unless `normal` has been said twice before it. -/
def judge : List (Nat × WeightWord) → WeightSearch
  | [] => .absent
  | [(i,.normal)] => .found i 400.0
  | (i,.bold) :: _ | (_,.normal) :: (i,.bold) :: _ => .found i 700.0
  | _ => .settled

/- Whether the weight is taken from the family, by what is said before the size and behind it. -/
def asksFamily : List WeightWord → List WeightWord → Bool
  | [],[.normal] | [],.bold :: _ | [],.normal :: .bold :: _ | [.normal],.bold :: _ => true
  | _,_ => false

section
variable (i : Nat) (held : Option Nat) (t : Term) (terms : List Term)

theorem findWeightStep : findWeight i held (t :: terms) =
    if t.op == 44 then findWeight i held []
    else match t.weightWord with
      | some .bold => .found i 700.0
      | some .given => .settled
      | some .normal => if held.isSome then .settled else findWeight (i + 1) (some i) terms
      | none => findWeight (i + 1) held terms := by
  obtain ⟨op,value⟩ := t
  rw [findWeight.eq_def]
  dsimp only [Term.weightWord]
  by_cases slash : op = 47
  · subst slash
    cases held <;> rfl
  simp only [beq_iff_eq,if_neg slash]
  by_cases comma : op = 44
  · rw [if_pos comma,if_pos comma]
  rw [if_neg comma,if_neg comma]
  cases value with
  | number | ident => grind
  | _ => rfl

theorem heardStep : heardFrom i (t :: terms) =
    if t.op == 44 then []
    else match t.weightWord with
      | some word => (i,word) :: heardFrom (i + 1) terms
      | none => heardFrom (i + 1) terms := by
  rw [heardFrom]
  cases t.weightWord <;> rfl

theorem heldJudged : findWeight i held terms = judge ((held.map fun place => (place,WeightWord.normal)).toList ++ heardFrom i terms) := by
  induction terms generalizing i held with
  | nil =>
    cases held <;> (rw [findWeight]; rfl)
  | cons t terms ih =>
    rw [findWeightStep,heardStep]
    split
    · cases held <;> (rw [findWeight]; rfl)
    rcases t.weightWord with _ | _ | _ | _
    · exact ih (i + 1) held
    · cases held with
      | none => exact ih (i + 1) (some i)
      | some => rfl
    · cases held <;> rfl
    · cases held <;> rfl

theorem weightJudged : findWeight i none terms = judge (heardFrom i terms) := heldJudged i none terms

end

section
variable {i p : Nat} {word : WeightWord} {terms : List Term}

theorem heardMem (heard : (p,word) ∈ heardFrom i terms) :
    ∃ n t, p = i + n ∧ terms[n]? = some t ∧ t.weightWord = some word := by
  induction terms generalizing i with
  | nil => cases heard
  | cons t terms ih =>
    have later : (p,word) ∈ heardFrom (i + 1) terms →
        ∃ n u, p = i + n ∧ (t :: terms)[n]? = some u ∧ u.weightWord = some word := by
      intro heard
      obtain ⟨n,u,place,there,tells⟩ := ih heard
      exact ⟨n + 1,u,by omega,there,tells⟩
    rw [heardStep] at heard
    split at heard
    · cases heard
    split at heard
    · rename_i tells
      rcases mem_cons.mp heard with here | heard
      · cases here
        exact ⟨0,t,rfl,rfl,tells⟩
      · exact later heard
    · exact later heard

theorem heardWords (i terms) : (heardFrom i terms).map Prod.snd = weightWords terms := by
  induction terms generalizing i with
  | nil => rfl
  | cons t terms ih =>
    rw [heardStep,weightWords,takeWhile_cons]
    by_cases comma : t.op = 44
    · simp [comma]
    simp only [beq_iff_eq,comma,bne_iff_ne,ne_eq,not_false_eq_true,if_true,if_false,filterMap_cons]
    cases t.weightWord with
    | none => exact ih (i + 1)
    | some word => exact congrArg (word :: ·) (ih (i + 1))

theorem heardPlaces {h} (heard : h ∈ heardFrom i terms) : i ≤ h.1 ∧ h.1 < i + terms.length := by
  obtain ⟨n,t,place,there,_⟩ := heardMem heard
  obtain ⟨inside,_⟩ := List.getElem?_eq_some_iff.mp there
  omega

theorem silentWords {t} (plain : ∀ u ∈ terms ++ [t], u.op ≠ 44) (silent : t.weightWord = none) :
    weightWords (terms ++ [t]) = weightWords terms := by
  have whole : ∀ us : List Term, (∀ u ∈ us, u.op ≠ 44) → weightWords us = us.filterMap Term.weightWord := by
    intro us plain
    rw [weightWords,takeWhile_eq_self_iff.mpr fun u mem => bne_iff_ne.mpr (plain u mem)]
  rw [whole _ plain,whole _ fun u mem => plain u (mem_append_left _ mem),filterMap_append]
  simp [silent]

theorem heardAppend (i front back) : heardFrom i (front ++ back) = heardFrom i front ++
    if ∀ t ∈ front, t.op ≠ 44 then heardFrom (i + front.length) back else [] := by
  induction front generalizing i with
  | nil => simp [heardFrom]
  | cons t front ih =>
    rw [cons_append,heardStep,heardStep]
    by_cases comma : t.op = 44
    · simp [comma]
    · have next : i + 1 + front.length = i + (t :: front).length := by simp only [length_cons]; omega
      simp only [beq_iff_eq,comma,if_false,forall_mem_cons,ne_eq,not_false_eq_true,true_and,ih,next]
      cases t.weightWord <;> rfl

end

section
variable {hs gs : List (Nat × WeightWord)}

theorem judgeFound {p w} (found : judge hs = .found p w) : ∃ word, (p,word) ∈ hs ∧ word.weight? = some w := by
  rw [judge.eq_def] at found
  split at found <;> cases found
  · exact ⟨.normal,mem_cons_self,rfl⟩
  · exact ⟨.bold,mem_cons_self,rfl⟩
  · exact ⟨.bold,mem_cons_of_mem _ mem_cons_self,rfl⟩

theorem judgeBehind {k} (here : ∀ h ∈ hs, h.1 < k) (behind : ∀ g ∈ gs, k ≤ g.1) :
    (∃ p w, judge (hs ++ gs) = .found p w ∧ k ≤ p) ↔ asksFamily (hs.map Prod.snd) (gs.map Prod.snd) := by
  rcases hs with _ | ⟨⟨p,_ | _ | _⟩,hs⟩
  · rcases gs with _ | ⟨⟨p,_ | _ | _⟩,_ | ⟨⟨q,_ | _ | _⟩,gs⟩⟩
    all_goals simp_all [judge,asksFamily]
  · -- one `normal` before the place leaves it to a `bold` behind it
    rcases hs with _ | ⟨⟨q,_ | _ | _⟩,hs⟩
    · rcases gs with _ | ⟨⟨q,_ | _ | _⟩,gs⟩
      all_goals simp_all [judge,asksFamily]
    all_goals simp_all [judge,asksFamily]
  all_goals simp_all [judge,asksFamily]

theorem asksNone (words) : asksFamily words [] = false := by
  rcases words with _ | ⟨_ | _ | _,_ | _⟩ <;> rfl

theorem cutAsked {terms n} (inside : n ≤ terms.length) :
    (∃ p w, judge (heardFrom 0 terms) = .found p w ∧ n ≤ p) ↔ (∀ t ∈ terms.take n, t.op ≠ 44) ∧
      asksFamily (weightWords (terms.take n)) (weightWords (terms.drop n)) := by
  have long : (terms.take n).length = n := length_take_of_le inside
  have parts := heardAppend 0 (terms.take n) (terms.drop n)
  rw [take_append_drop,long,Nat.zero_add] at parts
  have before : ∀ h ∈ heardFrom 0 (terms.take n), h.1 < n := by
    intro h heard
    have := heardPlaces heard
    omega
  rw [parts]
  by_cases plain : ∀ t ∈ terms.take n, t.op ≠ 44
  · rw [if_pos plain,judgeBehind before fun g heard => (heardPlaces heard).1,heardWords,heardWords]
    exact ⟨fun asks => ⟨plain,asks⟩,And.right⟩
  · rw [if_neg plain,judgeBehind before (forall_mem_nil _),map_nil,asksNone]
    exact ⟨nofun,fun asks => absurd asks.1 plain⟩

end

def ChangesAt (property : Bytes) (terms : List Term) (place : Nat) : Prop :=
  (refineTerms property terms)[place]? ≠ terms[place]?

def Term.Reweighted (t u : Term) : Prop := ∃ name, t.value = .ident name ∧ u.op = t.op ∧
  (lower name = ascii "bold" ∧ u.value = .number 700.0 ∨ lower name = ascii "normal" ∧ u.value = .number 400.0)

section
variable {t : Term} {terms : List Term}

theorem wordReweighted {word w} (tells : t.weightWord = some word) (weighs : word.weight? = some w) :
    t.Reweighted ⟨t.op,.number w⟩ := by
  cases word with
  | normal =>
    obtain ⟨name,value,named⟩ : ∃ name, t.value = .ident name ∧ lower name = ascii "normal" := by grind [Term.weightWord]
    cases weighs
    exact ⟨name,value,rfl,.inr ⟨named,rfl⟩⟩
  | bold =>
    obtain ⟨name,value,named⟩ : ∃ name, t.value = .ident name ∧ lower name = ascii "bold" := by grind [Term.weightWord]
    cases weighs
    exact ⟨name,value,rfl,.inl ⟨named,rfl⟩⟩
  | given => cases weighs

theorem fontRefined (filled : terms ≠ []) : refineTerms (ascii "font") terms = optimizeFont terms := by
  have plain : ascii "font" ∉ boxProperties ∧ ascii "font" ∉ noneProperties ∧ ascii "font" ∈ colorlessProperties ∧
      ascii "font" ≠ ascii "font-weight" ∧ ascii "font" ≠ [] := by decide
  obtain ⟨box,zero,colorless,other,named⟩ := plain
  simp [refineTerms,named,filled,box,other,zero,colorless]

theorem fontReweighted {p w} (found : findWeight 0 none terms = .found p w) :
    ∃ t u, terms[p]? = some t ∧ (optimizeFont terms)[p]? = some u ∧ t.Reweighted u := by
  obtain ⟨word,heard,weighs⟩ := judgeFound ((weightJudged 0 terms).symm.trans found)
  obtain ⟨n,t,place,there,tells⟩ := heardMem heard
  rw [Nat.zero_add] at place
  subst place
  refine ⟨t,⟨t.op,.number w⟩,there,?_,wordReweighted tells weighs⟩
  rw [optimizeFont,found]
  dsimp only
  rw [getElem?_modify_eq,there]
  rfl

theorem fontChanges (filled : terms ≠ []) (p) :
    ChangesAt (ascii "font") terms p ↔ ∃ w, judge (heardFrom 0 terms) = .found p w := by
  rw [ChangesAt,fontRefined filled,← weightJudged]
  constructor
  · intro changes
    rw [optimizeFont] at changes
    split at changes
    · rename_i place weight found
      by_cases same : place = p
      · exact ⟨weight,same ▸ found⟩
      · exact absurd (by simp [same]) changes
    · exact absurd rfl changes
  · rintro ⟨w,found⟩ same
    obtain ⟨t,u,there,made,name,word,_,number⟩ := fontReweighted found
    rw [same,there] at made
    cases made
    rcases number with ⟨_,number⟩ | ⟨_,number⟩ <;> exact absurd (word.symm.trans number) nofun

end

/- Of a font with a size at most one term changes, a word for the weight. It stands behind the size exactly if no comma
stands before and the words before the size leave the question to the first name of the family. -/
theorem fontFamilyAsked {terms : List Term} {k : Nat} (size : terms.findIdx? Term.isSize = some k) :
    (∀ p, ChangesAt (ascii "font") terms p →
      ∃ t u, terms[p]? = some t ∧ (refineTerms (ascii "font") terms)[p]? = some u ∧ Term.Reweighted t u) ∧
    (∀ p q, ChangesAt (ascii "font") terms p → ChangesAt (ascii "font") terms q → p = q) ∧
    ((∃ p, k < p ∧ ChangesAt (ascii "font") terms p) ↔ (∀ t ∈ terms.take (k + 1), t.op ≠ 44) ∧
      asksFamily (weightWords (terms.take k)) (weightWords (terms.drop (k + 1))) = true) := by
  obtain ⟨inside,sized,_⟩ := findIdx?_eq_some_iff_getElem.mp size
  have filled : terms ≠ [] := ne_nil_of_length_pos (by omega)
  refine ⟨fun p changes => ?_,fun p q one other => ?_,?_⟩
  · obtain ⟨w,found⟩ := (fontChanges filled p).mp changes
    rw [fontRefined filled]
    exact fontReweighted ((weightJudged 0 terms).trans found)
  · obtain ⟨v,found⟩ := (fontChanges filled p).mp one
    obtain ⟨w,again⟩ := (fontChanges filled q).mp other
    exact (WeightSearch.found.inj (found.symm.trans again)).1
  · have cut : terms.take (k + 1) = terms.take k ++ [terms[k]] := take_succ_eq_append_getElem inside
    have judged : (∃ p, k < p ∧ ChangesAt (ascii "font") terms p) ↔
        ∃ p w, judge (heardFrom 0 terms) = .found p w ∧ k + 1 ≤ p := by
      simp only [fontChanges filled]
      exact ⟨fun ⟨p,behind,w,found⟩ => ⟨p,w,found,behind⟩,fun ⟨p,w,found,behind⟩ => ⟨p,behind,w,found⟩⟩
    rw [judged,cutAsked inside]
    refine and_congr_right fun plain => ?_
    rw [cut,silentWords (cut ▸ plain) (by grind [Term.weightWord,Term.isSize])]

def boldFace : List Term := [⟨0,.dimension 10.0 (ascii "px")⟩,⟨0,.ident (ascii "Aharoni")⟩,⟨0,.ident (ascii "Bold")⟩]

def boldFont : List Term :=
  [⟨0,.ident (ascii "bold")⟩,⟨0,.dimension 10.0 (ascii "px")⟩,⟨0,.ident (ascii "Aharoni")⟩,⟨0,.ident (ascii "Bold")⟩]

theorem boldFaceAsked : (boldFace.findIdx? Term.isSize = some 0 ∧ ∃ p, 0 < p ∧ ChangesAt (ascii "font") boldFace p) ∧
    boldFont.findIdx? Term.isSize = some 1 ∧ ∀ p, 1 < p → ¬ChangesAt (ascii "font") boldFont p := by
  refine ⟨⟨rfl,?_⟩,rfl,fun p behind changes => ?_⟩
  · exact (fontFamilyAsked (show boldFace.findIdx? Term.isSize = some 0 from rfl)).2.2.mpr (by decide)
  · have asked := (fontFamilyAsked (show boldFont.findIdx? Term.isSize = some 1 from rfl)).2.2.mp ⟨p,behind,changes⟩
    exact absurd asked.2 (by decide)

end Cascade
