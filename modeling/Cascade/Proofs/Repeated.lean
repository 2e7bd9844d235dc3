import Cascade.Optimizer.Rulesets
import Cascade.Proofs.Strongest

/-! Lists freed of repetitions, of which the first or the last stays. Where the last one stays,
whatever an element takes from a list of rules it also takes from what is left of it. -/
namespace Cascade
open List

variable {α : Type} {key : α → Bytes}

theorem distinctFromSublist (seen as) : (distinctFrom key seen as).Sublist as := by
  fun_induction distinctFrom key seen as with
  | case1 => exact .refl _
  | case2 _ a _ _ ih => exact ih.cons a
  | case3 _ a _ _ ih => exact ih.cons_cons a

theorem distinctFromCovers (key : α → Bytes) (seen) {as a} (mem : a ∈ as) :
    key a ∈ seen ∨ ∃ b ∈ distinctFrom key seen as, key b = key a := by
  fun_induction distinctFrom key seen as with
  | case1 => cases mem
  | case2 seen c as known ih =>
    rcases mem_cons.mp mem with rfl | old
    · exact .inl (contains_iff_mem.mp known)
    · exact ih old
  | case3 seen c as _ ih =>
    rcases mem_cons.mp mem with rfl | old
    · exact .inr ⟨a,mem_cons_self,rfl⟩
    rcases ih old with known | ⟨b,stays,same⟩
    · rcases mem_cons.mp known with same | before
      · exact .inr ⟨c,mem_cons_self,same.symm⟩
      · exact .inl before
    · exact .inr ⟨b,mem_cons_of_mem _ stays,same⟩

theorem distinctFromFresh {seen as b} (mem : b ∈ distinctFrom key seen as) : key b ∉ seen := by
  fun_induction distinctFrom key seen as with
  | case1 => cases mem
  | case2 _ _ _ _ ih => exact ih mem
  | case3 seen a as fresh ih =>
    rcases mem_cons.mp mem with rfl | old
    · simpa using fresh
    · exact fun known => ih old (mem_cons_of_mem _ known)

theorem distinctFromNodup (seen as) : ((distinctFrom key seen as).map key).Nodup := by
  fun_induction distinctFrom key seen as with
  | case1 => exact nodup_nil
  | case2 _ _ _ _ ih => exact ih
  | case3 seen a as _ ih =>
    rw [map_cons,nodup_cons]
    refine ⟨fun again => ?_,ih⟩
    obtain ⟨b,mem,same⟩ := mem_map.mp again
    exact distinctFromFresh mem (same ▸ mem_cons_self)

theorem distinctFromSelf {seen as} (nodup : (as.map key).Nodup)
    (fresh : ∀ a ∈ as, key a ∉ seen) : distinctFrom key seen as = as := by
  induction as generalizing seen with
  | nil => rfl
  | cons a as ih =>
    rw [map_cons,nodup_cons] at nodup
    rw [distinctFrom,if_neg (by simpa using fresh a mem_cons_self)]
    congr 1
    apply ih nodup.2
    intro b mem known
    rcases mem_cons.mp known with same | old
    · exact nodup.1 (same ▸ mem_map_of_mem mem)
    · exact fresh b (mem_cons_of_mem _ mem) old

theorem distinctTwice (as) : distinctBy key (distinctBy key as) = distinctBy key as :=
  distinctFromSelf (distinctFromNodup [] as) fun _ _ => not_mem_nil

theorem distinctNil {as} (h : distinctBy key as = []) : as = [] := by
  rw [distinctBy] at h
  refine eq_nil_iff_forall_not_mem.mpr fun a mem => ?_
  rcases distinctFromCovers key [] mem with known | ⟨b,stays,_⟩
  · cases known
  · rw [h] at stays
    cases stays

theorem distinctMem {as} (apart : ∀ a ∈ as, ∀ b ∈ as, key a = key b → a = b) {b} : b ∈ distinctBy key as ↔ b ∈ as := by
  refine ⟨fun mem => (distinctFromSublist _ _).subset mem,fun mem => ?_⟩
  rcases distinctFromCovers key [] mem with known | ⟨c,stays,same⟩
  · cases known
  · rwa [← apart c ((distinctFromSublist _ _).subset stays) b mem same]

theorem distinctTexts {as} (text) : text ∈ (distinctBy key as).map key ↔ text ∈ as.map key := by
  constructor
  · exact fun mem => ((distinctFromSublist [] as).map key).subset mem
  · intro mem
    obtain ⟨a,there,rfl⟩ := mem_map.mp mem
    rcases distinctFromCovers key [] there with known | ⟨b,stays,same⟩
    · cases known
    · exact mem_map.mpr ⟨b,stays,same⟩

def FirstBefore (texts : List Bytes) (a b : Bytes) : Prop := texts.idxOf a < texts.idxOf b

def LastBefore (texts : List Bytes) (a b : Bytes) : Prop := FirstBefore texts.reverse b a

instance (texts : List Bytes) (a b : Bytes) : Decidable (FirstBefore texts a b) := inferInstanceAs (Decidable (_ < _))

instance (texts : List Bytes) (a b : Bytes) : Decidable (LastBefore texts a b) := inferInstanceAs (Decidable (_ < _))

theorem distinctOrder {seen as a b} (first : a ∉ seen) (second : b ∉ seen) :
    FirstBefore ((distinctFrom key seen as).map key) a b ↔ FirstBefore (as.map key) a b := by
  induction as generalizing seen with
  | nil => rfl
  | cons c as ih =>
    simp only [FirstBefore] at ih ⊢
    by_cases known : key c ∈ seen
    · have left : key c ≠ a := fun same => first (same ▸ known)
      have right : key c ≠ b := fun same => second (same ▸ known)
      simp [distinctFrom,known,idxOf_cons_ne _ left,idxOf_cons_ne _ right,ih first second]
    simp only [distinctFrom,contains_iff_mem,known,if_false,map_cons]
    by_cases left : key c = a
    · by_cases right : key c = b
      · simp [← left,← right]
      · simp [← left,idxOf_cons_ne _ right]
    by_cases right : key c = b
    · simp [← right]
    simp only [idxOf_cons_ne _ left,idxOf_cons_ne _ right,Nat.succ_lt_succ_iff]
    refine ih (fun known => ?_) fun known => ?_
    · exact (mem_cons.mp known).elim (fun same => left same.symm) first
    · exact (mem_cons.mp known).elim (fun same => right same.symm) second

theorem lastBySublist (as) : (lastBy key as).Sublist as := by
  fun_induction lastBy key as with
  | case1 => exact .refl _
  | case2 a _ _ ih => exact ih.cons a
  | case3 a _ _ ih => exact ih.cons_cons a

theorem lastByCovers (key : α → Bytes) {as a} (mem : a ∈ as) : ∃ b ∈ lastBy key as, key b = key a := by
  fun_induction lastBy key as generalizing a with
  | case1 => cases mem
  | case2 c as again ih =>
    rcases mem_cons.mp mem with rfl | old
    · obtain ⟨b,later,same⟩ := mem_map.mp (contains_iff_mem.mp again)
      obtain ⟨e,stays,found⟩ := ih later
      exact ⟨e,stays,found.trans same⟩
    · exact ih old
  | case3 c as _ ih =>
    rcases mem_cons.mp mem with rfl | old
    · exact ⟨a,mem_cons_self,rfl⟩
    · obtain ⟨b,stays,found⟩ := ih old
      exact ⟨b,mem_cons_of_mem _ stays,found⟩

theorem lastByNodup (key) (as : List α) : ((lastBy key as).map key).Nodup := by
  fun_induction lastBy key as with
  | case1 => exact nodup_nil
  | case2 _ _ _ ih => exact ih
  | case3 a as fresh ih =>
    rw [map_cons,nodup_cons]
    refine ⟨fun again => fresh ?_,ih⟩
    obtain ⟨b,mem,same⟩ := mem_map.mp again
    exact contains_iff_mem.mpr (same ▸ mem_map_of_mem ((lastBySublist as).subset mem))

theorem lastByThinned {ω} [LinearOrder ω] {weight : α → ω} {keep as}
    (alike : ∀ a ∈ as, ∀ b ∈ as, key a = key b → keep a = keep b ∧ weight a = weight b) :
    Thinned weight (as.filter keep) ((lastBy key as).filter keep) := by
  induction as with
  | nil => exact .nil
  | cons a as ih =>
    have tail := ih fun b hb c hc => alike b (mem_cons_of_mem _ hb) c (mem_cons_of_mem _ hc)
    cases kept : keep a with
    | false =>
      rw [filter_cons_of_neg (by simp [kept]),lastBy]
      split
      · exact tail
      · rw [filter_cons_of_neg (by simp [kept])]
        exact tail
    | true =>
      rw [filter_cons_of_pos kept,lastBy]
      split
      · rename_i again
        obtain ⟨b,later,same⟩ := mem_map.mp (contains_iff_mem.mp again)
        obtain ⟨c,stays,found⟩ := lastByCovers key later
        have mem := mem_cons_of_mem a ((lastBySublist as).subset stays)
        obtain ⟨keeps,weighs⟩ := alike a mem_cons_self c mem (found.trans same).symm
        exact .drop ⟨c,mem_filter.mpr ⟨stays,keeps ▸ kept⟩,weighs.le⟩ tail
      · rw [filter_cons_of_pos kept]
        exact .keep tail

theorem lastByOffers {γ ω} [LinearOrder ω] (weight : γ → ω) (offers : Bytes → List γ) (as) :
    Thinned weight (as.flatMap fun a => offers (key a)) ((lastBy key as).flatMap fun a => offers (key a)) := by
  induction as with
  | nil => exact .nil
  | cons a as ih =>
    rw [lastBy,flatMap_cons]
    split
    · rename_i again
      obtain ⟨b,later,same⟩ := mem_map.mp (contains_iff_mem.mp again)
      obtain ⟨c,stays,found⟩ := lastByCovers key later
      refine thinnedAppend ih fun o mem => ⟨o,?_,le_refl _⟩
      exact mem_flatMap.mpr ⟨c,stays,by rwa [found,same]⟩
    · rw [flatMap_cons]
      exact thinnedBehind _ ih

variable {ε π σ υ : Type} [LinearOrder σ]

structure Candidate (σ υ : Type) where
  important : Bool
  specificity : σ
  value : υ

def Candidate.weight (c : Candidate σ υ) : Bool ×ₗ σ := toLex (c.important,c.specificity)

def winningCandidate (offers : Bytes → List (Candidate σ υ)) (rules : List Rule) : Option (Candidate σ υ) :=
  strongest Candidate.weight (rules.flatMap fun r => offers r.text)

/- Rules freed of those repeated later on: each text is left once, in the order of the last ones, and
whatever a rule puts forward by its text, every contest has the winner it had. -/
theorem repeatedRulesApply (offers : ε → π → Bytes → List (Candidate σ υ)) (rules : List Rule) :
    (∀ x p, winningCandidate (offers x p) (withoutRepeated rules) = winningCandidate (offers x p) rules) ∧
    (withoutRepeated rules).Sublist rules ∧ ((withoutRepeated rules).map Rule.text).Nodup ∧
    ∀ text ∈ rules.map Rule.text, text ∈ (withoutRepeated rules).map Rule.text := by
  refine ⟨?_,lastBySublist rules,lastByNodup Rule.text rules,?_⟩
  · intro x p
    exact (thinnedStrongest (lastByOffers Candidate.weight (offers x p) rules)).symm
  · intro text mem
    obtain ⟨r,there,rfl⟩ := mem_map.mp mem
    obtain ⟨s,stays,same⟩ := lastByCovers Rule.text there
    exact mem_map.mpr ⟨s,stays,same⟩

end Cascade
