import Cascade.Browser.Support

/-! Raising the minimums only takes away from what is needed. All cutoffs are whole versions, so that comparing with one
never looks into the parts of a pre-release. -/
namespace Cascade

section
variable {a b c : Nat} {p q r : Ordering} {v w : Version} {P : Ordering → Prop} (more : P .gt) (less : ¬P .lt)
include more less

theorem thenWant : P ((Ord.compare a b).then p) ↔ b < a ∨ a = b ∧ P p := by
  rw [← Nat.compare_eq_gt,← Nat.compare_eq_eq]
  cases Ord.compare a b <;> simp [more,less]

theorem laterThen (inner : p ≠ .lt → P q → P r) (upper : (Ord.compare a b).then p ≠ .lt)
    (lower : P ((Ord.compare b c).then q)) : P ((Ord.compare a c).then r) := by
  rw [thenWant more less] at lower ⊢
  rcases (thenWant (P := (· ≠ .lt)) (by decide) (by decide)).mp upper with above | ⟨rfl,same⟩ <;>
    rcases lower with below | ⟨rfl,equal⟩
  · exact .inl (Nat.lt_trans below above)
  · exact .inl above
  · exact .inl below
  · exact .inr ⟨rfl,inner same equal⟩

omit more in
theorem fullVersion {pre} (wanted : P (comparePre pre [])) : pre = [] := by
  cases pre with
  | nil => rfl
  | cons part pre => exact absurd wanted less

theorem laterWant {n} (later : w.compare v ≠ .lt) (wanted : P (v.compare (.whole n))) : P (w.compare (.whole n)) := by
  refine laterThen more less (laterThen more less (laterThen more less fun upper lower => ?_)) later wanted
  -- A version that reaches a whole one with the same numbers is no pre-release, and what is not older is none either.
  have old : v.pre = [] := fullVersion less lower
  rw [old] at upper
  have new : w.pre = [] := fullVersion (P := (· ≠ .lt)) (by decide) upper
  rwa [old,← new] at lower

end

namespace Minimums

/-- Every browser with a minimum in `m` has one in `n` that is at least as new. -/
def Raised (m n : Minimums) : Prop := ∀ b v, m.get b = some v → ∃ w, n.get b = some w ∧ w.compare v ≠ .lt

section
variable {m n : Minimums} {b : Browser} {version : Nat}

theorem reachesIff : m.reaches b version ↔ ∃ v, m.get b = some v ∧ v.compare (.whole version) ≠ .lt := by
  rw [reaches]
  cases m.get b <;> simp

theorem aboveIff : m.isAbove b version ↔ ∃ v, m.get b = some v ∧ v.compare (.whole version) = .gt := by
  rw [isAbove]
  cases m.get b <;> simp

theorem neededDeclaration {name} : m.needsDeclaration name ↔ ¬(name.head? = some 95 ∧ m.isAbove .ie 6) ∧
    ∀ cutoffs, declarationCutoffs.lookup name = some cutoffs → m.outgrows cutoffs ≠ true := by
  have hacked : (name.head? == some 95 && m.isAbove .ie 6) ↔ name.head? = some 95 ∧ m.isAbove .ie 6 := by
    rw [Bool.and_eq_true,beq_iff_eq]
  rw [needsDeclaration,← hacked]
  split
  · rename_i hack
    simp [hack]
  · rename_i plain
    cases declarationCutoffs.lookup name <;> simp [plain]

theorem neededAnimation {vendor} : m.needsAnimation vendor ↔ vendor ≠ ascii "-ms-" ∧
    ∀ cutoffs, animationCutoffs.lookup vendor = some cutoffs → m.outgrows cutoffs ≠ true := by
  rw [needsAnimation]
  by_cases never : vendor = ascii "-ms-"
  · simp [never]
  · cases animationCutoffs.lookup vendor <;> simp [never]

theorem neededFilters : m.needsFilters ↔ m.isAbove .ie 9 ≠ true := by
  rw [needsFilters,Bool.not_eq_true',← Bool.not_eq_true]

variable (raised : m.Raised n)
include raised

theorem raisedAbove (above : m.isAbove b version) : n.isAbove b version := by
  obtain ⟨v,found,more⟩ := aboveIff.mp above
  obtain ⟨w,other,later⟩ := raised b v found
  exact aboveIff.mpr ⟨w,other,laterWant (P := (· = .gt)) rfl (by decide) later more⟩

theorem raisedOutgrows {cutoffs} (outgrown : m.outgrows cutoffs) : n.outgrows cutoffs := by
  obtain ⟨c,mem,reached⟩ := List.any_eq_true.mp outgrown
  obtain ⟨v,found,least⟩ := reachesIff.mp reached
  obtain ⟨w,other,later⟩ := raised c.1 v found
  exact List.any_eq_true.mpr ⟨c,mem,reachesIff.mpr ⟨w,other,laterWant (P := (· ≠ .lt)) (by decide) (by decide) later least⟩⟩

theorem raisedNeeds (name vendor : Bytes) : (n.needsDeclaration name = true → m.needsDeclaration name = true) ∧
    (n.needsAnimation vendor = true → m.needsAnimation vendor = true) ∧
    (n.needsFilters = true → m.needsFilters = true) := by
  rw [neededDeclaration,neededDeclaration,neededAnimation,neededAnimation,neededFilters,neededFilters]
  refine ⟨fun ⟨plain,table⟩ => ⟨?_,?_⟩,fun ⟨shipped,table⟩ => ⟨shipped,?_⟩,?_⟩
  · exact fun ⟨hack,above⟩ => plain ⟨hack,raisedAbove raised above⟩
  · exact fun cutoffs found outgrown => table cutoffs found (raisedOutgrows raised outgrown)
  · exact fun cutoffs found outgrown => table cutoffs found (raisedOutgrows raised outgrown)
  · exact fun below above => below (raisedAbove raised above)

end

theorem patchRaises :
    let old : Minimums := { ie := some (.whole 6) }
    let new : Minimums := { firefox := some (.whole 16),ie := some ⟨ascii "6.0.1-rc.1",6,0,1,[ascii "rc",ascii "1"]⟩ }
    old.Raised new ∧ new.needsDeclaration (ascii "_color") = false ∧ new.needsAnimation (ascii "-moz-") = false ∧
      old.needsAnimation (ascii "-o-") = true ∧ old.needsFilters = true := by
  intro old new
  have raised : old.Raised new := by
    rintro (_ | _ | _ | _) v found
    · cases found
    · cases found
    · cases found
      exact ⟨_,rfl,by decide⟩
    · cases found
  obtain ⟨_,animation,filters⟩ := raisedNeeds raised (ascii "_color") (ascii "-o-")
  exact ⟨raised,rfl,rfl,animation rfl,filters rfl⟩

end Minimums

end Cascade
