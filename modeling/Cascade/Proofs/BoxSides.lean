import Cascade.Proofs.Lasting

/-! The values of a box property stand for its four sides. -/
namespace Cascade
open List

/- Top, right, bottom and left. A side without a value of its own takes that of the side across, and
right and bottom take the first value if they have none. -/
def sidesOf : List Bytes → Option (Bytes × Bytes × Bytes × Bytes)
  | [a] => some (a,a,a,a)
  | [a,b] => some (a,b,a,b)
  | [a,b,c] => some (a,b,c,b)
  | [a,b,c,d] => some (a,b,c,d)
  | _ => none

def boxSides (terms : List Term) : Option (Bytes × Bytes × Bytes × Bytes) :=
  sidesOf (terms.map fun t => t.value.text)

section
variable {keys : List Bytes}

theorem sidesKnown (filled : keys ≠ []) (most : keys.length ≤ 4) : (sidesOf keys).isSome := by
  rcases keys with _ | ⟨a,_ | ⟨b,_ | ⟨c,_ | ⟨d,_ | ⟨e,keys⟩⟩⟩⟩⟩
  · exact absurd rfl filled
  · rfl
  · rfl
  · rfl
  · rfl
  · simp only [length_cons] at most
    omega

theorem sidesCollapsed (keys) : sidesOf (keys.take (boxLength keys)) = sidesOf keys := by
  fun_cases boxLength keys with
  | case10 => rw [take_length]
  | _ => grind [sidesOf]

theorem sidesCases {sides} (stand : sidesOf keys = some sides) :
    (∃ a, keys = [a] ∧ sides = (a,a,a,a)) ∨ (∃ a b, keys = [a,b] ∧ sides = (a,b,a,b)) ∨
      (∃ a b c, keys = [a,b,c] ∧ sides = (a,b,c,b)) ∨ ∃ a b c d, keys = [a,b,c,d] ∧ sides = (a,b,c,d) := by
  rw [sidesOf.eq_def] at stand
  split at stand <;> cases stand
  · exact .inl ⟨_,rfl,rfl⟩
  · exact .inr (.inl ⟨_,_,rfl,rfl⟩)
  · exact .inr (.inr (.inl ⟨_,_,_,rfl,rfl⟩))
  · exact .inr (.inr (.inr ⟨_,_,_,_,rfl,rfl⟩))

/- Values for the same sides are at least as many as are left. Where they are fewer than the values at
first, the sides that they give alike show that more can be left out. -/
theorem fewestValues {sides others} (stand : sidesOf keys = some sides)
    (same : sidesOf others = some sides) : boxLength keys ≤ others.length := by
  rcases sidesCases stand with ⟨_,rfl,rfl⟩ | ⟨_,_,rfl,rfl⟩ | ⟨_,_,_,rfl,rfl⟩ | ⟨_,_,_,_,rfl,rfl⟩
  all_goals
    rcases sidesCases same with ⟨_,rfl,alike⟩ | ⟨_,_,rfl,alike⟩ | ⟨_,_,_,rfl,alike⟩ | ⟨_,_,_,_,rfl,alike⟩
    all_goals
      cases alike
      grind [boxLength]

end

section
variable {property : Bytes} (box : boxProperties.contains property = true) {terms : List Term}
  (least : 2 ≤ terms.length) (most : terms.length ≤ 4) (spaced : isSpaced terms = true)
include box

theorem boxProperty : property ≠ [] ∧ noneProperties.contains property = false ∧
    colorlessProperties.contains property = false := by
  have apart : (boxProperties.all fun p => !p.isEmpty && !noneProperties.contains p && !colorlessProperties.contains p) =
      true := by decide +kernel
  have here := all_eq_true.mp apart property (contains_iff_mem.mp box)
  simpa [and_assoc] using here

include least most spaced

theorem boxRefined : refineTerms property terms = (collapseBox terms).map shortenName := by
  obtain ⟨named,zero,colored⟩ := boxProperty box
  have filled : terms ≠ [] := ne_nil_of_length_pos (by omega)
  have whole : (property.isEmpty || terms.isEmpty) = false := by simp [named,filled]
  have collapses : (boxProperties.contains property && 1 < terms.length && terms.length ≤ 4 && isSpaced terms) := by
    rw [box,spaced,decide_eq_true (show 1 < terms.length from least),decide_eq_true most]
    rfl
  rw [refineTerms,if_neg (by rw [whole]; exact Bool.false_ne_true)]
  dsimp only
  rw [if_pos collapses,zero,colored,if_neg Bool.false_ne_true,if_neg Bool.false_ne_true]

/- The value of a box property is cut down to the first of its terms that stand for the same sides, and
no list of fewer terms does. -/
theorem boxCollapsed : refineTerms property terms = (collapseBox terms).map shortenName ∧ collapseBox terms <+: terms ∧
    ∃ sides, boxSides terms = some sides ∧ boxSides (collapseBox terms) = some sides ∧
      ∀ others : List Term, boxSides others = some sides → (collapseBox terms).length ≤ others.length := by
  refine ⟨boxRefined box least most spaced,collapseBoxPrefix terms,?_⟩
  have known : (boxSides terms).isSome = true := by
    refine sidesKnown ?_ (by rwa [length_map])
    exact ne_nil_of_length_pos (by rw [length_map]; omega)
  obtain ⟨sides,whole⟩ := Option.isSome_iff_exists.mp known
  refine ⟨sides,whole,?_,fun others same => ?_⟩
  · rw [boxSides,collapseBox,map_take,sidesCollapsed]
    exact whole
  · have fewest := fewestValues whole same
    rw [length_map] at fewest
    rw [collapseBox,length_take]
    exact Nat.le_trans (Nat.min_le_left ..) fewest

end

def pairedSides : List Term :=
  [⟨0,.hexColor (ascii "#123")⟩,⟨0,.hexColor (ascii "#456")⟩,⟨0,.hexColor (ascii "#123")⟩,⟨0,.hexColor (ascii "#456")⟩]

theorem pairedSidesCollapsed : boxProperties.contains (ascii "border-color") = true ∧ isSpaced pairedSides = true ∧
    refineTerms (ascii "border-color") pairedSides = pairedSides.take 2 ∧
    ∀ others : List Term, boxSides others = boxSides pairedSides → 2 ≤ others.length := by
  obtain ⟨refined,_,sides,whole,_,fewest⟩ := @boxCollapsed (ascii "border-color") rfl pairedSides (by decide) (by decide) rfl
  refine ⟨rfl,rfl,refined.trans rfl,fun others same => ?_⟩
  exact fewest others (same.trans whole)

end Cascade
