import Cascade.Proofs.NameEnds
import Cascade.Property.Family

/-! Properties with related names. A property interacts with its parts, with what vendors name like it, and with the
shorthands that set it. -/
namespace Cascade
open List

def isPropertyByte (b : UInt8) : Bool := isLetter b || isDigit b || b == 45 || b == 95

structure IsPropertyName (name : Bytes) : Prop where
  filled : name ≠ []
  bare : name.head? ≠ some 45
  bytes : ∀ b ∈ name, isPropertyByte b

def IsVendorMark (mark : Bytes) : Prop := ∃ letters ≠ [], (∀ b ∈ letters, isLowerLetter b) ∧ mark = 45 :: letters ++ [45]

variable {a b mark : Bytes}

theorem interactComm (a b) : propertiesInteract a b = propertiesInteract b a := by
  rw [Bool.eq_iff_iff]
  simp only [propertiesInteract,Bool.or_eq_true,beq_iff_eq]
  grind

theorem familyInteracts (same : propertyFamily a = propertyFamily b) : propertiesInteract a b := by
  simp [propertiesInteract,same]

theorem familyBare (filled : a ≠ []) (bare : a.head? ≠ some 45) : propertyFamily a =
    (familyAliases.lookup (a.takeWhile (· != 45))).getD (a.takeWhile (· != 45)) := by
  obtain ⟨c,s,rfl⟩ := exists_cons_of_ne_nil filled
  have other : c ≠ 45 := fun hyphen => bare (congrArg some hyphen)
  have custom : Declaration.isCustomName (c :: s) = false := by
    show isPrefixOf [45,45] (c :: s) = false
    simp [isPrefixOf,other.symm]
  have void : vendorMark (c :: s) = [] := by
    unfold vendorMark
    split
    · rename_i same
      exact absurd (List.cons.inj same).1 other
    · rfl
  have unmarked : withoutVendor (c :: s) = c :: s := by
    rw [withoutVendor,isVendored,void]
    rfl
  rw [propertyFamily,custom,unmarked]
  rfl

theorem partFamily (filled : a ≠ []) (bare : a.head? ≠ some 45) (part) : propertyFamily (a ++ 45 :: part) = propertyFamily a := by
  have first : (a ++ 45 :: part).head? = a.head? := by
    obtain ⟨c,s,rfl⟩ := exists_cons_of_ne_nil filled
    rfl
  rw [familyBare (append_ne_nil_of_left_ne_nil filled _) (first ▸ bare),familyBare filled bare,takeWhileStop rfl]

theorem propertyByteSingle {c} (byte : isPropertyByte c) : c < 0x80 ∧ (c != 10) := by
  simp only [isPropertyByte,isLetter,isLowerLetter,isUpperLetter,isDigit] at byte
  grind

theorem vendorFamily (vendor : IsVendorMark mark) (named : IsPropertyName a) : propertyFamily (mark ++ a) = propertyFamily a := by
  obtain ⟨letters,full,lower,rfl⟩ := vendor
  have whole : 45 :: letters ++ [45] ++ a = 45 :: (letters ++ 45 :: a) := by simp
  have marks : vendorMark (45 :: (letters ++ 45 :: a)) = 45 :: letters ++ [45] := by
    have run : (letters ++ 45 :: a).takeWhile isLowerLetter = letters :=
      (takeWhile_append_of_pos lower).trans (append_nil letters)
    rw [vendorMark,run]
    simp [full]
  have custom : Declaration.isCustomName (45 :: (letters ++ 45 :: a)) = false := by
    obtain ⟨l,ls,rfl⟩ := exists_cons_of_ne_nil full
    have other : l ≠ 45 := by
      rintro rfl
      cases lower 45 mem_cons_self
    show isPrefixOf [45,45] (45 :: l :: _) = false
    simp [isPrefixOf,other.symm]
  have unmarked : withoutVendor (45 :: (letters ++ 45 :: a)) = a := by
    have behind : (45 :: (letters ++ 45 :: a)).drop (45 :: letters ++ [45]).length = a := by rw [← whole,drop_left]
    obtain ⟨c,s,rfl⟩ := exists_cons_of_ne_nil named.filled
    obtain ⟨single,line⟩ := propertyByteSingle (named.bytes c mem_cons_self)
    have alone : continuation c = some (0,0,0) := if_pos single
    have first : (characters (c :: s)).head? = some (c.toNat,[c]) := by
      rw [characters,charactersFrom,sequence,alone]
      rfl
    have vendored : isVendored (45 :: (letters ++ 45 :: c :: s)) := by
      rw [isVendored,marks,behind]
      exact line
    rw [withoutVendor,if_pos vendored,marks]
    simp only [behind,first]
    rfl
  rw [familyBare named.filled named.bare,whole,propertyFamily,custom,unmarked]
  rfl

/- Properties interact with their parts, with those of their family that vendors mark, and with their shorthands. -/
theorem relatedInteract (a b : Bytes) : propertiesInteract a b = propertiesInteract b a ∧
    (IsPropertyName a → ∀ part, propertiesInteract a (a ++ 45 :: part)) ∧
    (IsPropertyName a → IsPropertyName b → propertyFamily a = propertyFamily b → ∀ mark, IsVendorMark mark →
      propertiesInteract (mark ++ a) b ∧ propertiesInteract (mark ++ a) (mark ++ b)) ∧
    (b ∈ shorthandsOf a → propertiesInteract a b) := by
  refine ⟨interactComm a b,fun named part => ?_,fun left right same mark vendor => ⟨?_,?_⟩,fun mem => ?_⟩
  · exact familyInteracts (partFamily named.filled named.bare part).symm
  · exact familyInteracts ((vendorFamily vendor left).trans same)
  · exact familyInteracts ((vendorFamily vendor left).trans (same.trans (vendorFamily vendor right).symm))
  · simp [propertiesInteract,mem]

theorem markedInsetInteracts : propertyFamily (ascii "top") = propertyFamily (ascii "inset-block") ∧
    propertiesInteract (ascii "-moz-top") (ascii "inset-block") ∧ propertiesInteract (ascii "-moz-top") (ascii "-moz-inset-block") := by
  have family : propertyFamily (ascii "top") = propertyFamily (ascii "inset-block") := by decide
  have left : IsPropertyName (ascii "top") := ⟨by decide,by decide,all_eq_true.mp rfl⟩
  have right : IsPropertyName (ascii "inset-block") := ⟨by decide,by decide,all_eq_true.mp rfl⟩
  have vendor : IsVendorMark (ascii "-moz-") := ⟨ascii "moz",by decide,all_eq_true.mp rfl,rfl⟩
  exact ⟨family,(relatedInteract _ _).2.2.1 left right family _ vendor⟩

end Cascade
