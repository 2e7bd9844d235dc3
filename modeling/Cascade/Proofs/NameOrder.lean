import Cascade.Optimizer.Declarations
import Mathlib.Data.List.Basic

/-! Texts are in the order of their bytes, and names in an order of their own. Both are
total, so sorting a block by name is well defined and leaves the declarations of one name
in the order they had. -/
namespace Cascade
open List

theorem beforeLex (as bs) : before as bs ↔ as < bs := by
  induction as generalizing bs with
  | nil => cases bs <;> simp [before]
  | cons a as ih =>
    cases bs with
    | nil => simp [before]
    | cons b bs => simp [before,ih,cons_lt_cons_iff]

theorem notBefore {as bs} : (!before as bs) ↔ bs ≤ as := by
  rw [Bool.not_eq_true',← Bool.not_eq_true,beforeLex,List.not_lt]

variable {α : Type} (key : α → Bytes)

theorem textsTrans (a b c) (left : (!before (key b) (key a)))
    (right : (!before (key c) (key b))) : (!before (key c) (key a)) :=
  notBefore.mpr (List.le_trans (notBefore.mp left) (notBefore.mp right))

theorem textsTotal (a b) : (!before (key b) (key a) || !before (key a) (key b)) := by
  rw [Bool.or_eq_true,notBefore,notBefore]
  exact List.le_total _ _

theorem compareLevelLex (as bs) : compareLevel as bs = compare as bs := by
  fun_induction compareLevel as bs with
  | case4 a as b bs ih => rw [ih,List.compare_cons_cons]
  | _ => rfl

theorem compareBytesLex (as bs) : compareBytes as bs = compare as bs := by
  fun_induction compareBytes as bs with
  | case4 a as b bs ih => rw [ih,List.compare_cons_cons]
  | _ => rfl

theorem filterMergeSort {α : Type} {le} (trans : ∀ a b c, le a b → le b c → le a c)
    (total : ∀ a b, le a b || le b a) {keep} {xs : List α} (alike : ∀ a ∈ xs, keep a → ∀ b ∈ xs, keep b → le a b) :
    (xs.mergeSort le).filter keep = xs.filter keep := by
  have ordered : (xs.filter keep).Pairwise (fun a b => le a b) := by
    apply pairwise_of_forall_mem_list
    intro a ha b hb
    obtain ⟨ma,ka⟩ := mem_filter.mp ha
    obtain ⟨mb,kb⟩ := mem_filter.mp hb
    exact alike a ma ka b mb kb
  have sub := (sublist_mergeSort trans total ordered filter_sublist).filter keep
  rw [filter_filter] at sub
  simp only [Bool.and_self] at sub
  have length := ((mergeSort_perm xs le).filter keep).length_eq
  exact (sub.eq_of_length length.symm).symm

section
variable (c : Bytes → Bytes → Ordering)

def nameOrder (a b : Bytes) : Ordering := (c a b).then (compareBytes a b)

def inOrder (a b : Declaration) : Bool := nameOrder c a.key b.key != .gt

variable {c}

theorem nameOrderEq {a b} (same : nameOrder c a b = .eq) : a = b := by
  rw [nameOrder,Ordering.then_eq_eq,compareBytesLex] at same
  exact Std.LawfulEqCmp.eq_of_compare same.2

variable [Std.TransCmp c]

instance : Std.TransCmp (nameOrder c) := by
  have lex : nameOrder c = compareLex c compare := by
    funext a b
    rw [nameOrder,compareBytesLex]
    rfl
  rw [lex]
  infer_instance

theorem nameOrderSwap (a b) : nameOrder c a b = (nameOrder c b a).swap := Std.OrientedCmp.eq_swap

theorem inOrderTrans (a b d) (left : inOrder c a b) (right : inOrder c b d) : inOrder c a d := by
  simp only [inOrder,bne_iff_ne,← Ordering.isLE_iff_ne_gt] at *
  exact Std.TransCmp.isLE_trans left right

theorem inOrderTotal (a b) : (inOrder c a b || inOrder c b a) := by
  simp only [inOrder]
  rw [nameOrderSwap]
  cases nameOrder c b.key a.key <;> rfl

theorem inOrderSame {a b} (same : a.key = b.key) : inOrder c a b := by
  have self : nameOrder c b.key b.key = .eq := Std.ReflCmp.compare_self
  rw [inOrder,same,self]
  rfl

theorem inOrderBoth {a b} (left : inOrder c a b) (right : inOrder c b a) : a.key = b.key := by
  apply nameOrderEq (c := c)
  simp only [inOrder,bne_iff_ne] at left right
  rw [nameOrderSwap] at right
  cases order : nameOrder c a.key b.key <;> simp_all

theorem sortedKey (p) (ds : List Declaration) :
    (ds.mergeSort (inOrder c)).filter (fun d => d.key == p) = ds.filter fun d => d.key == p := by
  apply filterMergeSort inOrderTrans inOrderTotal
  intro a _ left b _ right
  exact inOrderSame ((beq_iff_eq.mp left).trans (beq_iff_eq.mp right).symm)

end

def level (weight : Weight → Nat) (name : Bytes) : List Nat := levelWeights weight (collationKey name)

def weigh (a b : Bytes) : Ordering :=
  (compare (level Weight.primary a) (level Weight.primary b)).then
    ((compare (level Weight.secondary a) (level Weight.secondary b)).then
      (compare (level Weight.tertiary a) (level Weight.tertiary b)))

instance : Std.TransCmp weigh :=
  inferInstanceAs (Std.TransCmp (compareLex (compareOn (level Weight.primary))
    (compareLex (compareOn (level Weight.secondary)) (compareOn (level Weight.tertiary)))))

theorem collateWeigh (a b) : collate a b = nameOrder weigh a b := by
  simp only [collate,nameOrder,weigh,compareLevelLex,Ordering.then_assoc]
  rfl

theorem nameAtMostWeigh : nameAtMost = inOrder weigh := by
  funext a b
  rw [nameAtMost,inOrder,collateWeigh]

def arrangedBy (c : Bytes → Bytes → Ordering) (ds : List Declaration) : List Declaration :=
  (lastBy Declaration.text (withoutOverridden ds).1).mergeSort (inOrder c)

theorem arrangedWeigh (ds) : arrangeDeclarations ds = arrangedBy weigh ds := by
  rw [arrangeDeclarations,sortDeclarations,nameAtMostWeigh,arrangedBy]

end Cascade
