import Cascade.Text.Bytes

/-! Texts joined by a byte that none of them holds come apart again. -/
namespace Cascade
open List

variable {sep : UInt8}

theorem fieldsFree {x} (free : sep ∉ x) : fields sep x = [x] := by
  induction x with
  | nil => rfl
  | cons b x ih =>
    have other : (b == sep) = false := by
      rw [beq_eq_false_iff_ne]
      rintro rfl
      exact free mem_cons_self
    rw [fields,other,if_neg Bool.false_ne_true,ih fun mem => free (mem_cons_of_mem _ mem)]

theorem fieldsAppend {x} (free : sep ∉ x) (s : Bytes) : fields sep (x ++ sep :: s) = x :: fields sep s := by
  induction x with
  | nil => rw [nil_append,fields,beq_self_eq_true,if_pos rfl]
  | cons b x ih =>
    have other : (b == sep) = false := by
      rw [beq_eq_false_iff_ne]
      rintro rfl
      exact free mem_cons_self
    rw [cons_append,fields,other,if_neg Bool.false_ne_true,
      ih fun mem => free (mem_cons_of_mem _ mem)]

theorem fieldsFreeOf (s) : ∀ f ∈ fields sep s, sep ∉ f := by
  induction s with
  | nil => exact forall_mem_singleton.mpr not_mem_nil
  | cons b s ih =>
    rw [fields]
    split
    · exact forall_mem_cons.mpr ⟨not_mem_nil,ih⟩
    rename_i other
    have apart : sep ≠ b := fun same => other (by rw [same,beq_self_eq_true])
    obtain ⟨f,fs,parts⟩ := exists_cons_of_ne_nil (fieldsNotEmpty sep s)
    rw [parts] at ih ⊢
    obtain ⟨first,others⟩ := forall_mem_cons.mp ih
    exact forall_mem_cons.mpr ⟨not_mem_cons_of_ne_of_not_mem apart first,others⟩

theorem fieldsEnded (sep s) : (fields sep s).flatMap (· ++ [sep]) = s ++ [sep] := by
  induction s with
  | nil => rfl
  | cons b s ih =>
    rw [fields]
    split
    · rename_i same
      rw [flatMap_cons,ih,eq_of_beq same]
      rfl
    · obtain ⟨f,fs,parts⟩ := exists_cons_of_ne_nil (fieldsNotEmpty sep s)
      rw [parts,flatMap_cons] at ih
      rw [parts]
      simpa using ih

theorem fieldsJoin {xs : List Bytes} (full : xs ≠ []) (free : ∀ x ∈ xs, sep ∉ x) :
    fields sep ([sep].intercalate xs) = xs := by
  induction xs with
  | nil => exact absurd rfl full
  | cons x xs ih =>
    have here := free x mem_cons_self
    cases xs with
    | nil =>
      rw [intercalate_singleton]
      exact fieldsFree here
    | cons y ys =>
      have tail := ih (cons_ne_nil y ys) fun z mem => free z (mem_cons_of_mem _ mem)
      rw [intercalate_cons_cons,append_assoc,singleton_append,fieldsAppend here,tail]

def Separable {α φ : Type} (sep : UInt8) (text : α → Bytes) (face : α → φ) (pool : α → Prop) : Prop :=
  ∀ xs ys : List α, (∀ x ∈ xs, pool x) → (∀ y ∈ ys, pool y) →
    [sep].intercalate (xs.map text) = [sep].intercalate (ys.map text) → xs.map face = ys.map face

theorem joinedEmpty {xs : List Bytes} (written : ∀ x ∈ xs, x ≠ [] ∧ sep ∉ x) (h : [sep].intercalate xs = []) : xs = [] := by
  cases xs with
  | nil => rfl
  | cons x xs =>
    have apart := fieldsJoin (cons_ne_nil x xs) fun y mem => (written y mem).2
    rw [h] at apart
    cases apart
    exact absurd rfl (written [] mem_cons_self).1

theorem joinedInjective {xs ys : List Bytes} (left : ∀ x ∈ xs, x ≠ [] ∧ sep ∉ x) (right : ∀ y ∈ ys, y ≠ [] ∧ sep ∉ y)
    (h : [sep].intercalate xs = [sep].intercalate ys) : xs = ys := by
  cases xs with
  | nil => exact (joinedEmpty right h.symm).symm
  | cons x xs =>
    cases ys with
    | nil => exact joinedEmpty left h
    | cons y ys =>
      rw [← fieldsJoin (cons_ne_nil x xs) fun z mem => (left z mem).2,h,
        fieldsJoin (cons_ne_nil y ys) fun z mem => (right z mem).2]

theorem separableOf {α φ} {text : α → Bytes} {face : α → φ} {pool}
    (written : ∀ x, pool x → text x ≠ [] ∧ sep ∉ text x)
    (told : ∀ x y, pool x → pool y → text x = text y → face x = face y) : Separable sep text face pool := by
  intro xs ys hx hy same
  have texts : xs.map text = ys.map text := joinedInjective (forall_mem_map.mpr fun x there => written x (hx x there))
    (forall_mem_map.mpr fun y there => written y (hy y there)) same
  clear same
  induction xs generalizing ys with
  | nil => rw [map_eq_nil_iff.mp texts.symm]
  | cons x xs ih =>
    cases ys with
    | nil => cases texts
    | cons y ys =>
      obtain ⟨head,tail⟩ := List.cons.inj texts
      rw [map_cons,map_cons,
        told x y (hx x mem_cons_self) (hy y mem_cons_self) head,
        ih ys (fun z mem => hx z (mem_cons_of_mem _ mem))
          (fun z mem => hy z (mem_cons_of_mem _ mem)) tail]

theorem endedEach {ps : List Bytes} (full : ps ≠ []) : (ps.map (· ++ [59])).flatten = [59].intercalate ps ++ [59] := by
  induction ps with
  | nil => cases full rfl
  | cons p ps ih =>
    cases ps with
    | nil => simp
    | cons q ps =>
      rw [map_cons,flatten_cons,ih (cons_ne_nil _ _),intercalate_cons_cons]
      simp

end Cascade
