import Mathlib.Data.List.Forall2
import Mathlib.Data.Prod.Lex

/-! Contests that the weightiest wins, and of equally weighty ones the last. Both the
declarations of one block and those of a whole stylesheet compete in this way. -/
namespace Cascade
open List

variable {α β ω : Type} [LinearOrder ω]

def prevail (weight : α → ω) : Option α → Option α → Option α
  | none,b => b
  | some a,none => some a
  | some a,some b => if weight b < weight a then some a else some b

def strongest (weight : α → ω) : List α → Option α
  | [] => none
  | a :: as => prevail weight (some a) (strongest weight as)

section
variable {weight : α → ω}

@[simp] theorem prevailNoneRight (a) : prevail weight a none = a := by
  cases a <;> rfl

theorem prevailLater {a b} (h : weight a ≤ weight b) : prevail weight (some a) (some b) = some b := by
  rw [prevail,if_neg (not_lt.mpr h)]

theorem prevailEarlier {a b} (h : weight b < weight a) : prevail weight (some a) (some b) = some a := by
  rw [prevail,if_pos h]

theorem prevailAssoc (a b c) : prevail weight (prevail weight a b) c = prevail weight a (prevail weight b c) := by
  cases a with
  | none => rfl
  | some a =>
    cases b with
    | none => rfl
    | some b =>
      cases c with
      | none => simp
      | some c =>
        rcases lt_or_ge (weight b) (weight a) with hab | hab <;>
          rcases lt_or_ge (weight c) (weight b) with hbc | hbc
        · rw [prevailEarlier hab,prevailEarlier hbc,prevailEarlier hab,
            prevailEarlier (hbc.trans hab)]
        · rw [prevailEarlier hab,prevailLater hbc]
        · rw [prevailLater hab,prevailEarlier hbc,prevailLater hab]
        · rw [prevailLater hab,prevailLater hbc,prevailLater (hab.trans hbc)]

theorem strongestAppend (xs ys) :
    strongest weight (xs ++ ys) = prevail weight (strongest weight xs) (strongest weight ys) := by
  induction xs with
  | nil => rfl
  | cons x xs ih => rw [cons_append,strongest,strongest,ih,prevailAssoc]

theorem strongestEqNone {xs} : strongest weight xs = none ↔ xs = [] := by
  constructor
  · intro h
    cases xs with
    | nil => rfl
    | cons x xs =>
      rw [strongest] at h
      cases hs : strongest weight xs <;> rw [hs,prevail] at h
      · cases h
      · split at h <;> cases h
  · rintro rfl
    rfl

theorem splitMax {ls rs : List α} {a} (before : ∀ b ∈ ls, weight b ≤ weight a) (behind : ∀ b ∈ rs, weight b < weight a) :
    ∀ b ∈ ls ++ a :: rs, weight b ≤ weight a :=
  forall_mem_append.mpr ⟨before,forall_mem_cons.mpr ⟨le_refl _,fun b mem => (behind b mem).le⟩⟩

theorem strongestSplit {xs a} (h : strongest weight xs = some a) :
    ∃ ls rs, xs = ls ++ a :: rs ∧ (∀ b ∈ ls, weight b ≤ weight a) ∧ ∀ b ∈ rs, weight b < weight a := by
  induction xs generalizing a with
  | nil => cases h
  | cons x xs ih =>
    rw [strongest] at h
    cases hs : strongest weight xs with
    | none =>
      rw [hs] at h
      cases h
      exact ⟨[],xs,rfl,forall_mem_nil _,by simp [strongestEqNone.mp hs]⟩
    | some b =>
      obtain ⟨ls,rs,rfl,before,behind⟩ := ih hs
      rw [hs,prevail] at h
      split at h
      · rename_i less
        cases h
        exact ⟨[],_,rfl,forall_mem_nil _,fun c mem => (splitMax before behind c mem).trans_lt less⟩
      · rename_i more
        cases h
        exact ⟨x :: ls,rs,rfl,forall_mem_cons.mpr ⟨not_lt.mp more,before⟩,behind⟩

theorem strongestMem {xs a} (h : strongest weight xs = some a) : a ∈ xs := by
  obtain ⟨ls,rs,rfl,_⟩ := strongestSplit h
  simp

theorem strongestMax {xs a} (h : strongest weight xs = some a) : ∀ b ∈ xs, weight b ≤ weight a := by
  obtain ⟨ls,rs,rfl,before,behind⟩ := strongestSplit h
  exact splitMax before behind

theorem strongestOfMem (weight : α → ω) {xs a} (mem : a ∈ xs) :
    ∃ b, strongest weight xs = some b ∧ weight a ≤ weight b := by
  cases h : strongest weight xs with
  | none => rw [strongestEqNone.mp h] at mem; cases mem
  | some b => exact ⟨b,rfl,strongestMax h a mem⟩

theorem strongestOfSplit {ls rs a} (before : ∀ b ∈ ls, weight b ≤ weight a)
    (behind : ∀ b ∈ rs, weight b < weight a) : strongest weight (ls ++ a :: rs) = some a := by
  have tail : strongest weight (a :: rs) = some a := by
    rw [strongest]
    cases hs : strongest weight rs with
    | none => rfl
    | some b => exact prevailEarlier (behind b (strongestMem hs))
  rw [strongestAppend,tail]
  cases hs : strongest weight ls with
  | none => rfl
  | some b => exact prevailLater (before b (strongestMem hs))

theorem strongestFilter {xs a keep} (h : strongest weight xs = some a)
    (kept : keep a) : strongest weight (xs.filter keep) = some a := by
  obtain ⟨ls,rs,rfl,before,behind⟩ := strongestSplit h
  rw [filter_append,filter_cons_of_pos kept]
  exact strongestOfSplit (fun b mem => before b (mem_filter.mp mem).1) fun b mem => behind b (mem_filter.mp mem).1

end

theorem strongestEven {weight : α → ω} {xs} (even : ∀ a ∈ xs, ∀ b ∈ xs, weight a = weight b) :
    strongest weight xs = xs.getLast? := by
  induction xs with
  | nil => rfl
  | cons x xs ih =>
    have tail := ih fun a ha b hb => even a (mem_cons_of_mem _ ha) b (mem_cons_of_mem _ hb)
    rw [strongest,tail]
    cases hl : xs.getLast? with
    | none => rw [getLast?_eq_none_iff.mp hl]; rfl
    | some b =>
      have mem := mem_cons_of_mem x (mem_of_getLast? hl)
      rw [prevailLater (even x mem_cons_self b mem).le,getLast?_cons,hl]
      rfl

/- What is left of a contest when some give up, each in view of a later one that stays
and is at least as weighty. -/
inductive Thinned (weight : α → ω) : List α → List α → Prop where
  | nil : Thinned weight [] []
  | keep {a as bs} (rest : Thinned weight as bs) : Thinned weight (a :: as) (a :: bs)
  | drop {a as bs} (later : ∃ b ∈ bs, weight a ≤ weight b) (rest : Thinned weight as bs) :
      Thinned weight (a :: as) bs

section
variable {weight : α → ω}

theorem thinnedStrongest {xs ys} (h : Thinned weight xs ys) : strongest weight xs = strongest weight ys := by
  induction h with
  | nil => rfl
  | keep rest ih => rw [strongest,strongest,ih]
  | drop later rest ih =>
    obtain ⟨b,mem,le⟩ := later
    obtain ⟨c,hc,top⟩ := strongestOfMem weight mem
    rw [strongest,ih,hc,prevailLater (le.trans top)]

theorem thinnedBehind (xs) {ms ns} (rest : Thinned weight ms ns) : Thinned weight (xs ++ ms) (xs ++ ns) := by
  induction xs with
  | nil => exact rest
  | cons x xs ih => exact .keep ih

theorem thinnedRefl (xs) : Thinned weight xs xs := by
  have behind : Thinned weight (xs ++ []) (xs ++ []) := thinnedBehind xs .nil
  rwa [append_nil] at behind

theorem thinnedFilter {xs ms ns stays} (rest : Thinned weight ms ns)
    (later : ∀ a ∈ xs, stays a = false → ∃ b ∈ ns, weight a ≤ weight b) :
    Thinned weight (xs ++ ms) (xs.filter stays ++ ns) := by
  induction xs with
  | nil => exact rest
  | cons x xs ih =>
    have tail := ih fun a mem => later a (mem_cons_of_mem _ mem)
    cases hx : stays x with
    | true =>
      rw [filter_cons_of_pos hx]
      exact .keep tail
    | false =>
      rw [filter_cons_of_neg (by simp [hx])]
      obtain ⟨b,mem,le⟩ := later x mem_cons_self hx
      exact .drop ⟨b,mem_append_right _ mem,le⟩ tail

theorem thinnedAppend {xs ms ns} (rest : Thinned weight ms ns)
    (later : ∀ a ∈ xs, ∃ b ∈ ns, weight a ≤ weight b) : Thinned weight (xs ++ ms) ns := by
  induction xs with
  | nil => exact rest
  | cons x xs ih =>
    exact .drop (later x mem_cons_self) (ih fun a mem => later a (mem_cons_of_mem _ mem))

theorem thinnedMap {γ ν} [LinearOrder ν] {weight' : γ → ν} (f)
    (mono : ∀ a b, weight a ≤ weight b → weight' (f a) ≤ weight' (f b)) {xs ys}
    (h : Thinned weight xs ys) : Thinned weight' (xs.map f) (ys.map f) := by
  induction h with
  | nil => exact .nil
  | keep rest ih => exact .keep ih
  | drop later rest ih =>
    obtain ⟨b,mem,le⟩ := later
    exact .drop ⟨f b,mem_map_of_mem mem,mono _ _ le⟩ ih

end

section
variable {weight : α → ω} {like : α → α → Prop}

theorem relRefl (refl : ∀ a, like a a) (a) : Option.Rel like a a := by
  cases a with
  | none => exact .none
  | some a => exact .some (refl a)

theorem relTrans (trans : ∀ a b c, like a b → like b c → like a c) {a b c}
    (left : Option.Rel like a b) (right : Option.Rel like b c) : Option.Rel like a c := by
  cases left with
  | none => exact right
  | some hab =>
    cases right with
    | some hbc => exact .some (trans _ _ _ hab hbc)

theorem forallMem {xs ys} {rel : α → β → Prop} (h : List.Forall₂ rel xs ys) {a} (mem : a ∈ xs) : ∃ b ∈ ys, rel a b := by
  induction h with
  | nil => cases mem
  | cons head tail ih =>
    rcases mem_cons.mp mem with rfl | old
    · exact ⟨_,mem_cons_self,head⟩
    · obtain ⟨b,there,related⟩ := ih old
      exact ⟨b,mem_cons_of_mem _ there,related⟩

variable (even : ∀ a b, like a b → weight a = weight b)
include even

theorem prevailRel {a a' b b'} (left : Option.Rel like a a') (right : Option.Rel like b b') :
    Option.Rel like (prevail weight a b) (prevail weight a' b') := by
  cases left with
  | none => exact right
  | some ha =>
    cases right with
    | none => exact .some ha
    | some hb =>
      rw [prevail,prevail,even _ _ ha,even _ _ hb]
      split
      · exact .some ha
      · exact .some hb

theorem strongestRel {xs ys} (h : List.Forall₂ like xs ys) :
    Option.Rel like (strongest weight xs) (strongest weight ys) := by
  induction h with
  | nil => exact .none
  | cons head tail ih => exact prevailRel even (.some head) ih

theorem strongestBetween (refl : ∀ a, like a a) {xs ys} (before after)
    (h : Option.Rel like (strongest weight xs) (strongest weight ys)) :
    Option.Rel like (strongest weight (before ++ xs ++ after))
      (strongest weight (before ++ ys ++ after)) := by
  rw [strongestAppend,strongestAppend,strongestAppend,strongestAppend]
  exact prevailRel even (prevailRel even (relRefl refl _) h) (relRefl refl _)

end

end Cascade
