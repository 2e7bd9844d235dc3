import Cascade.Proofs.ClosedStrings
import Cascade.Proofs.Identifiers

/-! What identifiers, strings and numbers inside a text are made of. -/
namespace Cascade
open List

def Token.IsInner (t : Token) : Prop :=
  ∃ s front back, isText s = true ∧ tokens s = front ++ t :: back ∧ back ≠ []

def isNumberByte (b : UInt8) : Bool := isDigit b || b == 43 || b == 45 || b == 46 || b == 69 || b == 101

section
variable {s : Bytes}

theorem signBytes (s : Bytes) : ∀ b ∈ s.take (signLength s), isNumberByte b := by
  unfold signLength
  split <;> simp [isNumberByte]

theorem digitBytes (s : Bytes) : ∀ b ∈ s.take (digitRun s), isNumberByte b := by
  intro b mem
  rw [digitRun,← prefix_iff_eq_take.mp ( takeWhile_prefix isDigit)] at mem
  simp [isNumberByte,mem_takeWhile_imp mem]

theorem fractionBytes (s : Bytes) : ∀ b ∈ s.take (fractionLength s), isNumberByte b := by
  unfold fractionLength
  split
  · rename_i d s
    split
    · rw [take_succ_cons]
      exact forall_mem_cons.mpr ⟨rfl,digitBytes (d :: s)⟩
    · simp
  · simp

theorem exponentBytes (s : Bytes) : ∀ b ∈ s.take (exponentLength s), isNumberByte b := by
  unfold exponentLength
  split
  · rename_i e s
    split
    · rename_i mark
      dsimp only
      split
      · simp
      rw [Nat.add_assoc,Nat.add_comm 1,take_succ_cons,take_add]
      refine forall_mem_cons.mpr ⟨?_,forall_mem_append.mpr ⟨signBytes s,digitBytes _⟩⟩
      simp only [Bool.or_eq_true,beq_iff_eq] at mark
      rcases mark with rfl | rfl <;> rfl
    · simp
  · simp

theorem numberBytes (s : Bytes) : ∀ b ∈ s.take (numberLength s), isNumberByte b := by
  rw [numberLength,take_add,take_add,take_add]
  exact forall_mem_append.mpr ⟨forall_mem_append.mpr ⟨forall_mem_append.mpr
    ⟨signBytes s,digitBytes _⟩,fractionBytes _⟩,exponentBytes _⟩

theorem startsNumberSome (starts : startsNumber s) : numberLength s ≠ 0 := by
  have full : digitRun (s.drop (signLength s)) ≠ 0 ∨ fractionLength (s.drop (signLength s)) ≠ 0 := by
    unfold startsNumber at starts
    split at starts
    · rename_i d u point
      exact .inr (by simp [point,fractionLength,starts])
    · rename_i d u _ first
      exact .inl (by simp [first,digitRun,starts])
    · cases starts
  rw [numberLength]
  by_cases bare : digitRun (s.drop (signLength s)) = 0
  · have fraction := full.resolve_left (fun full => full bare)
    rw [bare,Nat.add_zero]
    omega
  · omega

theorem numberPlain {b} (byte : isNumberByte b) : b < 0x80 ∧ b ≠ 92 ∧ isNewline b = false := by
  simp only [isNumberByte,isDigit,isNewline] at *
  grind

theorem numberContents (bytes : ∀ b ∈ s, isNumberByte b) : Pieces (contentsRule True) s ∧ Complete s := by
  induction s with
  | nil => exact ⟨.nil,.nil⟩
  | cons b s ih =>
    obtain ⟨here,others⟩ := forall_mem_cons.mp bytes
    obtain ⟨low,plain⟩ := numberPlain here
    obtain ⟨pieces,complete⟩ := ih others
    exact ⟨.byte plain pieces,singleComplete (UInt8.lt_trans low (by decide)) complete⟩

end

section
variable {t : Token} (inner : t.IsInner)
include inner

theorem innerStart : ∃ b u, Complete (b :: u) ∧ t = tokenAt b u (firstToken b u) ∧
    u.drop ((firstToken b u).2 - 1) ≠ [] := by
  obtain ⟨s,front,back,text,parts,more⟩ := inner
  obtain ⟨n,b,u,suffix,token,rest⟩ := tokensAt s parts
  refine ⟨b,u,suffix ▸ completeDrop (textComplete text) n,token,fun bare => more ?_⟩
  rw [rest,bare]
  rfl

theorem innerSolid (solid : t.isBlank = false) : ∃ b u n, t.text = b :: u.take n ∧ ¬StartsBlank b u := by
  obtain ⟨b,u,_,rfl,_⟩ := innerStart inner
  refine ⟨b,u,_,rfl,fun starts => ?_⟩
  have blank : (tokenAt b u (firstToken b u)).isBlank := by
    rw [Token.isBlank,Bool.or_eq_true,decide_eq_true_eq,decide_eq_true_eq]
    exact startsBlankKind starts
  exact absurd (solid.symm.trans blank) Bool.false_ne_true

theorem innerIdent (kind : t.kind = .ident) : Identifier t.text := by
  obtain ⟨b,u,complete,rfl,_⟩ := innerStart inner
  have found := startWord (firstTokenStart b u) (.inl kind)
  have size := (identLikeKinds found).2 kind
  have full : identLength (b :: u) ≠ 0 := fun bare => by simp [identLike,bare] at found
  obtain ⟨front,back,parts,name,length⟩ := identifierPart complete full
  have text : (tokenAt b u (firstToken b u)).text = front := by
    cases front with
    | nil => cases name.starts
    | cons c front =>
      obtain ⟨rfl,tail⟩ := List.cons.inj parts
      have taken : u.take front.length = front := by rw [tail]; exact take_left
      rw [tokenAt,size,length,length_cons,Nat.add_sub_cancel,taken]
  rwa [text]

theorem innerString (kind : t.kind = .string) : Pieces (contentsRule True) (unquote t.text) ∧ Complete (unquote t.text) := by
  obtain ⟨b,u,complete,rfl,more⟩ := innerStart inner
  obtain ⟨quotes,run⟩ := startString (firstTokenStart b u) kind
  have behind : Complete u := completeDrop complete 1
  have found := stringRunFound quotes (completeIsWhole behind) (congrArg Prod.snd run)
  rw [run] at found
  dsimp only at found
  rcases found with all | ⟨front,back,rfl,pieces,size⟩
  · exact absurd (by rw [all,drop_length]) more
  have text : (tokenAt b (front ++ b :: back) (firstToken b (front ++ b :: back))).text = b :: (front ++ [b]) := by
    rw [tokenAt,size,take_length_add_append]
    rfl
  have closed : ClosedString True (b :: (front ++ [b])) := ⟨b,front,quotes,pieces,rfl⟩
  have whole : Whole (b :: (front ++ [b]) ++ back) := by simpa using completeIsWhole complete
  rw [text]
  exact ⟨closedContents closed,closedComplete closed whole⟩

theorem innerNumber (kind : t.kind = .number) : Pieces (contentsRule True) t.text ∧ Complete t.text := by
  obtain ⟨b,u,_,rfl,_⟩ := innerStart inner
  obtain ⟨starts,size⟩ := startNumber (firstTokenStart b u) kind
  have bytes := numberBytes (b :: u)
  obtain ⟨n,length⟩ := Nat.exists_eq_succ_of_ne_zero (startsNumberSome starts)
  rw [length] at size bytes
  rw [tokenAt,size]
  exact numberContents bytes

end

end Cascade
