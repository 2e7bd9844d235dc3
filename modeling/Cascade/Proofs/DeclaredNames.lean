import Cascade.Proofs.ItemWalk
import Cascade.Proofs.LowerCase
import Cascade.Proofs.OpenTexts

/-! The names of declarations as they are read. A colon ends a name unless a backslash stands somewhere before
it, also when the name has been put in lower case. -/
namespace Cascade
open List

def isMark (b : UInt8) : Bool := b == 58 || b == 92

/- A name that no colon parts: of its colons and backslashes the first is a backslash. -/
def Unparted (name : Bytes) : Prop := name.find? isMark ≠ some 58

theorem unpartedNil : Unparted [] := by simp [Unparted]

theorem unpartedCons {b} {name : Bytes} (plain : isMark b = false) : Unparted (b :: name) ↔ Unparted name := by
  rw [Unparted,find?_cons,plain]
  rfl

theorem unpartedSingle {b} (other : b ≠ 58) : Unparted [b] := by
  cases mark : isMark b <;> simp [Unparted,mark,other]

section

theorem nameByteUnmarked {b} (name : isNameByte b) : isMark b = false := by
  rw [isMark,Bool.or_eq_false_iff,beq_eq_false_iff_ne,beq_eq_false_iff_ne]
  constructor
  · rintro rfl
    cases name
  · rintro rfl
    cases name

theorem escapeUnparted {b} (slash : (b == 92)) (s : Bytes) (n) : Unparted ((b :: s).take (n + 1)) := by
  rw [beq_iff_eq.mp slash]
  simp [Unparted,isMark]

theorem nameRunUnparted (s : Bytes) : Unparted (s.take (nameRun 0 s)) := by
  induction s with
  | nil => exact unpartedNil
  | cons b s ih =>
    rw [nameRun]
    split
    · rename_i name
      exact (unpartedCons (nameByteUnmarked name)).mpr ih
    split
    · rename_i slash
      split
      · exact escapeUnparted slash s _
      · exact unpartedNil
    · exact unpartedNil

theorem plainIdentUnparted (s : Bytes) : Unparted (s.take (plainIdentLength s)) := by
  cases s with
  | nil => exact unpartedNil
  | cons b s =>
    rw [plainIdentLength]
    split
    · rename_i name
      have plain : isMark b = false := nameByteUnmarked (by simp [isNameByte,name])
      exact (unpartedCons plain).mpr (nameRunUnparted s)
    split
    · rename_i slash
      split
      · exact escapeUnparted slash s _
      · exact unpartedNil
    · exact unpartedNil

theorem identUnparted (s : Bytes) : Unparted (s.take (identLength s)) := by
  unfold identLength
  split
  · rename_i s
    split
    · exact unpartedNil
    rename_i n length
    have rest := plainIdentUnparted s
    rw [length] at rest
    exact (unpartedCons rfl).mpr rest
  · exact plainIdentUnparted s

def nameKinds : List TokenKind := [.ident,.delim,.customName]

def Token.Named (t : Token) : Prop := t.kind ∈ nameKinds → Unparted t.text

section
variable {b : UInt8} {s : Bytes}

theorem otherNamed {r} (other : r.1 ∉ nameKinds) : (tokenAt b s r).Named :=
  fun named => absurd named other

theorem identLikeNamed {r} (found : identLike (b :: s) = some r) : (tokenAt b s r).Named := by
  unfold identLike at found
  split at found
  · cases found
  rename_i k length
  dsimp only at found
  split at found
  · rename_i rest _
    split at found
    · cases found
      refine otherNamed ?_
      rcases urlRunKind rest with kind | kind <;> simp [kind,nameKinds]
    · cases found
      exact otherNamed (by simp [nameKinds])
  · cases found
    have whole := identUnparted (b :: s)
    rw [length] at whole
    exact fun _ => whole

theorem startNamed {r} (start : Start b s r) : (tokenAt b s r).Named := by
  cases start with
  | sign other => exact fun _ => unpartedSingle other
  | custom minus =>
    intro _
    rw [tokenAt,minus]
    exact (unpartedCons rfl).mpr (identUnparted s)
  | word found => exact identLikeNamed found
  | number found => exact otherNamed ((by decide : ∀ k ∈ numberKinds, k ∉ nameKinds) _ (numericKinds found).1)
  | string =>
    refine otherNamed ?_
    dsimp only
    split <;> decide
  | other other => exact otherNamed fun named => other ((by decide : ∀ k ∈ nameKinds, k ∈ startKinds) _ named)
  | _ => exact otherNamed (by simp [nameKinds])

end

theorem tokensNamed (skip s) : ∀ t ∈ tokensFrom skip s, t.Named :=
  tokensEach (fun b s => startNamed (firstTokenStart b s)) skip s

end

theorem findFixed {α : Type} {p f} (same : ∀ a, p (f a) = p a) (fixed : ∀ a, p a → f a = a)
    (as : List α) : (as.map f).find? p = as.find? p := by
  have through : p ∘ f = p := funext same
  rw [find?_map,through]
  cases found : as.find? p with
  | none => rfl
  | some a => rw [Option.map_some,fixed a (find?_some found)]

theorem isMarkIff {b} : isMark b ↔ b.toNat = 58 ∨ b.toNat = 92 := by
  rw [isMark,Bool.or_eq_true,beq_iff_eq,beq_iff_eq,← UInt8.toNat_inj,← UInt8.toNat_inj]
  rfl

theorem highUnmarked {b} (high : 0x80 ≤ b.toNat) : isMark b = false := by
  rw [← Bool.not_eq_true,isMarkIff]
  omega

theorem lowerByteMark (b) : isMark (lowerByte b) = isMark b ∧ (isMark b → lowerByte b = b) := by
  rw [lowerByte]
  split
  · rename_i capital
    have bounds : 65 ≤ b.toNat ∧ b.toNat ≤ 90 := by
      simpa [isUpperLetter,UInt8.le_iff_toNat_le] using capital
    have lands : (b + 32).toNat = b.toNat + 32 := by
      rw [UInt8.toNat_add]
      exact Nat.mod_eq_of_lt (show b.toNat + 32 < 256 by omega)
    have after : isMark (b + 32) = false := by
      rw [← Bool.not_eq_true,isMarkIff,lands]
      omega
    have before : isMark b = false := by
      rw [← Bool.not_eq_true,isMarkIff]
      omega
    rw [after,before]
    exact ⟨rfl,fun mark => absurd mark Bool.false_ne_true⟩
  · exact ⟨rfl,fun _ => rfl⟩

theorem lowerAsciiUnparted {name} (one : Unparted name) : Unparted (lowerAscii name) := by
  rwa [Unparted,lowerAscii,findFixed (fun b => (lowerByteMark b).1) fun b => (lowerByteMark b).2]

def isMarkScalar (c : Nat) : Bool := c == 58 || c == 92

theorem isMarkScalarIff {c} : isMarkScalar c ↔ c = 58 ∨ c = 92 := by
  simp [isMarkScalar]

theorem capitalsLandHigh : (capitals.all fun row => Nat.blt 92 (landing row)) := by decide +kernel

theorem lowerScalarMark (c) : isMarkScalar (lowerScalar c) = isMarkScalar c ∧ (isMarkScalar c → lowerScalar c = c) := by
  have fixed : isMarkScalar c → lowerScalar c = c := by
    intro mark
    rcases isMarkScalarIff.mp mark with rfl | rfl
    · decide +kernel
    · decide +kernel
  rcases lowerScalarCases c with same | ⟨row,mem,_,_,_,lands⟩
  · exact ⟨by rw [same],fixed⟩
  have high := Nat.blt_eq.mp (all_eq_true.mp capitalsLandHigh row mem)
  have plain : isMarkScalar (lowerScalar c) = false := by
    rw [← Bool.not_eq_true,isMarkScalarIff]
    omega
  cases mark : isMarkScalar c with
  | false => exact ⟨plain,fun mark => absurd mark Bool.false_ne_true⟩
  | true =>
    rw [fixed mark,mark] at plain
    cases plain

theorem encodeHigh {c} (scalar : IsScalar c) (high : 0x80 ≤ c) : ∀ b ∈ encode c, 0x80 ≤ b.toNat := by
  have byte : ∀ n, 0x80 ≤ n → n < 256 → 0x80 ≤ n.toUInt8.toNat := by
    intro n low most
    rwa [toUInt8Nat most]
  unfold IsScalar at scalar
  rw [encode,if_neg (by omega)]
  split
  · simp only [forall_mem_cons]
    exact ⟨byte _ (by omega) (by omega),byte _ (by omega) (by omega),forall_mem_nil _⟩
  split
  · simp only [forall_mem_cons]
    exact ⟨byte _ (by omega) (by omega),byte _ (by omega) (by omega),byte _ (by omega) (by omega),forall_mem_nil _⟩
  · simp only [forall_mem_cons]
    exact ⟨byte _ (by omega) (by omega),byte _ (by omega) (by omega),byte _ (by omega) (by omega),
      byte _ (by omega) (by omega),forall_mem_nil _⟩

theorem encodeMark {c} (scalar : IsScalar c) :
    (encode c).find? isMark = if isMarkScalar c then some c.toUInt8 else none := by
  by_cases low : c < 0x80
  · have same : isMark c.toUInt8 = isMarkScalar c := by
      rw [Bool.eq_iff_iff,isMarkIff,isMarkScalarIff,toUInt8Nat (by omega)]
    rw [encode,if_pos low,find?_singleton,same]
  have plain : isMarkScalar c = false := by
    rw [← Bool.not_eq_true,isMarkScalarIff]
    omega
  rw [plain,if_neg Bool.false_ne_true,find?_eq_none]
  exact fun b mem => by simp [highUnmarked (encodeHigh scalar (by omega) b mem)]

theorem encodeAllMark {cs} (scalar : ∀ c ∈ cs, IsScalar c) :
    (encodeAll cs).find? isMark = (cs.find? isMarkScalar).map Nat.toUInt8 := by
  induction cs with
  | nil => rfl
  | cons c cs ih =>
    obtain ⟨here,others⟩ := forall_mem_cons.mp scalar
    rw [encodeAll,flatMap_cons,find?_append,encodeMark here,find?_cons]
    cases isMarkScalar c with
    | true => rfl
    | false => exact ih others

theorem charactersMark (skip s) (skipped : ∀ b ∈ s.take skip, isMark b = false) :
    s.find? isMark = (((charactersFrom skip s).map (·.1)).find? isMarkScalar).map Nat.toUInt8 := by
  induction s generalizing skip with
  | nil => simp [charactersFrom]
  | cons lead s ih =>
    cases skip with
    | succ skip =>
      rw [take_succ_cons] at skipped
      obtain ⟨here,others⟩ := forall_mem_cons.mp skipped
      rw [charactersFrom,find?_cons,here]
      exact ih skip others
    | zero =>
      rw [charactersFrom,find?_cons]
      by_cases plain : lead.toNat < 0x80
      · have same : isMark lead = isMarkScalar lead.toNat := by
          rw [Bool.eq_iff_iff,isMarkIff,isMarkScalarIff]
        have value : scalarOf lead (s.take 0) = lead.toNat := rfl
        rw [sequencePlain (UInt8.lt_iff_toNat_lt.mpr plain)]
        dsimp only
        rw [map_cons,find?_cons,value,same]
        cases isMarkScalar lead.toNat with
        | true => simp
        | false => exact ih 0 (by simp)
      · rw [highUnmarked (by omega)]
        dsimp only
        split
        · rename_i n complete
          have above := sequenceAbove complete (by omega)
          have other : isMarkScalar (scalarOf lead (s.take n)) = false := by
            rw [← Bool.not_eq_true,isMarkScalarIff]
            omega
          rw [map_cons,find?_cons,other]
          exact ih n fun b mem => highUnmarked (UInt8.le_iff_toNat_le.mp (sequenceHigh complete b mem))
        · have other : isMarkScalar replacement = false := rfl
          rw [map_cons,find?_cons,other]
          exact ih 0 (by simp)

theorem lowerMark (s) : (lower s).find? isMark = s.find? isMark := by
  rw [lowerScalars,encodeAllMark (loweredScalars s),findFixed (fun c => (lowerScalarMark c).1) fun c => (lowerScalarMark c).2,
    charactersMark 0 s (by simp)]
  rfl

def Stage.Named : Stage → Prop
  | .colon name | .value name .. => Unparted name.text
  | .customColon name | .customValue name _ => Unparted name
  | _ => True

def Item.Named : Item → Prop
  | .declaration name _ | .custom name _ => Unparted name
  | _ => True

theorem namedLasts : Lasts Token.Named Stage.Named Item.Named where
  starred named kind := (unpartedCons rfl).mpr (named kind)
  star := trivial
  rule := trivial
  custom _ kept := kept
  text _ := trivial
  close := trivial
  moves named kept moves := by
    cases moves with
    | name word =>
      refine ⟨lowerAsciiUnparted (named ?_),forall_mem_nil _⟩
      rcases word with ident | delim
      · simp [nameKinds,ident]
      · simp [nameKinds,delim]
    | customName custom => exact ⟨named (by simp [nameKinds,custom]),forall_mem_nil _⟩
    | colon | customColon | moreValue | moreCustom => exact ⟨kept,forall_mem_nil _⟩
    | endValue | endCustom => exact ⟨trivial,forall_mem_singleton.mpr kept⟩
    | atRule | moreAtRule | moreRule | breaks => exact ⟨trivial,forall_mem_nil _⟩
    | _ => exact ⟨trivial,forall_mem_singleton.mpr trivial⟩

theorem lastNamed (r stop) (kept : r.stage.Named) : ∀ i ∈ lastItem r stop, i.Named := by
  rw [lastItem.eq_def]
  cases stage : r.stage with
  | idle => exact forall_mem_nil _
  | value | customValue =>
    rw [stage] at kept
    exact forall_mem_singleton.mpr kept
  | _ => exact forall_mem_singleton.mpr trivial

theorem itemsNamed (mode source) : ∀ i ∈ items mode source, i.Named :=
  readLasts namedLasts 0 (tokensNamed 0 source) trivial trivial lastNamed

def Item.declared : Item → Option Declaration
  | .declaration name value => some (readDeclaration name value)
  | .custom name value => some (customDeclaration name value)
  | _ => none

def Declaration.IsRead (d : Declaration) : Prop := ∃ mode source, ∃ i ∈ items mode source, i.declared = some d

theorem isReadUnparted {d : Declaration} (read : d.IsRead) : Unparted d.rawName := by
  obtain ⟨mode,source,i,mem,made⟩ := read
  have named := itemsNamed mode source i mem
  cases i with
  | declaration name value =>
    cases made
    rw [readDeclaration]
    dsimp only
    split
    · exact named
    · exact named
  | custom name value =>
    cases made
    exact named
  | _ => cases made

end Cascade
