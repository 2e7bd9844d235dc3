import Cascade.Proofs.CutShort
import Cascade.Proofs.DeclaredNames

/-! What the value of a declaration gathers. Only a colon starts a value, each token inside it is put behind the others,
and a text that ends there holds the declaration. -/
namespace Cascade

section
variable {r : Reader} {gap : Gap} {t : Token}

def Stage.isValue : Stage → Bool
  | .value .. => true
  | _ => false

theorem outsideLasts : Lasts (·.kind ≠ .colon) (·.isValue = false) fun _ => True where
  starred colon := colon
  star := rfl
  rule := rfl
  custom _ outside := outside
  text _ := trivial
  close := trivial
  moves colon outside moves := by
    refine ⟨?_,fun _ _ => trivial⟩
    cases moves with
    | colon kind => exact absurd kind colon
    | moreValue => cases outside
    | _ => rfl

def Token.isInner (t : Token) : Bool := !t.isBlank && !endsStatement t && !t.closes

def Token.isTight (t : Token) : Bool := t.spells [44,47,58,33,61]

theorem pushPad (gathered gap tight skip t) :
    push gathered ((gap.space || gap.comment) && !tight && !skip) t = gathered ++ padOf gap (skip || tight) ++ [t] := by
  rw [push,padOf]
  generalize (gap.space || gap.comment) = gaps
  cases gaps <;> cases tight <;> cases skip <;> simp

theorem stepInner {name skip gathered} (inner : t.isInner)
    (stage : r.stage = .value name skip gathered) (start) : step r start gap t =
      ((r.past t).toStage (.value name t.isTight (gathered ++ padOf gap (skip || t.isTight) ++ [t])),[]) := by
  simp only [Token.isInner,Bool.and_eq_true,Bool.not_eq_true'] at inner
  obtain ⟨⟨solid,goes⟩,closes⟩ := inner
  have token : ∀ stop, stepToken r start stop gap t =
      ⟨(r.past t).toStage (.value name t.isTight (gathered ++ padOf gap (skip || t.isTight) ++ [t])),[],false⟩ := by
    intro stop
    rw [stepToken,stage]
    dsimp only
    rw [stepValue,if_neg (by simp [goes]),if_neg (by simp [closes])]
    dsimp only
    rw [pushPad]
    rfl
  rw [step,if_neg (by simp [solid]),token]
  rfl

end

def Declares (ts : List Token) (name : Bytes) (skip : Bool) (gathered : List Token) : Prop :=
  ∃ r gap kind, walk (.fresh .inline []) 0 {} ts = (r,gap,[]) ∧ r.stage = .value ⟨kind,name⟩ skip gathered

section
variable {ts gathered : List Token} {name : Bytes} {skip : Bool} {t : Token}

theorem declaresMore (declares : Declares ts name skip gathered) (inner : t.isInner) :
    ∃ pad, Blanks pad ∧ ((skip || t.isTight) → pad = []) ∧
      Declares (ts ++ [t]) name t.isTight (gathered ++ pad ++ [t]) := by
  obtain ⟨r,gap,kind,walked,stage⟩ := declares
  refine ⟨padOf gap (skip || t.isTight),bareBlanks (padBare gap _),fun tight => by simp [padOf,tight],?_⟩
  have more := walkAppend (.fresh .inline []) 0 {} ts [t]
  rw [walked] at more
  simp only [walk,stepInner inner stage] at more
  exact ⟨_,_,kind,more,rfl⟩

theorem declaresLast (declares : Declares (ts ++ [t]) name skip gathered) (inner : t.isInner)
    (colon : t.kind ≠ .colon) : ∃ front, gathered = front ++ [t] ∧
      ∀ u : Token, u.isInner → u.isTight = t.isTight → Declares (ts ++ [u]) name skip (front ++ [u]) := by
  obtain ⟨r,gap,kind,walked,stage⟩ := declares
  rw [walkAppend] at walked
  obtain ⟨same,rest⟩ := Prod.mk.inj walked
  obtain ⟨-,bare⟩ := Prod.mk.inj rest
  obtain ⟨before,-⟩ := List.append_eq_nil_iff.mp bare
  generalize within : walk (.fresh .inline []) 0 {} ts = w at same before
  obtain ⟨r₀,gap₀,items⟩ := w
  dsimp only [walk] at same before
  subst before
  have solid : t.isBlank = false := by
    simp only [Token.isInner,Bool.and_eq_true,Bool.not_eq_true'] at inner
    exact inner.1.1
  cases inside : r₀.stage with
  | value name₀ skip₀ gathered₀ =>
    rw [stepInner inner inside] at same
    rw [← same] at stage
    obtain ⟨rfl,rfl,rfl⟩ := Stage.value.inj stage
    refine ⟨gathered₀ ++ padOf gap₀ (skip₀ || t.isTight),rfl,fun u inner' tight => ?_⟩
    have other := walkAppend (.fresh .inline []) 0 {} ts [u]
    rw [within] at other
    simp only [walk,stepInner inner' inside,tight] at other
    exact ⟨_,_,kind,other,rfl⟩
  | _ =>
    have outside := (@stepLasts _ _ _ outsideLasts r₀ t (0 + textLength ts) gap₀ colon (by rw [inside]; rfl)).1
    rw [same,stage] at outside
    cases outside

variable {s : Bytes}

theorem declaresTrimmed (declares : Declares (tokens s) name skip gathered) : trimTokens gathered = gathered := by
  obtain ⟨r,gap,kind,walked,stage⟩ := declares
  have fresh : (Reader.fresh .inline []).IsOrderly := orderlyAt rfl fun _ => Int.le_refl 0
  have orderly : (walk (.fresh .inline []) 0 {} (tokens s)).1.IsOrderly := orderlyWalk fresh 0 (commaText 0 s)
  rw [walked] at orderly
  exact (orderly.value _ _ _ stage).trimmed

theorem declaresRead (declares : Declares (tokens s) name skip gathered) (depth) :
    (readContents (depth + 1) .inline s).value = ([],[readDeclaration name gathered]) := by
  obtain ⟨r,gap,kind,walked,stage⟩ := declares
  have whole : walk (.fresh .inline s) 0 {} (tokens s) = (r.recast s,gap,[]) := by
    have recast := @recastWalk s (.fresh .inline []) {} 0 (tokens s)
    rw [walked] at recast
    exact recast
  have stage' : (r.recast s).stage = .value ⟨kind,name⟩ skip gathered := by rw [Reader.recast,stage]; rfl
  obtain ⟨item,rest,closes,ended⟩ := closingsCons (r.recast s)
  rw [readContents,itemsWalked whole,lastValue stage',closes]
  rcases ended with rfl | rfl <;> rfl

end

end Cascade
