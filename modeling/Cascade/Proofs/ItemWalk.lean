import Cascade.Proofs.OpenValues
import Cascade.Proofs.RereadDepth
import Cascade.Proofs.TokenStarts

/-! The reader of items as it goes from token to token. What it has gathered and the level it counts
are in order wherever it stands, and the text it names in its faults changes nothing else. -/
namespace Cascade
open List
open Reader (past leave taken)

def walk (r : Reader) (start : Nat) (gap : Gap) : List Token → Reader × Gap × List Item
  | [] => (r,gap,[])
  | t :: ts =>
    let s := step r start gap t
    let w := walk s.1 (start + t.text.length) (gap.after t) ts
    (w.1,w.2.1,s.2 ++ w.2.2)

theorem readWalk (r start gap ts us) :
    read r start gap (ts ++ us) = (walk r start gap ts).2.2 ++
      read (walk r start gap ts).1 (start + textLength ts) (walk r start gap ts).2.1 us := by
  induction ts generalizing r start gap with
  | nil => rfl
  | cons t ts ih =>
    rw [cons_append,read,ih,walk,textLengthCons,← Nat.add_assoc,append_assoc]

theorem walkAppend (r start gap ts us) : walk r start gap (ts ++ us) =
    let w := walk r start gap ts
    let v := walk w.1 (start + textLength ts) w.2.1 us
    (v.1,v.2.1,w.2.2 ++ v.2.2) := by
  induction ts generalizing r start gap with
  | nil => rfl
  | cons t ts ih =>
    rw [cons_append,walk,ih,walk,textLengthCons,← Nat.add_assoc]
    simp

section
variable (source : Bytes)

def Fault.recast (f : Fault) : Fault := { f with source := source }

def Stage.recast : Stage → Stage
  | .broken f gathered => .broken (f.recast source) gathered
  | stage => stage

def Reader.recast (r : Reader) : Reader := { r with source := source,stage := r.stage.recast source }

def Item.recast : Item → Item
  | .fault f skipped => .fault (f.recast source) skipped
  | item => item

def Progress.recast (p : Progress) : Progress := ⟨p.reader.recast source,p.items.map (Item.recast source),p.again⟩

open Progress (recast)

variable (r : Reader) (stop : Nat) (gap : Gap) (t : Token)

theorem recastLeave : (r.recast source).leave = r.leave.recast source := by
  rw [Reader.leave.eq_def,Reader.leave.eq_def]
  dsimp only [Reader.recast]
  split <;> rfl

theorem recastPast : (r.recast source).past t = (r.past t).recast source := by
  rw [past,past]
  split
  · rfl
  · split <;> rfl

theorem recastRule (skip bracketed gathered) :
    stepRule (r.recast source) stop gap skip bracketed gathered t =
      (stepRule r stop gap skip bracketed gathered t).recast source := by
  simp only [stepRule,recastPast,recastLeave,apply_ite (recast source)]
  rfl

theorem recastBroken (fault gathered) :
    stepBroken (r.recast source) gap (fault.recast source) gathered t =
      (stepBroken r gap fault gathered t).recast source := by
  simp only [stepBroken,recastPast,apply_ite (recast source)]
  rfl

theorem recastDeclaration : startDeclaration (r.recast source) stop gap t =
    (startDeclaration r stop gap t).recast source := by
  simp only [startDeclaration,apply_ite (recast source),← recastBroken]
  rfl

theorem recastItem : startItem (r.recast source) stop gap t = (startItem r stop gap t).recast source := by
  have same : (r.recast source).mode = r.mode := rfl
  rw [startItem,startItem,same]
  split <;> simp only [apply_ite (recast source),recastRule,recastDeclaration,recastLeave,recastPast] <;> rfl

theorem recastBlank : stepBlank (r.recast source) t = (stepBlank r t).recast source := by
  obtain ⟨modes,level,kept,text,stage⟩ := r
  cases stage with
  | idle =>
    simp only [stepBlank,recast,Reader.recast,Stage.recast,apply_ite (List.map (Item.recast source))]
    rfl
  | _ => rfl

theorem recastToken (start) : stepToken (r.recast source) start stop gap t =
    (stepToken r start stop gap t).recast source := by
  have same : (r.recast source).stage = r.stage.recast source := rfl
  rw [stepToken.eq_def,stepToken.eq_def,same]
  cases r.stage with
  | idle => exact recastItem source r stop gap t
  | star => exact recastDeclaration source r stop gap _
  | rule skip bracketed gathered => exact recastRule source r stop gap t skip bracketed gathered
  | broken fault gathered => exact recastBroken source r gap t fault gathered
  | atRule | customColon | customValue =>
    simp only [Stage.recast,stepAtRule,stepCustomColon,stepCustomValue,recastPast,recastLeave,
      apply_ite (recast source)]
    rfl
  | colon | value =>
    simp only [Stage.recast,stepColon,stepValue,recastPast,apply_ite (recast source),← recastBroken]
    rfl

theorem recastStep (start) : step (r.recast source) start gap t =
    ((step r start gap t).1.recast source,(step r start gap t).2.map (Item.recast source)) := by
  simp only [step,recastBlank,recastToken]
  split
  · rfl
  have same : ((stepToken r start (start + t.text.length) gap t).recast source).again =
      (stepToken r start (start + t.text.length) gap t).again := rfl
  rw [same]
  split
  · have next := recastItem source (stepToken r start (start + t.text.length) gap t).reader (start + t.text.length) {} t
    simp only [recast] at next ⊢
    rw [next,map_append]
  · rfl

theorem recastWalk (start ts) : walk (r.recast source) start gap ts =
    ((walk r start gap ts).1.recast source,(walk r start gap ts).2.1,(walk r start gap ts).2.2.map (Item.recast source)) := by
  induction ts generalizing r start gap with
  | nil => rfl
  | cons t ts ih => rw [walk,recastStep,ih,walk,map_append]

end

/- What holds of the tokens gathered for a value: no more blocks are open than the reader has met,
there are no blanks at the ends, and a blank is only dropped behind an operator. -/
structure Gathered (level : Int) (skip : Bool) (gathered : List Token) : Prop where
  deep : ((openings [] gathered).length : Int) ≤ level
  trimmed : trimTokens gathered = gathered
  starts : gathered = [] → skip = true
  joins : skip = false → ∀ t ∈ gathered.getLast?, t.kind ≠ .comma

/- The level is counted from zero, save behind a bracket too many in a broken statement and in a
block that is mere text. -/
structure Reader.IsOrderly (r : Reader) : Prop where
  raw : r.mode = .raw → r.stage = .idle
  level : r.mode ≠ .raw → (∀ fault gathered, r.stage ≠ .broken fault gathered) → 0 ≤ r.level
  value : ∀ name skip gathered, r.stage = .value name skip gathered → Gathered r.level skip gathered

section
variable {r : Reader} {stop : Nat} {gap : Gap} {t : Token}

theorem orderlyIdle (level : 0 ≤ r.level) : (r.toStage .idle).IsOrderly :=
  ⟨fun _ => rfl,fun _ _ => level,fun _ _ _ stage => by cases stage⟩

theorem pastMode : (r.past t).mode = r.mode := by
  rw [past]
  split
  · rfl
  · split <;> rfl

theorem pastLevel (level : 0 ≤ r.level) (inside : ¬(t.closes ∧ r.level = 0)) : 0 ≤ (r.past t).level := by
  rw [past]
  split
  · exact Int.add_nonneg level (by decide)
  split
  · rename_i closes
    have other : r.level ≠ 0 := fun zero => inside ⟨closes,zero⟩
    change 0 ≤ r.level - 1
    omega
  · exact level

theorem leaveLevel : r.leave.level = r.level := by
  rw [Reader.leave.eq_def]
  split <;> rfl

theorem openingsPush (gathered spaced) : openings [] (push gathered spaced t) =
    if t.opens then t :: openings [] gathered else if t.closes then (openings [] gathered).tail else openings [] gathered := by
  have blank : ∀ stack, openings stack [Token.space,t] = openings stack [t] := fun stack => rfl
  rw [push,openingsAppend]
  cases spaced with
  | false => rfl
  | true => exact blank _

theorem lastPush (gathered spaced) : (push gathered spaced t).getLast? = some t := by
  rw [push]
  cases spaced <;> simp

theorem gatheredPush {skip gathered} (good : Gathered r.level skip gathered)
    (solid : t.isBlank = false) (comma : t.kind = .comma → t.text = [44]) (level : 0 ≤ r.level)
    (inside : ¬(t.closes ∧ r.level = 0)) :
    Gathered (r.past t).level (t.spells [44,47,58,33,61])
      (push gathered ((gap.space || gap.comment) && !t.spells [44,47,58,33,61] && !skip) t) := by
  refine ⟨?_,?_,fun bare => ?_,fun plain u mem => ?_⟩
  · have deep := good.deep
    rw [openingsPush,past]
    split
    · change _ ≤ r.level + 1
      rw [length_cons]
      omega
    split
    · rename_i closes
      have other : r.level ≠ 0 := fun zero => inside ⟨closes,zero⟩
      change _ ≤ r.level - 1
      rw [length_tail]
      omega
    · exact deep
  · by_cases bare : gathered = []
    · rw [good.starts bare,bare]
      simp [push,trimTokens,trimEnd,solid]
    have first := trimmedFirst good.trimmed bare
    rw [push]
    split
    · have whole := trimmedConcat solid (first [Token.space])
      rwa [append_assoc] at whole
    · have whole := trimmedConcat solid (first [])
      rwa [append_nil] at whole
  · have last := @lastPush t gathered ((gap.space || gap.comment) && !t.spells [44,47,58,33,61] && !skip)
    rw [bare] at last
    cases last
  · rw [lastPush] at mem
    cases mem
    intro kind
    have spelled : t.spells [44,47,58,33,61] := by rw [Token.spells,comma kind]; rfl
    rw [spelled] at plain
    cases plain

theorem orderlyStage (known : r.mode ≠ .raw) (level : 0 ≤ r.level) {stage}
    (other : ∀ name skip gathered, stage ≠ .value name skip gathered) : (r.toStage stage).IsOrderly :=
  ⟨fun raw => absurd raw known,fun _ _ => level,fun name skip gathered same => absurd same (other name skip gathered)⟩

theorem orderlyMoves {s p} (known : r.mode ≠ .raw) (solid : t.isBlank = false)
    (comma : s ≠ .star → t.kind = .comma → t.text = [44]) (level : (∀ fault gathered, s ≠ .broken fault gathered) → 0 ≤ r.level)
    (value : ∀ name skip gathered, s = .value name skip gathered → Gathered r.level skip gathered)
    (moves : Moves r t s p) : p.reader.IsOrderly := by
  have past : (r.past t).mode ≠ .raw := by rwa [pastMode]
  cases moves with
  | atRule | name | customName | customColon => exact orderlyStage known (level (by simp)) (by simp)
  | colon =>
    refine ⟨fun raw => absurd raw known,fun _ _ => level (by simp),?_⟩
    rintro _ _ _ ⟨⟩
    exact ⟨level (by simp),rfl,fun _ => rfl,fun skip => by cases skip⟩
  | enterAtRule | enterRule => exact ⟨fun _ => rfl,fun _ _ => level (by simp),fun _ _ _ stage => by cases stage⟩
  | endPart inside => exact orderlyIdle (pastLevel (level (by simp)) inside)
  | endAtRule | endValue | endCustom => exact orderlyIdle (level (by simp))
  | moreAtRule inside | moreRule inside | moreCustom inside =>
    exact orderlyStage past (pastLevel (level (by simp)) inside) (by simp)
  | moreValue gap inside =>
    refine ⟨fun raw => absurd raw past,fun _ _ => pastLevel (level (by simp)) inside,?_⟩
    rintro _ _ _ ⟨⟩
    exact gatheredPush (value _ _ _ rfl) solid (comma (by simp)) (level (by simp)) inside
  | fault grounded => exact orderlyIdle (grounded.elim (fun zero => Int.le_of_eq zero.symm) level)
  | leave zero => exact orderlyIdle (Int.le_of_eq (leaveLevel.trans zero).symm)
  | breaks => exact ⟨fun raw => absurd raw past,fun _ whole => absurd rfl (whole _ _),fun _ _ _ same => by cases same⟩

theorem orderlyAt (idle : r.stage = .idle) (level : r.mode ≠ .raw → 0 ≤ r.level) : r.IsOrderly :=
  ⟨fun _ => idle,fun known _ => level known,fun _ _ _ stage => by rw [idle] at stage; cases stage⟩

theorem orderlyStarts {p} (orderly : r.IsOrderly) (idle : r.stage = .idle) (solid : t.isBlank = false)
    (comma : t.kind = .comma → t.text = [44]) (starts : Starts r t p) : p.reader.IsOrderly := by
  have level (known : r.mode ≠ .raw) : 0 ≤ r.level := orderly.level known fun _ _ same => by rw [idle] at same; cases same
  cases starts with
  | stay | speak => exact orderly
  | spell raw =>
    have still : (r.past t).mode = .raw := pastMode.trans raw
    exact orderlyAt ((pastStage r t).trans idle) fun known => absurd still known
  | close kept zero =>
    refine orderlyAt (leaveStage.trans idle) fun _ => ?_
    change 0 ≤ r.leave.level
    rw [leaveLevel]
    by_cases raw : r.mode = .raw
    · exact Int.le_of_eq (zero raw).symm
    · exact level raw
  | star known => exact orderlyStage known (level known) (by simp)
  | declare known moves | rule known moves =>
    exact orderlyMoves known solid (fun _ => comma) (fun _ => level known) (by simp) moves

theorem orderlyToken (orderly : r.IsOrderly) (solid : t.isBlank = false) (comma : t.kind = .comma → t.text = [44])
    (start) : (stepToken r start stop gap t).reader.IsOrderly := by
  by_cases idle : r.stage = .idle
  · exact orderlyStarts orderly idle solid comma (tokenStarts idle)
  have known : r.mode ≠ .raw := fun raw => idle (orderly.raw raw)
  refine orderlyMoves known ?_ (fun other => ?_) (orderly.level known) orderly.value (tokenMoves idle)
  · rw [taken]
    split <;> exact solid
  · rw [taken]
    split
    · exact absurd ‹_› other
    · exact comma

theorem orderlyBlank (orderly : r.IsOrderly) : (stepBlank r t).reader.IsOrderly := by
  rw [stepBlank]
  split
  · exact orderly
  · rename_i stage
    have known : r.mode ≠ .raw := fun raw => by rw [orderly.raw raw] at stage; cases stage
    refine orderlyStage known (orderly.level known fun _ _ same => ?_) fun _ _ _ same => by cases same
    rw [stage] at same
    cases same
  · exact orderly

theorem orderlyStep (orderly : r.IsOrderly) (comma : t.kind = .comma → t.text = [44]) (start) :
    (step r start gap t).1.IsOrderly := by
  rw [step]
  dsimp only
  split
  · exact orderlyBlank orderly
  rename_i solid
  have next := @orderlyToken r (start + t.text.length) gap t orderly (by simpa using solid) comma start
  split
  · rename_i again
    have quiet : (stepToken r start (start + t.text.length) gap t).IsQuiet r := tokenText.2 (.inr again)
    exact orderlyStarts next (quiet.again again).1 (by simpa using solid) comma itemStarts
  · exact next

theorem orderlyWalk (orderly : r.IsOrderly) (start) {ts : List Token}
    (commas : ∀ t ∈ ts, t.kind = .comma → t.text = [44]) : (walk r start gap ts).1.IsOrderly := by
  induction ts generalizing r start gap with
  | nil => exact orderly
  | cons t ts ih =>
    obtain ⟨first,others⟩ := forall_mem_cons.mp commas
    exact ih (orderlyStep orderly first start) _ others

end

theorem commaText (skip s) : ∀ t ∈ tokensFrom skip s, t.kind = .comma → t.text = [44] := by
  refine tokensEach (fun b s kind => ?_) skip s
  cases startComma (firstTokenStart b s) kind
  rfl

end Cascade
