import Cascade.Item.Reader

/-! What one token can make of the reader of items. All that lasts while a text is read is shown of these
moves. -/
namespace Cascade
open List

/- The moves out of a stage. A bracket too many ends a statement, unless it is already broken. -/
inductive Moves (r : Reader) (t : Token) : Stage → Progress → Prop where
  | atRule : Moves r t .star (startAtRule r t.text)
  | name (word : t.kind = .ident ∨ t.kind = .delim) :
      Moves r t .star ⟨r.toStage (.colon ⟨t.kind,lowerAscii t.text⟩),[],false⟩
  | customName (custom : t.kind = .customName) : Moves r t .star ⟨r.toStage (.customColon t.text),[],false⟩
  | colon {name} (colon : t.kind = .colon) : Moves r t (.colon name) ⟨r.toStage (.value name true []),[],false⟩
  | customColon {name} : Moves r t (.customColon name) ⟨r.toStage (.customValue name []),[],false⟩
  | enterAtRule {name first skip gathered} : Moves r t (.atRule name first skip gathered)
      ⟨r.enter (blockMode name),[.openAtRule name gathered],false⟩
  | enterRule {skip bracketed gathered} : Moves r t (.rule skip bracketed gathered)
      ⟨r.enter .declarations,[.openRule gathered],false⟩
  | endPart {skip bracketed gathered} (inside : ¬(t.closes ∧ r.level = 0)) :
      Moves r t (.rule skip bracketed gathered) ⟨(r.past t).toStage .idle,[.selectorPart gathered],false⟩
  | endAtRule {name first skip gathered again} : Moves r t (.atRule name first skip gathered)
      ⟨r.toStage .idle,[.atRule name gathered],again⟩
  | endValue {name skip gathered again} : Moves r t (.value name skip gathered)
      ⟨r.toStage .idle,[.declaration name.text gathered],again⟩
  | endCustom {name value again} : Moves r t (.customValue name value) ⟨r.toStage .idle,[.custom name value],again⟩
  | moreAtRule {name first skip gathered spaced skip'} (inside : ¬(t.closes ∧ r.level = 0)) :
      Moves r t (.atRule name first skip gathered)
        ⟨(r.past t).toStage (.atRule name false skip' (push gathered spaced t)),[],false⟩
  | moreRule {skip bracketed gathered spaced skip' bracketed'} (inside : ¬(t.closes ∧ r.level = 0))
      (apart : ¬t.spells [44]) : Moves r t (.rule skip bracketed gathered)
        ⟨(r.past t).toStage (.rule skip' bracketed' (push gathered spaced t)),[],false⟩
  | moreValue {name skip gathered} (gap : Gap) (inside : ¬(t.closes ∧ r.level = 0)) :
      Moves r t (.value name skip gathered) ⟨(r.past t).toStage (.value name (t.spells [44,47,58,33,61])
        (push gathered ((gap.space || gap.comment) && !t.spells [44,47,58,33,61] && !skip) t)),[],false⟩
  | moreCustom {name value} (inside : ¬(t.closes ∧ r.level = 0)) : Moves r t (.customValue name value)
      ⟨(r.past t).toStage (.customValue name (value ++ t.text)),[],false⟩
  | fault {s f skipped again} (level : r.level = 0 ∨ ∀ f skipped, s ≠ .broken f skipped) :
      Moves r t s ⟨r.toStage .idle,[.fault f skipped],again⟩
  | leave {s f skipped} (level : r.level = 0) : Moves r t s ⟨r.leave.toStage .idle,[.fault f skipped],false⟩
  | breaks {s f skipped} : Moves r t s ⟨(r.past t).toStage (.broken f skipped),[],false⟩

/- The moves of a reader that is idle; only in a block that is mere text it stays so until the block ends. -/
inductive Starts (r : Reader) (t : Token) : Progress → Prop where
  | stay : Starts r t ⟨r,[],false⟩
  | speak (sheet : r.mode = .stylesheet) : Starts r t ⟨r,[.text t.text],false⟩
  | spell (raw : r.mode = .raw) : Starts r t ⟨{ r.past t with keepBlanks := true },[.text t.text],false⟩
  | close (kept : Bool) (level : r.mode = .raw → r.level = 0) :
      Starts r t ⟨{ r.leave with keepBlanks := kept },[.close],false⟩
  | star (known : r.mode ≠ .raw) : Starts r t ⟨r.toStage .star,[],false⟩
  | declare {p} (known : r.mode ≠ .raw) (moves : Moves r t .star p) : Starts r t p
  | rule {p} (known : r.mode ≠ .raw) (moves : Moves r t (.rule true false []) p) : Starts r t p

section
variable {r : Reader} {t : Token} {start stop : Nat} {gap : Gap}

theorem atRuleMoves (name first skip gathered) :
    Moves r t (.atRule name first skip gathered) (stepAtRule r stop gap name first skip gathered t) := by
  rw [stepAtRule]
  split
  · exact .enterAtRule
  split
  · exact .endAtRule
  split
  · rename_i ends
    exact .leave ends.2
  · rename_i inside
    exact .moreAtRule inside

theorem ruleMoves (skip bracketed gathered) :
    Moves r t (.rule skip bracketed gathered) (stepRule r stop gap skip bracketed gathered t) := by
  rw [stepRule]
  split
  · exact .enterRule
  split
  · rename_i ends
    exact .leave ends.2
  rename_i inside
  split
  · exact .endPart inside
  · rename_i apart
    exact .moreRule inside apart

theorem brokenMoves {s} (f gathered) : Moves r t s (stepBroken r gap f gathered t) := by
  rw [stepBroken]
  split
  · rename_i ends
    exact .fault (.inl ends.2)
  · exact .breaks

theorem colonMoves (name) : Moves r t (.colon name) (stepColon r start gap name t) := by
  rw [stepColon]
  split
  · rename_i colon
    exact .colon colon
  · exact brokenMoves _ _

theorem valueMoves (name skip gathered) :
    Moves r t (.value name skip gathered) (stepValue r stop gap name skip gathered t) := by
  rw [stepValue]
  split
  · exact .endValue
  split
  · exact brokenMoves _ _
  · rename_i inside
    exact .moreValue gap inside

theorem customColonMoves (name) : Moves r t (.customColon name) (stepCustomColon r start name t) := by
  rw [stepCustomColon]
  split
  · exact .customColon
  · exact .fault (.inr fun _ _ => nofun)

theorem customValueMoves (name value) : Moves r t (.customValue name value) (stepCustomValue r stop name value t) := by
  rw [stepCustomValue]
  split
  · exact .endCustom
  split
  · rename_i ends
    exact .fault (.inl ends.2)
  · rename_i inside
    exact .moreCustom inside

theorem declarationMoves : Moves r t .star (startDeclaration r stop gap t) := by
  rw [startDeclaration]
  split
  · exact .atRule
  split
  · rename_i word
    exact .name word
  split
  · rename_i custom
    exact .customName custom
  dsimp only
  split
  · exact .fault (.inr fun _ _ => nofun)
  · exact brokenMoves _ _

theorem itemStarts : Starts r t (startItem r stop gap t) := by
  rw [startItem]
  split
  · rename_i sheet
    have known : r.mode ≠ .raw := by rw [sheet]; decide
    split
    · exact .speak sheet
    · split
      · exact .declare known .atRule
      · exact .rule known (ruleMoves _ _ _)
  · rename_i rules
    have known : r.mode ≠ .raw := by rw [rules]; decide
    split
    · exact .close _ fun raw => absurd raw known
    · split
      · exact .declare known .atRule
      · exact .rule known (ruleMoves _ _ _)
  · rename_i raw
    split
    · rename_i ends
      exact .close _ fun _ => ends.2
    · exact .spell raw
  · rename_i inline
    have known : r.mode ≠ .raw := by rw [inline]; decide
    split
    · exact .stay
    · split
      · exact .star known
      · exact .declare known declarationMoves
  · rename_i _ _ known _
    split
    · exact .stay
    split
    · exact .close _ fun raw => absurd raw known
    · split
      · exact .star known
      · exact .declare known declarationMoves

def Reader.taken (r : Reader) (t : Token) : Token :=
  match r.stage with
  | .star => ⟨t.kind,42 :: t.text⟩
  | _ => t

theorem tokenMoves (busy : r.stage ≠ .idle) : Moves r (r.taken t) r.stage (stepToken r start stop gap t) := by
  rw [stepToken,Reader.taken]
  cases stage : r.stage with
  | idle => exact absurd stage busy
  | star => exact declarationMoves
  | atRule => exact atRuleMoves _ _ _ _
  | rule => exact ruleMoves _ _ _
  | colon => exact colonMoves _
  | value => exact valueMoves _ _ _
  | broken => exact brokenMoves _ _
  | customColon => exact customColonMoves _
  | customValue => exact customValueMoves _ _

theorem tokenStarts (idle : r.stage = .idle) : Starts r t (stepToken r start stop gap t) := by
  rw [stepToken,idle]
  exact itemStarts

theorem pastStage (r : Reader) (t) : (r.past t).stage = r.stage := by
  rw [Reader.past]
  split
  · rfl
  · split <;> rfl

theorem leaveStage : r.leave.stage = r.stage := by
  rw [Reader.leave.eq_def]
  split <;> rfl

end

/- What the moves keep of the stages, and what holds of the items they complete, while all tokens are as
they should be. -/
structure Lasts (T : Token → Prop) (P : Stage → Prop) (Q : Item → Prop) : Prop where
  starred : ∀ {t : Token}, T t → T ⟨t.kind,42 :: t.text⟩
  star : P .star
  rule : P (.rule true false [])
  custom : ∀ {name value : Bytes} (text : Bytes), P (.customValue name value) → P (.customValue name (value ++ text))
  text : ∀ text, Q (.text text)
  close : Q .close
  moves : ∀ {r : Reader} {t : Token} {s : Stage} {p : Progress}, T t → P s → Moves r t s p →
    P p.reader.stage ∧ ∀ i ∈ p.items, Q i

section
variable {T : Token → Prop} {P : Stage → Prop} {Q : Item → Prop} (lasts : Lasts T P Q)
include lasts
variable {r : Reader} {t : Token} (start : Nat) {gap : Gap}

theorem startLasts {p} (here : T t) (kept : P r.stage) (starts : Starts r t p) :
    P p.reader.stage ∧ ∀ i ∈ p.items, Q i := by
  cases starts with
  | stay => exact ⟨kept,forall_mem_nil _⟩
  | speak => exact ⟨kept,forall_mem_singleton.mpr (lasts.text _)⟩
  | spell => exact ⟨(pastStage r t).symm ▸ kept,forall_mem_singleton.mpr (lasts.text _)⟩
  | close => exact ⟨leaveStage.symm ▸ kept,forall_mem_singleton.mpr lasts.close⟩
  | star => exact ⟨lasts.star,forall_mem_nil _⟩
  | declare _ moves => exact lasts.moves here lasts.star moves
  | rule _ moves => exact lasts.moves here lasts.rule moves

theorem tokenLasts (here : T t) (kept : P r.stage) (stop) :
    P (stepToken r start stop gap t).reader.stage ∧ ∀ i ∈ (stepToken r start stop gap t).items, Q i := by
  by_cases idle : r.stage = .idle
  · exact startLasts lasts here kept (tokenStarts idle)
  have taken : T (r.taken t) := by
    rw [Reader.taken]
    split
    · exact lasts.starred here
    · exact here
  exact lasts.moves taken kept (tokenMoves idle)

theorem blankLasts (kept : P r.stage) : P (stepBlank r t).reader.stage ∧ ∀ i ∈ (stepBlank r t).items, Q i := by
  rw [stepBlank.eq_def]
  split
  · refine ⟨kept,?_⟩
    dsimp only
    split
    · exact forall_mem_singleton.mpr (lasts.text _)
    · exact forall_mem_nil _
  · rename_i stage
    rw [stage] at kept
    exact ⟨lasts.custom _ kept,forall_mem_nil _⟩
  · exact ⟨kept,forall_mem_nil _⟩

theorem stepLasts (here : T t) (kept : P r.stage) :
    P (step r start gap t).1.stage ∧ ∀ i ∈ (step r start gap t).2, Q i := by
  rw [step]
  dsimp only
  split
  · exact blankLasts lasts kept
  have first := @tokenLasts T P Q lasts r t start gap here kept (start + t.text.length)
  split
  · have second := startLasts lasts here first.1 (@itemStarts _ t (start + t.text.length) {})
    exact ⟨second.1,forall_mem_append.mpr ⟨first.2,second.2⟩⟩
  · exact first

theorem readLasts {ts} (all : ∀ t ∈ ts, T t) (kept : P r.stage) (ends : Q .endOfInput)
    (last : ∀ (r : Reader) (stop : Nat), P r.stage → ∀ i ∈ lastItem r stop, Q i) : ∀ i ∈ read r start gap ts, Q i := by
  induction ts generalizing r start gap with
  | nil =>
    rw [read,closings]
    refine forall_mem_append.mpr ⟨last r start kept,forall_mem_append.mpr ⟨fun i mem => ?_,?_⟩⟩
    · rw [eq_of_mem_replicate mem]
      exact lasts.close
    · exact forall_mem_singleton.mpr ends
  | cons t ts ih =>
    obtain ⟨here,others⟩ := forall_mem_cons.mp all
    have first := @stepLasts T P Q lasts r t start gap here kept
    rw [read]
    exact forall_mem_append.mpr ⟨first.2,ih _ others first.1⟩

end

end Cascade
