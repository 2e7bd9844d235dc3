import Cascade.Proofs.ParsedSelector
import Cascade.Sheet.Reader

/-! What a text is read as: selectors that say something, and values of components that stay. -/
namespace Cascade
open List
open Noted (valueBind)

theorem tokenSteady (t) : (tokenValue t).isSteady := by
  rw [tokenValue]
  split
  case h_4 => split <;> rfl
  all_goals rfl

theorem readCallSteady (name args) : (readCall name args).isSteady := by
  rw [readCall.eq_def]
  dsimp only
  split
  · rfl
  · rfl
  · split
    · split <;> rfl
    · rfl

def Declaration.Steady : Declaration → Prop
  | .property _ value .. => ∀ t ∈ value, t.value.isSteady = true
  | .filter .. => True

theorem readTermsSteady (op ts) : ∀ t ∈ readTerms op ts, t.value.isSteady := by
  cases ts with
  | nil =>
    rw [readTerms]
    exact forall_mem_nil _
  | cons u rest =>
    have short := behindLength 0 rest
    rw [readTerms]
    repeat' split
    · exact readTermsSteady op rest
    · exact readTermsSteady 44 rest
    · exact readTermsSteady 47 rest
    · exact readTermsSteady 61 rest
    · exact forall_mem_cons.mpr ⟨readCallSteady ..,readTermsSteady 0 _⟩
    · exact forall_mem_cons.mpr ⟨rfl,readTermsSteady 0 _⟩
    · exact forall_mem_cons.mpr ⟨tokenSteady u,readTermsSteady 0 rest⟩
termination_by ts.length
decreasing_by
  all_goals
    simp only [length_cons]
    omega

theorem readDeclarationSteady (name ts) : (readDeclaration name ts).Steady := by
  rw [readDeclaration]
  dsimp only
  split
  · trivial
  · exact readTermsSteady 0 _

theorem readSelectorFull (ts) : ∀ s ∈ (readSelector ts).value, s.Full ∧ s.isList = false := by
  intro s mem
  obtain ⟨parsed,single⟩ := readSelectorParsed ts s mem
  exact ⟨parsedFull parsed,single⟩

mutual

def Rule.WellRead : Rule → Prop
  | .ruleset selector content => selector.Full ∧ ∀ d ∈ content, d.Steady
  | .media _ content | .supports _ content => Rule.AllWellRead content
  | .component c => c.Full
  | _ => True

def Rule.AllWellRead : List Rule → Prop
  | [] => True
  | r :: rs => r.WellRead ∧ Rule.AllWellRead rs

end

theorem allWellRead {rs} : Rule.AllWellRead rs ↔ ∀ r ∈ rs, r.WellRead := by
  induction rs with
  | nil => simp [Rule.AllWellRead]
  | cons r rs ih => simp [Rule.AllWellRead,ih]

def Rule.isFlat : Rule → Bool
  | .ruleset .. | .media .. | .supports .. | .stop _ | .query _ | .feature _ | .component _ => false
  | _ => true

structure Rule.IsMade (P : Rule → Prop) : Prop where
  ruleset : ∀ selector content, selector.Full → (∀ d ∈ content, d.Steady) → P (.ruleset selector content)
  media : ∀ queries content, (∀ r ∈ content, P r) → P (.media queries content)
  supports : ∀ condition content, (∀ r ∈ content, P r) → P (.supports condition content)
  flat : ∀ r : Rule, r.isFlat = true → P r

def Contents.Made (P : Rule → Prop) (c : Contents) : Prop := (∀ r ∈ c.1, P r) ∧ ∀ d ∈ c.2, d.Steady

structure Frame.Made (P : Rule → Prop) (f : Frame) : Prop where
  rules : ∀ r ∈ f.rules, P r
  declarations : ∀ d ∈ f.declarations, d.Steady
  selectors : ∀ s ∈ f.selectors, s.Full ∧ s.isList = false

section
variable {P : Rule → Prop}

theorem emptyMade (opening keyframes) :
    Frame.Made P { opening := opening,keyframes := keyframes } := ⟨nofun,nofun,nofun⟩

theorem eachIf {c} [Decidable c] {a b : Option Rule} (left : ∀ r ∈ a, P r) (right : ∀ r ∈ b, P r) :
    ∀ r ∈ if c then a else b, P r := by
  split
  · exact left
  · exact right

theorem eachSome {rule} (holds : P rule) : ∀ r ∈ some rule, P r := by
  rintro r ⟨⟩
  exact holds

section
variable {f : Frame} (made : f.Made P)
include made

theorem addRuleMade {rule} (each : ∀ r ∈ rule, P r) : (f.addRule rule).Made P := by
  refine ⟨forall_mem_append.mpr ⟨made.rules,fun r new => ?_⟩,made.declarations,made.selectors⟩
  exact each r (Option.mem_toList.mp new)

theorem addDeclarationMade {d} (steady : d.Steady) : (f.addDeclaration d).Made P := by
  exact ⟨made.rules,forall_mem_append.mpr ⟨made.declarations,forall_mem_singleton.mpr steady⟩,made.selectors⟩

theorem addSelectorMade (ts) : (f.addSelector ts).value.Made P := by
  have read := readSelectorFull (trimTokens ts)
  rw [Frame.addSelector]
  split
  · exact ⟨made.rules,made.declarations,made.selectors⟩
  rw [valueBind]
  split
  · rename_i s found
    exact ⟨made.rules,made.declarations,forall_mem_append.mpr ⟨made.selectors,forall_mem_singleton.mpr (read s found)⟩⟩
  · exact ⟨made.rules,made.declarations,made.selectors⟩

theorem addPieceMade (piece) : (f.addPiece piece).value.Made P := by
  rw [Frame.addPiece]
  split
  · exact addSelectorMade made _
  · exact ⟨made.rules,made.declarations,made.selectors⟩

theorem contentsMade {reread} (again : ∀ text, (reread text).value.Made P) : (f.contents reread).value.Made P := by
  rw [Frame.contents]
  split
  · exact ⟨made.rules,made.declarations⟩
  · obtain ⟨rules,declarations⟩ := again f.raw
    rw [valueBind]
    exact ⟨forall_mem_append.mpr ⟨made.rules,rules⟩,forall_mem_append.mpr ⟨made.declarations,declarations⟩⟩

end

variable (kept : Rule.IsMade P)
include kept

theorem headerMade (h : Header) {rules} (ds) (each : ∀ r ∈ rules, P r) : ∀ r ∈ h.rule rules ds, P r := by
  have supports : ∀ r ∈ h.condition.map (fun c => Rule.supports c rules), P r := by
    intro r made
    obtain ⟨_,_,rfl⟩ := Option.map_eq_some_iff.mp made
    exact kept.supports _ _ each
  rw [Header.rule]
  repeat' apply eachIf
  all_goals first
    | exact eachSome (kept.flat _ rfl)
    | exact eachSome (kept.media _ _ each)
    | exact supports
    | exact nofun

theorem acceptMade {f : Frame} (made : f.Made P) {inner} (opening) (good : inner.Made P) :
    (f.accept opening inner).value.Made P := by
  rw [Frame.accept.eq_def]
  split
  · exact made
  · have ruled : ∀ rule : Option Rule, (∀ r ∈ rule, P r) →
        Frame.Made P { f.addRule rule with selectors := [],stops := [] } := by
      intro rule each
      have added := addRuleMade made each
      exact ⟨added.rules,added.declarations,nofun⟩
    refine ruled _ ?_
    split
    · exact eachSome (kept.flat _ rfl)
    split
    · exact nofun
    · rename_i full
      exact eachSome (kept.ruleset _ _ (ofSelectorsFull (by simpa using full) made.selectors) good.2)
  · have added := fun h : Header => addRuleMade made (headerMade kept h inner.2 good.1)
    dsimp only
    split
    · exact added _
    · exact added _

omit kept in
theorem afterNote {α} (c) [Decidable c] (note a) :
    (if c then Noted.note note >>= fun _ => pure a else pure a : Noted α).value = a := by
  split <;> rfl

theorem atRuleMade (name ts) : ∀ r ∈ (readAtRule name ts).value, P r := by
  have charset : ∀ r ∈ readCharset (trimTokens ts), P r := by
    intro r made
    rw [readCharset.eq_def] at made
    split at made <;> cases made
    exact kept.flat _ rfl
  have imports : ∀ r ∈ (readImport (trimTokens ts)).value, P r := by
    intro r made
    rw [readImport.eq_def] at made
    split at made <;> cases made
    exact kept.flat _ rfl
  have namespaces : ∀ r ∈ readNamespace (trimTokens ts), P r := by
    intro r made
    unfold readNamespace at made
    dsimp only at made
    split at made
    · split at made <;> cases made
      exact kept.flat _ rfl
    · cases made
  intro r made
  rw [readAtRule] at made
  split at made
  · rw [valueBind,afterNote] at made
    exact charset r made
  split at made
  · rw [valueBind,afterNote] at made
    exact imports r made
  split at made
  · rw [valueBind,afterNote] at made
    exact namespaces r made
  · rw [valueBind,afterNote] at made
    cases made

section
variable {reread : Bytes → Noted Contents} (again : ∀ text, (reread text).value.Made P)
include again

theorem closeAllMade {f} (made : f.Made P) {stack} (below : ∀ g ∈ stack, g.Made P) :
    (closeAll reread f stack).value.Made P := by
  induction stack generalizing f with
  | nil => exact contentsMade made again
  | cons outer stack ih =>
    have outside := below outer mem_cons_self
    rw [closeAll,valueBind,valueBind]
    exact ih (acceptMade kept outside f.opening (contentsMade made again)) fun g mem => below g (mem_cons_of_mem _ mem)

theorem assembleMade {f} (made : f.Made P) {stack} (below : ∀ g ∈ stack, g.Made P)
    (items) : (assemble reread f stack items).value.Made P := by
  induction items generalizing f stack with
  | nil => exact closeAllMade kept again made below
  | cons item items ih =>
    have pushed : ∀ {opening keyframes} {f : Frame}, f.Made P →
        (assemble reread { opening := opening,keyframes := keyframes } (f :: stack) items).value.Made P :=
      fun made => ih (emptyMade ..) (forall_mem_cons.mpr ⟨made,below⟩)
    rw [assemble.eq_def]
    cases item with
    | fault => exact ih made below
    | endOfInput | close =>
      cases stack with
      | nil => exact contentsMade made again
      | cons outer stack =>
        obtain ⟨outside,beyond⟩ := forall_mem_cons.mp below
        exact ih (acceptMade kept outside f.opening (contentsMade made again)) beyond
    | text text =>
      have later : Frame.Made P { f with raw := f.raw ++ text } := ⟨made.rules,made.declarations,made.selectors⟩
      exact ih later below
    | atRule name ts => exact ih (addRuleMade made (atRuleMade kept name ts)) below
    | openAtRule => exact pushed made
    | selectorPart piece => exact ih (addPieceMade made piece) below
    | openRule piece => exact pushed (addSelectorMade made _)
    | declaration name value => exact ih (addDeclarationMade made (readDeclarationSteady name value)) below
    | custom name value =>
      have steady : (customDeclaration name value).Steady := forall_mem_cons.mpr ⟨rfl,nofun⟩
      exact ih (addDeclarationMade made steady) below

end

theorem readContentsMade (depth mode text) : (readContents depth mode text).value.Made P := by
  induction depth generalizing mode text with
  | zero => exact ⟨nofun,nofun⟩
  | succ depth ih =>
    rw [readContents]
    exact assembleMade kept (ih .inline) (emptyMade ..) (forall_mem_nil _) _

omit kept in
theorem sheetMade {rules : List Rule} (each : ∀ r ∈ rules, P r) {s} (made : ∀ r ∈ s.content, P r) :
    ∀ r ∈ (rules.foldl Stylesheet.add s).content, P r := by
  induction rules generalizing s with
  | nil => exact made
  | cons rule rules ih =>
    obtain ⟨first,others⟩ := forall_mem_cons.mp each
    refine ih others ?_
    rw [Stylesheet.add.eq_def]
    split
    · split <;> exact made
    · exact made
    · exact made
    · exact forall_mem_append.mpr ⟨made,forall_mem_singleton.mpr first⟩

theorem readMade (bytes) : ∀ r ∈ (Stylesheet.read bytes).value.content, P r := by
  have contents := readContentsMade kept ((sourceText bytes).length + 2) .stylesheet (sourceText bytes)
  have sheet := @sheetMade P _ contents.1 {} (forall_mem_nil _)
  rw [Stylesheet.read,Stylesheet.ofText,valueBind]
  dsimp only
  split
  · exact sheet
  · exact sheet

end

theorem wellReadMade : Rule.IsMade Rule.WellRead where
  ruleset _ _ full steady := ⟨full,steady⟩
  media _ _ each := allWellRead.mpr each
  supports _ _ each := allWellRead.mpr each
  flat r flat := by cases r <;> trivial

end Cascade
