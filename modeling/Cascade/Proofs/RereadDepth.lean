import Cascade.Proofs.ItemMoves
import Cascade.Sheet.Reader

/-! The text of unknown blocks is read again, and each such text is shorter than the one it was
read from. A depth beyond the length of the text changes nothing. -/
namespace Cascade
open List

def rawLength : List Item → Nat
  | [] => 0
  | .text text :: items => text.length + rawLength items
  | _ :: items => rawLength items

theorem rawLengthAppend (before items) : rawLength (before ++ items) = rawLength before + rawLength items := by
  induction before with
  | nil => exact (Nat.zero_add _).symm
  | cons item before ih =>
    cases item <;> simp only [cons_append,rawLength,ih]
    exact (Nat.add_assoc ..).symm

section
variable {reread reread' : Bytes → Noted Contents} {bound : Nat}

theorem bindSame {α β x} {k k' : α → Noted β} (same : k x.value = k' x.value) : x >>= k = x >>= k' := by
  simp only [Bind.bind,same]

theorem selectorRaw (f : Frame) (ts) : (f.addSelector ts).value.raw = f.raw := by
  rw [Frame.addSelector]
  split
  · rfl
  · rw [Noted.valueBind]
    split <;> rfl

theorem pieceRaw (f : Frame) (piece) : (f.addPiece piece).value.raw = f.raw := by
  rw [Frame.addPiece]
  split
  · exact selectorRaw f _
  · rfl

theorem acceptRaw (f : Frame) (opening inner) : (f.accept opening inner).value.raw = f.raw := by
  cases opening with
  | outermost => rfl
  | rule => rfl
  | atRule h =>
    simp only [Frame.accept]
    split <;> rfl

variable (same : ∀ u, u ≠ [] → u.length ≤ bound → reread u = reread' u)
include same

theorem contentsSame {f : Frame} (fits : f.raw.length ≤ bound) : f.contents reread = f.contents reread' := by
  rw [Frame.contents,Frame.contents]
  split
  · rfl
  · rename_i full
    rw [same f.raw (by simpa using full) fits]

theorem closeAllSame {f stack} (fits : ∀ g ∈ f :: stack, g.raw.length ≤ bound) :
    closeAll reread f stack = closeAll reread' f stack := by
  induction stack generalizing f with
  | nil => exact contentsSame same (fits f mem_cons_self)
  | cons outer stack ih =>
    obtain ⟨here,below⟩ := forall_mem_cons.mp fits
    obtain ⟨next,others⟩ := forall_mem_cons.mp below
    rw [closeAll,closeAll,contentsSame same here]
    refine bindSame (bindSame (ih (forall_mem_cons.mpr ⟨?_,others⟩)))
    rw [acceptRaw]
    exact next

theorem assembleSame {f stack items} (fits : ∀ g ∈ f :: stack, g.raw.length + rawLength items ≤ bound) :
    assemble reread f stack items = assemble reread' f stack items := by
  induction items generalizing f stack with
  | nil => exact closeAllSame same fits
  | cons item items ih =>
    obtain ⟨here,below⟩ := forall_mem_cons.mp fits
    have kept : ∀ {g : Frame}, g.raw = f.raw → rawLength (item :: items) = rawLength items →
        assemble reread g stack items = assemble reread' g stack items := by
      intro g raw rest
      rw [rest] at here below
      refine ih (forall_mem_cons.mpr ⟨?_,below⟩)
      rw [raw]
      exact here
    have pushed : ∀ {g h : Frame}, g.raw = [] → h.raw = f.raw → rawLength (item :: items) = rawLength items →
        assemble reread g (h :: stack) items = assemble reread' g (h :: stack) items := by
      intro g h bare raw rest
      rw [rest] at here below
      refine ih (forall_mem_cons.mpr ⟨?_,forall_mem_cons.mpr ⟨?_,below⟩⟩)
      · rw [bare,length_nil]
        omega
      · rw [raw]
        exact here
    have popped : item = .endOfInput ∨ item = .close →
        assemble reread f stack (item :: items) = assemble reread' f stack (item :: items) := by
      intro ends
      have rest : rawLength (item :: items) = rawLength items := by rcases ends with rfl | rfl <;> rfl
      have now : f.contents reread = f.contents reread' := contentsSame same (by omega)
      cases stack with
      | nil => rcases ends with rfl | rfl <;> exact now
      | cons outer stack =>
        obtain ⟨next,others⟩ := forall_mem_cons.mp below
        rw [rest] at next others
        have further : (f.contents reread >>= fun inner => outer.accept f.opening inner >>= fun outer =>
            assemble reread outer stack items) = f.contents reread' >>= fun inner =>
              outer.accept f.opening inner >>= fun outer => assemble reread' outer stack items := by
          rw [now]
          refine bindSame (bindSame (ih (forall_mem_cons.mpr ⟨?_,others⟩)))
          rw [acceptRaw]
          exact next
        rcases ends with rfl | rfl <;> exact further
    cases item with
    | fault fault skipped => exact bindSame (kept rfl rfl)
    | endOfInput => exact popped (.inl rfl)
    | close => exact popped (.inr rfl)
    | text text =>
      rw [assemble,assemble]
      refine ih (forall_mem_cons.mpr ⟨?_,fun g mem => ?_⟩)
      · rw [rawLength] at here
        rw [length_append]
        omega
      · have fits := below g mem
        rw [rawLength] at fits
        omega
    | atRule name prelude => exact bindSame (kept rfl rfl)
    | openAtRule name prelude => exact bindSame (pushed rfl rfl rfl)
    | selectorPart piece => exact bindSame (kept (pieceRaw f piece) rfl)
    | openRule piece => exact bindSame (pushed rfl (selectorRaw f _) rfl)
    | declaration name value => exact kept rfl rfl
    | custom name value => exact kept rfl rfl

end

structure Reader.IsCalm (r : Reader) : Prop where
  notRaw : r.mode ≠ .raw
  notSheet : r.mode ≠ .stylesheet
  unspaced : r.keepBlanks = false

structure Progress.IsQuiet (r : Reader) (p : Progress) : Prop where
  items : rawLength p.items = 0
  again : p.again = true → p.reader.stage = .idle ∧ p.reader.modes = r.modes ∧ p.reader.keepBlanks = r.keepBlanks

section
variable {r : Reader} {stop : Nat} {gap : Gap} {t : Token}

theorem onceQuiet {p : Progress} (items : rawLength p.items = 0) (once : p.again = false) : p.IsQuiet r :=
  ⟨items,fun again => absurd (once.symm.trans again) Bool.false_ne_true⟩

theorem movesQuiet {s p} (moves : Moves r t s p) : p.IsQuiet r := by
  cases moves with
  | endAtRule | endValue | endCustom | fault => exact ⟨rfl,fun _ => ⟨rfl,rfl,rfl⟩⟩
  | _ => exact onceQuiet rfl rfl

theorem startText {p} (starts : Starts r t p) : rawLength p.items ≤ t.text.length ∧
    (r.IsCalm ∨ p.again → p.IsQuiet r) := by
  have quiet : ∀ p : Progress, p.IsQuiet r → rawLength p.items ≤ t.text.length ∧
      (r.IsCalm ∨ p.again → p.IsQuiet r) := fun p quiet => ⟨by rw [quiet.items]; exact Nat.zero_le _,fun _ => quiet⟩
  have whole : rawLength [.text t.text] ≤ t.text.length := Nat.le_refl _
  cases starts with
  | speak sheet =>
    refine ⟨whole,fun full => ?_⟩
    rcases full with calm | again
    · exact absurd sheet calm.notSheet
    · cases again
  | spell raw =>
    refine ⟨whole,fun full => ?_⟩
    rcases full with calm | again
    · exact absurd raw calm.notRaw
    · cases again
  | declare _ moves | rule _ moves => exact quiet _ (movesQuiet moves)
  | _ => exact quiet _ (onceQuiet rfl rfl)

theorem tokenText {start} : rawLength (stepToken r start stop gap t).items ≤ t.text.length ∧
    (r.IsCalm ∨ (stepToken r start stop gap t).again → (stepToken r start stop gap t).IsQuiet r) := by
  by_cases idle : r.stage = .idle
  · exact startText (tokenStarts idle)
  · have quiet : (stepToken r start stop gap t).IsQuiet r := movesQuiet (tokenMoves idle)
    exact ⟨by rw [quiet.items]; exact Nat.zero_le _,fun _ => quiet⟩

theorem blankText : rawLength (stepBlank r t).items ≤ t.text.length ∧
    (r.keepBlanks = false → rawLength (stepBlank r t).items = 0) := by
  rw [stepBlank]
  split
  · dsimp only
    split
    · rename_i kept
      exact ⟨Nat.le_refl _,fun unspaced => absurd (unspaced.symm.trans kept.2) Bool.false_ne_true⟩
    · exact ⟨Nat.zero_le _,fun _ => rfl⟩
  · exact ⟨Nat.zero_le _,fun _ => rfl⟩
  · exact ⟨Nat.zero_le _,fun _ => rfl⟩

theorem spokenText (start) : rawLength (step r start gap t).2 ≤ t.text.length ∧
    (r.IsCalm → rawLength (step r start gap t).2 = 0) := by
  rw [step]
  dsimp only
  split
  · exact ⟨blankText.1,fun calm => blankText.2 calm.unspaced⟩
  obtain ⟨bounded,quiet⟩ : _ ∧ (r.IsCalm ∨ _ → _) := @tokenText r (start + t.text.length) gap t start
  split
  · rename_i again
    have first := quiet (.inr again)
    obtain ⟨_,modes,unspaced⟩ := first.again again
    rw [rawLengthAppend,first.items,Nat.zero_add]
    refine ⟨(startText itemStarts).1,fun calm => ((startText itemStarts).2 (.inl ⟨?_,?_,?_⟩)).items⟩
    · rw [Reader.mode,modes]
      exact calm.notRaw
    · rw [Reader.mode,modes]
      exact calm.notSheet
    · rw [unspaced]
      exact calm.unspaced
  · exact ⟨bounded,fun calm => (quiet (.inl calm)).items⟩

end

def textLength (ts : List Token) : Nat := (ts.flatMap Token.text).length

theorem textLengthCons (t ts) : textLength (t :: ts) = t.text.length + textLength ts := by
  rw [textLength,flatMap_cons,length_append]
  rfl

theorem lastItemText (r stop) : rawLength (lastItem r stop ++ closings r) = 0 := by
  have closed : rawLength (closings r) = 0 := by
    have each : ∀ n, rawLength (List.replicate n .close) = 0 := by
      intro n
      induction n with
      | zero => rfl
      | succ n ih => exact ih
    rw [closings,rawLengthAppend,each]
    rfl
  have last : rawLength (lastItem r stop) = 0 := by
    rw [lastItem]
    split <;> rfl
  rw [rawLengthAppend,last,closed]

theorem readText (r start gap ts) : rawLength (read r start gap ts) ≤ textLength ts := by
  induction ts generalizing r start gap with
  | nil => exact Nat.le_of_eq (lastItemText r start)
  | cons t ts ih =>
    have first : rawLength (step r start gap t).2 ≤ t.text.length := (spokenText start).1
    have others := ih (step r start gap t).1 (start + t.text.length) (gap.after t)
    rw [read,rawLengthAppend,textLengthCons]
    exact Nat.add_le_add first others

theorem calmText {ts : List Token} (full : ∀ t ∈ ts, t.text ≠ []) (r) (calm : r.IsCalm) (start gap) :
    rawLength (read r start gap ts) = 0 ∨ rawLength (read r start gap ts) < textLength ts := by
  induction ts generalizing r start gap with
  | nil => exact .inl (lastItemText r start)
  | cons t ts ih =>
    obtain ⟨here,others⟩ := forall_mem_cons.mp full
    have first : rawLength (step r start gap t).2 = 0 := (spokenText start).2 calm
    have size := textLengthCons t ts
    have shorter := length_pos_iff.mpr here
    have bounded := readText (step r start gap t).1 (start + t.text.length) (gap.after t) ts
    rw [read,rawLengthAppend,first]
    by_cases still : (step r start gap t).1.IsCalm
    · have rest := ih others _ still (start + t.text.length) (gap.after t)
      omega
    · omega

theorem tokensEach {P : Token → Prop} (first : ∀ b s, P ⟨(firstToken b s).1,b :: s.take ((firstToken b s).2 - 1)⟩)
    (skip s) : ∀ t ∈ tokensFrom skip s, P t := by
  fun_induction tokensFrom skip s with
  | case1 => exact forall_mem_nil _
  | case2 skip b s ih => exact ih
  | case3 b s _ ih => exact forall_mem_cons.mpr ⟨first b s,ih⟩

theorem tokensSome (skip s) : ∀ t ∈ tokensFrom skip s, t.text ≠ [] := tokensEach (fun b _ => cons_ne_nil b _) skip s

theorem inlineText (s) : rawLength (items .inline s) = 0 ∨ rawLength (items .inline s) < s.length := by
  have size : textLength (tokens s) = s.length := congrArg List.length (tokensConcat s)
  have calm : Reader.IsCalm { modes := [.inline],source := s } :=
    ⟨(by decide : Mode.inline ≠ .raw),(by decide : Mode.inline ≠ .stylesheet),rfl⟩
  rw [← size]
  exact calmText (tokensSome 0 s) _ calm 0 {}

theorem itemsText (mode s) : rawLength (items mode s) ≤ s.length := by
  have size : textLength (tokens s) = s.length := congrArg List.length (tokensConcat s)
  rw [← size]
  exact readText _ 0 {} _

theorem depthSame {n m mode s} (again : ∀ u, u ≠ [] → u.length ≤ rawLength (items mode s) →
    readContents n .inline u = readContents m .inline u) : readContents (n + 1) mode s = readContents (m + 1) mode s := by
  rw [readContents,readContents]
  refine assembleSame again fun f mem => ?_
  rw [mem_singleton.mp mem]
  exact Nat.le_of_eq (Nat.zero_add _)

theorem inlineDepth {s n m} (deep : s.length < n) (deep' : s.length < m) :
    readContents n .inline s = readContents m .inline s := by
  induction size : s.length using Nat.strongRecOn generalizing s n m with
  | _ size ih =>
    subst size
    cases n with
    | zero => exact absurd deep (Nat.not_lt_zero _)
    | succ n =>
      cases m with
      | zero => exact absurd deep' (Nat.not_lt_zero _)
      | succ m =>
        have short := inlineText s
        refine depthSame fun u full fits => ?_
        have shorter := length_pos_iff.mpr full
        exact ih u.length (by omega) (by omega) (by omega) rfl

theorem sheetDepth {s mode n m} (deep : s.length + 1 < n) (deep' : s.length + 1 < m) :
    readContents n mode s = readContents m mode s := by
  cases n with
  | zero => exact absurd deep (Nat.not_lt_zero _)
  | succ n =>
    cases m with
    | zero => exact absurd deep' (Nat.not_lt_zero _)
    | succ m =>
      have short := itemsText mode s
      exact depthSame fun u _ fits => inlineDepth (by omega) (by omega)

end Cascade
