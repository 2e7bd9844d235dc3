import Cascade.Proofs.DamagedValues
import Cascade.Proofs.ItemWalk

/-! Stylesheets that end too early. Where a text ends inside the value of a declaration, the
reader has gathered its tokens; the brackets that are missing are gathered behind them. -/
namespace Cascade
open List
open Token (text)
open Stylesheet (ofText)

def IsBracket (c : Token) : Prop := c = rightParen ∨ c = rightBracket

def padOf (gap : Gap) (skip : Bool) : List Token := if (gap.space || gap.comment) && !skip then [Token.space] else []

theorem padBare (gap skip) : padOf gap skip = [] ∨ padOf gap skip = [Token.space] := by
  rw [padOf]
  split
  · exact .inr rfl
  · exact .inl rfl

section
variable {r : Reader} {gap : Gap} {c : Token} (bracket : IsBracket c)
include bracket

theorem bracketToken (s) : tokens (c.text ++ s) = c :: tokens s := by
  rcases bracket with rfl | rfl <;> rfl

theorem bracketPlain : c.isBlank = false ∧ endsStatement c = false ∧ c.closes ∧ c.opens = false ∧
    c.spells [44,47,58,33,61] = false := by
  rcases bracket with rfl | rfl <;> decide

theorem stepBracketValue {name skip gathered} (stage : r.stage = .value name skip gathered)
    (deep : 0 < r.level) (start) : step r start gap c =
      (r.down.toStage (.value name false (gathered ++ padOf gap skip ++ [c])),[]) := by
  obtain ⟨solid,goes,closes,opens,plain⟩ := bracketPlain bracket
  have other : r.level ≠ 0 := by omega
  have token : ∀ stop, stepToken r start stop gap c =
      ⟨r.down.toStage (.value name false (gathered ++ padOf gap skip ++ [c])),[],false⟩ := by
    intro stop
    rw [stepToken,stage]
    simp only [stepValue,goes,closes,opens,plain,other,Reader.past,push,padOf]
    cases gap.space <;> cases gap.comment <;> cases skip <;> simp
  rw [step,if_neg (by rw [solid]; exact Bool.false_ne_true),token]
  rfl

theorem stepBracketRaw (raw : r.mode = .raw) (stage : r.stage = .idle) (start) :
    step r start gap c = ({ r.down with keepBlanks := true },[.text c.text]) := by
  obtain ⟨solid,_,closes,opens,_⟩ := bracketPlain bracket
  have kind : c.kind ≠ .rightBrace := by rcases bracket with rfl | rfl <;> decide
  have token : ∀ stop, stepToken r start stop gap c = ⟨{ r.down with keepBlanks := true },[.text c.text],false⟩ := by
    intro stop
    rw [stepToken,stage]
    simp [startItem,raw,kind,Reader.past,opens,closes]
  rw [step,if_neg (by rw [solid]; exact Bool.false_ne_true),token]
  rfl

end

section
variable {missing : List Token} (brackets : ∀ c ∈ missing, IsBracket c)
include brackets

theorem missingTokens : tokens (missing.flatMap text) = missing := by
  induction missing with
  | nil => rfl
  | cons c missing ih =>
    obtain ⟨first,others⟩ := forall_mem_cons.mp brackets
    rw [flatMap_cons,bracketToken first,ih others]

theorem walkValue {r gap name skip gathered}
    (stage : r.stage = .value name skip gathered) (full : missing ≠ []) (deep : (missing.length : Int) ≤ r.level)
    (start) : (walk r start gap missing).2.2 = [] ∧
      (walk r start gap missing).1.stage = .value name false (gathered ++ padOf gap skip ++ missing) ∧
      (walk r start gap missing).1.modes = r.modes := by
  induction missing generalizing r gap skip gathered start with
  | nil => exact absurd rfl full
  | cons c missing ih =>
    obtain ⟨first,others⟩ := forall_mem_cons.mp brackets
    rw [length_cons] at deep
    rw [walk,stepBracketValue first stage (by omega)]
    by_cases last : missing = []
    · rw [last]
      exact ⟨rfl,rfl,rfl⟩
    have after : gap.after c = {} := by rcases first with rfl | rfl <;> rfl
    have level : (missing.length : Int) ≤ (r.down.toStage (.value name false (gathered ++ padOf gap skip ++ [c]))).level := by
      change _ ≤ r.level - 1
      omega
    obtain ⟨bare,stage',modes⟩ := @ih others _ (gap.after c) _ _ rfl last level (start + c.text.length)
    refine ⟨bare,stage'.trans ?_,modes⟩
    rw [after]
    simp [padOf]

theorem walkRaw {r gap} (raw : r.mode = .raw) (stage : r.stage = .idle) (start) :
    (walk r start gap missing).2.2 = missing.map (Item.text ∘ text) ∧
      (walk r start gap missing).1.stage = .idle ∧ (walk r start gap missing).1.modes = r.modes := by
  induction missing generalizing r gap start with
  | nil => exact ⟨rfl,stage,rfl⟩
  | cons c missing ih =>
    obtain ⟨first,others⟩ := forall_mem_cons.mp brackets
    rw [walk,stepBracketRaw first raw stage]
    obtain ⟨text,stage',modes⟩ := @ih others { r.down with keepBlanks := true } (gap.after c) raw stage (start + c.text.length)
    exact ⟨congrArg (_ :: ·) text,stage',modes⟩

end

def Reader.fresh (mode : Mode) (source : Bytes) : Reader := { modes := [mode],source := source }

/- Texts that end inside a value whose blocks can be closed, with the brackets that are missing. In a
block of an unknown at-rule, the text of the block does. -/
inductive EndsInside : Mode → Bytes → List Token → Prop where
  | value {mode : Mode} {s : Bytes} {r : Reader} {gap : Gap} {items : List Item} {name : Token} {skip : Bool}
      {gathered : List Token} (walked : walk (.fresh mode s) 0 {} (tokens s) = (r,gap,items))
      (stage : r.stage = .value name skip gathered) (closable : Closable (padOf gap skip) false gathered)
      (unmarked : Unmarked name.text gathered)
      (modern : isOldFilter name.text (trim (tokensText (shutBehind (padOf gap skip) gathered))) = false)
      (closed : Closed s ((closers gathered).flatMap Token.text)) : EndsInside mode s (closers gathered)
  | raw {mode : Mode} {s : Bytes} {r : Reader} {gap : Gap} {before : List Item} {name : Bytes}
      {front missing : List Token} {texts : List Bytes}
      (walked : walk (.fresh mode s) 0 {} (tokens s) = (r,gap,before ++ .openAtRule name front :: texts.map .text))
      (raw : r.mode = .raw) (closed : Closed s (missing.flatMap Token.text))
      (inner : EndsInside .inline texts.flatten missing) : EndsInside mode s missing

section
variable {mode : Mode} {s : Bytes} {missing : List Token}

theorem missingBrackets (ends : EndsInside mode s missing) : ∀ c ∈ missing, IsBracket c := by
  induction ends with
  | raw _ _ _ _ ih => exact ih
  | value _ _ closable _ _ _ =>
    intro c mem
    obtain ⟨opening,there,rfl⟩ := mem_map.mp mem
    have kind := closableOpenings closable opening there
    rw [closingToken,if_neg kind]
    split
    · exact .inr rfl
    · exact .inl rfl

theorem endsSome (ends : EndsInside mode s missing) : s ≠ [] := by
  rintro rfl
  cases ends with
  | value walked stage => cases walked; cases stage
  | raw walked =>
    have bare := (Prod.mk.inj (Prod.mk.inj walked).2).2
    simp at bare

theorem walkedOrderly {r gap items} (walked : walk (.fresh mode s) 0 {} (tokens s) = (r,gap,items)) : r.IsOrderly := by
  have fresh : (Reader.fresh mode s).IsOrderly := orderlyAt rfl fun _ => Int.le_refl 0
  have orderly : (walk (.fresh mode s) 0 {} (tokens s)).1.IsOrderly := orderlyWalk fresh 0 (commaText 0 s)
  rw [walked] at orderly
  exact orderly

theorem tokensSize (s) : 0 + textLength (tokens s) = s.length :=
  (Nat.zero_add _).trans (congrArg List.length (tokensConcat s))

theorem itemsWalked {r gap before} (walked : walk (.fresh mode s) 0 {} (tokens s) = (r,gap,before)) :
    items mode s = before ++ (lastItem r s.length ++ closings r) := by
  have whole := readWalk (.fresh mode s) 0 {} (tokens s) []
  rw [append_nil,walked,tokensSize] at whole
  exact whole

theorem itemsClosed {r gap before}
    (walked : walk (.fresh mode s) 0 {} (tokens s) = (r,gap,before))
    (brackets : ∀ c ∈ missing, IsBracket c) (closed : Closed s (missing.flatMap text)) :
    items mode (s ++ missing.flatMap text) = before.map (Item.recast (s ++ missing.flatMap text)) ++
      read (r.recast (s ++ missing.flatMap text)) s.length gap missing := by
  have whole := readWalk ((Reader.fresh mode s).recast (s ++ missing.flatMap text)) 0 {} (tokens s) missing
  rw [recastWalk,walked,tokensSize] at whole
  rw [Closed,missingTokens brackets] at closed
  rw [items,closed]
  exact whole

end

section
variable {reread : Bytes → Noted Contents}

theorem assembleBehind {left right}
    (same : ∀ f stack, (assemble reread f stack left).value = (assemble reread f stack right).value)
    (before source f stack) :
    (assemble reread f stack (before.map (Item.recast source) ++ left)).value =
      (assemble reread f stack (before ++ right)).value := by
  induction before generalizing f stack with
  | nil => exact same f stack
  | cons item before ih =>
    rw [map_cons,cons_append,cons_append]
    cases item with
    | endOfInput | close =>
      cases stack with
      | nil => rfl
      | cons outer stack => exact ih _ stack
    | _ => exact ih ..

theorem assembleTexts (f stack) (texts : List Bytes) (items) :
    assemble reread f stack (texts.map .text ++ items) =
      assemble reread { f with raw := f.raw ++ texts.flatten } stack items := by
  induction texts generalizing f with
  | nil => simp
  | cons text texts ih =>
    rw [map_cons,cons_append,assemble,ih]
    simp

theorem closingsCons (r) : ∃ item rest, closings r = item :: rest ∧ (item = .close ∨ item = .endOfInput) := by
  rw [closings]
  cases r.modes.length - 1 with
  | zero => exact ⟨_,_,rfl,.inr rfl⟩
  | succ n => exact ⟨_,_,rfl,.inl rfl⟩

theorem closingsSame {r r'} (modes : r.modes = r'.modes) : closings r = closings r' := by
  rw [closings,closings,modes]

theorem assembleBlock {texts : List Bytes} (full : texts.flatten ≠ []) {item}
    (ends : item = .close ∨ item = .endOfInput) (f stack name front) (rest) :
    (assemble reread f stack (.openAtRule name front :: (texts.map .text ++ item :: rest))).value =
      (assemble reread (f.accept (.atRule (readHeader name front).value) (reread texts.flatten).value).value
        stack rest).value := by
  rw [assemble,Noted.valueBind,assembleTexts]
  have filled : texts.flatten.isEmpty = false := by simpa using full
  rcases ends with rfl | rfl <;>
    simp only [assemble,Noted.valueBind,Frame.contents,nil_append,filled] <;> rfl

end

section
variable {mode : Mode} {s : Bytes} {missing : List Token}

theorem lastValue {r name skip gathered} (stage : r.stage = .value name skip gathered) (stop) :
    lastItem r stop = [.declaration name.text gathered] := by
  rw [lastItem,stage]

theorem lastIdle {r} (idle : r.stage = .idle) (stop) : lastItem r stop = [] := by
  rw [lastItem,idle]

theorem readMissing (r start gap) : ∃ stop, read r start gap missing =
    (walk r start gap missing).2.2 ++ (lastItem (walk r start gap missing).1 stop ++
      closings (walk r start gap missing).1) := by
  have whole := readWalk r start gap missing []
  rw [append_nil] at whole
  exact ⟨_,whole⟩

theorem readMissingValue {r gap name skip gathered}
    (brackets : ∀ c ∈ missing, IsBracket c) (stage : r.stage = .value name skip gathered) (full : missing ≠ [])
    (deep : (missing.length : Int) ≤ r.level) (source start) :
    read (r.recast source) start gap missing =
      .declaration name.text (gathered ++ padOf gap skip ++ missing) :: closings r := by
  have stage' : (r.recast source).stage = .value name skip gathered := by rw [Reader.recast,stage]; rfl
  obtain ⟨stop,whole⟩ := @readMissing missing (r.recast source) start gap
  obtain ⟨items,last,modes⟩ := walkValue brackets stage' full deep start
  rw [whole,items,lastValue last,closingsSame modes]
  rfl

theorem readMissingRaw {r gap} (brackets : ∀ c ∈ missing, IsBracket c) (raw : r.mode = .raw)
    (idle : r.stage = .idle) (source start) :
    read (r.recast source) start gap missing = (missing.map text).map .text ++ closings r := by
  have idle' : (r.recast source).stage = .idle := by rw [Reader.recast,idle]; rfl
  obtain ⟨stop,whole⟩ := @readMissing missing (r.recast source) start gap
  obtain ⟨items,last,modes⟩ := @walkRaw missing brackets (r.recast source) gap raw idle' start
  rw [whole,items,lastIdle last,closingsSame modes,map_map]
  rfl

theorem endsRead (ends : EndsInside mode s missing) (depth) :
    (readContents depth mode (s ++ missing.flatMap text)).value = (readContents depth mode s).value := by
  have brackets := missingBrackets ends
  induction ends generalizing depth with
  | @value mode s r gap before name skip gathered walked stage closable unmarked modern closed =>
    by_cases bare : closers gathered = []
    · rw [bare]
      simp
    cases depth with
    | zero => rfl
    | succ depth =>
      have good := (walkedOrderly walked).value name skip gathered stage
      have deep : ((closers gathered).length : Int) ≤ r.level := by
        rw [closers,length_map]
        exact good.deep
      have joins : padOf gap skip ≠ [] → ∀ t ∈ gathered.getLast?, t.kind ≠ .comma := by
        intro full
        refine good.joins ?_
        cases skips : skip with
        | false => rfl
        | true =>
          rw [skips] at full
          exact absurd (by simp [padOf]) full
      have same := declarationShut (padBare gap skip) closable joins good.trimmed bare unmarked modern
      rw [readContents,readContents,itemsWalked walked,itemsClosed walked brackets closed,
        readMissingValue brackets stage bare deep,lastValue stage]
      refine assembleBehind (fun f stack => ?_) before _ {} []
      rw [shutBehind] at same
      simp only [cons_append,nil_append,assemble,same]
  | @raw mode s r gap before name front missing texts walked raw closed inner ih =>
    cases depth with
    | zero => rfl
    | succ depth =>
      have idle := (walkedOrderly walked).raw raw
      rw [readContents,readContents,itemsWalked walked,itemsClosed walked brackets closed,
        readMissingRaw brackets raw idle,lastIdle idle,map_append,append_assoc,append_assoc]
      refine assembleBehind (fun f stack => ?_) before _ {} []
      have texted : ∀ source, (texts.map Item.text).map (Item.recast source) = texts.map Item.text := by
        intro source
        rw [map_map]
        rfl
      obtain ⟨item,rest,closes,ended⟩ := closingsCons r
      have more : (texts ++ missing.map text).flatten = texts.flatten ++ missing.flatMap text := by
        rw [flatten_append,flatMap_def]
      have full := endsSome inner
      have full' : (texts ++ missing.map text).flatten ≠ [] := by
        rw [more]
        exact append_ne_nil_of_left_ne_nil full _
      rw [map_cons,texted,closes,cons_append,cons_append,nil_append,← append_assoc,
        ← map_append]
      have opened : ∀ source, (Item.openAtRule name front).recast source = .openAtRule name front := fun _ => rfl
      rw [opened,assembleBlock full' ended,assembleBlock full ended,more,ih depth brackets]

end

theorem sheetValue (text) : (ofText text).value =
    (readContents (text.length + 2) .stylesheet text).value.1.foldl Stylesheet.add {} := by
  simp only [ofText,Noted.valueBind]
  split <;> rfl

/- A stylesheet that ends inside functions, and in one block of mere text at most, is read as if these were closed. Save
in calculations, nothing else that leaves blocks open is. -/
theorem cutShortRead (name : Bytes) :
    (∀ {s : Bytes} {missing : List Token}, EndsInside .stylesheet s missing →
      (Stylesheet.ofText (s ++ missing.flatMap Token.text)).value = (Stylesheet.ofText s).value) ∧
    (∀ {pad cut : List Token} {m : Nat}, pad = [] ∨ pad = [Token.space] →
      levelOver (fun _ => false) 0 cut = some (m + 1) → trimTokens cut = cut →
      (pad ≠ [] → ∀ t ∈ cut.getLast?, t.kind ≠ .comma) →
      (∀ t ∈ openings [] cut, t.kind = .function → mathFunctions.contains (lower t.functionName) = false) →
      (readDeclaration name (shutBehind pad cut) = readDeclaration name cut ↔
        Closable pad false cut ∧ Unmarked name cut ∧ isOldFilter name (trim (tokensText (shutBehind pad cut))) = false)) ∧
    (∀ {cut closed : List Token}, trimTokens cut = cut → Damages cut closed →
      readDeclaration name cut ≠ readDeclaration name closed) ∧
    ∀ text more, ∀ b ∈ closingBytes, customDeclaration name text ≠ customDeclaration name (text ++ more ++ [b]) := by
  refine ⟨fun {s missing} ends => ?_,fun bare level trimmed ends plain => shutSame bare level trimmed ends plain,
    fun trimmed damages => ?_,fun text more b mem => customApart name text more mem⟩
  · have deep : s.length + 1 < (s ++ missing.flatMap Token.text).length + 2 := by
      rw [length_append]
      omega
    rw [sheetValue,sheetValue,sheetDepth (Nat.lt_succ_self (s.length + 1)) deep,endsRead ends]
  · obtain ⟨ts,last,rfl,runs⟩ := damagesRunOn damages
    exact declarationApart runs trimmed (Or.inr (damagesTerms damages 0))

theorem openTextsRead :
    (Stylesheet.ofText (ascii "a\x7bx:f(g([b" ++ ascii "]))")).value = (Stylesheet.ofText (ascii "a\x7bx:f(g([b")).value ∧
    readDeclaration (ascii "x") (tokens (ascii "f([b])")) = readDeclaration (ascii "x") (tokens (ascii "f([b")) ∧
    readDeclaration (ascii "x") (tokens (ascii "f(\"b")) ≠ readDeclaration (ascii "x") (tokens (ascii "f(\"b\")")) ∧
    customDeclaration (ascii "--x") (ascii "(b") ≠ customDeclaration (ascii "--x") (ascii "(b)") := by
  have block : Closable [] false [⟨.leftBracket,[91]⟩,⟨.ident,[98]⟩] := @Closable.block [] _ [] _ _ rfl (Or.inr rfl) rfl rfl
  have inner : Closable [] false [⟨.function,ascii "g("⟩,⟨.leftBracket,[91]⟩,⟨.ident,[98]⟩] :=
    @Closable.call [] _ [] _ _ rfl rfl block
  have stage : (walk (.fresh .stylesheet (ascii "a\x7bx:f(g([b")) 0 {} (tokens (ascii "a\x7bx:f(g([b"))).1.stage =
      .value ⟨.ident,[120]⟩ false [⟨.function,ascii "f("⟩,⟨.function,ascii "g("⟩,⟨.leftBracket,[91]⟩,⟨.ident,[98]⟩] := rfl
  have damages : Damages [⟨.function,ascii "f("⟩,⟨.string,ascii "\"b"⟩] [⟨.function,ascii "f("⟩,⟨.string,ascii "\"b\""⟩,rightParen] :=
    @Damages.call [] _ _ _ rfl rfl rfl (@Damages.string [] 34 rfl (Or.inl rfl) [98])
  have ends : EndsInside .stylesheet (ascii "a\x7bx:f(g([b") [rightBracket,rightParen,rightParen] :=
    .value rfl stage (@Closable.call [] _ [] _ _ rfl rfl inner) ⟨rfl,rfl,rfl⟩ rfl rfl
  obtain ⟨sheets,blocks,values,_⟩ := cutShortRead (ascii "x")
  obtain ⟨_,_,_,texts⟩ := cutShortRead (ascii "--x")
  exact ⟨sheets ends,(@blocks [] [⟨.function,ascii "f("⟩,⟨.leftBracket,[91]⟩,⟨.ident,[98]⟩] _ (Or.inl rfl) rfl rfl
    (fun full => absurd rfl full) (by decide)).mpr ⟨@Closable.call [] _ [] _ _ rfl rfl block,⟨rfl,rfl,rfl⟩,rfl⟩,
    values rfl damages,texts _ [] 41 (by decide)⟩

end Cascade
