import Cascade.Proofs.Shape
import Cascade.Rule.Pretty

/-! Readable text with another width of indentation. The width is changed in the finished text, line by line. -/
namespace Cascade
open List
open Component (pretty)
open Rule (optimize)

/- A line of readable text: how deep it is nested, and what stands behind the indentation. A text that is kept as it
was written may go on over several lines of its own. -/
structure Line where
  depth : Nat
  text : Bytes

def linesText (width : Nat) (lines : List Line) : Bytes :=
  lines.flatMap fun l => spaces (width * l.depth) ++ l.text ++ [10]

/- A text that is broken over lines: what stands on the first one, and the others with their depth. -/
inductive Broken where
  | last (text : Bytes)
  | more (text : Bytes) (depth : Nat) (rest : Broken)

namespace Broken

protected def append : Broken → Broken → Broken
  | last s,last t => last (s ++ t)
  | last s,more t depth rest => more (s ++ t) depth rest
  | more s depth rest,b => more s depth (rest.append b)

instance : Append Broken := ⟨Broken.append⟩

def write (width : Nat) : Broken → Bytes
  | last text => text
  | more text depth rest => text ++ 10 :: spaces (width * depth) ++ rest.write width

def lines (depth : Nat) : Broken → List Line
  | last text => [⟨depth,text⟩]
  | more text next rest => ⟨depth,text⟩ :: rest.lines next

def join (sep : Broken) : List Broken → Broken
  | [] => last []
  | [b] => b
  | b :: bs => b ++ sep ++ join sep bs

def concat : List Broken → Broken
  | [] => last []
  | b :: bs => b ++ concat bs

theorem writeAppend (width) (a b : Broken) : (a ++ b).write width = a.write width ++ b.write width := by
  show (a.append b).write width = _
  induction a with
  | last s => cases b <;> simp [Broken.append,write]
  | more s depth rest ih => simp [Broken.append,write,ih]

theorem writeJoin (width sep bs) :
    (join sep bs).write width = (sep.write width).intercalate (bs.map (write width)) := by
  induction bs with
  | nil => rfl
  | cons b bs ih =>
    cases bs with
    | nil => simp [join]
    | cons c cs =>
      rw [join.eq_3 _ _ _ (cons_ne_nil c cs),writeAppend,writeAppend,ih]
      simp only [map_cons,intercalate_cons_cons]

theorem writeConcat (width bs) : (concat bs).write width = bs.flatMap (write width) := by
  induction bs with
  | nil => rfl
  | cons b bs ih => rw [concat,writeAppend,ih,flatMap_cons]

theorem linesWritten (width depth) (b : Broken) :
    linesText width (b.lines depth) = spaces (width * depth) ++ b.write width ++ [10] := by
  induction b generalizing depth with
  | last text => simp [lines,linesText,write]
  | more text next rest ih =>
    have tail := ih next
    rw [linesText] at tail
    rw [lines,linesText,flatMap_cons,tail,write]
    simp only [append_assoc,cons_append,nil_append]

end Broken

open Broken (writeAppend write linesWritten writeConcat writeJoin join)

def inParens (b : Broken) : Broken := .last [40] ++ b ++ .last [41]

def listBreak (depth : Nat) (text : Bytes) : Broken :=
  if text.length < 80 then .last [44,32] else .more [44] depth (.last [])

def joinTermsBroken : List (UInt8 × Broken) → Broken
  | [] => .last []
  | (_,first) :: rest => first ++ Broken.concat
      (rest.map fun t => .last (if t.1 == 0 then [32] else if t.1 == 44 then [44,32] else [t.1]) ++ t.2)

mutual

/- Where the readable spelling of a component is broken. What is printed at no depth is not indented at any width. -/
def Component.broken (depth : Nat) : Component → Broken
  | .call name (some args) => .last name ++ inParens (joinTermsBroken (Term.broken depth args))
  | .expression terms => joinTermsBroken (Term.broken depth terms)
  | .declaration d => d.broken depth
  | .list selectors =>
    join (listBreak depth ([44].intercalate (Component.texts selectors)))
      ((Component.pretties 0 selectors).map .last)
  | .complex kind left right =>
    left.broken depth ++ .last (if kind == 32 then [32] else [32,kind,32]) ++ right.broken depth
  | .pseudoCall name args => .last (58 :: name) ++ inParens (joinTermsBroken (Term.broken depth args))
  | .negation selector => .last (ascii ":not") ++ inParens (selector.broken depth)
  | .selectorCall name selector => .last (58 :: name) ++ inParens (selector.broken depth)
  | .nth name formula => .last (58 :: name) ++ inParens (formula.broken depth)
  | .condition inner negated => .last (if negated then ascii "not " else []) ++ inParens (inner.broken depth)
  | c => .last (c.pretty depth)

def Term.broken (depth : Nat) : List Term → List (UInt8 × Broken)
  | [] => []
  | ⟨op,value⟩ :: ts => (op,value.broken depth) :: Term.broken depth ts

def Declaration.broken (depth : Nat) : Declaration → Broken
  | .property name value important slashNine =>
    .last (name ++ [58,32]) ++ joinTermsBroken (Term.broken depth value) ++ .last (declarationEnd [32] important slashNine)
  | .filter name value => .last (name ++ [58,32] ++ value)

end

open Component (broken)

theorem parensWritten (width b) : (inParens b).write width = parenthesized (b.write width) := by
  rw [inParens,writeAppend,writeAppend]
  rfl

theorem breakWritten (depth text) : (listBreak depth text).write indentWidth = listSeparator depth text := by
  rw [listBreak,listSeparator]
  split
  · rfl
  · simp [write,indentation]

theorem termsWritten (width ts) : (joinTermsBroken ts).write width =
    joinTermsPretty (ts.map fun t => (t.1,t.2.write width)) := by
  cases ts with
  | nil => rfl
  | cons t ts =>
    rw [joinTermsBroken,writeAppend,writeConcat,map_cons,joinTermsPretty,flatMap_map,flatMap_map]
    simp only [writeAppend,write]

theorem unbrokenWritten (width) (ps : List Bytes) : (ps.map Broken.last).map (write width) = ps := by
  rw [map_map]
  exact map_id ps

mutual
theorem componentWritten (depth) : ∀ c : Component, (c.broken depth).write indentWidth = c.pretty depth
  | .number _ | .dimension .. | .quoted _ | .url _ | .ident _ | .hexColor _ | .call _ none | .sum .. | .product ..
  | .compound _ | .id _ | .className _ | .element .. | .attr .. | .pseudoElement _ | .pseudoClass _ | .linear ..
  | .multiple _ | .conditions .. => rfl
  | .call _ (some args) => by
    rw [broken,writeAppend,parensWritten,termsWritten,valuesWritten depth args]
    rfl
  | .expression terms => by rw [broken,termsWritten,valuesWritten depth terms,pretty]
  | .declaration d => by rw [broken,declarationWritten depth d,pretty]
  | .list selectors => by rw [broken,writeJoin,breakWritten,unbrokenWritten,pretty]
  | .complex kind left right => by
    rw [broken,writeAppend,writeAppend,componentWritten depth left,componentWritten depth right]
    rfl
  | .pseudoCall _ args => by
    rw [broken,writeAppend,parensWritten,termsWritten,valuesWritten depth args]
    rfl
  | .negation selector => by
    rw [broken,writeAppend,parensWritten,componentWritten depth selector]
    rfl
  | .selectorCall _ selector => by
    rw [broken,writeAppend,parensWritten,componentWritten depth selector]
    rfl
  | .nth _ formula => by
    rw [broken,writeAppend,parensWritten,componentWritten depth formula]
    rfl
  | .condition inner _ => by
    rw [broken,writeAppend,parensWritten,componentWritten depth inner]
    rfl
theorem valuesWritten (depth) : ∀ ts : List Term,
    (Term.broken depth ts).map (fun t => (t.1,t.2.write indentWidth)) = Term.pretties depth ts
  | [] => rfl
  | ⟨op,value⟩ :: ts => by
    rw [Term.broken,map_cons,componentWritten depth value,valuesWritten depth ts,Term.pretties]
theorem declarationWritten (depth) : ∀ d : Declaration, (d.broken depth).write indentWidth = d.pretty depth
  | .property name value important slashNine => by
    rw [Declaration.broken,writeAppend,writeAppend,termsWritten,valuesWritten depth value]
    rfl
  | .filter .. => rfl
end

def nestedLines (depth : Nat) (header : Broken) (ds : List Declaration) (rules : List (List Line)) : List Line :=
  (header ++ .last [32,123]).lines depth ++
    ds.flatMap (fun d => (d.broken (depth + 1) ++ .last [59]).lines (depth + 1)) ++ rules.flatten ++ [⟨depth,[125]⟩]

def Import.lines (depth : Nat) (i : Import) : List Line :=
  (.last (ascii "@import ") ++ i.location.broken depth ++
    .last (queryList [44,32] (i.media.map MediaQuery.pretty) ++ [59])).lines depth

def Block.lines (depth : Nat) (b : Block) : List Line := nestedLines depth (.last (64 :: b.name)) b.content []

def Keyframe.lines (depth : Nat) (k : Keyframe) : List Line := nestedLines depth (.last k.prettyStops) k.content []

mutual

def Rule.lines (depth : Nat) : Rule → List Line
  | .ruleset selector content => nestedLines depth (selector.broken depth) content []
  | .media queries content =>
    nestedLines depth (.last (ascii "@media" ++ queryList [44,32] (queries.map MediaQuery.pretty))) []
      (Rule.allLines (depth + 1) content)
  | .supports condition content =>
    nestedLines depth (.last (ascii "@supports ") ++ condition.broken depth) [] (Rule.allLines (depth + 1) content)
  | .page name content margins => nestedLines depth (.last (pageHeader name)) content (margins.map (Block.lines (depth + 1)))
  | .margin block | .featureBlock block => block.lines depth
  | .fontFace content => nestedLines depth (.last (ascii "@font-face")) content []
  | .fontFeatures font blocks =>
    nestedLines depth (.last (ascii "@font-feature-values " ++ font)) [] (blocks.map (Block.lines (depth + 1)))
  | .keyframes name vendor frames =>
    nestedLines depth (.last (keyframesHeader name vendor)) [] (frames.map (Keyframe.lines (depth + 1)))
  | .keyframe frame => frame.lines depth
  | .viewport vendor content => nestedLines depth (.last (viewportHeader vendor)) content []
  | .counterStyle name content => nestedLines depth (.last (ascii "@counter-style " ++ name)) content []
  | .charset name => [⟨depth,charsetText name⟩]
  | .importRule rule => rule.lines depth
  | .namespaceRule rule => [⟨depth,rule.text⟩]
  | .stop _ | .query _ | .feature _ | .component _ => []

def Rule.allLines (depth : Nat) : List Rule → List (List Line)
  | [] => []
  | r :: rs => r.lines depth :: Rule.allLines depth rs

end

def Stylesheet.lines (s : Stylesheet) : List Line :=
  (s.charset.map fun name => ⟨0,charsetText name⟩).toList ++ (s.imports.map (Import.lines 0)).flatten ++
    s.namespaces.map (fun n => ⟨0,n.text⟩) ++ (s.content.map (Rule.lines 0)).flatten

mutual

def Rule.IsStatement : Rule → Prop
  | .media _ content | .supports _ content => Rule.AllStatements content
  | .stop _ | .query _ | .feature _ | .component _ => False
  | _ => True

def Rule.AllStatements : List Rule → Prop
  | [] => True
  | r :: rs => r.IsStatement ∧ Rule.AllStatements rs

end

theorem allStatements {rs} : Rule.AllStatements rs ↔ ∀ r ∈ rs, r.IsStatement := by
  induction rs with
  | nil => simp [Rule.AllStatements]
  | cons r rs ih => simp [Rule.AllStatements,ih]

theorem linesAppend (width ls ms) : linesText width (ls ++ ms) = linesText width ls ++ linesText width ms :=
  flatMap_append

theorem linesFlatten (width) (lists : List (List Line)) :
    linesText width lists.flatten = (lists.map (linesText width)).flatten := by
  induction lists with
  | nil => rfl
  | cons ls lists ih => rw [flatten_cons,linesAppend,ih,map_cons,flatten_cons]

theorem blockPrinted (depth header ds rules) :
    linesText indentWidth (nestedLines depth header ds rules) =
      prettyBlock depth (header.write indentWidth) ds (rules.map (linesText indentWidth)) := by
  have contents : linesText indentWidth (ds.flatMap fun d => (d.broken (depth + 1) ++ .last [59]).lines (depth + 1)) =
      ds.flatMap fun d => indentation (depth + 1) ++ d.pretty (depth + 1) ++ [59,10] := by
    rw [flatMap_def,linesFlatten,map_map]
    refine congrArg (ds.flatMap ·) (funext fun d => ?_)
    simp only [Function.comp_apply,linesWritten,writeAppend,declarationWritten,write,indentation]
    simp
  rw [nestedLines,linesAppend,linesAppend,linesAppend,linesWritten,writeAppend,contents,linesFlatten,prettyBlock]
  simp [linesText,write,indentation]

theorem importPrinted (depth) (i : Import) : linesText indentWidth (i.lines depth) = i.pretty depth := by
  rw [Import.lines,linesWritten,writeAppend,writeAppend,componentWritten,Import.pretty,indentation]
  simp [write]

theorem boxPrinted (depth) (b : Block) : linesText indentWidth (b.lines depth) = b.pretty depth :=
  blockPrinted depth _ _ []

theorem framePrinted (depth) (k : Keyframe) : linesText indentWidth (k.lines depth) = k.pretty depth :=
  blockPrinted depth _ _ []

theorem singlePrinted (depth text) : linesText indentWidth [⟨depth,text⟩] = indentation depth ++ text ++ [10] :=
  append_nil _

theorem eachPrinted {α : Type} {f g} (each : ∀ a, linesText indentWidth (f a) = g a)
    (as : List α) : (as.map f).map (linesText indentWidth) = as.map g := by
  rw [map_map]
  exact map_congr_left fun a _ => each a

mutual
theorem rulePrinted (depth) : ∀ r : Rule, r.IsStatement → linesText indentWidth (r.lines depth) = r.pretty depth
  | .ruleset selector content,_ => by
    rw [Rule.lines,blockPrinted,componentWritten]
    rfl
  | .media queries content,inside => by
    rw [Rule.lines,blockPrinted,rulesPrinted (depth + 1) content inside]
    rfl
  | .supports condition content,inside => by
    rw [Rule.lines,blockPrinted,rulesPrinted (depth + 1) content inside,writeAppend,componentWritten]
    rfl
  | .page name content margins,_ => by
    rw [Rule.lines,blockPrinted,eachPrinted (boxPrinted (depth + 1))]
    rfl
  | .margin block,_ => by rw [Rule.lines,boxPrinted,Rule.pretty]
  | .featureBlock block,_ => by rw [Rule.lines,boxPrinted,Rule.pretty]
  | .fontFace content,_ => by
    rw [Rule.lines,blockPrinted]
    rfl
  | .fontFeatures font blocks,_ => by
    rw [Rule.lines,blockPrinted,eachPrinted (boxPrinted (depth + 1))]
    rfl
  | .keyframes name vendor frames,_ => by
    rw [Rule.lines,blockPrinted,eachPrinted (framePrinted (depth + 1))]
    rfl
  | .keyframe frame,_ => by rw [Rule.lines,framePrinted,Rule.pretty]
  | .viewport vendor content,_ => by
    rw [Rule.lines,blockPrinted]
    rfl
  | .counterStyle name content,_ => by
    rw [Rule.lines,blockPrinted]
    rfl
  | .charset name,_ => by rw [Rule.lines,singlePrinted,Rule.pretty,prettyCharset]
  | .importRule rule,_ => by rw [Rule.lines,importPrinted,Rule.pretty]
  | .namespaceRule rule,_ => by rw [Rule.lines,singlePrinted,Rule.pretty,Namespace.pretty]
theorem rulesPrinted (depth) : ∀ rs : List Rule, Rule.AllStatements rs →
    (Rule.allLines depth rs).map (linesText indentWidth) = Rule.pretties depth rs
  | [],_ => rfl
  | r :: rs,inside => by
    rw [Rule.allLines,map_cons,rulePrinted depth r inside.1,rulesPrinted depth rs inside.2,Rule.pretties]
end

theorem sheetPrinted {s : Stylesheet} (statements : ∀ r ∈ s.content, r.IsStatement) :
    linesText indentWidth s.lines = s.pretty 0 := by
  have content : (s.content.map (Rule.lines 0)).map (linesText indentWidth) = s.content.map (Rule.pretty 0) := by
    rw [map_map]
    exact map_congr_left fun r mem => rulePrinted 0 r (statements r mem)
  rw [Stylesheet.lines,linesAppend,linesAppend,linesAppend,linesFlatten,linesFlatten,eachPrinted (importPrinted 0),content,
    Stylesheet.pretty]
  have charset : linesText indentWidth (s.charset.map fun name => (⟨0,charsetText name⟩ : Line)).toList =
      (s.charset.map (prettyCharset 0)).getD [] := by
    cases s.charset with
    | none => rfl
    | some name => exact singlePrinted 0 (charsetText name)
  have namespaces : linesText indentWidth (s.namespaces.map fun n => (⟨0,n.text⟩ : Line)) =
      (s.namespaces.map (Namespace.pretty 0)).flatten := by
    rw [linesText,flatMap_map]
    rfl
  rw [charset,namespaces]

def leadingBlanks (row : Bytes) : Nat := (row.takeWhile (· == 32)).length

/- A row of which the blanks are as many when they are taken for indentation and written at another width. -/
def KeepsBlanks (width : Nat) (row : Bytes) : Prop := leadingBlanks row / indentWidth * width = leadingBlanks row

def reindentRow (width : Nat) (row : Bytes) : Bytes :=
  spaces (leadingBlanks row / indentWidth * width) ++ row.drop (leadingBlanks row)

section
variable (width : Nat)

theorem leadingIndented (n row) : leadingBlanks (spaces n ++ row) = n + leadingBlanks row := by
  have blank : ∀ b ∈ spaces n, (b == 32) := fun b mem => (eq_of_mem_replicate mem).symm ▸ rfl
  rw [leadingBlanks,takeWhile_append_of_pos blank,length_append,spaces,length_replicate]
  rfl

theorem blanksOff (row) : row = spaces (leadingBlanks row) ++ row.drop (leadingBlanks row) := by
  have blank : row.takeWhile (· == 32) = spaces (leadingBlanks row) :=
    eq_replicate_iff.mpr ⟨rfl,fun b mem => by simpa using mem_takeWhile_imp mem⟩
  have rest : (row.takeWhile (· == 32) ++ row.dropWhile (· == 32)).drop (leadingBlanks row) = row.dropWhile (· == 32) :=
    drop_left
  rw [takeWhile_append_dropWhile] at rest
  rw [rest,← blank,takeWhile_append_dropWhile]

theorem spacesAdd (a b) : spaces (a + b) = spaces a ++ spaces b := replicate_add ..

theorem reindentIndented (depth row) :
    reindentRow width (spaces (indentWidth * depth) ++ row) = spaces (width * depth) ++ row ↔ KeepsBlanks width row := by
  have halved : (indentWidth * depth + leadingBlanks row) / indentWidth = depth + leadingBlanks row / indentWidth :=
    Nat.mul_add_div (by decide) ..
  have dropped : (spaces (indentWidth * depth) ++ row).drop (indentWidth * depth + leadingBlanks row) =
      row.drop (leadingBlanks row) := by
    rw [drop_append,spaces]
    simp
  rw [reindentRow,leadingIndented,halved,dropped,Nat.add_mul,Nat.mul_comm depth,spacesAdd,append_assoc,
    KeepsBlanks]
  constructor
  · intro same
    have lengths := congrArg List.length same
    conv at lengths => rhs; rw [blanksOff row]
    simpa [spaces] using lengths
  · intro same
    rw [same,← blanksOff row]

end

section

theorem fieldsOfEnded {sep} {xs : List Bytes} (free : ∀ x ∈ xs, sep ∉ x) :
    fields sep (xs.flatMap (· ++ [sep])) = xs ++ [[]] := by
  induction xs with
  | nil => rfl
  | cons x xs ih =>
    obtain ⟨first,others⟩ := forall_mem_cons.mp free
    rw [flatMap_cons,append_assoc,singleton_append,fieldsAppend first,ih others,cons_append]

theorem endedJoin (sep) (xs : List Bytes) : [sep].intercalate (xs ++ [[]]) = xs.flatMap (· ++ [sep]) := by
  induction xs with
  | nil => rfl
  | cons x xs ih =>
    obtain ⟨y,ys,more⟩ := exists_cons_of_ne_nil (append_ne_nil_of_right_ne_nil xs (cons_ne_nil ([] : Bytes) []))
    rw [cons_append,more,intercalate_cons_cons,← more,ih,flatMap_cons]

def Line.rows (l : Line) : List Line :=
  match fields 10 l.text with
  | [] => []
  | first :: others => ⟨l.depth,first⟩ :: others.map (⟨0,·⟩)

def Line.row (width : Nat) (l : Line) : Bytes := spaces (width * l.depth) ++ l.text

open Line (rows row)

variable (width : Nat)

theorem rowsText (l) : linesText width l.rows = linesText width [l] := by
  have ended := fieldsEnded 10 l.text
  obtain ⟨first,others,parts⟩ := exists_cons_of_ne_nil (fieldsNotEmpty 10 l.text)
  have rest : linesText width (others.map (⟨0,·⟩)) = others.flatMap (· ++ [10]) := by
    rw [linesText,flatMap_map]
    simp [spaces]
  rw [parts,flatMap_cons] at ended
  rw [rows,parts]
  show spaces (width * l.depth) ++ first ++ [10] ++ linesText width (others.map (⟨0,·⟩)) =
    spaces (width * l.depth) ++ l.text ++ [10] ++ []
  rw [rest,append_nil,append_assoc _ l.text,← ended]
  simp only [append_assoc]

theorem rowsFree (l : Line) : ∀ r ∈ l.rows, 10 ∉ r.text := by
  have free : ∀ row ∈ fields 10 l.text, 10 ∉ row := fieldsFreeOf l.text
  obtain ⟨first,others,parts⟩ := exists_cons_of_ne_nil (fieldsNotEmpty 10 l.text)
  rw [parts] at free
  obtain ⟨here,below⟩ := forall_mem_cons.mp free
  rw [rows,parts]
  exact forall_mem_cons.mpr ⟨here,forall_mem_map.mpr below⟩

theorem rowsKeep (l : Line) : (∀ r ∈ l.rows, KeepsBlanks width r.text) ↔ ∀ row ∈ fields 10 l.text, KeepsBlanks width row := by
  obtain ⟨first,others,parts⟩ := exists_cons_of_ne_nil (fieldsNotEmpty 10 l.text)
  rw [rows,parts,forall_mem_cons,forall_mem_cons,forall_mem_map]

theorem linesRows (ls) : linesText width ls = ((ls.flatMap rows).map (row width)).flatMap (· ++ [10]) := by
  have each (rs : List Line) : linesText width rs = (rs.map (row width)).flatMap (· ++ [10]) := by
    rw [flatMap_map]
    rfl
  rw [← each]
  induction ls with
  | nil => rfl
  | cons l ls ih => rw [flatMap_cons,linesAppend,← ih,rowsText,← linesAppend,singleton_append]

theorem rowFree {l : Line} (free : 10 ∉ l.text) : 10 ∉ l.row width := by
  rw [row,mem_append,not_or]
  exact ⟨fun mem => absurd (eq_of_mem_replicate mem) (by decide),free⟩

theorem reindentFree {row} (free : 10 ∉ row) : 10 ∉ reindentRow width row := by
  rw [reindentRow,mem_append,not_or]
  exact ⟨fun mem => absurd (eq_of_mem_replicate mem) (by decide),fun mem => free (mem_of_mem_drop mem)⟩

theorem reindentEach (other : width ≠ indentWidth) {rows : List Bytes} (free : ∀ r ∈ rows, 10 ∉ r) :
    reindent width (rows.flatMap (· ++ [10])) = (rows.map (reindentRow width)).flatMap (· ++ [10]) := by
  have bare : [([] : Bytes)].map (reindentRow width) = [[]] := by simp [reindentRow,leadingBlanks,spaces]
  have each (s : Bytes) : reindent width s = [10].intercalate ((fields 10 s).map (reindentRow width)) := if_neg other
  rw [each,fieldsOfEnded free,map_append,bare,endedJoin]

theorem endedInjective {xs ys : List Bytes} (left : ∀ x ∈ xs, 10 ∉ x) (right : ∀ y ∈ ys, 10 ∉ y) :
    xs.flatMap (· ++ [10]) = ys.flatMap (· ++ [10]) ↔ xs = ys := by
  refine ⟨fun same => ?_,fun same => by rw [same]⟩
  have parts := congrArg (fields 10) same
  rw [fieldsOfEnded left,fieldsOfEnded right] at parts
  exact append_cancel_right parts

/- The width is changed as it would be printed if no row of a text starts with blanks that come out as others. -/
theorem reindentLines (ls) : reindent width (linesText indentWidth ls) = linesText width ls ↔
    width = indentWidth ∨ ∀ l ∈ ls, ∀ row ∈ fields 10 l.text, KeepsBlanks width row := by
  by_cases other : width = indentWidth
  · subst other
    exact iff_of_true (if_pos rfl) (.inl rfl)
  have free : ∀ r ∈ ls.flatMap rows, 10 ∉ r.text := by
    intro r mem
    obtain ⟨l,_,inside⟩ := mem_flatMap.mp mem
    exact rowsFree l r inside
  have printed (w : Nat) : ∀ x ∈ (ls.flatMap rows).map (row w), 10 ∉ x :=
    forall_mem_map.mpr fun r mem => rowFree w (free r mem)
  have again : ∀ x ∈ ((ls.flatMap rows).map (row indentWidth)).map (reindentRow width), 10 ∉ x :=
    forall_mem_map.mpr fun x mem => reindentFree width (printed indentWidth x mem)
  rw [linesRows,linesRows,reindentEach width other (printed indentWidth),endedInjective again (printed width),map_map,
    map_inj_left,or_iff_right other]
  constructor
  · intro same l mem
    refine (rowsKeep width l).mp fun r inside => ?_
    exact (reindentIndented width r.depth r.text).mp (same r (mem_flatMap.mpr ⟨l,mem,inside⟩))
  · intro keep r mem
    obtain ⟨l,there,inside⟩ := mem_flatMap.mp mem
    exact (reindentIndented width r.depth r.text).mpr ((rowsKeep width l).mpr (keep l there) r inside)

end

section

theorem statementsMade : Rule.IsMade Rule.IsStatement where
  ruleset _ _ _ _ := trivial
  media _ _ each := allStatements.mpr each
  supports _ _ each := allStatements.mpr each
  flat r flat := by cases r <;> trivial

variable {ctx : Context}

theorem arrangedStatements {rules} (each : ∀ r ∈ rules, r.IsStatement) :
    ∀ r ∈ (arrangeRules ctx rules).value, r.IsStatement := by
  have enduring : Enduring ctx (fun _ => True) := ⟨fun _ _ _ => trivial,fun _ _ => trivial,fun _ _ => trivial⟩
  have other : ∀ {r : Rule}, r.Meets (fun _ => True) Rule.IsStatement ↔ r.IsStatement := by
    intro r
    cases r <;> simp [Rule.Meets,Ruleset.ofRule?,Rule.IsStatement]
  exact fun r mem => other.mp (arrangeMeets enduring (fun rule there => other.mpr (each rule there)) r mem)

mutual
theorem ruleStatement : ∀ rule : Rule, rule.IsStatement → ∀ r ∈ (rule.optimize ctx).value, r.IsStatement
  | .ruleset selector content,_,r,made => by
    obtain ⟨_,_,rfl⟩ := optimizeRuleset made
    trivial
  | .media _ content,inside,r,made | .supports _ content,inside,r,made => by
    obtain ⟨_,rfl⟩ := leftOver made
    exact allStatements.mpr (arrangedStatements (rulesStatement content inside))
  | .page ..,_,r,made | .fontFace _,_,r,made | .fontFeatures ..,_,r,made | .viewport ..,_,r,made
  | .counterStyle ..,_,r,made => by
    obtain ⟨_,rfl⟩ := leftOver made
    trivial
  | .margin _,_,r,made | .featureBlock _,_,r,made | .keyframe _,_,r,made => by
    obtain ⟨_,_,rfl⟩ := Option.map_eq_some_iff.mp made
    trivial
  | .keyframes name vendor frames,_,r,made => by
    cases animationMade made
    trivial
  | .charset _,_,r,made | .importRule _,_,r,made | .namespaceRule _,_,r,made => by
    cases made
    trivial
theorem rulesStatement : ∀ rules : List Rule, Rule.AllStatements rules →
    ∀ r ∈ (Rule.optimizeAll ctx rules).value, r.IsStatement
  | [],_ => forall_mem_nil _
  | rule :: rules,inside => forall_mem_append.mpr ⟨fun r here =>
    ruleStatement rule inside.1 r (Option.mem_toList.mp here),rulesStatement rules inside.2⟩
end

end

/- Whatever is read, and whether it is optimized then or not: the text with another width of indentation is the one that
is printed with that width, unless a row of a printed text starts with blanks of its own that do not come out as many. -/
theorem reindentedAsPrinted (source : Bytes) (s : Stylesheet) (width : Nat) (given : s = (Stylesheet.read source).value ∨
      ∃ ctx, s = ((Stylesheet.read source).value.optimize ctx).value) :
    linesText indentWidth s.lines = s.pretty 0 ∧
    (reindent width (s.pretty 0) = linesText width s.lines ↔
      width = indentWidth ∨ ∀ l ∈ s.lines, ∀ row ∈ fields 10 l.text, KeepsBlanks width row) := by
  have read := readMade statementsMade source
  have statements : ∀ r ∈ s.content, r.IsStatement := by
    rcases given with rfl | ⟨ctx,rfl⟩
    · exact read
    · exact arrangedStatements (rulesStatement _ (allStatements.mpr read))
  have printed := sheetPrinted statements
  exact ⟨printed,printed ▸ reindentLines width s.lines⟩

def rowedValue : Bytes := ascii "a\x7b--x:b\n   c\x7d"

def rowedSheet : Stylesheet where
  content := [.ruleset (typeOnly (ascii "a")) [customDeclaration (ascii "--x") (ascii "b\n   c")]]

theorem rowedValueRead : (Stylesheet.read rowedValue).value = rowedSheet := by with_unfolding_all rfl

theorem ownBlanksReindented : linesText 4 (Stylesheet.read rowedValue).value.lines =
      ascii "a \x7b\n    --x: b\n   c;\n\x7d\n" ∧
    reindent 4 ((Stylesheet.read rowedValue).value.pretty 0) = ascii "a \x7b\n    --x: b\n    c;\n\x7d\n" ∧
    reindent 4 ((Stylesheet.read rowedValue).value.pretty 0) ≠ linesText 4 (Stylesheet.read rowedValue).value.lines := by
  have widened := (reindentedAsPrinted rowedValue _ 4 (Or.inl rfl)).2
  rw [rowedValueRead] at widened ⊢
  refine ⟨by decide,by decide,fun same => ?_⟩
  rcases widened.mp same with two | keep
  · cases two
  · have row := keep ⟨1,ascii "--x: b\n   c;"⟩ (mem_cons_of_mem _ mem_cons_self) (ascii "   c;") (by decide)
    cases row

end Cascade
