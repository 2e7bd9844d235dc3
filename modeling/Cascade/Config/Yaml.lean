import Cascade.Text.Scalars

/-! Configuration text as a tree of mappings, sequences and scalars. Of several documents the first counts. -/
namespace Cascade

/-- A node with the line it starts on. A scalar in quotes or in a block is text whatever it looks like. -/
inductive Yaml where
  | scalar (line : Nat) (plain : Bool) (text : Bytes)
  | sequence (line : Nat) (items : List Yaml)
  | mapping (line : Nat) (entries : List (Yaml × Yaml))

/-- What is wrong with a text, and the line that is named for it, if not zero. -/
structure YamlError where
  line : Nat
  problem : Bytes
  deriving DecidableEq, Repr

def YamlError.message (e : YamlError) : Bytes :=
  ascii "yaml: " ++ (if e.line = 0 then [] else ascii "line " ++ decimal e.line ++ ascii ": ") ++ e.problem

/-- A place in the text: what follows it, its line from one and its column from zero. -/
structure Cursor where
  rest : Bytes
  line : Nat
  column : Nat

namespace Cursor

/-- No scalar or mark can be made out. Of the two lines the first that is not the first of all is named. -/
def unreadable (c start : Cursor) (problem : String) : Except YamlError α :=
  .error ⟨if 1 < start.line then start.line else if 1 < c.line then c.line else 0,ascii problem⟩

/-- Something else has to follow. The line before the one found in this way is named. -/
def unexpected (c start : Cursor) (problem : String) : Except YamlError α :=
  .error ⟨if 1 < start.line then start.line - 1 else c.line - 1,ascii problem⟩

def move (c : Cursor) (count : Nat) : Cursor := ⟨c.rest.drop count,c.line,c.column + count⟩

/-- Passes blanks, comments and ends of lines, but in a block no tab at the start of a line. -/
def gapFrom (block tabs comment : Bool) (line column : Nat) : Bytes → Cursor
  | [] => ⟨[],line,column⟩
  | b :: s =>
    if b == 10 then gapFrom block (!block) false (line + 1) 0 s
    else if comment || b == 32 || (b == 9 && tabs) then gapFrom block tabs comment line (column + 1) s
    else if b == 35 then gapFrom block tabs true line (column + 1) s
    else ⟨b :: s,line,column⟩

def skipGap (c : Cursor) : Cursor := gapFrom false true false c.line c.column c.rest

def skipLines (c : Cursor) : Cursor := gapFrom true (0 < c.column) false c.line c.column c.rest

def skipBlanks (c : Cursor) : Cursor := c.move (c.rest.takeWhile fun b => b == 32 || b == 9).length

end Cursor

def isBreakOrBlank : Bytes → Bool
  | [] => true
  | b :: _ => b == 32 || b == 9 || b == 10

def isFlowMark (b : UInt8) : Bool := b == 44 || b == 91 || b == 93 || b == 123 || b == 125

def endsKey (flow : Bool) (s : Bytes) : Bool :=
  isBreakOrBlank s || (flow && (s.head?.map isFlowMark).getD false)

def plainRun (flow afterBlank : Bool) : Bytes → Bytes
  | [] => []
  | b :: s =>
    if b == 10 || (b == 35 && afterBlank) || (b == 58 && endsKey flow s) || (flow && isFlowMark b) then []
    else b :: plainRun flow (b == 32 || b == 9) s

def trimBlanks (s : Bytes) : Bytes := (s.reverse.dropWhile fun b => b == 32 || b == 9).reverse

/-- Lines as one text: a single break is a blank, of more the first is dropped. -/
def foldBreaks (breaks : Nat) : Bytes := if breaks ≤ 1 then [32] else List.replicate (breaks - 1) 10

def readPlain (flow : Bool) (indent : Nat) (start : Cursor) : Nat → Cursor → Except YamlError (Bytes × Cursor)
  | 0,c => .ok ([],c)
  | fuel + 1,c =>
    let run := trimBlanks (plainRun flow false c.rest)
    let here := c.move run.length
    let next := if flow then here.skipGap else here.skipLines
    let comment := here.skipBlanks.rest.head? == some 35
    if run.isEmpty || comment || next.line == here.line then .ok (run,here)
    else match next.rest with
      | [] => .ok (run,here)
      | b :: _ =>
        if b == 9 && next.column < indent then
          next.unreadable start "found a tab character that violates indentation"
        else if if flow then isFlowMark b else next.column < indent then .ok (run,here)
        else do
          let (more,last) ← readPlain flow indent start fuel next
          pure (run ++ foldBreaks (next.line - here.line) ++ more,last)

def yamlEscapes : List (UInt8 × Nat) :=
  [(48,0),(97,7),(98,8),(116,9),(9,9),(110,10),(118,11),(102,12),(114,13),(101,27),
    (32,32),(34,34),(47,47),(92,92),(78,0x85),(95,0xA0),(76,0x2028),(80,0x2029)]

def hexValue (s : Bytes) : Nat :=
  s.foldl (fun n b =>
    n * 16 + (if isDigit b then b.toNat - 48 else (lowerByte b).toNat - 87)) 0

def codeLength (b : UInt8) : Nat := if b == 120 then 2 else if b == 117 then 4 else if b == 85 then 8 else 0

def quotedBreak (c : Cursor) : Nat × Cursor :=
  let blanks := c.rest.takeWhile fun b => b == 32 || b == 9 || b == 10
  let breaks := blanks.count 10
  let column := (blanks.reverse.takeWhile (· != 10)).length
  (breaks,⟨c.rest.drop blanks.length,c.line + breaks,column⟩)

def readQuoted (quote : UInt8) (start : Cursor) : Nat → Cursor → Except YamlError (Bytes × Cursor)
  | 0,c => c.unreadable start "found unexpected end of stream"
  | fuel + 1,c =>
    let prepend (part : Bytes) (next : Cursor) := do
      let (text,last) ← readQuoted quote start fuel next
      pure (part ++ text,last)
    match c.rest with
    | [] => c.unreadable start "found unexpected end of stream"
    | b :: s =>
      if b == quote then
        if quote == 39 && s.head? == some 39 then prepend [39] (c.move 2) else .ok ([],c.move 1)
      else if b == 92 && quote == 34 then
        match s with
        | [] => c.unreadable start "found unexpected end of stream"
        | e :: digits =>
          if e == 10 then prepend [] (quotedBreak (c.move 1)).2
          else if 0 < codeLength e then
            let code := digits.take (codeLength e)
            if code.length = codeLength e && code.all isHexDigit then
              prepend (encode (hexValue code)) (c.move (2 + codeLength e))
            else c.unreadable start "did not find expected hexdecimal number"
          else match yamlEscapes.lookup e with
            | some character => prepend (encode character) (c.move 2)
            | none => c.unreadable start "found unknown escape character"
      else if b == 32 || b == 9 || b == 10 then
        let (breaks,next) := quotedBreak c
        if breaks = 0 then prepend [b] (c.move 1) else prepend (foldBreaks breaks) next
      else prepend [b] (c.move 1)

def blockLines (indent : Nat) : List Bytes → List Bytes
  | [] => []
  | line :: lines =>
    let depth := (line.takeWhile (· == 32)).length
    if depth = line.length || indent ≤ depth then line :: blockLines indent lines else []

def joinLines (folded : Bool) : List Bytes → Bytes
  | [] => []
  | [line] => line
  | a :: b :: rest =>
    let margin (s : Bytes) : Bool := s.head? != some 32 && s.head? != some 9
    let separator : Bytes :=
      if folded && !a.isEmpty && margin a && margin b then if b.isEmpty then [] else [32] else [10]
    a ++ separator ++ joinLines folded (b :: rest)

def readBlockScalar (folded : Bool) (parent : Nat) (c : Cursor) : Bytes × Cursor :=
  let header := c.rest.takeWhile (· != 10)
  let lines := fields 10 (c.rest.drop (header.length + 1))
  let found := blockLines parent lines
  let first := (found.find? fun l => l.any (· != 32)).getD []
  let margin := (first.takeWhile (· == 32)).length
  let taken := blockLines (max parent margin) lines
  let texts := taken.map fun l => l.drop margin
  let trailing := (texts.reverse.takeWhile (·.isEmpty)).length
  let body := texts.take (texts.length - trailing)
  let chomp : Bytes :=
    if header.contains 45 || body.isEmpty then []
    else if header.contains 43 then List.replicate (trailing + 1) 10 else [10]
  let size := taken.foldl (fun n l => n + (l.length + 1)) 0
  (joinLines folded body ++ chomp,
    ⟨c.rest.drop (header.length + 1 + size),c.line + 1 + taken.length,0⟩)

def isSequenceMark : Bytes → Bool
  | b :: s => b == 45 && isBreakOrBlank s
  | [] => false

def emptyScalar (c : Cursor) : Yaml := .scalar c.line true []

def noScalarStarts (b : UInt8) : Bool := b == 9 || b == 37 || b == 64 || b == 96

def readWord (flow : Bool) (c : Cursor) : Except YamlError (Yaml × Cursor) :=
  match c.rest with
  | 34 :: _ => do
    let (text,next) ← readQuoted 34 c (c.rest.length + 1) (c.move 1)
    pure (.scalar c.line false text,next)
  | 39 :: _ => do
    let (text,next) ← readQuoted 39 c (c.rest.length + 1) (c.move 1)
    pure (.scalar c.line false text,next)
  | b :: _ =>
    if noScalarStarts b then c.unreadable c "found character that cannot start any token"
    else
      let run := trimBlanks (plainRun flow false c.rest)
      .ok (.scalar c.line true run,c.move run.length)
  | [] => .ok (emptyScalar c,c)

def flowProblem (close : UInt8) : String :=
  if close == 93 then "did not find expected ',' or ']'" else "did not find expected ',' or '\x7d'"

mutual

def readFlow : Nat → Cursor → Except YamlError (Yaml × Cursor)
  | 0,c => c.unexpected c "exceeded max depth"
  | fuel + 1,c =>
    match c.rest with
    | 91 :: _ => do
      let (found,last) ← readMembers 93 c fuel (c.move 1)
      pure (.sequence c.line (found.map fun (key,value) => match value with
        | none => key
        | some v => .mapping c.line [(key,v)]),last)
    | 123 :: _ => do
      let (found,last) ← readMembers 125 c fuel (c.move 1)
      pure (.mapping c.line (found.map fun (key,value) => (key,value.getD (emptyScalar c))),last)
    | 34 :: _ => readWord true c
    | 39 :: _ => readWord true c
    | _ => do
      let (text,next) ← readPlain true 0 c (c.rest.length + 1) c
      pure (.scalar c.line true text,next)

def readMembers (close : UInt8) (start : Cursor) : Nat → Cursor → Except YamlError (List (Yaml × Option Yaml) × Cursor)
  | 0,c => c.unexpected start "exceeded max depth"
  | fuel + 1,c => do
    let c := c.skipGap
    match c.rest with
    | [] => c.unexpected start (flowProblem close)
    | b :: _ =>
      if b == close then pure ([],c.move 1)
      else if b == 44 then c.unexpected c "did not find expected node content"
      else
        let (key,next) ← readFlow fuel c
        let next := next.skipGap
        let (value,next) ← match next.rest with
          | 58 :: _ => do
            let behind := (next.move 1).skipGap
            match behind.rest with
            | v :: _ =>
              if v == 44 || v == close then pure (some (emptyScalar behind),behind)
              else do
                let (value,last) ← readFlow fuel behind
                pure (some value,last)
            | [] => pure (some (emptyScalar behind),behind)
          | _ => pure (none,next)
        let next := next.skipGap
        match next.rest with
        | 44 :: _ => do
          let (rest,last) ← readMembers close start fuel (next.move 1)
          pure ((key,value) :: rest,last)
        | d :: _ =>
          if d == close then pure ([(key,value)],next.move 1) else next.unexpected start (flowProblem close)
        | [] => next.unexpected start (flowProblem close)

end

def atKeyEnd (start next : Cursor) : Bool :=
  start.line == next.line &&
    match next.skipBlanks.rest with
    | 58 :: s => isBreakOrBlank s
    | _ => false

def nextStart (c : Cursor) : Except YamlError Cursor :=
  let next := c.skipLines
  if next.rest.head? == some 9 then next.unreadable next "found character that cannot start any token"
  else .ok next

mutual

/-- A node on lines that start at `indent` or further right; on the line of its key no block may begin. -/
def readBlock : Nat → Nat → Bool → Cursor → Except YamlError (Yaml × Cursor)
  | 0,_,_,c => c.unexpected c "exceeded max depth"
  | fuel + 1,indent,inline,c =>
    match c.rest with
    | [] => .ok (emptyScalar c,c)
    | b :: _ =>
      if isSequenceMark c.rest then
        if inline then c.unreadable c "block sequence entries are not allowed in this context"
        else do
          let (items,last) ← readItems c fuel c
          pure (.sequence c.line items,last)
      else if b == 91 || b == 123 then readFlow (2 * c.rest.length + 2) c
      else if b == 124 || b == 62 then
        let (text,last) := readBlockScalar (b == 62) indent c
        .ok (.scalar c.line false text,last)
      else do
        let (key,next) ← readWord false c
        if atKeyEnd c next then
          if inline then next.unreadable next "mapping values are not allowed in this context"
          else do
            let (entries,last) ← readEntries c fuel c
            pure (.mapping c.line entries,last)
        else if b == 34 || b == 39 then pure (key,next)
        else
          let (text,last) ← readPlain false indent c (c.rest.length + 1) c
          if (last.skipBlanks.rest).head? == some 58 then
            last.unreadable last "mapping values are not allowed in this context"
          else pure (.scalar c.line true text,last)

def readEntries (start : Cursor) : Nat → Cursor → Except YamlError (List (Yaml × Yaml) × Cursor)
  | 0,c => c.unexpected c "exceeded max depth"
  | fuel + 1,c => do
    let (key,next) ← readWord false c
    if !atKeyEnd c next then next.skipLines.unreadable c "could not find expected ':'"
    else
      let colon := next.skipBlanks.move 1
      let behind ← nextStart colon
      let indented := start.column < behind.column ||
        (behind.column == start.column && isSequenceMark behind.rest)
      let (value,last) ←
        if behind.rest.isEmpty then pure (emptyScalar colon,behind)
        else if behind.line == colon.line then readBlock fuel (start.column + 1) true behind
        else if indented then readBlock fuel (start.column + 1) false behind
        else pure (emptyScalar colon,colon)
      let after ← nextStart last
      if after.rest.isEmpty || after.column < start.column then pure ([(key,value)],after)
      else if after.column == start.column && (last.line < after.line || last.column = 0) then do
        let (rest,last) ← readEntries start fuel after
        pure ((key,value) :: rest,last)
      else after.unexpected start "did not find expected key"

def readItems (start : Cursor) : Nat → Cursor → Except YamlError (List Yaml × Cursor)
  | 0,c => c.unexpected c "exceeded max depth"
  | fuel + 1,c => do
    let mark := c.move 1
    let behind ← nextStart mark
    let (item,last) ←
      if behind.rest.isEmpty || (mark.line < behind.line && behind.column ≤ start.column) then
        pure (emptyScalar mark,mark)
      else readBlock fuel (start.column + 1) false behind
    let after ← nextStart last
    if after.column == start.column && isSequenceMark after.rest then do
      let (rest,last) ← readItems start fuel after
      pure (item :: rest,last)
    else if after.rest.isEmpty || after.column ≤ start.column then pure ([item],after)
    else after.unexpected start "did not find expected '-' indicator"

end

def plainBreaks : Bytes → Bytes
  | 13 :: 10 :: s => 10 :: plainBreaks s
  | b :: s => (if b == 13 then 10 else b) :: plainBreaks s
  | [] => []

def isDocumentMark (line : Bytes) : Bool :=
  ((ascii "---").isPrefixOf line || (ascii "...").isPrefixOf line) && isBreakOrBlank (line.drop 3)

def isPreamble (line : Bytes) : Bool :=
  match line.dropWhile fun b => b == 32 || b == 9 with
  | [] => true
  | b :: _ => b == 35 || line.head? == some 37

/-- The lines of the first document; its mark is blanked out, so that columns stay. -/
def firstDocument (lines : List Bytes) : Nat × List Bytes :=
  let before := lines.takeWhile isPreamble
  match lines.drop before.length with
  | [] => (1,[])
  | first :: rest =>
    let first := if isDocumentMark first then spaces 3 ++ first.drop 3 else first
    (before.length + 1,first :: rest.takeWhile fun l => !isDocumentMark l)

/-- A document ends with its node, unless that is a sequence that something in its own column follows. -/
def Yaml.endsAt (node : Yaml) (start last : Cursor) : Except YamlError (Option Yaml) :=
  match node with
  | .sequence .. =>
    if !last.rest.isEmpty && last.column == start.column && start.line < last.line then
      last.unexpected start "did not find expected '-' indicator"
    else .ok (some node)
  | _ => .ok (some node)

def Yaml.read (text : Bytes) : Except YamlError (Option Yaml) :=
  let text := plainBreaks (if (ascii "\xEF\xBB\xBF").isPrefixOf text then text.drop 3 else text)
  let (line,lines) := firstDocument (fields 10 text)
  let body := [10].intercalate lines
  match nextStart ⟨body,line,0⟩ with
  | .error e => .error e
  | .ok start =>
    if start.rest.isEmpty then .ok none
    else match readBlock (body.length + 1) 0 false start with
      | .error e => .error e
      | .ok (node,last) => node.endsAt start last

end Cascade
