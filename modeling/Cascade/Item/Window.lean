import Cascade.Item.Basic
import Cascade.Text.Graphic
import Cascade.Token.Lexer

/-! Where a fault is, for people: line and column, and at most sixty characters of the line, with a mark below. -/
namespace Cascade

def lineStep (b : UInt8) (s : Bytes) : Nat × Bool :=
  if b == 10 then (1,true)
  else if b == 13 then (if s.head? == some 10 then 2 else 1,true)
  else if b < 0xC0 then (1,false)
  else
    let n := characterLength b s
    let c := scalarOf b (s.take (n - 1))
    (n,c == 0x2028 || c == 0x2029)

def locate : Nat → Nat → Bytes → Nat → Nat → Bytes → Nat × Bytes × Nat
  | _,line,start,along,_,[] => (line,start,along)
  | skip + 1,line,start,along,todo,_ :: s => locate skip line start along todo s
  | 0,line,start,along,todo,b :: s =>
    if todo = 0 then (line,start,along)
    else
      let step := lineStep b s
      if 1 < step.1 && todo < step.1 then (line,start,along)
      else if step.2 then
        locate (step.1 - 1) (line + 1) (s.drop (step.1 - 1)) 0 (todo - step.1) s
      else locate (step.1 - 1) line start (along + step.1) (todo - step.1) s

structure Place where
  line : Nat
  column : Nat
  text : List Nat

def place (source : Bytes) (position : Nat) : Place :=
  let r := locate 0 1 source 0 position source
  let text := r.2.1.takeWhile fun b => b != 10 && b != 13
  ⟨r.1,(scalars (r.2.1.take r.2.2)).length + 1,scalars text⟩

def ellipsis : List Nat := [46,46,46]

def windowed (text : List Nat) (column : Nat) : List Nat × List Nat × List Nat × Nat :=
  let n := text.length
  if n ≤ 60 then ([],text,[],column)
  else if column ≤ 40 then ([],text.take 57,ellipsis,column)
  else if column + 23 ≥ n then (ellipsis,text.drop (n - 44),[],column - (n - 47))
  else (ellipsis,(text.take (column + 20)).drop (column - 21),ellipsis,24)

def shownScalar (c : Nat) : Nat := if isGraphic c then c else 0xB7

def Place.window (p : Place) : Bytes :=
  let (front,text,rear,column) := windowed p.text p.column
  padLeft 5 (decimal p.line) ++ ascii ": " ++ encodeAll front ++
    encodeAll (text.map shownScalar) ++ encodeAll rear ++ [10] ++ spaces (6 + column) ++ [94]

def Fault.message (f : Fault) : Bytes :=
  let p := place f.source f.position
  f.kind.message ++ ascii " on line " ++ decimal p.line ++ ascii " and column " ++
    decimal p.column ++ [10] ++ p.window

end Cascade
