import Cascade.Token.Basic

/-! Blocks in a list of tokens. Any closing token closes any opening one, and a block
that is never closed runs to the end. -/
namespace Cascade

/-- The tokens behind an opening one, cut before the closing one. -/
def untilClose (level : Nat) : List Token → List Token × List Token
  | [] => ([],[])
  | t :: ts =>
    if t.closes ∧ level = 0 then ([],t :: ts)
    else
      let r := untilClose (if t.opens then level + 1 else if t.closes then level - 1 else level) ts
      (t :: r.1,r.2)

theorem untilCloseAppend (level : Nat) (ts : List Token) :
    (untilClose level ts).1 ++ (untilClose level ts).2 = ts := by
  induction ts generalizing level with
  | nil => rfl
  | cons t ts ih =>
    rw [untilClose]
    split
    · rfl
    · simp [ih]

theorem untilCloseLength (level : Nat) (ts : List Token) :
    (untilClose level ts).1.length + (untilClose level ts).2.length = ts.length := by
  rw [← List.length_append,untilCloseAppend]

theorem insideLength (level : Nat) (ts : List Token) :
    (untilClose level ts).1.length ≤ ts.length := by
  have := untilCloseLength level ts
  omega

theorem behindLength (level : Nat) (ts : List Token) :
    ((untilClose level ts).2.drop 1).length ≤ ts.length := by
  have := untilCloseLength level ts
  simp only [List.length_drop]
  omega

/-- The inside of a block. One that is left open ends without blanks. -/
def blockInside (ts : List Token) : List Token :=
  match untilClose 0 ts with
  | (inside,[]) => trimEnd inside
  | (inside,_) => inside

theorem blockInsideLength (ts : List Token) : (blockInside ts).length ≤ ts.length := by
  have inside := insideLength 0 ts
  rw [blockInside]
  split <;> rename_i cut <;> rw [cut] at inside
  · exact Nat.le_trans (trimEndLength _) inside
  · exact inside

def closingText (opening : Token) : Bytes :=
  if opening.kind = .leftBracket then [93]
  else if opening.kind = .leftBrace then [125]
  else [41]

def enclosedText (opening : Token) (ts : List Token) : Bytes :=
  let r := untilClose 0 ts
  tokensText (opening :: r.1) ++
    (match r.2 with
      | [] => closingText opening
      | t :: _ => tokensText [t])

def Token.depth (t : Token) : Int := if t.opens then 1 else if t.closes then -1 else 0

def netDepth : List Token → Int
  | [] => 0
  | t :: ts => t.depth + netDepth ts

def isUnclosed (ts : List Token) : Bool := 0 < netDepth ts

def consPart (t : Token) : List (List Token) → List (List Token)
  | [] => [[t]]
  | p :: ps => (t :: p) :: ps

/-- The parts between separators outside of blocks, without an empty last one. Behind a closing token that closes
nothing there is no outside any more. -/
def splitTokens (sep : TokenKind) : Int → List Token → List (List Token)
  | _,[] => []
  | level,t :: ts =>
    if t.opens || t.closes then consPart t (splitTokens sep (level + t.depth) ts)
    else if t.kind = sep ∧ level = 0 then [] :: splitTokens sep level ts
    else consPart t (splitTokens sep level ts)

def commaParts (ts : List Token) : List (List Token) := splitTokens .comma 0 ts

def partsWeight : List (List Token) → Nat
  | [] => 0
  | p :: ps => p.length + 1 + partsWeight ps

theorem consPartWeight (t : Token) (ps : List (List Token)) :
    partsWeight (consPart t ps) ≤ max (partsWeight ps) 1 + 1 := by
  cases ps with
  | nil => simp [partsWeight,consPart]
  | cons p ps => simp [partsWeight,consPart]; omega

theorem splitTokensWeight (sep : TokenKind) (level : Int) (ts : List Token) :
    partsWeight (splitTokens sep level ts) ≤ ts.length + 1 := by
  induction ts generalizing level with
  | nil => simp [splitTokens,partsWeight]
  | cons t ts ih =>
    rw [splitTokens]
    split
    · have := ih (level + t.depth)
      have := consPartWeight t (splitTokens sep (level + t.depth) ts)
      simp only [List.length_cons]
      omega
    · split
      · have := ih level
        simp only [partsWeight,List.length_nil,List.length_cons]
        omega
      · have := ih level
        have := consPartWeight t (splitTokens sep level ts)
        simp only [List.length_cons]
        omega

end Cascade
