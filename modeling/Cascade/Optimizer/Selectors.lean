import Cascade.Optimizer.Context
import Cascade.Component.Text
import Cascade.Note.Basic

/-! What becomes of the selectors of a list and of the conditions of a compound. -/
namespace Cascade

/-- What a component has become, and whether it stays where it can be left out. -/
structure Outcome where
  component : Component
  kept : Bool := true

def Outcome.survivors (os : List Outcome) : List Component :=
  (os.filter (·.kept)).map (·.component)

def distinctFrom (key : α → Bytes) (seen : List Bytes) : List α → List α
  | [] => []
  | a :: as =>
    if seen.contains (key a) then distinctFrom key seen as
    else a :: distinctFrom key (key a :: seen) as

def distinctBy (key : α → Bytes) (as : List α) : List α := distinctFrom key [] as

def lastBy (key : α → Bytes) : List α → List α
  | [] => []
  | a :: as => if (as.map key).contains (key a) then lastBy key as else a :: lastBy key as

/-- Whether a text is `* html`, or goes on behind it on the line. -/
def startsHtmlHack (s : Bytes) : Bool :=
  let hack := ascii "* html"
  hack.isPrefixOf s &&
    match s.drop hack.length with
    | [] => true
    | b :: c :: _ => b == 32 && c != 10
    | _ => false

def isHtmlHack : Bytes → Bool
  | [] => false
  | b :: s => startsHtmlHack (b :: s) || isHtmlHack s

def dropHacks : List Component → Noted (List Component)
  | [] => pure []
  | s :: ss =>
    if isHtmlHack s.text then do
      Noted.note (.hackedSelector s.text)
      dropHacks ss
    else do
      let rest ← dropHacks ss
      pure (s :: rest)

def textAtMost (a b : Component) : Bool := !before b.text a.text

def sortSelectors (ss : List Component) : List Component := ss.mergeSort textAtMost

def universal : Bytes := [42]

def absorbUniversal (ss : List Component) : List Component :=
  if 1 < ss.length then
    match ss.find? fun s => s.text == universal with
    | some s => [s]
    | none => ss
  else ss

def arrangeSelectors (aggressive : Bool) (ss : List Component) : List Component :=
  let ss := distinctBy Component.text (sortSelectors ss)
  if aggressive then absorbUniversal ss else ss

def finishList (ctx : Context) (os : List Outcome) : Noted Outcome := do
  let survivors := Outcome.survivors os
  let ss ← if ctx.keepHacks then pure survivors else dropHacks survivors
  match arrangeSelectors ctx.aggressive ss with
  | [] => pure ⟨.list (os.map (·.component)),false⟩
  | ss => pure ⟨.ofSelectors ss,true⟩

/-- A compound selector of optimized conditions: each once, and in thorough passes a universal one only alone. -/
def finishCompound (ctx : Context) (os : List Outcome) : Outcome :=
  let conditions := distinctBy Component.text (Outcome.survivors os)
  let conditions :=
    if ctx.aggressive && 1 < conditions.length then
      conditions.filter fun c => c.text != universal
    else conditions
  ⟨.compound conditions,!conditions.isEmpty⟩

def finishFormula (formula : Component) : Component :=
  match formula with
  | .linear step offset => if linearText [] step offset == ascii "2n+1" then .ident (ascii "odd") else formula
  | .ident name => .ident (lower name)
  | _ => formula

def negatedInners : List Component → Option (List Component)
  | [] => some []
  | .condition inner true :: cs => (negatedInners cs).map (inner :: ·)
  | _ => none

def oppositeWord (combinator : Bytes) : Bytes :=
  if combinator = ascii "and" then ascii "or" else ascii "and"

/-- Joined optimized conditions: each once, and if all are negated, the negation of the opposite. -/
def finishConditions (combinator : Bytes) (members : List Component) : Component :=
  let members := distinctBy Component.text members
  match negatedInners members with
  | some inners =>
    if 1 < members.length then .condition (.conditions (oppositeWord combinator) inners) true
    else .conditions combinator members
  | none => .conditions combinator members

def finishCondition (inner : Component) (negated : Bool) : Component :=
  match inner,negated with
  | .condition innermost true,true => .condition innermost false
  | _,_ => .condition inner negated

end Cascade
