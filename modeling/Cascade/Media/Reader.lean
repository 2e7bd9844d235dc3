import Cascade.Rule.Basic
import Cascade.Note.Basic
import Cascade.Value.Reader

/-! Media queries read from tokens. -/
namespace Cascade

def readFeature (ts : List Token) : MediaFeature :=
  let ts := trimTokens ts
  let name := ts.takeWhile fun t => t.kind ≠ .colon
  match ts.dropWhile fun t => t.kind ≠ .colon with
  | [] => ⟨trim (tokensText ts),none⟩
  | _ :: value => ⟨trim (tokensText name),some (readValue value)⟩

def MediaQuery.word (q : MediaQuery) (word : Bytes) : MediaQuery :=
  let known := lower word
  if known = ascii "and" then q
  else if q.medium = [] ∧ q.restrictor = [] ∧ (known = ascii "only" ∨ known = ascii "not") then
    { q with restrictor := word }
  else { q with medium := word }

def readQueryFrom (q : MediaQuery) (ts : List Token) : Option MediaQuery :=
  match ts with
  | [] => some q
  | t :: rest =>
    if t.isBlank then readQueryFrom q rest
    else if t.kind = .ident then readQueryFrom (q.word t.text) rest
    else if t.kind = .leftParen then
      readQueryFrom { q with features := q.features ++ [readFeature (untilClose 0 rest).1] }
        ((untilClose 0 rest).2.drop 1)
    else none
termination_by ts.length
decreasing_by
  all_goals
    have behind := behindLength 0 rest
    simp only [List.length_cons]
    omega

def readQuery (ts : List Token) : Noted (Option MediaQuery) :=
  match readQueryFrom ⟨[],[],[]⟩ ts with
  | some q => pure (some q)
  | none => do
    Noted.note (.invalidQuery (tokensText ts))
    return none

def readQueryParts : List (List Token) → Noted (List MediaQuery)
  | [] => pure []
  | part :: more => do
    let q ← readQuery part
    let qs ← readQueryParts more
    match q with
    | some q => return if q.medium = [] ∧ q.features.isEmpty then qs else q :: qs
    | none => return qs

def readQueries (ts : List Token) : Noted (List MediaQuery) := readQueryParts (commaParts ts)

end Cascade
