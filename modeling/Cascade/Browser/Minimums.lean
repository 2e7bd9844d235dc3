import Cascade.Browser.Version
import Cascade.Text.LetterCase

/-! Browsers and the oldest version of each that a stylesheet has to serve. -/
namespace Cascade

inductive Browser where
  | chrome
  | firefox
  | ie
  | opera
  deriving DecidableEq, Repr

namespace Browser

def name : Browser → Bytes
  | chrome => ascii "chrome"
  | firefox => ascii "firefox"
  | ie => ascii "ie"
  | opera => ascii "opera"

def all : List Browser := [chrome,firefox,ie,opera]

def named : List (Bytes × Browser) :=
  [(ascii "chrome",chrome),(ascii "chr",chrome),(ascii "firefox",firefox),
    (ascii "fx",firefox),(ascii "ie",ie),(ascii "opera",opera),(ascii "op",opera)]

def ofName? (name : Bytes) : Option Browser := named.lookup (lower name)

def nameAt (place : Int) : Bytes :=
  match if place < 0 then none else all[place.toNat]? with
  | some b => b.name
  | none => ascii "Invalid(" ++ signedDecimal place ++ ascii ")"

end Browser

inductive MinimumError where
  | malformed (item : Bytes)
  | unknown (name : Bytes)
  | version (browser : Browser) (fault : VersionFault)
  deriving DecidableEq, Repr

def MinimumError.message : MinimumError → Bytes
  | malformed item => ascii "bad browser minimum " ++ inQuotes item
  | unknown name => ascii "unknown browser " ++ inQuotes name
  | version browser fault => ascii "browser " ++ browser.name ++ ascii ": " ++ fault.message

structure Minimums where
  chrome : Option Version := none
  firefox : Option Version := none
  ie : Option Version := none
  opera : Option Version := none
  deriving DecidableEq, Repr

namespace Minimums

def get (m : Minimums) : Browser → Option Version
  | .chrome => m.chrome
  | .firefox => m.firefox
  | .ie => m.ie
  | .opera => m.opera

def set (m : Minimums) (b : Browser) (v : Version) : Minimums :=
  match b with
  | .chrome => { m with chrome := some v }
  | .firefox => { m with firefox := some v }
  | .ie => { m with ie := some v }
  | .opera => { m with opera := some v }

@[simp] theorem getSet (m : Minimums) (b c : Browser) (v : Version) :
    (m.set b v).get c = if c = b then some v else m.get c := by
  cases b <;> cases c <;> rfl

theorem getExt {m n : Minimums} (h : ∀ b, m.get b = n.get b) : m = n := by
  cases m; cases n
  have hc := h .chrome
  have hf := h .firefox
  have hi := h .ie
  have ho := h .opera
  simp only [get] at hc hf hi ho
  simp [hc,hf,hi,ho]

def override (m n : Minimums) : Minimums where
  chrome := n.chrome.or m.chrome
  firefox := n.firefox.or m.firefox
  ie := n.ie.or m.ie
  opera := n.opera.or m.opera

theorem getOverride (m n : Minimums) (b : Browser) :
    (m.override n).get b = (n.get b).or (m.get b) := by
  cases b <;> rfl

def isEmpty (m : Minimums) : Bool := Browser.all.all fun b => (m.get b).isNone

def text (m : Minimums) : Bytes :=
  [44].intercalate <| Browser.all.filterMap fun b =>
    (m.get b).map fun v => b.name ++ 58 :: v.text

def setNamed (m : Minimums) (name version : Bytes) : Except MinimumError Minimums :=
  match Browser.ofName? name with
  | none => .error (.unknown name)
  | some b =>
    match readVersion version with
    | .ok v => .ok (m.set b v)
    | .error fault => .error (.version b fault)

def isItemGap (b : UInt8) : Bool := b == 44 || b == 32 || b == 9 || b == 10

def itemsFrom (current : Bytes) : Bytes → List Bytes
  | [] => if current.isEmpty then [] else [current]
  | b :: s =>
    if isItemGap b then
      if current.isEmpty then itemsFrom [] s else current :: itemsFrom [] s
    else itemsFrom (current ++ [b]) s

/-- The name and the version of an item; without a sign between them the version starts at the first digit. -/
def splitItem (item : Bytes) : Except MinimumError (Bytes × Bytes) :=
  let name := item.takeWhile fun b => b != 58 && b != 61
  if name.length < item.length then .ok (name,item.drop (name.length + 1))
  else
    let word := item.takeWhile fun b => !isDigit b
    if word.isEmpty || word.length = item.length then .error (.malformed item)
    else .ok (word,item.drop word.length)

def setItems : List Bytes → Minimums → Except MinimumError Minimums
  | [],m => .ok m
  | item :: items,m =>
    match splitItem item with
    | .error e => .error e
    | .ok (name,version) =>
      match m.setNamed name version with
      | .error e => .error e
      | .ok m => setItems items m

/-- Reads a list such as `ie:9,firefox:20` or `ie9 fx20`. -/
def read (s : Bytes) : Except MinimumError Minimums := setItems (itemsFrom [] s) {}

/-- Lists merged into `m` up to the first refusal. -/
def merge (m : Minimums) : List Bytes → Minimums × Option MinimumError
  | [] => (m,none)
  | list :: lists =>
    match read list with
    | .ok n => (m.override n).merge lists
    | .error e => (m,some e)

end Minimums

end Cascade
