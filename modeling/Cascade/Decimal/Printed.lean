import Cascade.Decimal.Shortest

/-! The two spellings of a number: exact, and compact for minified output. -/
namespace Cascade

def closeness : Float := 0.00001

def keptDecimals : Nat := 4

def magnitudeText (m : Nat) (e : Int) : Bytes :=
  if m = 0 then [48]
  else
    let s := shortest m e
    positional s.1 s.2

def exactNumber (f : Float) : Bytes :=
  match parts f with
  | .finite negative m e => (if negative then [45] else []) ++ magnitudeText m e
  | _ => [48]

def truncated (text : Bytes) : Bytes :=
  let whole := text.takeWhile (· != 46)
  let fraction := ((text.drop (whole.length + 1)).take keptDecimals).reverse.dropWhile (· == 48)
  if fraction.isEmpty then whole else whole ++ 46 :: fraction.reverse

def withoutLeadingZero : Bytes → Bytes
  | 48 :: 46 :: rest => 46 :: rest
  | text => text

def compactNumber (f : Float) : Bytes :=
  match parts f with
  | .finite negative m e =>
    let whole := roundAway f
    if magnitude (whole - f) < closeness then
      if whole == 0.0 then [48] else exactNumber whole
    else
      let text := truncated (magnitudeText m e)
      if text = [48] then [48]
      else (if negative then [45] else []) ++ withoutLeadingZero text
  | _ => [48]

end Cascade
