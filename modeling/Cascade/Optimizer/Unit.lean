import Cascade.Optimizer.Context
import Cascade.Component.Text

/-! Dimensions in the unit that is shortest to write. -/
namespace Cascade

/-- Units that measure the same thing, in the order they are tried, each with its size. -/
def unitGroups : List (List (Bytes × Float)) := [
  [(ascii "in",96.0),(ascii "px",1.0),(ascii "pt",4.0 / 3.0),(ascii "pc",16.0),
    (ascii "cm",9600.0 / 254.0),(ascii "mm",960.0 / 254.0)],
  [(ascii "deg",1.0),(ascii "rad",57.295779513082320876798154814105),(ascii "grad",0.9),
    (ascii "turn",360.0)],
  [(ascii "s",1000.0),(ascii "ms",1.0)],
  [(ascii "Hz",1.0),(ascii "kHz",1000.0)],
  [(ascii "dpi",1.0),(ascii "dpcm",2.54),(ascii "dppx",96.0)]
  ]

def unitGroup? (unit : Bytes) : Option (List (Bytes × Float) × Float) :=
  unitGroups.findSome? fun group => (group.lookup unit).map fun size => (group,size)

def canonicalUnit (unit : Bytes) : Bytes :=
  let unit := lower unit
  if unit = ascii "hz" then ascii "Hz" else if unit = ascii "khz" then ascii "kHz" else unit

/-- Metric lengths lose precision in print. -/
def isMetric (unit : Bytes) : Bool := unit == ascii "cm" || unit == ascii "mm"

def isCandidate (aggressive : Bool) (own unit : Bytes) : Bool :=
  unit != own && unit != ascii "turn" && (aggressive || !isMetric unit)

def dimensionLength (d : Float × Bytes) : Nat := (compactNumber d.1 ++ d.2).length

def shorter (best candidate : Float × Bytes) : Float × Bytes :=
  if dimensionLength candidate < dimensionLength best then candidate else best

def minimizeUnit (aggressive : Bool) (value : Float) (unit : Bytes) : Float × Bytes :=
  match unitGroup? unit with
  | none => (value,unit)
  | some (group,size) =>
    if !aggressive && isMetric unit then (value,unit)
    else
      let base := value * size
      let candidates := group.filter fun u => isCandidate aggressive unit u.1
      (candidates.map fun u => (base / u.2,u.1)).foldl shorter (value,unit)

/-- Times and percentages need their unit even when they are zero. -/
def isZeroBound (unit : Bytes) : Bool :=
  unit == ascii "%" || unit == ascii "s" || unit == ascii "ms"

def keepsZeroUnit (function : Bytes) : Bool :=
  [ascii "hsl",ascii "hsla",ascii "calc",ascii "min",ascii "max",ascii "clamp"].contains function

def optimizeDimension (ctx : Context) (value : Float) (unit : Bytes) : Component :=
  if unit.isEmpty then .number value
  else
    let unit := canonicalUnit unit
    if compactNumber value == [48] && !isZeroBound unit && !keepsZeroUnit ctx.function then .number 0.0
    else
      let d := minimizeUnit ctx.aggressive value unit
      .dimension d.1 d.2

end Cascade
