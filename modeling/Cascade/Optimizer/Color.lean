import Cascade.Optimizer.ColorName
import Cascade.Component.Text
import Cascade.Text.LetterCase

/-! Colours in their shortest spelling. -/
namespace Cascade

structure Rgb where
  red : Nat
  green : Nat
  blue : Nat
  deriving DecidableEq, Repr

structure Hsl where
  hue : Nat
  saturation : Nat
  lightness : Nat
  deriving DecidableEq, Repr

def Rgb.hex (c : Rgb) : Bytes := 35 :: hexByte c.red ++ hexByte c.green ++ hexByte c.blue

def channel (f : Float) : Nat := (roundInt (greater 0.0 (lesser 255.0 f))).toNat

def hueChannel (low high hue : Float) : Float :=
  let h := if hue < 0.0 then hue + 1.0 else hue
  let h := if 1.0 < h then h - 1.0 else h
  if h * 6.0 < 1.0 then low + (high - low) * h * 6.0
  else if h * 2.0 < 1.0 then high
  else if h * 3.0 < 2.0 then low + (high - low) * (2.0 / 3.0 - h) * 6.0
  else low

def channelsOf (h s l : Float) : Float × Float × Float :=
  let high := if 0.5 < l then l + s - l * s else l * (s + 1.0)
  let low := l * 2.0 - high
  let third := 1.0 / 3.0
  (hueChannel low high (h + third),hueChannel low high h,hueChannel low high (h - third))

def rgbOf (h s l : Float) : Rgb :=
  let c := channelsOf h s l
  ⟨channel (c.1 * 255.0),channel (c.2.1 * 255.0),channel (c.2.2 * 255.0)⟩

def Hsl.rgb (c : Hsl) : Rgb :=
  rgbOf (c.hue.toFloat / 360.0) (c.saturation.toFloat / 100.0) (c.lightness.toFloat / 100.0)

def percent (f : Float) : Nat := (roundInt (f * 100.0)).toNat

def Rgb.hsl (c : Rgb) : Hsl :=
  let r := c.red.toFloat / 255.0
  let g := c.green.toFloat / 255.0
  let b := c.blue.toFloat / 255.0
  let high := greater r (greater g b)
  let low := lesser r (lesser g b)
  let l := (high + low) / 2.0
  if high == low then ⟨0,0,percent l⟩
  else
    let d := high - low
    let s := d / (1.0 - magnitude (2.0 * l - 1.0))
    let sixths :=
      if high == r then remainder ((g - b) / d) 6.0
      else if high == g then (b - r) / d + 2.0
      else (r - g) / d + 4.0
    let h := sixths * 60.0
    let h := if h < 0.0 then h + 360.0 else h
    ⟨(roundInt h).toNat % 360,percent s,percent l⟩

def Rgb.survivesHsl (c : Rgb) : Bool := c.hsl.rgb == c

def argument (value : Component) : Term := ⟨44,value⟩

def Rgb.shortest (c : Rgb) (alpha : Float) : Component :=
  if 1.0 - closeness < alpha then
    let short := shortenHex c.hex
    match shorterName? short,colorName? c.hex with
    | some name,_ => .ident name
    | none,some name => if name.length ≤ c.hex.length then .ident name else .hexColor short
    | none,none => .hexColor short
  else
    let rgba : Component := .call (ascii "rgba") (some [⟨0,.number c.red.toFloat⟩,
      argument (.number c.green.toFloat),argument (.number c.blue.toFloat),
      argument (.number alpha)])
    let t := c.hsl
    let hsla : Component := .call (ascii "hsla") (some [⟨0,.number t.hue.toFloat⟩,
      argument (.dimension t.saturation.toFloat (ascii "%")),
      argument (.dimension t.lightness.toFloat (ascii "%")),argument (.number alpha)])
    if c.survivesHsl && hsla.text.length < rgba.text.length then hsla else rgba

def colorArgument? : Component → Option (Float × Bool)
  | .number v => if 0.0 ≤ v then some (v,false) else none
  | .dimension v unit => if unit == ascii "%" && 0.0 ≤ v then some (v,true) else none
  | _ => none

def colorArguments? (args : List Term) : Option (List (Float × Bool)) :=
  if args.tail.all fun t => t.op == 44 then args.mapM fun t => colorArgument? t.value else none

def opacity (a : Float × Bool) : Float :=
  greater 0.0 (lesser 1.0 (if a.2 then a.1 / 100.0 else a.1))

def rgbArgument (a : Float × Bool) : Nat :=
  channel (if a.2 then a.1 * 255.0 / 100.0 else a.1)

def rgbOfArguments (r g b : Float × Bool) : Option Rgb :=
  some ⟨rgbArgument r,rgbArgument g,rgbArgument b⟩

def hslOfArguments (h s l : Float × Bool) : Option Rgb :=
  if h.2 || !s.2 || !l.2 then none
  else some (rgbOf (remainder h.1 360.0 / 360.0) (lesser s.1 100.0 / 100.0) (lesser l.1 100.0 / 100.0))

def colorCall? (name : Bytes) (args : List Term) : Option Component :=
  let isRgb : Bool := name == ascii "rgb" || name == ascii "rgba"
  let isHsl : Bool := name == ascii "hsl" || name == ascii "hsla"
  let hasAlpha : Bool := name == ascii "rgba" || name == ascii "hsla"
  if !isRgb && !isHsl then none
  else
    let color (a b c : Float × Bool) := if isRgb then rgbOfArguments a b c else hslOfArguments a b c
    match colorArguments? args,hasAlpha with
    | some [a,b,c],false => (color a b c).map fun rgb => rgb.shortest 1.0
    | some [a,b,c,d],true => (color a b c).map fun rgb => rgb.shortest (opacity d)
    | _,_ => none

def optimizeHex (text : Bytes) : Component :=
  let short := shortenHex (lower text)
  match shorterName? short with
  | some name => .ident name
  | none => .hexColor short

end Cascade
