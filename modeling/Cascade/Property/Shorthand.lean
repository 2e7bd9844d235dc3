import Cascade.Text.Bytes

/-! Shorthand properties and the longhands they set along with others. -/
namespace Cascade

def partsOf (shorthand : Bytes) (parts : List Bytes) : List (Bytes × List Bytes) :=
  parts.map fun part => (shorthand ++ 45 :: part,[shorthand])

def motionVendors : List Bytes := [[],ascii "-moz-",ascii "-o-",ascii "-webkit-"]

def animationParts : List Bytes :=
  [ascii "delay",ascii "direction",ascii "duration",ascii "fill-mode",ascii "iteration-count",
    ascii "name",ascii "play-state",ascii "timing-function"]

def transitionParts : List Bytes :=
  [ascii "delay",ascii "duration",ascii "property",ascii "timing-function"]

def sides : List Bytes := [ascii "bottom",ascii "left",ascii "right",ascii "top"]

def borderParts : List Bytes := [ascii "color",ascii "style",ascii "width"]

def borderSide (side : Bytes) : List (Bytes × List Bytes) :=
  let border := ascii "border"
  let name := border ++ 45 :: side
  (name,[border]) ::
    borderParts.map fun part => (name ++ 45 :: part,[name,border ++ 45 :: part,border])

def longhands : List (Bytes × List Bytes) :=
  motionVendors.flatMap (fun v => partsOf (v ++ ascii "animation") animationParts) ++
  partsOf (ascii "background") [ascii "clip",ascii "origin"] ++
  partsOf (ascii "border") borderParts ++
  sides.flatMap borderSide ++
  partsOf (ascii "font")
    [ascii "family",ascii "size",ascii "style",ascii "variant",ascii "weight"] ++
  partsOf (ascii "margin") sides ++
  partsOf (ascii "padding") sides ++
  motionVendors.flatMap (fun v => partsOf (v ++ ascii "transition") transitionParts)

def shorthandsOf (name : Bytes) : List Bytes := (longhands.lookup name).getD []

end Cascade
