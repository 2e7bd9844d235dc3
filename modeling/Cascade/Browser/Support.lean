import Cascade.Browser.Minimums

/-! Which declarations and animations some browser at its minimum may still need. -/
namespace Cascade

abbrev Cutoffs := List (Browser × Nat)

def nowhere : Cutoffs := Browser.all.map fun b => (b,0)

def declarationCutoffs : List (Bytes × Cutoffs) := [
  (ascii "-moz-border-radius",[(.firefox,4)]),
  (ascii "-webkit-border-radius",[(.chrome,5)]),
  (ascii "-o-border-radius",[(.opera,12)]),
  (ascii "-moz-box-shadow",[(.firefox,4)]),
  (ascii "-webkit-box-shadow",[(.chrome,10)]),
  (ascii "-moz-box-sizing",[(.firefox,29)]),
  (ascii "-webkit-box-sizing",[(.chrome,9)]),
  (ascii "-moz-transition",[(.firefox,16)]),
  (ascii "-moz-transition-delay",[(.firefox,16)]),
  (ascii "-moz-transition-duration",[(.firefox,16)]),
  (ascii "-moz-transition-property",[(.firefox,16)]),
  (ascii "-moz-transition-timing-function",[(.firefox,16)]),
  (ascii "-webkit-transition",[(.chrome,26)]),
  (ascii "-webkit-transition-delay",[(.chrome,26)]),
  (ascii "-webkit-transition-duration",[(.chrome,26)]),
  (ascii "-webkit-transition-property",[(.chrome,26)]),
  (ascii "-webkit-transition-timing-function",[(.chrome,26)]),
  (ascii "-o-transition",[(.opera,12)]),
  (ascii "-moz-animation",[(.firefox,16)]),
  (ascii "-moz-animation-delay",[(.firefox,16)]),
  (ascii "-moz-animation-direction",[(.firefox,16)]),
  (ascii "-moz-animation-duration",[(.firefox,16)]),
  (ascii "-moz-animation-fill-mode",[(.firefox,16)]),
  (ascii "-moz-animation-iteration-count",[(.firefox,16)]),
  (ascii "-moz-animation-name",[(.firefox,16)]),
  (ascii "-moz-animation-play-state",[(.firefox,16)]),
  (ascii "-moz-animation-timing-function",[(.firefox,16)]),
  (ascii "-o-animation",[(.opera,13)]),
  (ascii "-o-animation-delay",[(.opera,13)]),
  (ascii "-o-animation-direction",[(.opera,13)]),
  (ascii "-o-animation-duration",[(.opera,13)]),
  (ascii "-o-animation-fill-mode",[(.opera,13)]),
  (ascii "-o-animation-iteration-count",[(.opera,13)]),
  (ascii "-o-animation-name",[(.opera,13)]),
  (ascii "-o-animation-play-state",[(.opera,13)]),
  (ascii "-o-animation-timing-function",[(.opera,13)]),
  (ascii "-moz-align-content",[(.firefox,28)]),
  (ascii "-moz-align-items",[(.firefox,20)]),
  (ascii "-moz-align-self",[(.firefox,20)]),
  (ascii "-moz-flex",[(.firefox,20)]),
  (ascii "-moz-flex-basis",[(.firefox,22)]),
  (ascii "-moz-flex-direction",[(.firefox,20)]),
  (ascii "-moz-flex-flow",[(.firefox,28)]),
  (ascii "-moz-flex-grow",[(.firefox,20)]),
  (ascii "-moz-flex-shrink",[(.firefox,20)]),
  (ascii "-moz-flex-wrap",[(.firefox,28)]),
  (ascii "-moz-justify-content",[(.firefox,20)]),
  (ascii "-webkit-flex",[(.chrome,29)]),
  (ascii "-ms-align-items",[(.ie,11)]),
  (ascii "-ms-align-content",[(.ie,11)]),
  (ascii "-ms-align-self",[(.ie,11)]),
  (ascii "-ms-flex",[(.ie,11)]),
  (ascii "-ms-flex-basis",[(.ie,11)]),
  (ascii "-ms-flex-direction",[(.ie,11)]),
  (ascii "-ms-flex-flow",[(.ie,11)]),
  (ascii "-ms-flex-grow",[(.ie,11)]),
  (ascii "-ms-flex-shrink",[(.ie,11)]),
  (ascii "-ms-flex-order",[(.ie,11)]),
  (ascii "-ms-flex-wrap",[(.ie,11)]),
  (ascii "-ms-justify-content",[(.ie,11)]),
  (ascii "-ms-order",[(.ie,11)]),
  (ascii "-moz-transform",[(.firefox,16)]),
  (ascii "-moz-transform-origin",[(.firefox,16)]),
  (ascii "-moz-transform-style",[(.firefox,16)]),
  (ascii "-moz-backface-visibility",[(.firefox,16)]),
  (ascii "-moz-perspective",[(.firefox,16)]),
  (ascii "-moz-perspective-origin",[(.firefox,16)]),
  (ascii "-ms-filter",[(.ie,10)]),
  (ascii "filter",[(.ie,10)]),
  (ascii "-ms-transform",[(.ie,0)]),
  (ascii "-ms-transform-origin",[(.ie,0)]),
  (ascii "box-align",nowhere),
  (ascii "box-flex",nowhere),
  (ascii "box-ordinal-group",nowhere),
  (ascii "box-orient",nowhere),
  (ascii "box-pack",nowhere)
  ]

def animationCutoffs : List (Bytes × Cutoffs) := [
  (ascii "-webkit-",[(.chrome,40)]),
  (ascii "-moz-",[(.firefox,16)]),
  (ascii "-o-",[(.opera,13)])
  ]

namespace Minimums

def isAbove (m : Minimums) (b : Browser) (version : Nat) : Bool :=
  match m.get b with
  | some v => v.compare (.whole version) == .gt
  | none => false

def reaches (m : Minimums) (b : Browser) (version : Nat) : Bool :=
  match m.get b with
  | some v => v.compare (.whole version) != .lt
  | none => false

def outgrows (m : Minimums) (cutoffs : Cutoffs) : Bool := cutoffs.any fun c => m.reaches c.1 c.2

/-- Whether a declaration is of use. An underscore is meant for version 6 of one browser only. -/
def needsDeclaration (m : Minimums) (name : Bytes) : Bool :=
  if name.head? == some 95 && m.isAbove .ie 6 then false
  else match declarationCutoffs.lookup name with
    | some cutoffs => !m.outgrows cutoffs
    | none => true

/-- Whether animations with a vendor mark are of use; one was never shipped. -/
def needsAnimation (m : Minimums) (vendor : Bytes) : Bool :=
  if vendor == ascii "-ms-" then false
  else match animationCutoffs.lookup vendor with
    | some cutoffs => !m.outgrows cutoffs
    | none => true

def needsFilters (m : Minimums) : Bool := !m.isAbove .ie 9

end Minimums

end Cascade
