import Cascade.Optimizer.Declarations
import Cascade.Rule.Text

/-! Animations: entries at the same stops are joined, and so are entries that say the same. -/
namespace Cascade

def optimizeStop (stop : Bytes) : Bytes :=
  let word := lower stop
  if word = ascii "0%" || word = ascii "from" then ascii "0"
  else if word = ascii "100%" || word = ascii "to" then ascii "to"
  else stop

namespace Keyframe

def optimizeStops (k : Keyframe) : Keyframe :=
  { k with stops := distinctBy (fun stop => stop) (k.stops.map optimizeStop) }

def body (k : Keyframe) : Bytes := declarationsText k.content

def insert (key : Keyframe → Bytes) (join : Keyframe → Keyframe → Keyframe) (k : Keyframe) :
    List Keyframe → List Keyframe
  | [] => [k]
  | f :: fs => if key f == key k then join f k :: fs else f :: insert key join k fs

def joinContent (a b : Keyframe) : Keyframe := { a with content := a.content ++ b.content }

def joinStops (a b : Keyframe) : Keyframe := optimizeStops { a with stops := a.stops ++ b.stops }

def groupByStops (ks : List Keyframe) : List Keyframe :=
  ks.foldl (fun done k => insert stopsText joinContent k done) []

def groupByBody (ks : List Keyframe) : List Keyframe :=
  ks.foldl (fun done k => insert body joinStops k done) []

def sortByStops (ks : List Keyframe) : List Keyframe :=
  ks.mergeSort fun a b => !before b.stopsText a.stopsText

def optimize (ctx : Context) (k : Keyframe) : Noted (Option Keyframe) := do
  let content ← optimizeDeclarations ctx k.content
  pure (if content.isEmpty then none else some { k.optimizeStops with content := content })

def optimizeAll (ctx : Context) : List Keyframe → Noted (List Keyframe)
  | [] => pure []
  | k :: ks => do
    let k ← k.optimize ctx
    let rest ← optimizeAll ctx ks
    pure (k.toList ++ rest)

end Keyframe

def optimizeFrames (ctx : Context) (frames : List Keyframe) : Noted (List Keyframe) := do
  let frames := Keyframe.sortByStops (Keyframe.groupByStops (frames.map Keyframe.optimizeStops))
  let frames ← Keyframe.optimizeAll ctx frames
  pure (Keyframe.groupByBody frames)

def optimizeAnimation (ctx : Context) (name vendor : Bytes) (frames : List Keyframe) :
    Noted (Option Rule) :=
  let vendor := lower vendor
  if ctx.minimums.needsAnimation vendor then do
    let frames ← optimizeFrames (ctx.inVendor vendor) frames
    pure (some (.keyframes name vendor frames))
  else do
    Noted.note (.unsupportedKeyframes vendor name)
    pure none

end Cascade
