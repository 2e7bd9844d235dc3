import Cascade.Text.Bytes

/-! Paths, taken apart at slashes, by their text only. -/
namespace Cascade

def dot : Bytes := [46]

def dotDot : Bytes := [46,46]

def isAbsolute (path : Bytes) : Bool := path.head? == some 47

/-- Adds a part to those gone through: a parent takes back what precedes it, unless that is a parent too. -/
def pushPart (absolute : Bool) (gone : List Bytes) (part : Bytes) : List Bytes :=
  if part.isEmpty || part == dot then gone
  else if part == dotDot then
    match gone with
    | [] => if absolute then [] else [dotDot]
    | last :: rest => if last == dotDot then dotDot :: gone else rest
  else part :: gone

def cleanParts (absolute : Bool) (parts : List Bytes) : List Bytes :=
  (parts.foldl (pushPart absolute) []).reverse

def joinParts (absolute : Bool) (parts : List Bytes) : Bytes :=
  if absolute then 47 :: [47].intercalate parts
  else if parts.isEmpty then dot else [47].intercalate parts

def cleanPath (path : Bytes) : Bytes :=
  joinParts (isAbsolute path) (cleanParts (isAbsolute path) (fields 47 path))

def endsInSlash (path : Bytes) : Bool := path.getLast? == some 47

def baseName (path : Bytes) : Bytes := (fields 47 path).getLastD []

def dirName (path : Bytes) : Bytes := cleanPath (path.take (path.length - (baseName path).length))

def extension (path : Bytes) : Bytes :=
  let name := baseName path
  let tail := (name.reverse.takeWhile (· != 46)).reverse
  if tail.length = name.length then [] else 46 :: tail

def joinPaths (a b : Bytes) : Bytes :=
  if a.isEmpty then if b.isEmpty then [] else cleanPath b
  else cleanPath (a ++ 47 :: b)

def afterCommon : List Bytes → List Bytes → List Bytes × List Bytes
  | a :: as,b :: bs => if a == b then afterCommon as bs else (a :: as,b :: bs)
  | as,bs => (as,bs)

def startParts (path : Bytes) : List Bytes :=
  if path == dot || path == [47] then [] else fields 47 (if isAbsolute path then path.tail else path)

def targetParts (path : Bytes) : List Bytes :=
  if path == [47] then [] else fields 47 (if isAbsolute path then path.tail else path)

def relativePath (start target : Bytes) : Option Bytes :=
  let s := cleanPath start
  let t := cleanPath target
  if s == t then some dot
  else if isAbsolute s != isAbsolute t then none
  else
    match afterCommon (startParts s) (targetParts t) with
    | (up,[]) => some ([47].intercalate (up.map fun _ => dotDot))
    | ([],down) => some ([47].intercalate down)
    | (up,down) =>
      if up.head? == some dotDot then none
      else some ([47].intercalate ((up.map fun _ => dotDot) ++ down))

def leadsOut (way : Bytes) : Bool := way == dotDot || (ascii "../").isPrefixOf way

def isWithin (place path : Bytes) : Bool :=
  match relativePath place path with
  | some way => !leadsOut way
  | none => false

end Cascade
