import Cascade.Path.Basic

/-! A tree of files and directories, and the ways to find and change what is in it. -/
namespace Cascade

/-- There are no permissions: every directory can be read, so that a walk over a tree never fails. -/
inductive Entry where
  | file (content : Bytes)
  | directory (entries : List (Bytes × Entry))
  /-- What is neither, such as a socket: it is there, but nothing can open it. -/
  | special

inductive FileFault where
  | absent
  | missing
  | notDirectory
  | isDirectory
  | alreadyThere
  | noDevice
  deriving DecidableEq, Repr

def FileFault.text : FileFault → Bytes
  | absent => ascii "file does not exist"
  | missing => ascii "no such file or directory"
  | notDirectory => ascii "not a directory"
  | isDirectory => ascii "is a directory"
  | alreadyThere => ascii "file exists"
  | noDevice => ascii "no such device or address"

structure FileError where
  action : Bytes
  path : Bytes
  fault : FileFault
  deriving DecidableEq, Repr

def FileError.message (e : FileError) : Bytes := e.action ++ 32 :: e.path ++ ascii ": " ++ e.fault.text

namespace Entry

def empty : Entry := .directory []

def isDirectory : Entry → Bool
  | .directory _ => true
  | _ => false

def entries : Entry → List (Bytes × Entry)
  | .directory es => es
  | _ => []

def setIn (name : Bytes) (e : Entry) : List (Bytes × Entry) → List (Bytes × Entry)
  | [] => [(name,e)]
  | (n,f) :: es => if n == name then (n,e) :: es else (n,f) :: setIn name e es

def put (e : Entry) : List Bytes → Entry → Entry
  | [],_ => e
  | name :: names,here =>
    .directory (setIn name (put e names ((here.entries.lookup name).getD empty)) here.entries)

/-- Follows the parts of a path from a place below others. The root is above itself. -/
def follow (here : Entry) (above : List Entry) : List Bytes → Except FileFault Entry
  | [] => .ok here
  | part :: parts =>
    match here with
    | .file _ | .special => .error .notDirectory
    | .directory es =>
      if part.isEmpty || part == dot then follow here above parts
      else if part == dotDot then
        match above with
        | [] => follow here [] parts
        | up :: ups => follow up ups parts
      else
        match es.lookup part with
        | none => .error .missing
        | some e => follow e (here :: above) parts

def byName (parts : List (Bytes × List α)) : List α :=
  (parts.mergeSort fun a b => !before b.1 a.1).flatMap (·.2)

mutual

def listing (path : Bytes) : Entry → List (Bytes × Bytes)
  | .file content => [(path,content)]
  | .directory es =>
    (if path.isEmpty then [] else [(path ++ [47],[])]) ++ byName (listings path es)
  | .special => []

def listings (path : Bytes) : List (Bytes × Entry) → List (Bytes × List (Bytes × Bytes))
  | [] => []
  | (name,e) :: es =>
    (name,e.listing (if path.isEmpty then name else path ++ 47 :: name)) :: listings path es

end

end Entry

/-- A tree of files, and the way from its root to where relative paths start. -/
structure Disk where
  root : Entry := .empty
  working : List Bytes := []

def waypoints (path : Bytes) : List Bytes :=
  let body := path.take (path.length - (path.reverse.takeWhile (· == 47)).length)
  let lengths := (List.range body.length).filter fun i => 0 < i && body[i]? == some 47
  (lengths.map fun i => body.take i) ++ [path]

namespace Disk

def parts (d : Disk) (path : Bytes) : List Bytes :=
  if isAbsolute path then fields 47 path else d.working ++ fields 47 path

def find (d : Disk) (path : Bytes) : Except FileFault Entry :=
  if path.isEmpty then .error .missing else d.root.follow [] (d.parts path)

def store (d : Disk) (path : Bytes) (e : Entry) : Disk :=
  { d with root := Entry.put e (cleanParts true (d.parts path)) d.root }

def makeDirectory (d : Disk) (path : Bytes) : Except FileError Disk :=
  match d.find path with
  | .ok (.directory _) => .ok d
  | .ok _ => .error ⟨ascii "mkdir",path,.notDirectory⟩
  | .error .missing => .ok (d.store path .empty)
  | .error _ => .error ⟨ascii "mkdir",path,.alreadyThere⟩

def makeDirectories (d : Disk) (path : Bytes) : Except FileError Disk :=
  (waypoints path).foldlM makeDirectory d

def writeFile (d : Disk) (path content : Bytes) : Except FileError Disk :=
  match d.find path with
  | .ok (.file _) => .ok (d.store path (.file content))
  | .ok (.directory _) => .error ⟨ascii "open",path,.isDirectory⟩
  | .ok .special => .error ⟨ascii "open",path,.noDevice⟩
  | .error .missing =>
    match d.find (dirName path) with
    | .ok (.directory _) => .ok (d.store path (.file content))
    | _ => .error ⟨ascii "open",path,.missing⟩
  | .error fault => .error ⟨ascii "open",path,fault⟩

def namesDirectory (d : Disk) (path : Bytes) : Bool :=
  endsInSlash path ||
    match d.find path with
    | .ok e => e.isDirectory
    | .error _ => false

def addListed (d : Disk) (path content : Bytes) : Disk :=
  let place := if endsInSlash path then path else dirName path
  match d.makeDirectories place with
  | .error _ => d
  | .ok d => if endsInSlash path then d else d.store path (.file content)

def ofListing (working : List Bytes) (files : List (Bytes × Bytes)) : Disk :=
  files.foldl (fun d (path,content) => d.addListed path content)
    { root := Entry.put .empty working .empty,working := working }

def listing (d : Disk) : List (Bytes × Bytes) :=
  match d.root.follow [] d.working with
  | .ok e => e.listing []
  | .error _ => []

end Disk

structure FileSystem where
  find : Bytes → Except FileError Entry

def FileSystem.ofDisk (d : Disk) : FileSystem where
  find path := (d.find path).mapError fun fault => ⟨ascii "stat",path,fault⟩

def isPlainPath (path : Bytes) : Bool :=
  path == dot || (fields 47 path).all fun p => !p.isEmpty && p != dot && p != dotDot

def FileSystem.closed (root : Entry) : FileSystem where
  find path :=
    if isPlainPath path then
      (root.follow [] (fields 47 path)).mapError fun _ => ⟨ascii "open",path,.absent⟩
    else .error ⟨ascii "open",path,.absent⟩

end Cascade
