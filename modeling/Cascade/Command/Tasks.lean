import Cascade.Files.Tree
import Cascade.Text.Natural
import Cascade.Text.Scalars

/-! What there is to do: each stylesheet found with the place its result goes to. -/
namespace Cascade

/-- A stylesheet to minify. Without a source or destination it is the standard one. -/
structure Task where
  root : Bytes := []
  source : Bytes := []
  destination : Bytes := []
  deriving DecidableEq, Repr

namespace Task

def sourceName (t : Task) : Bytes := if t.source.isEmpty then ascii "stdin" else t.source

def destinationName (t : Task) : Bytes := if t.destination.isEmpty then ascii "stdout" else t.destination

end Task

inductive TaskError where
  | file (error : FileError)
  | special (path : Bytes)
  | unrelated (root path : Bytes)
  deriving DecidableEq, Repr

def TaskError.message : TaskError → Bytes
  | file error => error.message
  | special path => ascii "not a file or directory " ++ path
  | unrelated root path => ascii "Rel: can't make " ++ path ++ ascii " relative to " ++ root

def isOutputDirectory (output : Bytes) : Bool := output == dot || endsInSlash output

def newTask (root source output : Bytes) : Except TaskError Task :=
  if isOutputDirectory output then
    match relativePath root source with
    | some way => .ok ⟨root,source,joinPaths output way⟩
    | none => .error (.unrelated root source)
  else .ok ⟨root,source,output⟩

def foldLetter (c : Nat) : Nat :=
  if 65 ≤ c && c ≤ 90 then c + 32 else if c = 0x17F then 115 else c

def isStylesheet (path : Bytes) : Bool :=
  (scalars (extension path)).map foldLetter == scalars (ascii ".css")

def isHidden (name : Bytes) : Bool := name.head? == some 46

namespace Entry

mutual

def stylesheets (path : Bytes) : Entry → List Bytes
  | .file _ => if isStylesheet path then [path] else []
  | .directory es => byName (visible path es)
  | .special => []

def visible (path : Bytes) : List (Bytes × Entry) → List (Bytes × List Bytes)
  | [] => []
  | (name,e) :: es =>
    if isHidden name then visible path es
    else (name,e.stylesheets (joinPaths path name)) :: visible path es

end

end Entry

def sourcesOf (path : Bytes) : Entry → Except TaskError (List Bytes)
  | .file _ => .ok [path]
  | .directory es => .ok ((Entry.directory es).stylesheets path)
  | .special => .error (.special path)

def inputRoot (input : Bytes) : Bytes := cleanPath (dirName input)

def inputTasks (files : FileSystem) (output input : Bytes) : Except TaskError (List Task) :=
  match files.find (cleanPath input) with
  | .error e => .error (.file e)
  | .ok e =>
    match sourcesOf (cleanPath input) e with
    | .error e => .error e
    | .ok sources => sources.mapM fun source => newTask (inputRoot input) source output

/-- Tasks by their sources, numbers in them by value. -/
def sortTasks (tasks : List Task) : List Task :=
  tasks.mergeSort fun a b => !comesBefore b.source a.source

def createTasks (files : FileSystem) (inputs : List Bytes) (output : Bytes) :
    Except TaskError (List Task × List Bytes) :=
  match inputs.mapM (inputTasks files output) with
  | .error e => .error e
  | .ok tasks => .ok (sortTasks tasks.flatten,inputs.map inputRoot)

def betterRoot (filename : Bytes) (best : Option (Bytes × Nat)) (root : Bytes) : Option (Bytes × Nat) :=
  match relativePath root filename with
  | none => best
  | some way =>
    if leadsOut way then best
    else match best with
      | none => some (root,way.length)
      | some (_,length) => if way.length < length then some (root,way.length) else best

def findRoot (roots : List Bytes) (filename : Bytes) : Bytes :=
  match roots.foldl (betterRoot filename) none with
  | some (root,_) => root
  | none => dirName filename

end Cascade
