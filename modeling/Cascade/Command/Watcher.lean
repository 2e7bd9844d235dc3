import Cascade.Files.Tree

/-! What a watcher keeps in mind: directories, the paths it was given, and the files whose next change it ignores. -/
namespace Cascade

structure Watcher where
  directories : List Bytes := []
  paths : List Bytes := []
  ignored : List Bytes := []

def addTo (a : Bytes) (set : List Bytes) : List Bytes := if set.contains a then set else set ++ [a]

namespace Entry

mutual

/-- The directories at or below a path, without those already watched and all below them. -/
def unwatched (watched : List Bytes) (path : Bytes) : Entry → List Bytes
  | .file _ => []
  | .directory es => if watched.contains path then [] else path :: unwatchedIn watched path es
  | .special => []

def unwatchedIn (watched : List Bytes) (path : Bytes) : List (Bytes × Entry) → List Bytes
  | [] => []
  | (name,e) :: es => e.unwatched watched (joinPaths path name) ++ unwatchedIn watched path es

end

end Entry

namespace Watcher

/-- Takes up a file, by its directory, or a directory with all below it; the path is remembered in any case. -/
def add (w : Watcher) (d : Disk) (path : Bytes) : Watcher × Option FileError :=
  let path := cleanPath path
  let w := { w with paths := addTo path w.paths }
  match d.find path with
  | .error fault => (w,some ⟨ascii "lstat",path,fault⟩)
  | .ok (.file _) => ({ w with directories := addTo (dirName path) w.directories },none)
  | .ok (.directory es) =>
    ({ w with directories := w.directories ++ (Entry.directory es).unwatched w.directories path },none)
  | .ok .special => (w,none)

def ignoreNext (w : Watcher) (filename : Bytes) : Watcher :=
  if filename.isEmpty then w else { w with ignored := addTo (cleanPath filename) w.ignored }

def passOver (w : Watcher) (filename : Bytes) : Watcher × Bool :=
  if w.ignored.contains filename then
    ({ w with ignored := w.ignored.filter (· != filename) },true)
  else (w,false)

def isWatched (w : Watcher) (d : Disk) (filename : Bytes) : Bool :=
  w.paths.any fun path => path == filename || (isWithin path filename && d.namesDirectory path)

def sortedDirectories (w : Watcher) : List Bytes := w.directories.mergeSort fun a b => !before b a

end Watcher

end Cascade
