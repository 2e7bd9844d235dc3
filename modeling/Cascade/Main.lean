import Cascade.Command.Run

/-! The command. It brings the places that a request names from the real disk into a `Disk`, lets the library decide
what to do, and carries that out. A directory is not listed, so inputs have to be files. -/
namespace Cascade

def pathText (path : Bytes) : String := (String.fromUTF8? ⟨path.toArray⟩).getD ""

def directoryCode : UInt32 := 21

def probe (place : Bytes) : IO (Option Entry) := do
  try
    let content ← IO.FS.readBinFile (pathText place)
    return some (.file content.toList)
  catch e =>
    match e with
    | .inappropriateType _ code _ => return if code = directoryCode then some .empty else none
    | _ => return none

def survey (disk : Disk) (path : Bytes) : IO Disk := do
  let parts := disk.parts path
  let ways := (List.range parts.length).map fun i => parts.take (i + 1)
  ways.foldlM (fun disk way => do
    let place := joinParts true (cleanParts true way)
    match disk.find place with
    | .ok _ => return disk
    | .error _ =>
      match ← probe place with
      | some e => return disk.store place e
      | none => return disk) disk

def surveyRequest (r : Request) : IO Disk := do
  let working := cleanParts true (fields 47 (toString (← IO.currentDir)).toUTF8.toList)
  let (inputs,output) := streams r
  (r.config :: output :: inputs).foldlM survey { working := working }

def Timing.ofNanos (nanos : Nat) : Timing where
  time := column 9 (timeText nanos)
  speed size := column 6 (speedText size nanos)
  whole := timeText nanos

def emit (r : Request) (nanos : Nat) (events : List Event) : IO Unit := do
  let stdout ← IO.getStdout
  let stderr ← IO.getStderr
  for event in events.filter (Event.isShown r) do
    let (out,err) := event.text (.ofNanos nanos)
    stdout.write ⟨out.toArray⟩
    stderr.write ⟨err.toArray⟩
  stdout.flush

partial def readAll (stream : IO.FS.Stream) (read : ByteArray) : IO ByteArray := do
  let chunk ← stream.read 65536
  if chunk.isEmpty then return read else readAll stream (read ++ chunk)

def saveDirectory (disk : Disk) (path : Bytes) : IO Unit :=
  match disk.find path with
  | .ok (.directory _) => IO.FS.createDirAll (pathText path)
  | _ => return ()

def saveResult (done : Done) (t : Task) : IO Unit := do
  if done.ok then
    match done.disk.find t.destination with
    | .ok (.file content) =>
      IO.FS.createDirAll (pathText (dirName t.destination))
      IO.FS.writeBinFile (pathText t.destination) ⟨content.toArray⟩
    | _ => return ()

def performTask (r : Request) (o : Options) (stdin : Bytes) (disk : Disk) (t : Task) : IO Bool := do
  let disk ← [t.source,t.destination].foldlM survey disk
  let start ← IO.monoNanosNow
  let done ← IO.lazyPure fun _ => runTask o stdin disk t
  let nanos := (← IO.monoNanosNow) - start
  saveResult done t
  emit r nanos done.events
  return done.ok

def performPlan (r : Request) (disk : Disk) (p : Plan) : IO Bool := do
  let start ← IO.monoNanosNow
  emit r 0 [.log (startLine p)]
  let mut ok := true
  for t in p.tasks do
    let stdin ← if t.source.isEmpty then readAll (← IO.getStdin) .empty else pure .empty
    ok := (← performTask r p.options stdin.toList disk t) && ok
  if ok then emit r ((← IO.monoNanosNow) - start) [.finished]
  return ok

def perform (r : Request) : IO Bool := do
  let disk ← surveyRequest r
  let (inputs,output) := streams r
  let found := inputs.find? fun path => (disk.find path).toOption.any Entry.isDirectory
  if let some path := found then
    let reason := ascii "list " ++ path ++ ascii ": directories are not supported"
    emit r 0 [.log (.error (ascii "collect inputs") [(ascii "error",.text reason)])]
    return false
  let (disk,planned) := plan disk r
  saveDirectory disk output
  match planned with
  | .ok p => performPlan r disk p
  | .error refusal =>
    emit r 0 [.log (.error refusal.message refusal.fields)]
    return false

end Cascade

open Cascade in
def main (args : List String) : IO UInt32 := do
  let words := args.map fun word => word.toUTF8.toList
  match Request.read words with
  | .ok r =>
    if !r.help && !r.version then return if ← perform r then 0 else 1
    let answered := runRequest r [] {}
    emit r 0 answered.events
    return answered.exit.toUInt32
  | .error _ =>
    let refused := run words [] {}
    emit {} 0 refused.events
    return refused.exit.toUInt32
