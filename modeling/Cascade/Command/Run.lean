import Cascade.Command.Log
import Cascade.Command.Plan
import Cascade.Command.Report

/-! A run of the command: what it prints, in order, and the disk it leaves. Times are left open. -/
namespace Cascade

inductive Event where
  | output (text : Bytes)
  | log (line : LogLine)
  | report (task : Task) (size newSize : Nat)
  | finished

structure Run where
  exit : Nat := 0
  events : List Event := []
  disk : Disk

def Event.isShown (r : Request) : Event → Bool
  | .output _ => true
  | .report .. => !r.quiet
  | .log line => !r.quiet && (Severity.threshold r.verbosity).rank ≤ line.severity.rank
  | .finished => !r.quiet && (Severity.threshold r.verbosity).rank ≤ Severity.info.rank

def readSource (disk : Disk) (stdin : Bytes) (t : Task) : Except AccessError Bytes :=
  if t.source.isEmpty then .ok stdin
  else match disk.find t.source with
    | .ok (.file content) => .ok content
    | .ok (.directory _) => .error (.read t.source ⟨ascii "read",t.source,.isDirectory⟩)
    | .ok .special => .error (.openInput t.source ⟨ascii "open",t.source,.noDevice⟩)
    | .error fault => .error (.openInput t.source ⟨ascii "open",t.source,fault⟩)

def writeResult (disk : Disk) (t : Task) (result : Bytes) : Except AccessError (Disk × List Event) :=
  if t.destination.isEmpty then .ok (disk,[.output result])
  else
    let directory := dirName t.destination
    match disk.makeDirectories directory with
    | .error e => .error (.makeDirectory directory e)
    | .ok disk =>
      match disk.writeFile t.destination result with
      | .error e => .error (.openOutput t.destination e)
      | .ok disk => .ok (disk,[])

structure Done where
  disk : Disk
  events : List Event
  ok : Bool

def failed (disk : Disk) (events : List Event) (t : Task) (e : AccessError) : Done :=
  let line := LogLine.error (ascii "minify")
    [(ascii "file",.text t.sourceName),(ascii "error",.text e.message)]
  ⟨disk,events ++ [.log line],false⟩

def runTask (o : Options) (stdin : Bytes) (disk : Disk) (t : Task) : Done :=
  match readSource disk stdin t with
  | .error e => failed disk [] t e
  | .ok source =>
    let result := minify o source
    let notes := result.notes.map fun n => Event.log (.ofNote n)
    match writeResult disk t result.value with
    | .error e => failed disk notes t e
    | .ok (disk,written) =>
      ⟨disk,notes ++ written ++ [.report t source.length result.value.length],true⟩

def runTasks (o : Options) (stdin : Bytes) : List Task → Done → Done
  | [],done => done
  | t :: ts,done =>
    let next := runTask o stdin done.disk t
    runTasks o stdin ts ⟨next.disk,done.events ++ next.events,done.ok && next.ok⟩

def startLine (p : Plan) : LogLine :=
  .info (ascii "minify") [(ascii "files",.count p.tasks.length),
    (ascii "browsers",.text p.options.minimums.text),(ascii "o1",.flag p.options.aggressive)]

def runRequest (r : Request) (stdin : Bytes) (disk : Disk) : Run :=
  if r.help then { exit := 0,events := [.output helpText],disk := disk }
  else if r.version then
    { exit := 0,events := if r.quiet then [] else [.output versionText],disk := disk }
  else
    match plan disk r with
    | (disk,.error refusal) =>
      { exit := 1,events := [.log (.error refusal.message refusal.fields)],disk := disk }
    | (disk,.ok p) =>
      let done := runTasks p.options stdin p.tasks ⟨disk,[.log (startLine p)],true⟩
      if done.ok then { exit := 0,events := done.events ++ [.finished],disk := done.disk }
      else { exit := 1,events := done.events,disk := done.disk }

def run (words : List Bytes) (stdin : Bytes) (disk : Disk) : Run :=
  match Request.read words with
  | .error e =>
    { exit := 1,events := [.output (e.message ++ ascii "\n\n" ++ helpText)],disk := disk }
  | .ok r =>
    let whole := runRequest r stdin disk
    { whole with events := whole.events.filter (Event.isShown r) }

structure Timing where
  time : Bytes
  speed : Nat → Bytes
  whole : Bytes

def Event.text (timing : Timing) : Event → Bytes × Bytes
  | .output text => (text,[])
  | .log line => ([],line.text)
  | .finished => ([],(LogLine.info (ascii "finished") [(ascii "duration",.text timing.whole)]).text)
  | .report t size newSize =>
    let line := figures timing.time (timing.speed size) size newSize ++ ascii " - " ++
      itinerary t.sourceName t.destinationName ++ [10]
    if t.destination.isEmpty then ([],line) else (line,[])

end Cascade
