import Cascade.Command.Options
import Cascade.Command.Tasks
import Cascade.Config.Basic
import Cascade.Minify

/-! From a request to the tasks it asks for, or the reason why it cannot be done. -/
namespace Cascade

inductive AccessError where
  | openInput (path : Bytes) (error : FileError)
  | read (name : Bytes) (error : FileError)
  | makeDirectory (path : Bytes) (error : FileError)
  | openOutput (path : Bytes) (error : FileError)
  deriving DecidableEq, Repr

def AccessError.message : AccessError → Bytes
  | openInput path error => ascii "open input file " ++ inQuotes path ++ ascii ": " ++ error.message
  | read name error => ascii "read " ++ name ++ ascii ": " ++ error.message
  | makeDirectory path error => ascii "creating directory " ++ inQuotes path ++ ascii ": " ++ error.message
  | openOutput path error => ascii "open output file " ++ inQuotes path ++ ascii ": " ++ error.message

inductive LoadError where
  | access (error : AccessError)
  | config (path : Bytes) (error : ConfigError)
  deriving DecidableEq, Repr

def LoadError.message : LoadError → Bytes
  | access error => error.message
  | config path error => path ++ ascii ": " ++ error.message

inductive Refusal where
  | configuration (error : LoadError)
  | versions (error : MinimumError)
  | watchNeedsFiles
  | preserveNeedsFiles
  | mixedInputs
  | outputNotDirectory (output : Bytes)
  | noOutputDirectory
  | outputDirectory (error : FileError)
  | inputs (error : TaskError)
  deriving DecidableEq, Repr

def Refusal.message : Refusal → Bytes
  | configuration _ => ascii "load configuration"
  | versions _ => ascii "browser versions"
  | watchNeedsFiles => ascii "--watch doesn't work with stdin and stdout, specify input and output"
  | preserveNeedsFiles => ascii "--preserve cannot be used together with stdin or stdout"
  | mixedInputs => ascii "cannot mix files and stdin as input"
  | outputNotDirectory _ => ascii "output must be a directory for multiple inputs"
  | noOutputDirectory => ascii "must specify an output directory for multiple inputs"
  | outputDirectory _ => ascii "create output directory"
  | inputs _ => ascii "collect inputs"

def Refusal.fields : Refusal → List (Bytes × FieldValue)
  | configuration error => [(ascii "error",.text error.message)]
  | versions error => [(ascii "error",.text error.message)]
  | outputNotDirectory output => [(ascii "output",.text output)]
  | outputDirectory error => [(ascii "error",.text error.message)]
  | inputs error => [(ascii "error",.text error.message)]
  | _ => []

def loadConfig (disk : Disk) (path : Bytes) : Except LoadError Config :=
  if path.isEmpty then .ok {}
  else match disk.find path with
    | .error fault => .error (.access (.openInput path ⟨ascii "open",path,fault⟩))
    | .ok (.directory _) =>
      .error (.config path (.unreadable (FileError.message ⟨ascii "read",path,.isDirectory⟩)))
    | .ok .special => .error (.access (.openInput path ⟨ascii "open",path,.noDevice⟩))
    | .ok (.file text) => (Config.read text).mapError (.config path)

def Config.overriddenBy (c : Config) (r : Request) : Config :=
  { c with
    pretty := c.pretty || r.pretty
    aggressive := c.aggressive || r.aggressive
    keepHacks := c.keepHacks || r.keepHacks
    indent := if r.indent = 0 then c.indent else r.indent }

def loadOptions (disk : Disk) (r : Request) : Except Refusal Options :=
  match loadConfig disk r.config with
  | .error e => .error (.configuration e)
  | .ok c =>
    let c := c.overriddenBy r
    match c.minimums with
    | .error e => .error (.versions e)
    | .ok m =>
      match m.merge r.browsers with
      | (_,some e) => .error (.versions e)
      | (m,none) => .ok ⟨m,c.aggressive,c.keepHacks,c.pretty,c.indent⟩

def hyphen : Bytes := [45]

/-- Inputs and output as the task list wants them: a hyphen, for the standard ones, leaves them empty. -/
def streams (r : Request) : List Bytes × Bytes :=
  if r.inputs == [hyphen] then ([],r.output)
  else (r.inputs,if r.output == hyphen then [] else r.output)

def cleanInput (path : Bytes) : Bytes := if endsInSlash path then cleanPath path ++ [47] else cleanPath path

def outputIsDirectory (disk : Disk) (inputs : List Bytes) (output : Bytes) : Bool :=
  disk.namesDirectory output ||
    match inputs with
    | [input] =>
      match disk.find input with
      | .ok e => e.isDirectory
      | .error _ => false
    | _ => false

def prepareOutput (disk : Disk) (inputs : List Bytes) (output : Bytes) :
    Except Refusal (Bytes × Disk) :=
  if output.isEmpty then if 1 < inputs.length then .error .noOutputDirectory else .ok ([],disk)
  else if outputIsDirectory disk inputs output then
    let directory := cleanPath output ++ [47]
    match disk.makeDirectories directory with
    | .ok disk => .ok (directory,disk)
    | .error e => .error (.outputDirectory e)
  else if 1 < inputs.length then .error (.outputNotDirectory output)
  else .ok (cleanPath output,disk)

structure Plan where
  tasks : List Task
  options : Options

def planTasks (disk : Disk) (inputs : List Bytes) (output : Bytes) : Except Refusal (List Task) :=
  if inputs.isEmpty then .ok [{}]
  else match createTasks (.ofDisk disk) inputs output with
    | .error e => .error (.inputs e)
    | .ok (tasks,_) =>
      if output.isEmpty && 1 < tasks.length then .error .noOutputDirectory else .ok tasks

def checkStreams (r : Request) (inputs : List Bytes) (output : Bytes) : Except Refusal Unit :=
  let streaming := inputs.isEmpty || output.isEmpty
  if streaming && r.watch then .error .watchNeedsFiles
  else if streaming && r.preserve then .error .preserveNeedsFiles
  else if inputs.contains hyphen then .error .mixedInputs
  else .ok ()

def plan (disk : Disk) (r : Request) : Disk × Except Refusal Plan :=
  match loadOptions disk r with
  | .error e => (disk,.error e)
  | .ok options =>
    let (inputs,output) := streams r
    match checkStreams r inputs output with
    | .error e => (disk,.error e)
    | .ok () =>
      let inputs := inputs.map cleanInput
      match prepareOutput disk inputs output with
      | .error e => (disk,.error e)
      | .ok (output,disk) => (disk,(planTasks disk inputs output).map fun tasks => ⟨tasks,options⟩)

end Cascade
