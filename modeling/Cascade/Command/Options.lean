import Cascade.Text.Scalars

/-! The command line: options by their long and short names, and inputs. -/
namespace Cascade

structure Request where
  inputs : List Bytes := []
  output : Bytes := []
  config : Bytes := []
  browsers : List Bytes := []
  pretty : Bool := false
  aggressive : Bool := false
  keepHacks : Bool := false
  indent : Int := 0
  quiet : Bool := false
  verbosity : Nat := 0
  watch : Bool := false
  preserve : Bool := false
  version : Bool := false
  help : Bool := false

inductive Setting where
  | output
  | pretty
  | indent
  | aggressive
  | keepHacks
  | browser
  | config
  | quiet
  | verbose
  | watch
  | preserve
  | version
  | help
  deriving DecidableEq, Repr

namespace Setting

def longNames : List (Bytes × Setting) :=
  [(ascii "output",output),(ascii "pretty",pretty),(ascii "indent",indent),
    (ascii "o1",aggressive),(ascii "saveie",keepHacks),(ascii "browser",browser),
    (ascii "config",config),(ascii "quiet",quiet),(ascii "verbose",verbose),
    (ascii "watch",watch),(ascii "preserve",preserve),(ascii "version",version),
    (ascii "help",help)]

def shortNames : List (Nat × Setting) :=
  [(111,output),(99,config),(113,quiet),(118,verbose),(119,watch),(112,preserve),
    (104,help)]

def takesValue : Setting → Bool
  | output | indent | browser | config => true
  | _ => false

end Setting

inductive UsageFault where
  | missingValue
  | notInteger (value : Bytes)
  | notTruth (value : Bytes)
  deriving DecidableEq, Repr

inductive UsageError where
  | unknown (option : Bytes)
  | invalid (option : Bytes) (fault : UsageFault)
  deriving DecidableEq, Repr

def UsageFault.message : UsageFault → Bytes
  | missingValue => ascii "missing value"
  | notInteger value => ascii "invalid integer '" ++ value ++ ascii "'"
  | notTruth value => ascii "invalid boolean '" ++ value ++ ascii "'"

def UsageError.message : UsageError → Bytes
  | unknown option => ascii "unknown option " ++ option
  | invalid option fault => ascii "option " ++ option ++ ascii ": " ++ fault.message

def integer? (s : Bytes) : Option Int :=
  let negative := s.head? == some 45
  let digits := if negative || s.head? == some 43 then s.tail else s
  let n := digitsValue digits
  if digits.isEmpty || !digits.all isDigit then none
  else if negative then if n ≤ signedLimit then some (-(n : Int)) else none
  else if n < signedLimit then some n else none

def truth? (s : Bytes) : Option Bool :=
  if s = ascii "true" || s = ascii "1" then some true
  else if s = ascii "false" || s = ascii "0" then some false
  else none

namespace Request

def setValue (r : Request) (setting : Setting) (value : Bytes) : Except UsageFault Request :=
  match setting with
  | .output => .ok { r with output := value }
  | .config => .ok { r with config := value }
  | .browser => .ok { r with browsers := [value] }
  | .indent =>
    match integer? value with
    | some n => .ok { r with indent := n }
    | none => .error (.notInteger value)
  | _ => .ok r

def setFlag (r : Request) (setting : Setting) (on : Bool) : Request :=
  match setting with
  | .pretty => { r with pretty := on }
  | .aggressive => { r with aggressive := on }
  | .keepHacks => { r with keepHacks := on }
  | .quiet => { r with quiet := on }
  | .verbose => { r with verbosity := r.verbosity + 1 }
  | .watch => { r with watch := on }
  | .preserve => { r with preserve := on }
  | .version => { r with version := on }
  | .help => { r with help := on }
  | _ => r

def setFlagTo (r : Request) (setting : Setting) (value : Bytes) : Except UsageFault Request :=
  match setting,integer? value with
  | .verbose,some n => .ok { r with verbosity := n.toNat }
  | .verbose,none => .error (.notInteger value)
  | _,_ =>
    match truth? value with
    | some on => .ok (r.setFlag setting on)
    | none => .error (.notTruth value)

/-- Takes one word of short options. A value is the rest of the word, or the next word. -/
def takeShort (r : Request) : List (Nat × Bytes) → Except UsageError (Request × Option (Setting × Bytes))
  | [] => .ok (r,none)
  | (c,bytes) :: rest =>
    match Setting.shortNames.lookup c with
    | none => .error (.unknown (45 :: bytes))
    | some setting =>
      if !setting.takesValue then (r.setFlag setting true).takeShort rest
      else
        let value := rest.flatMap (·.2)
        let value := if value.head? == some 61 then value.tail else value
        if rest.isEmpty then .ok (r,some (setting,45 :: bytes))
        else match r.setValue setting value with
          | .ok r => .ok (r,none)
          | .error fault => .error (.invalid (45 :: bytes) fault)

def readFrom (r : Request) : List Bytes → Except UsageError Request
  | [] => .ok r
  | word :: words =>
    let needing (r : Request) (setting : Setting) (option : Bytes) : Except UsageError Request :=
      match words with
      | [] => .error (.invalid option .missingValue)
      | value :: rest =>
        match r.setValue setting value with
        | .ok r => r.readFrom rest
        | .error fault => .error (.invalid option fault)
    match word with
    | [45,45] => .ok { r with inputs := r.inputs ++ words }
    | 45 :: 45 :: long =>
      let name := long.takeWhile (· != 61)
      let option := 45 :: 45 :: name
      match Setting.longNames.lookup name with
      | none => .error (.unknown option)
      | some setting =>
        if name.length < long.length then
          let value := long.drop (name.length + 1)
          match if setting.takesValue then r.setValue setting value else r.setFlagTo setting value with
          | .ok r => r.readFrom words
          | .error fault => .error (.invalid option fault)
        else if setting.takesValue then needing r setting option
        else (r.setFlag setting true).readFrom words
    | 45 :: b :: short =>
      match r.takeShort (characters (b :: short)) with
      | .error e => .error e
      | .ok (r,none) => r.readFrom words
      | .ok (r,some (setting,option)) => needing r setting option
    | _ => { r with inputs := r.inputs ++ [word] }.readFrom words

def read (words : List Bytes) : Except UsageError Request := ({} : Request).readFrom words

end Request

def helpText : Bytes := ascii "Usage: cssopt [options] inputs...

Options:
      --browser []string  Minimum browser versions to support (eg. ie:9,firefox:20)
  -c, --config string     YAML configuration file
  -h, --help              Help
      --indent int        Number of spaces per nesting level when pretty printing
  -o, --output string     Output file or directory, leave blank to use stdout
      --o1                Aggressive optimizations that may change behaviour in rare cases (default: false)
  -p, --preserve          Preserve timestamps of input files (default: false)
      --pretty            Pretty print instead of minify (default: false)
  -q, --quiet             Quiet mode to suppress all output (default: false)
      --saveie            Keep hacks for old versions of Internet Explorer (default: false)
  -v, --verbose           Verbose mode, set up to three times for more verbosity
      --version           Version (default: false)
  -w, --watch             Watch files and minify upon changes (default: false)

Arguments:
  inputs    Input files or directories, leave blank to use stdin
"

def versionText : Bytes := ascii "cssopt built from source\n"

end Cascade
