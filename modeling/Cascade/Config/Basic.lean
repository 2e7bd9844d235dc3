import Cascade.Browser.Minimums
import Cascade.Config.Scalar

/-! The options that a configuration file can set. -/
namespace Cascade

structure Config where
  browsers : List (Bytes × Bytes) := []
  aggressive : Bool := false
  keepHacks : Bool := false
  pretty : Bool := false
  indent : Int := 0

inductive ConfigType where
  | config
  | browsers
  | truth
  | whole
  | text
  deriving DecidableEq, Repr

def ConfigType.name : ConfigType → Bytes
  | config => ascii "main.Config"
  | browsers => ascii "map[string]string"
  | truth => ascii "bool"
  | whole => ascii "int"
  | text => ascii "string"

inductive ConfigFault where
  | unknownField (line : Nat) (name : Bytes)
  | repeatedKey (line : Nat) (key : Bytes) (first : Nat)
  | wrongType (line : Nat) (tag : Bytes) (value : Option Bytes) (type : ConfigType)
  deriving DecidableEq, Repr

def shownValue (value : Bytes) : Bytes :=
  if 10 < value.length then value.take 7 ++ ascii "..." else value

def ConfigFault.message : ConfigFault → Bytes
  | unknownField line name =>
    ascii "line " ++ decimal line ++ ascii ": field " ++ name ++ ascii " not found in type " ++
      ConfigType.config.name
  | repeatedKey line key first =>
    ascii "line " ++ decimal line ++ ascii ": mapping key " ++ inQuotes key ++
      ascii " already defined at line " ++ decimal first
  | wrongType line tag value type =>
    let shown : Bytes := match value with
      | none => []
      | some v => ascii " \x60" ++ shownValue v ++ ascii "\x60"
    ascii "line " ++ decimal line ++ ascii ": cannot unmarshal " ++ tag ++ shown ++
      ascii " into " ++ type.name

inductive ConfigError where
  | malformed (error : YamlError)
  | unreadable (cause : Bytes)
  | faults (faults : List ConfigFault)
  deriving DecidableEq, Repr

def ConfigError.message (e : ConfigError) : Bytes :=
  ascii "decode configuration: " ++ match e with
    | malformed error => error.message
    | unreadable cause => ascii "yaml: input error: " ++ cause
    | faults fs =>
      ascii "yaml: unmarshal errors:" ++ fs.flatMap fun f => ascii "\n  " ++ f.message

def refuse (type : ConfigType) : Yaml → ConfigFault
  | .scalar line plain text =>
    let scalar := if plain then Scalar.ofPlain text else .text
    .wrongType line scalar.tag (some text) type
  | .sequence line _ => .wrongType line (ascii "!!seq") none type
  | .mapping line _ => .wrongType line (ascii "!!map") none type

abbrev Taken (α : Type) := Except ConfigFault (Option α)

def yesWords : List Bytes := [ascii "y",ascii "Y",ascii "yes",ascii "on"]

def noWords : List Bytes := [ascii "n",ascii "N",ascii "no",ascii "off"]

def takeTruth (node : Yaml) : Taken Bool :=
  match node with
  | .scalar _ plain text =>
    match if plain then Scalar.ofPlain text else .text with
    | .nothing => .ok none
    | .truth b => .ok (some b)
    | .text =>
      if yesWords.contains text then .ok (some true)
      else if noWords.contains text then .ok (some false)
      else .error (refuse .truth node)
    | _ => .error (refuse .truth node)
  | _ => .error (refuse .truth node)

def truncate (f : Float) : Option Int :=
  match parts f with
  | .nan => none
  | .infinite negative => if negative then some (-(signedLimit : Int)) else none
  | .finite negative m e =>
    let n : Nat := match e with
      | .ofNat k => m * Nat.pow 2 k
      | .negSucc k => m / Nat.pow 2 (k + 1)
    if n < signedLimit then some (if negative then -(n : Int) else n)
    else if negative || n = signedLimit then some (-(signedLimit : Int))
    else none

def takeWhole (node : Yaml) : Taken Int :=
  match node with
  | .scalar _ true text =>
    match Scalar.ofPlain text with
    | .nothing => .ok none
    | .whole n => if n < signedLimit then .ok (some n) else .error (refuse .whole node)
    | .real f =>
      match truncate f with
      | some n => .ok (some n)
      | none => .error (refuse .whole node)
    | _ => .error (refuse .whole node)
  | _ => .error (refuse .whole node)

def isNull : Yaml → Bool
  | .scalar _ true text =>
    match Scalar.ofPlain text with
    | .nothing => true
    | _ => false
  | _ => false

def takeText (node : Yaml) : Taken Bytes :=
  match node with
  | .scalar _ _ text => .ok (if isNull node then none else some text)
  | _ => .error (refuse .text node)

def keyOf : Yaml → Nat × Option Bytes
  | .scalar line _ text => (line,some text)
  | .sequence line _ => (line,none)
  | .mapping line _ => (line,none)

def repeatedKeys : List (Yaml × Yaml) → List ConfigFault
  | [] => []
  | (key,_) :: entries =>
    let (first,text) := keyOf key
    (entries.filterMap fun (other,_) =>
      let (line,name) := keyOf other
      match text,name with
      | some a,some b => if a == b then some (ConfigFault.repeatedKey line b first) else none
      | _,_ => none) ++ repeatedKeys entries

structure Collected (α : Type) where
  value : α
  faults : List ConfigFault := []

def browserEntries : List (Yaml × Yaml) → Collected (List (Bytes × Bytes))
  | [] => ⟨[],[]⟩
  | (key,value) :: entries =>
    let rest := browserEntries entries
    match takeText key,takeText value with
    | .error fault,_ => ⟨rest.value,fault :: rest.faults⟩
    | .ok none,_ => rest
    | .ok (some _),.error fault => ⟨rest.value,fault :: rest.faults⟩
    | .ok (some name),.ok version => ⟨(name,version.getD []) :: rest.value,rest.faults⟩

def takeBrowsers (node : Yaml) : Collected (List (Bytes × Bytes)) :=
  match node with
  | .mapping _ entries =>
    match repeatedKeys entries with
    | [] => browserEntries entries
    | faults => ⟨[],faults⟩
  | _ => if isNull node then ⟨[],[]⟩ else ⟨[],[refuse .browsers node]⟩

namespace Config

def setTruth (c : Config) (node : Yaml) (set : Config → Bool → Config) : Collected Config :=
  match takeTruth node with
  | .ok (some b) => ⟨set c b,[]⟩
  | .ok none => ⟨c,[]⟩
  | .error fault => ⟨c,[fault]⟩

def setField (c : Config) (line : Nat) (name : Bytes) (node : Yaml) : Collected Config :=
  if name = ascii "browsers" then
    let taken := takeBrowsers node
    ⟨{ c with browsers := taken.value },taken.faults⟩
  else if name = ascii "o1" then c.setTruth node fun c b => { c with aggressive := b }
  else if name = ascii "saveie" then c.setTruth node fun c b => { c with keepHacks := b }
  else if name = ascii "pretty" then c.setTruth node fun c b => { c with pretty := b }
  else if name = ascii "indent" then
    match takeWhole node with
    | .ok (some n) => ⟨{ c with indent := n },[]⟩
    | .ok none => ⟨c,[]⟩
    | .error fault => ⟨c,[fault]⟩
  else ⟨c,[.unknownField line name]⟩

def setFields (c : Config) : List (Yaml × Yaml) → Collected Config
  | [] => ⟨c,[]⟩
  | (key,node) :: entries =>
    match takeText key with
    | .error fault =>
      let rest := c.setFields entries
      ⟨rest.value,fault :: rest.faults⟩
    | .ok none => c.setFields entries
    | .ok (some name) =>
      let set := c.setField (keyOf key).1 name node
      let rest := set.value.setFields entries
      ⟨rest.value,set.faults ++ rest.faults⟩

def ofNode (node : Yaml) : Collected Config :=
  match node with
  | .mapping _ entries =>
    match repeatedKeys entries with
    | [] => ({} : Config).setFields entries
    | faults => ⟨{},faults⟩
  | _ => if isNull node then ⟨{},[]⟩ else ⟨{},[refuse .config node]⟩

def read (text : Bytes) : Except ConfigError Config :=
  match Yaml.read text with
  | .error e => .error (.malformed e)
  | .ok none => .ok {}
  | .ok (some node) =>
    let taken := ofNode node
    if taken.faults.isEmpty then .ok taken.value else .error (.faults taken.faults)

def setMinimums : List (Bytes × Bytes) → Minimums → Except MinimumError Minimums
  | [],m => .ok m
  | (name,version) :: rest,m =>
    match m.setNamed name version with
    | .ok m => setMinimums rest m
    | .error e => .error e

def minimums (c : Config) : Except MinimumError Minimums :=
  setMinimums (c.browsers.mergeSort fun a b => !before b.1 a.1) {}

end Config

end Cascade
