import Cascade.Note.Basic

/-! Lines of the log, with the fields of each as an object. -/
namespace Cascade

inductive Severity where
  | debug
  | info
  | warn
  | error
  deriving DecidableEq, Repr

namespace Severity

def rank : Severity → Nat
  | debug => 0
  | info => 1
  | warn => 2
  | error => 3

def label : Severity → Bytes
  | debug => ascii "DEBUG"
  | info => ascii "INFO"
  | warn => ascii "WARN"
  | error => ascii "ERROR"

def threshold (verbosity : Nat) : Severity :=
  match verbosity with
  | 0 => error
  | 1 => warn
  | 2 => info
  | _ => debug

end Severity

structure LogLine where
  severity : Severity
  fromReader : Bool := false
  message : Bytes
  fields : List (Bytes × FieldValue) := []

namespace LogLine

def ofNote (n : Note) : LogLine where
  severity := match n.level with
    | .debug => .debug
    | .warn => .warn
  fromReader := n.isReading
  message := n.message
  fields := n.fields

def error (message : Bytes) (fields : List (Bytes × FieldValue)) : LogLine :=
  { severity := .error,message := message,fields := fields }

def info (message : Bytes) (fields : List (Bytes × FieldValue)) : LogLine :=
  { severity := .info,message := message,fields := fields }

end LogLine

def loggedCharacter (c : Nat) (bytes : Bytes) : Bytes :=
  if c == 34 || c == 92 then 92 :: bytes
  else if c == 10 then ascii "\\n"
  else if c == 13 then ascii "\\r"
  else if c == 9 then ascii "\\t"
  else if c < 32 then ascii "\\u00" ++ hexByte c
  else if c == replacement && bytes.length == 1 then ascii "\\ufffd"
  else bytes

def loggedText (s : Bytes) : Bytes :=
  34 :: (characters s).flatMap (fun (c,bytes) => loggedCharacter c bytes) ++ [34]

def loggedValue : FieldValue → Bytes
  | .text s => loggedText s
  | .count n => decimal n
  | .flag b => ascii (if b then "true" else "false")

def loggedFields (fields : List (Bytes × FieldValue)) : Bytes :=
  if fields.isEmpty then []
  else 9 :: 123 :: (ascii ", ").intercalate (fields.map fun (name,value) =>
    loggedText name ++ ascii ": " ++ loggedValue value) ++ [125]

def LogLine.text (l : LogLine) : Bytes :=
  l.severity.label ++ 9 :: ascii "cssopt" ++ (if l.fromReader then ascii ".css-parser" else []) ++
    9 :: l.message ++ loggedFields l.fields ++ [10]

end Cascade
