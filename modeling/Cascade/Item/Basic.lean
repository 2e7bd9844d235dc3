import Cascade.Token.Basic

/-! The statements a token stream is cut into, before anything is known about what they mean. -/
namespace Cascade

inductive FaultKind where
  | ruleEnd
  | atRuleEnd
  | declarationEnd
  | customEnd
  | colonExpected
  | customColonExpected
  | unexpectedToken (text : Bytes)
  deriving DecidableEq, Repr

structure Fault where
  kind : FaultKind
  position : Nat
  source : Bytes
  deriving DecidableEq, Repr

inductive Item where
  | fault (fault : Fault) (skipped : List Token)
  | endOfInput
  | close
  | text (text : Bytes)
  | atRule (name : Bytes) (prelude : List Token)
  | openAtRule (name : Bytes) (prelude : List Token)
  | selectorPart (selector : List Token)
  | openRule (selector : List Token)
  | declaration (name : Bytes) (value : List Token)
  | custom (name value : Bytes)
  deriving DecidableEq, Repr

def FaultKind.message : FaultKind → Bytes
  | ruleEnd => ascii "unexpected ending in qualified rule"
  | atRuleEnd => ascii "unexpected ending in at rule"
  | declarationEnd => ascii "unexpected ending in declaration"
  | customEnd => ascii "unexpected ending in custom property"
  | colonExpected => ascii "expected colon in declaration"
  | customColonExpected => ascii "expected colon in custom property"
  | unexpectedToken text => ascii "unexpected token '" ++ text ++ ascii "' in declaration"

end Cascade
