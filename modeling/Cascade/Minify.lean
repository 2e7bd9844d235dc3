import Cascade.Optimizer.Rules
import Cascade.Rule.Pretty
import Cascade.Sheet.Reader

/-! The whole way from the text of a stylesheet to its optimized text. -/
namespace Cascade

structure Options where
  minimums : Minimums := {}
  aggressive : Bool := false
  keepHacks : Bool := false
  pretty : Bool := false
  indent : Int := 0

def Options.context (o : Options) : Context :=
  { minimums := o.minimums,aggressive := o.aggressive,keepHacks := o.keepHacks }

def Options.print (o : Options) (s : Stylesheet) : Bytes :=
  if o.pretty then
    if 0 < o.indent then reindent o.indent.toNat (s.pretty 0) else s.pretty 0
  else s.text

inductive MinifyError where
  | read (cause : Bytes)
  | write (cause : Bytes)
  deriving DecidableEq, Repr

def MinifyError.message : MinifyError → Bytes
  | read cause => ascii "read stylesheet: " ++ cause
  | write cause => ascii "write stylesheet: " ++ cause

def minify (o : Options) (source : Bytes) : Noted Bytes := do
  let sheet ← Stylesheet.read source
  let sheet ← sheet.optimize o.context
  pure (o.print sheet)

end Cascade
