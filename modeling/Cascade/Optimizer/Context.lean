import Cascade.Browser.Support

/-! What an optimization has to heed. -/
namespace Cascade

structure Context where
  minimums : Minimums := {}
  /-- Also do what may change behaviour in rare cases. -/
  aggressive : Bool := false
  /-- Keep what only old versions of one browser understand. -/
  keepHacks : Bool := false
  vendor : Bytes := []
  function : Bytes := []
  declaration : Bytes := []

namespace Context

def inVendor (ctx : Context) (vendor : Bytes) : Context := { ctx with vendor := vendor }

def inFunction (ctx : Context) (name : Bytes) : Context := { ctx with function := name }

def inDeclaration (ctx : Context) (name : Bytes) : Context := { ctx with declaration := name }

end Context

end Cascade
