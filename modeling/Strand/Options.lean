/-!
# Compiler options
-/

namespace Strand

/-- What a single compilation may be told. -/
structure Options where
  /-- The name recorded in the module. -/
  sourceName : String := "<main>"
  /-- How deeply nodes may nest before a subtree is given up. -/
  maxNestingDepth : UInt64 := 200
  /-- Whether type errors fail the compilation. -/
  typeCheck : Bool := true
  /-- Globals that the host supplies when the module runs. -/
  hostGlobals : List String := ["print"]
deriving DecidableEq, Inhabited

namespace Options

/-- The defaults for a source of a given name. -/
def forSource (name : String) : Options := { sourceName := name }

def addHostGlobal (o : Options) (name : String) : Options :=
  { o with hostGlobals := o.hostGlobals ++ [name] }

end Options

end Strand
