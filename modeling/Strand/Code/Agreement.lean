import Strand.Binary64
import Strand.Code.Unit

/-!
# When two modules agree

Two modules agree when a program could not tell them apart by comparing their parts:
floats are compared as values, so a not-a-number agrees with nothing and the two
zeros agree, and the order of the globals does not count.
-/

namespace Strand

def Manifest.agrees (a b : Manifest) : Bool :=
  a.package == b.package && a.exportTarget == b.exportTarget &&
    a.entryPoint == b.entryPoint && a.exports == b.exports && a.optimize == b.optimize &&
    a.globals.agrees b.globals

mutual

def Constant.agrees : Constant → Constant → Bool
  | .int a, .int b => a == b
  | .float a, .float b => Binary64.sameValue a b
  | .str a, .str b => a == b
  | .names a, .names b => a == b
  | .function a, .function b => a.agrees b
  | .classType a, .classType b => a == b
  | .enumType a, .enumType b => a == b
  | _, _ => false

def CodeUnit.agrees : CodeUnit → CodeUnit → Bool
  | ⟨header, captures, manifest, constants, code, lines⟩, u =>
    header == u.header && captures == u.captures && manifest.agrees u.manifest &&
      code == u.code && lines == u.lines && poolsAgree constants u.constants

def poolsAgree : List Constant → List Constant → Bool
  | [], [] => true
  | a :: as, b :: bs => a.agrees b && poolsAgree as bs
  | _, _ => false

end

def Module.agrees (a b : Module) : Bool := a.sourceName == b.sourceName && a.main.agrees b.main

end Strand
