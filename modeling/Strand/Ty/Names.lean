import Strand.Ty.Basic

/-!
# Named types

The types that have a name in one scope. A later definition hides an earlier one.
-/

namespace Strand

/-- Types by name, the latest definition first. -/
structure TypeNames where
  entries : List (String × Ty) := []
deriving Inhabited

namespace TypeNames

/-- The primitives by their names. -/
def builtins : TypeNames := ⟨Primitive.all.map fun p => (p.name, .prim p)⟩

def find? (t : TypeNames) (name : String) : Option Ty :=
  (t.entries.find? fun e => e.1 == name).map Prod.snd

def define (t : TypeNames) (name : String) (ty : Ty) : TypeNames := ⟨(name, ty) :: t.entries⟩

end TypeNames

end Strand
