import Strand.Ty.Basic

/-!
# Generic parameters

Substituting types for generic parameters, and finding such types from the arguments
of a call. The parameters that a function type declares itself are not protected from
substitution. Variants keep the types they were declared with.
-/

namespace Strand

/-- Types for generic parameters. The first entry for a name counts. -/
abbrev Bindings := List (String × Ty)

def Bindings.find? (b : Bindings) (name : String) : Option Ty :=
  (List.find? (fun e : String × Ty => e.1 == name) b).map Prod.snd

mutual

/-- Replace the generic parameters that are bound. -/
def Ty.substitute (b : Bindings) : Ty → Ty
  | .generic name => (b.find? name).getD (.generic name)
  | .tuple items => .tuple (Ty.substituteAll b items)
  | .ref target => .ref (target.substitute b)
  | .inst c args => .inst c (Ty.substituteAll b args)
  | .fn sig => .fn (sig.substitute b)
  | .prim p => .prim p
  | .classObject c => .classObject c
  | .enumObject e => .enumObject e
  | .variant v => .variant v

def Signature.substitute (b : Bindings) : Signature → Signature
  | ⟨result, params, generics, hasVarargs, defaultCount⟩ =>
    ⟨result.substitute b, Ty.substituteAll b params, generics, hasVarargs, defaultCount⟩

def Ty.substituteAll (b : Bindings) : List Ty → List Ty
  | [] => []
  | t :: ts => t.substitute b :: Ty.substituteAll b ts

end

mutual

/-- Match the type of a parameter against that of an argument and bind the generic
parameters met on the way. A parameter that is bound stays bound, and an argument
about which nothing is known binds nothing. Functions are not looked into. -/
def Ty.infer : Ty → Ty → Bindings → Bindings
  | .generic name, actual, b =>
    if actual.isDynamic || b.any fun e => e.1 == name then b else b ++ [(name, actual)]
  | .tuple xs, .tuple ys, b => Ty.inferAll xs ys b
  | .ref x, .ref y, b => x.infer y b
  | .inst _ xs, .inst _ ys, b => Ty.inferAll xs ys b
  | _, _, b => b

def Ty.inferAll : List Ty → List Ty → Bindings → Bindings
  | x :: xs, y :: ys, b => Ty.inferAll xs ys (x.infer y b)
  | _, _, b => b

end

end Strand
