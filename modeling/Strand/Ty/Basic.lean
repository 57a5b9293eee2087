import Strand.Arity
import Strand.Ty.Primitive

/-!
# Types

The static types the compiler computes with. A class or enum is named by a reference
that holds what is fixed when it is declared; its members are added later and live in
`Strand.Declarations`, so that a type built early sees members added after it. Two
classes are the same type when they have the same name, and so are two enums; a
variant of an enum is compared part by part.
-/

namespace Strand

/-- A declared class: its place among the declarations, its name and generic
parameters, and the place and name of each class it inherits from, nearest first. -/
structure ClassRef where
  id : Nat
  name : String
  generics : List String
  ancestors : List (Nat × String)
deriving DecidableEq, Inhabited

namespace ClassRef

/-- The class and everything it inherits from. -/
def chain (c : ClassRef) : List (Nat × String) := (c.id, c.name) :: c.ancestors

/-- The name of the class it extends. -/
def parentName? (c : ClassRef) : Option String := c.ancestors.head?.map Prod.snd

def isSubclassOf (a b : ClassRef) : Bool := a.chain.any fun c => c.2 == b.name

end ClassRef

/-- A declared enum: its place among the declarations and its name. -/
structure EnumRef where
  id : Nat
  name : String
deriving DecidableEq, Inhabited

mutual

inductive Ty where
  | prim (p : Primitive)
  | tuple (items : List Ty)
  /-- A mutable cell. -/
  | ref (target : Ty)
  /-- A generic parameter that has not been bound. -/
  | generic (name : String)
  /-- The class itself, which is what its name evaluates to. -/
  | classObject (c : ClassRef)
  | inst (c : ClassRef) (args : List Ty)
  | fn (sig : Signature)
  /-- The enum itself. -/
  | enumObject (e : EnumRef)
  | variant (v : Variant)

/-- The type of something callable. With `hasVarargs` the last parameter is the
element type of a rest parameter; the last `defaultCount` parameters may be left
out. -/
structure Signature where
  result : Ty
  params : List Ty
  generics : List String
  hasVarargs : Bool
  defaultCount : Nat

/-- One variant of an enum with its payload. -/
structure Variant where
  enumName : String
  name : String
  ordinal : Nat
  generics : List String
  fieldNames : List String
  fieldTypes : List Ty

end

instance : Inhabited Ty := ⟨.prim .any⟩
instance : Inhabited Signature := ⟨⟨default, [], [], false, 0⟩⟩
instance : Inhabited Variant := ⟨⟨"", "", 0, [], [], []⟩⟩

namespace Ty

def any : Ty := .prim .any
def void : Ty := .prim .void
def bool : Ty := .prim .bool
def int : Ty := .prim .i64
def float : Ty := .prim .f64
def str : Ty := .prim .str
def list : Ty := .prim .list
def map : Ty := .prim .map

/-- Types about which nothing is known statically; they mix with everything. -/
def isDynamic : Ty → Bool
  | .prim .any | .generic _ => true
  | _ => false

def isVoid : Ty → Bool
  | .prim .void => true
  | _ => false

def primitive? : Ty → Option Primitive
  | .prim p => some p
  | _ => none

end Ty

/-- An instance with every generic parameter left open. -/
def ClassRef.selfInstance (c : ClassRef) : Ty := .inst c (c.generics.map .generic)

/-- Pair each generic parameter with the argument of an instance. -/
def ClassRef.bindGenerics (c : ClassRef) (args : List Ty) : List (String × Ty) :=
  c.generics.zip args

/-- The type of a field of the payload. -/
def Variant.field? (v : Variant) (name : String) : Option Ty :=
  ((v.fieldNames.zip v.fieldTypes).find? fun f => f.1 == name).map Prod.snd

/-! ## Equality -/

mutual

/-- The same type: classes and enums by name, all else part by part. -/
def Ty.same : Ty → Ty → Bool
  | .prim p, .prim q => p == q
  | .tuple xs, .tuple ys => Ty.sameAll xs ys
  | .ref x, .ref y => x.same y
  | .generic m, .generic n => m == n
  | .classObject c, .classObject d => c.name == d.name
  | .inst c xs, .inst d ys => c.name == d.name && Ty.sameAll xs ys
  | .fn f, .fn g => f.same g
  | .enumObject d, .enumObject e => d.name == e.name
  | .variant v, .variant w => v.same w
  | _, _ => false

def Signature.same : Signature → Signature → Bool
  | ⟨result, params, generics, hasVarargs, defaultCount⟩, g =>
    result.same g.result && Ty.sameAll params g.params && generics == g.generics &&
      hasVarargs == g.hasVarargs && defaultCount == g.defaultCount

def Variant.same : Variant → Variant → Bool
  | ⟨enumName, name, ordinal, generics, fieldNames, fieldTypes⟩, w =>
    enumName == w.enumName && name == w.name && ordinal == w.ordinal &&
      generics == w.generics && fieldNames == w.fieldNames &&
      Ty.sameAll fieldTypes w.fieldTypes

def Ty.sameAll : List Ty → List Ty → Bool
  | [], [] => true
  | x :: xs, y :: ys => x.same y && Ty.sameAll xs ys
  | _, _ => false

end

/-! ## Text -/

/-- The marks behind parameters: a star for the rest parameter, otherwise a question
mark for one that may be left out. -/
def markParams (hasVarargs : Bool) (defaultCount : Nat) (params : List String) : List String :=
  params.zipIdx.map fun (p, i) =>
    if hasVarargs && i + 1 == params.length then p ++ "*"
    else if params.length - min defaultCount params.length ≤ i then p ++ "?"
    else p

mutual

/-- A type as it is written in a message and in the table of globals. -/
def Ty.text : Ty → String
  | .prim p => p.name
  | .tuple items =>
    let texts := Ty.texts items
    "(" ++ ", ".intercalate texts ++ (if texts.length = 1 then "," else "") ++ ")"
  | .ref target => "[" ++ target.text ++ "]"
  | .generic name => name
  | .classObject c => c.name
  | .inst c args =>
    if args.isEmpty then c.name
    else c.name ++ "(" ++ ", ".intercalate (Ty.texts args) ++ ")"
  | .fn sig => sig.text
  | .enumObject e => e.name
  | .variant v => v.enumName ++ "." ++ v.name

def Signature.text : Signature → String
  | ⟨result, params, _, hasVarargs, defaultCount⟩ =>
    result.text ++ "<" ++
      ", ".intercalate (markParams hasVarargs defaultCount (Ty.texts params)) ++ ">"

def Ty.texts : List Ty → List String
  | [] => []
  | t :: ts => t.text :: Ty.texts ts

end

/-! ## Calls -/

namespace Signature

/-- The signature of a function without generics, defaults or a rest parameter. -/
def simple (params : List Ty) (result : Ty) : Signature := ⟨result, params, [], false, 0⟩

/-- The least number of arguments. -/
def requiredArity (f : Signature) : Nat :=
  let fixed := f.params.length - f.hasVarargs.toNat
  fixed - min f.defaultCount fixed

/-- Whether a call may pass `count` arguments. -/
def accepts (f : Signature) (count : Nat) : Bool :=
  f.requiredArity ≤ count && (f.hasVarargs || count ≤ f.params.length)

/-- The declared type for the argument at `index`. -/
def paramFor? (f : Signature) (index : Nat) : Option Ty :=
  if f.hasVarargs && f.params.length ≤ index + 1 then f.params.getLast? else f.params[index]?

/-- What a message says about the number of arguments. -/
def expectedArity (f : Signature) : Arity :=
  let required := f.requiredArity
  if f.hasVarargs then .atLeast required
  else if required = f.params.length then .exactly required
  else .between required f.params.length

end Signature

end Strand
