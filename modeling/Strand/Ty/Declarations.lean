import Strand.Operator
import Strand.Table
import Strand.Ty.Assignable
import Strand.Ty.Generic

/-!
# Members of classes and enums

The members of every class and the variants of every enum, by the place that a
`ClassRef` or `EnumRef` names. Entries are only added to: a class is declared with no
members and gets them one by one, so that its own methods can mention it.

A member is looked for in the class itself and then in the classes it inherits from.
-/

namespace Strand

/-- What has been declared inside one class. -/
structure ClassMembers where
  fields : Table Ty := ∅
  statics : Table Ty := ∅
  operators : Table Signature := ∅
  privates : List String := []
  constructor : Option Signature := none

instance : Inhabited ClassMembers := ⟨{}⟩

/-- Every class and enum declared so far. -/
structure Declarations where
  classes : Array ClassMembers := #[]
  enums : Array (Table Variant) := #[]

instance : Inhabited Declarations := ⟨{}⟩

namespace Declarations

/-! ## Classes -/

/-- Declare a class without members. -/
def declareClass (d : Declarations) (name : String) (parent : Option ClassRef)
    (generics : List String) : ClassRef × Declarations :=
  ({ id := d.classes.size, name, generics
     ancestors := match parent with
       | some p => p.chain
       | none => [] },
   { d with classes := d.classes.push {} })

def membersAt (d : Declarations) (id : Nat) : ClassMembers := d.classes[id]?.getD {}

def modifyClass (d : Declarations) (c : ClassRef) (f : ClassMembers → ClassMembers) :
    Declarations :=
  { d with classes := d.classes.modify c.id f }

/-- Add a field, or replace the one of that name. Once private, a name stays so. -/
def addField (d : Declarations) (c : ClassRef) (name : String) (ty : Ty)
    (isStatic isPrivate : Bool) : Declarations :=
  d.modifyClass c fun m =>
    let m := if isStatic then { m with statics := m.statics.insert name ty }
      else { m with fields := m.fields.insert name ty }
    if isPrivate then { m with privates := name :: m.privates } else m

def addOperator (d : Declarations) (c : ClassRef) (symbol : String) (sig : Signature) :
    Declarations :=
  d.modifyClass c fun m => { m with operators := m.operators.insert symbol sig }

def setConstructor (d : Declarations) (c : ClassRef) (sig : Signature) : Declarations :=
  d.modifyClass c fun m => { m with constructor := some sig }

/-- The first answer that a class or one of those it inherits from gives. -/
def findInChain {α : Type} (d : Declarations) (c : ClassRef) (f : ClassMembers → Option α) :
    Option α :=
  c.chain.findSome? fun e => f (d.membersAt e.1)

/-- The type of an attribute of instances. -/
def field? (d : Declarations) (c : ClassRef) (name : String) : Option Ty :=
  d.findInChain c fun m => m.fields.find? name

def staticField? (d : Declarations) (c : ClassRef) (name : String) : Option Ty :=
  d.findInChain c fun m => m.statics.find? name

def operator? (d : Declarations) (c : ClassRef) (symbol : String) : Option Signature :=
  d.findInChain c fun m => m.operators.find? symbol

/-- The constructor; a class that has none of its own inherits one. -/
def constructor? (d : Declarations) (c : ClassRef) : Option Signature :=
  d.findInChain c fun m => m.constructor

/-- The class that keeps a member private. The nearest class that has a member of that
name decides. -/
def privateOwner? (d : Declarations) (c : ClassRef) (name : String) : Option String :=
  match c.chain.find? fun e =>
      (d.membersAt e.1).fields.contains name || (d.membersAt e.1).statics.contains name with
  | some e => if (d.membersAt e.1).privates.contains name then some e.2 else none
  | none => none

/-! ## Enums -/

/-- Declare an enum without variants. -/
def declareEnum (d : Declarations) (name : String) : EnumRef × Declarations :=
  ({ id := d.enums.size, name }, { d with enums := d.enums.push ∅ })

def addVariant (d : Declarations) (e : EnumRef) (v : Variant) : Declarations :=
  { d with enums := d.enums.modify e.id fun t => t.insert v.name v }

def variants (d : Declarations) (e : EnumRef) : Table Variant := d.enums[e.id]?.getD ∅

def variant? (d : Declarations) (e : EnumRef) (name : String) : Option Variant :=
  (d.variants e).find? name

/-! ## Results of operators -/

/-- The result of an operator on numbers, strings, lists and bytes. -/
def primitiveResult? (op : BinaryOp) (a b : Primitive) : Option Primitive :=
  let wider := a.wider? b
  if op.isComparison then
    if wider.isSome || (a == .str && b == .str) then some .bool else none
  else if op.isBitwise then
    wider.filter Primitive.isInteger
  else
    match wider with
    | some w => some w
    | none =>
      match op, a, b with
      | .add, .str, .str => some .str
      | .add, .list, .list => some .list
      | .add, .bytes, .bytes => some .bytes
      | .multiply, .str, p => if p.isInteger then some .str else none
      | _, _, _ => none

/-- The result of an operator on types that do not overload it. -/
def builtinResult? (op : BinaryOp) (left right : Ty) : Option Ty :=
  if op == .equal || op == .notEqual then some .bool
  else if left.isDynamic || right.isDynamic then
    some (if op.isComparison then .bool else .any)
  else
    match left.primitive?, right.primitive? with
    | some a, some b => (primitiveResult? op a b).map .prim
    | _, _ => none

/-- The result of `left op right`, or `none` when the operands do not mix. A class of
the left operand that overloads the operator decides alone. -/
def binaryResult? (d : Declarations) (op : BinaryOp) (left right : Ty) : Option Ty :=
  match left with
  | .inst c args =>
    match d.operator? c op.symbol with
    | some method =>
      let b := c.bindGenerics args
      match method.params.head? with
      | some param =>
        if right.assignableTo (param.substitute b) then some (method.result.substitute b)
        else none
      | none => some (method.result.substitute b)
    | none => builtinResult? op left right
  | _ => builtinResult? op left right

end Declarations

/-- The result of `op operand`. -/
def Ty.unaryResult? (op : UnaryOp) (operand : Ty) : Option Ty :=
  match op with
  | .not => some .bool
  | .negate =>
    if operand.isDynamic then some .any
    else if (operand.primitive?.any Primitive.isNumeric) then some operand else none
  | .bitNot =>
    if operand.isDynamic then some .any
    else if (operand.primitive?.any Primitive.isInteger) then some operand else none

end Strand
