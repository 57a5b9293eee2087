import Strand.Instr
import Strand.Table

/-!
# Code units and modules

A code unit is one function, method, block or module body, finished: its code, its
pool of constants, and what it captures from the unit around it. Functions inside a
unit are constants of its pool, so a module is a tree of units with `main` at the
root.

Floats are kept as their bit patterns. Nothing here computes with them, and a
pattern survives every journey unchanged, which a not-a-number value need not.
-/

namespace Strand

/-- Where a closure finds a captured variable when it is created. -/
inductive CaptureSource where
  /-- A stack slot of the enclosing unit. -/
  | slot (slot : UInt16)
  /-- A capture of the enclosing unit. -/
  | upvalue (index : UInt16)
  /-- A global, by name. -/
  | global (name : String)
deriving DecidableEq, Inhabited

def CaptureSource.text : CaptureSource → String
  | .slot n => "local " ++ toString n.toNat
  | .upvalue n => "upvalue " ++ toString n.toNat
  | .global name => "global " ++ name

/-! ## Descriptors of classes and enums -/

inductive MemberKind where
  | field | method
deriving DecidableEq, Inhabited

structure MemberDescriptor where
  name : String
  kind : MemberKind
  isStatic : Bool
  isPrivate : Bool
  isOperator : Bool
deriving DecidableEq, Inhabited

/-- The layout of what a class instruction takes from the stack, bottom to top: the
parent if there is one, the member values from the last declared to the first, the
constructor or null, and one name for each generic parameter. Members are listed in
declaration order. -/
structure ClassDescriptor where
  name : String
  hasParent : Bool
  hasConstructor : Bool
  members : List MemberDescriptor
  generics : List String
deriving DecidableEq, Inhabited

/-- How many values the class instruction takes. -/
def ClassDescriptor.stackInputs (d : ClassDescriptor) : Nat :=
  d.hasParent.toNat + d.members.length + 1 + d.generics.length

structure VariantDescriptor where
  name : String
  params : List String
deriving DecidableEq, Inhabited

/-- Variants in declaration order; the ordinal of a variant is its position. -/
structure EnumDescriptor where
  name : String
  variants : List VariantDescriptor
deriving DecidableEq, Inhabited

def EnumDescriptor.ordinal? (d : EnumDescriptor) (name : String) : Option Nat :=
  d.variants.findIdx? fun v => v.name == name

/-! ## Units -/

/-- What a unit says about the function it was made from. -/
structure UnitHeader where
  name : String
  /-- Parameters that have no default. -/
  arity : UInt8 := 0
  /-- All parameters, counting the rest and keyword-rest parameters. -/
  totalArity : UInt8 := 0
  defaultCount : UInt8 := 0
  hasVarargs : Bool := false
  hasKwargs : Bool := false
  isAsync : Bool := false
  catchesResult : Bool := false
  /-- Slot zero holds the receiver. -/
  isMethod : Bool := false
  paramNames : List String := []
deriving DecidableEq, Inhabited

/-- The static type and constness recorded for a global of the module. -/
structure GlobalInfo where
  typeName : String
  isConst : Bool
deriving DecidableEq, Inhabited

/-- What the header of a module declares, and the globals it defines. -/
structure Manifest where
  package : Option String := none
  exportTarget : Option String := none
  entryPoint : Option String := none
  exports : List String := []
  optimize : Bool := false
  globals : Table GlobalInfo := ∅

instance : Inhabited Manifest := ⟨{}⟩

mutual

/-- An entry of the pool of a unit. -/
inductive Constant where
  | int (value : Int64)
  /-- A 64-bit float, as its bit pattern. -/
  | float (bits : UInt64)
  | str (value : String)
  | names (values : List String)
  | function (unit : CodeUnit)
  | classType (descriptor : ClassDescriptor)
  | enumType (descriptor : EnumDescriptor)

/-- A finished unit. `lines` gives the source line of each instruction. -/
structure CodeUnit where
  header : UnitHeader
  captures : List CaptureSource
  manifest : Manifest
  constants : List Constant
  code : Array Instr
  lines : Array UInt64

end

instance : Inhabited Constant := ⟨.int 0⟩
instance : Inhabited CodeUnit := ⟨⟨default, [], default, [], #[], #[]⟩⟩

namespace CodeUnit

def name (u : CodeUnit) : String := u.header.name

/-- The units in a pool, in the order of the pool. -/
def unitsOfPool (pool : List Constant) : List CodeUnit :=
  pool.filterMap fun
    | .function u => some u
    | _ => none

/-- The units directly inside a unit. -/
def nested (u : CodeUnit) : List CodeUnit := unitsOfPool u.constants

mutual

/-- A unit and every unit inside it. A unit comes before those inside it, and of two
units in one pool the later one comes first. -/
def units : CodeUnit → List CodeUnit
  | ⟨header, captures, manifest, constants, code, lines⟩ =>
    ⟨header, captures, manifest, constants, code, lines⟩ :: unitsBackwards constants

/-- The units of a pool and everything inside them, last entry first. -/
def unitsBackwards : List Constant → List CodeUnit
  | [] => []
  | .function u :: rest => unitsBackwards rest ++ units u
  | _ :: rest => unitsBackwards rest

end

theorem units_eq (u : CodeUnit) : u.units = u :: unitsBackwards u.constants := by
  cases u
  rw [units]

theorem unitsBackwards_eq : ∀ pool : List Constant,
    unitsBackwards pool = (unitsOfPool pool).reverse.flatMap units
  | [] => rfl
  | k :: rest => by
    have hrest := unitsBackwards_eq rest
    cases k with
    | function u =>
      show unitsBackwards rest ++ u.units = (u :: unitsOfPool rest).reverse.flatMap units
      rw [List.reverse_cons, List.flatMap_append, List.flatMap_singleton, hrest]
    | _ => exact hrest

theorem mem_unitsOfPool {u : CodeUnit} {pool : List Constant} :
    u ∈ unitsOfPool pool ↔ .function u ∈ pool := by
  rw [unitsOfPool, List.mem_filterMap]
  constructor
  · rintro ⟨k, hk, hu⟩
    cases k <;> cases hu
    exact hk
  · exact fun hu => ⟨_, hu, rfl⟩

theorem mem_unitsBackwards {v : CodeUnit} {pool : List Constant} :
    v ∈ unitsBackwards pool ↔ ∃ u, .function u ∈ pool ∧ v ∈ u.units := by
  simp only [unitsBackwards_eq, List.mem_flatMap, List.mem_reverse, mem_unitsOfPool]

theorem units_eq_nested (u : CodeUnit) : u.units = u :: u.nested.reverse.flatMap units := by
  rw [units_eq, unitsBackwards_eq]
  rfl

/-- The units that are visited from a stack of units, the top of which comes first. A unit
that is taken off leaves those directly inside it on the stack, the last of them on top. -/
def visit : List CodeUnit → List CodeUnit
  | [] => []
  | u :: stack => u :: visit (u.nested.reverse ++ stack)
-- a unit that is taken off is gone, and those inside it were counted with it
termination_by stack => (stack.flatMap units).length
decreasing_by
  rw [List.flatMap_append, List.flatMap_cons, units_eq_nested]
  exact Nat.lt_succ_self _

/-- Each unit of the stack is walked through before the one below it. -/
theorem visit_eq (stack : List CodeUnit) : visit stack = stack.flatMap units := by
  induction stack using visit.induct with
  | case1 => rw [visit, List.flatMap_nil]
  | case2 u stack ih =>
    rw [visit, ih, List.flatMap_append, List.flatMap_cons, units_eq_nested u, List.cons_append]

end CodeUnit

/-- A compiled module. -/
structure Module where
  sourceName : String
  main : CodeUnit
deriving Inhabited

/-- Every unit of the module, `main` first. -/
def Module.units (m : Module) : List CodeUnit := CodeUnit.visit [m.main]

theorem Module.units_eq (m : Module) : m.units = m.main.units := by
  rw [units, CodeUnit.visit_eq, List.flatMap_singleton]

end Strand
