/-!
# Primitive types

The built-in types and the implicit conversions between them. Nothing narrows, and no
float converts to an integer.
-/

namespace Strand

inductive Primitive where
  | i8 | i16 | i32 | i64
  | u8 | u16 | u32 | u64
  | f32 | f64
  | bool | str | list | map | void | any | bytes
  /-- The result of a function that catches its own errors. -/
  | catcher
deriving DecidableEq, Inhabited

namespace Primitive

def all : List Primitive :=
  [.i8, .i16, .i32, .i64, .u8, .u16, .u32, .u64, .f32, .f64,
   .bool, .str, .list, .map, .void, .any, .bytes, .catcher]

def name : Primitive → String
  | .i8 => "i8"
  | .i16 => "i16"
  | .i32 => "i32"
  | .i64 => "i64"
  | .u8 => "u8"
  | .u16 => "u16"
  | .u32 => "u32"
  | .u64 => "u64"
  | .f32 => "f32"
  | .f64 => "f64"
  | .bool => "bool"
  | .str => "str"
  | .list => "list"
  | .map => "map"
  | .void => "void"
  | .any => "any"
  | .bytes => "bytes"
  | .catcher => "catcher"

def ofName? (s : String) : Option Primitive := all.find? fun p => p.name == s

def isSigned : Primitive → Bool
  | .i8 | .i16 | .i32 | .i64 => true
  | _ => false

def isUnsigned : Primitive → Bool
  | .u8 | .u16 | .u32 | .u64 => true
  | _ => false

def isInteger (p : Primitive) : Bool := p.isSigned || p.isUnsigned

def isFloat : Primitive → Bool
  | .f32 | .f64 => true
  | _ => false

def isNumeric (p : Primitive) : Bool := p.isInteger || p.isFloat

/-- The number of bits of a number type. -/
def width : Primitive → Nat
  | .i8 | .u8 => 8
  | .i16 | .u16 => 16
  | .i32 | .u32 | .f32 => 32
  | .i64 | .u64 | .f64 => 64
  | _ => 0

/-- Implicit conversion. Integers of one sign widen, an unsigned integer also becomes
a strictly wider signed one, every integer becomes a float, and a float widens. -/
def widensTo (a b : Primitive) : Bool :=
  a == b ||
    (a.isSigned && b.isSigned && a.width < b.width) ||
    (a.isUnsigned && b.isUnsigned && a.width < b.width) ||
    (a.isUnsigned && b.isSigned && a.width < b.width) ||
    (a.isInteger && b.isFloat) ||
    (a.isFloat && b.isFloat && a.width < b.width)

/-- The one of two number types that the other widens to. -/
def wider? (a b : Primitive) : Option Primitive :=
  if !a.isNumeric || !b.isNumeric then none
  else if a.widensTo b then some b
  else if b.widensTo a then some a
  else none

end Primitive

end Strand
