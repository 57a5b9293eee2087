/-!
# Operators

The operators of the language, with the symbol each is written with and the name
each is known by in program trees and code listings.
-/

namespace Strand

/-- Operators on two values. -/
inductive BinaryOp where
  | add | subtract | multiply | divide | modulo | power
  | equal | notEqual | less | lessEqual | greater | greaterEqual
  | bitAnd | bitOr | bitXor | shiftLeft | shiftRight
deriving DecidableEq, Inhabited

namespace BinaryOp

/-- Every operator, in the order of its instruction. -/
def all : List BinaryOp :=
  [.add, .subtract, .multiply, .divide, .modulo, .power,
   .equal, .notEqual, .less, .lessEqual, .greater, .greaterEqual,
   .bitAnd, .bitOr, .bitXor, .shiftLeft, .shiftRight]

/-- The symbol a class overloads and a message quotes. -/
def symbol : BinaryOp → String
  | .add => "+"
  | .subtract => "-"
  | .multiply => "*"
  | .divide => "/"
  | .modulo => "%"
  | .power => "**"
  | .equal => "=="
  | .notEqual => "!="
  | .less => "<"
  | .lessEqual => "<="
  | .greater => ">"
  | .greaterEqual => ">="
  | .bitAnd => "&"
  | .bitOr => "|"
  | .bitXor => "^"
  | .shiftLeft => "<<"
  | .shiftRight => ">>"

/-- The name of the operator and of its instruction. -/
def name : BinaryOp → String
  | .add => "Add"
  | .subtract => "Subtract"
  | .multiply => "Multiply"
  | .divide => "Divide"
  | .modulo => "Modulo"
  | .power => "Power"
  | .equal => "Equal"
  | .notEqual => "NotEqual"
  | .less => "Less"
  | .lessEqual => "LessEqual"
  | .greater => "Greater"
  | .greaterEqual => "GreaterEqual"
  | .bitAnd => "BitAnd"
  | .bitOr => "BitOr"
  | .bitXor => "BitXor"
  | .shiftLeft => "ShiftLeft"
  | .shiftRight => "ShiftRight"

def ofName? (s : String) : Option BinaryOp := all.find? fun op => op.name == s

/-- Operators whose result is a truth value. -/
def isComparison : BinaryOp → Bool
  | .equal | .notEqual | .less | .lessEqual | .greater | .greaterEqual => true
  | _ => false

/-- Operators on the bits of integers. -/
def isBitwise : BinaryOp → Bool
  | .bitAnd | .bitOr | .bitXor | .shiftLeft | .shiftRight => true
  | _ => false

end BinaryOp

/-- Operators on one value. -/
inductive UnaryOp where
  | negate | not | bitNot
deriving DecidableEq, Inhabited

namespace UnaryOp

def symbol : UnaryOp → String
  | .negate => "-"
  | .not => "!"
  | .bitNot => "~"

def name : UnaryOp → String
  | .negate => "Negate"
  | .not => "Not"
  | .bitNot => "BitNot"

def ofName? (s : String) : Option UnaryOp :=
  [.negate, .not, .bitNot].find? fun op => op.name == s

end UnaryOp

/-- The two operators that may leave their right side unevaluated. -/
inductive LogicalOp where
  | and | or
deriving DecidableEq, Inhabited

namespace LogicalOp

def ofName? : String → Option LogicalOp
  | "And" => some .and
  | "Or" => some .or
  | _ => none

end LogicalOp

end Strand
