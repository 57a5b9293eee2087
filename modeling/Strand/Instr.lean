import Strand.Operator

/-!
# Instructions

The instruction set of the stack machine. Every instruction has a fixed effect on
the height of the operand stack, a numeric tag, and operands of fixed width.

Jumps are relative. A forward jump at offset `o` with distance `n` lands at
`o + 1 + n`; a loop instruction lands at `o + 1 - n`. Conditional jumps leave the
tested value on the stack, so the code at both ends of the jump has to pop it.
-/

namespace Strand

/-- What a header instruction declares about the module. -/
inductive Directive where
  | optimize | entry | exports | package | exportTo
deriving DecidableEq, Inhabited

namespace Directive

def tag : Directive → Nat
  | .optimize => 0
  | .entry => 1
  | .exports => 2
  | .package => 3
  | .exportTo => 4

def ofTag? : Int → Option Directive
  | 0 => some .optimize
  | 1 => some .entry
  | 2 => some .exports
  | 3 => some .package
  | 4 => some .exportTo
  | _ => none

def name : Directive → String
  | .optimize => "Optimize"
  | .entry => "Entry"
  | .exports => "Export"
  | .package => "Package"
  | .exportTo => "ExportTo"

end Directive

/-- One instruction. Stack pictures show the top of the stack on the right. -/
inductive Instr where
  /-- Push the constant at an index of the pool. -/
  | constant (index : UInt16)
  | pushNull
  | pushTrue
  | pushFalse
  | pop
  /-- Takes `[a, b]` to `[b]`. -/
  | popUnder
  | dup
  | swap
  /-- Replace the top value by a shallow copy. -/
  | copy
  | getLocal (slot : UInt16)
  | setLocal (slot : UInt16)
  | dropLocal (slot : UInt16)
  | getUpvalue (index : UInt16)
  | setUpvalue (index : UInt16)
  | dropUpvalue (index : UInt16)
  /-- Globals and attributes are named by a string of the pool. -/
  | getGlobal (name : UInt16)
  | setGlobal (name : UInt16)
  /-- Pop the top value into a new global. -/
  | defineGlobal (name : UInt16)
  | dropGlobal (name : UInt16)
  /-- Takes `[object]` to `[attribute]`. -/
  | getAttr (name : UInt16)
  /-- Takes `[object, value]` to `[value]`. -/
  | setAttr (name : UInt16)
  /-- Takes `[object]` to `[]`. -/
  | dropAttr (name : UInt16)
  /-- Takes `[object, index]` to `[value]`. -/
  | getIndex
  /-- Takes `[object, index, value]` to `[value]`. -/
  | setIndex
  | binary (op : BinaryOp)
  | unary (op : UnaryOp)
  | jump (distance : UInt32)
  | jumpIfFalse (distance : UInt32)
  | jumpIfTrue (distance : UInt32)
  /-- Jump backwards. -/
  | loop (distance : UInt32)
  /-- Close over a unit of the pool, taking its default values from the stack. -/
  | closure (index : UInt16) (defaults : UInt8)
  /-- Call with positional arguments and keyword pairs `name, value`. -/
  | call (positional keyword : UInt8)
  | ret
  | array (size : UInt16)
  /-- Build a map from pairs, so from twice as many values. -/
  | map (size : UInt16)
  | tuple (size : UInt16)
  | buildString (parts : UInt16)
  /-- Assemble a class from a descriptor and the values under it. -/
  | makeClass (index consumed : UInt16)
  | makeEnum (index : UInt16)
  /-- Open an accumulator for a loop whose value is used. -/
  | accStart
  /-- Pop a value into the innermost accumulator; nulls are skipped. -/
  | accCollect
  /-- Close the innermost accumulator and push what it collected. -/
  | accFlush
  | getIter
  /-- Push the next item of the iterator on top, or jump when there is none. -/
  | forIter (distance : UInt32)
  /-- Takes `[start, end]` to `[1 or -1]`. -/
  | inferStep
  /-- Push whether the counter in a slot is still inside the range that the next
  two slots describe. -/
  | rangeCheck (slot : UInt16)
  /-- Takes `[value, type]` to `[truth value]`. -/
  | matchType
  | ref
  | deref
  | throw
  /-- Takes `[condition, message]` to `[]`. -/
  | assert
  | directive (kind : Directive) (index : UInt16)
deriving DecidableEq, Inhabited

namespace Instr

/-- The distance of a forward jump that has not been aimed yet. -/
def unpatched : UInt32 := 0xFFFFFFFF

/-- Net change of the height of the operand stack. -/
def stackEffect : Instr → Int
  | .constant _ | .pushNull | .pushTrue | .pushFalse | .dup => 1
  | .getLocal _ | .getUpvalue _ | .getGlobal _ | .makeEnum _ => 1
  | .accFlush | .forIter _ | .rangeCheck _ => 1
  | .swap | .copy => 0
  | .setLocal _ | .setUpvalue _ | .setGlobal _ => 0
  | .dropLocal _ | .dropUpvalue _ | .dropGlobal _ | .getAttr _ => 0
  | .unary _ => 0
  | .jump _ | .jumpIfFalse _ | .jumpIfTrue _ | .loop _ => 0
  | .accStart | .getIter | .ref | .deref | .directive _ _ => 0
  | .pop | .popUnder | .defineGlobal _ | .setAttr _ | .dropAttr _ | .getIndex => -1
  | .binary _ => -1
  | .ret | .accCollect | .inferStep | .matchType | .throw => -1
  | .setIndex | .assert => -2
  | .closure _ defaults => 1 - (defaults.toNat : Int)
  | .call positional keyword => -((positional.toNat : Int) + 2 * (keyword.toNat : Int))
  | .array n | .tuple n | .buildString n => 1 - (n.toNat : Int)
  | .map n => 1 - 2 * (n.toNat : Int)
  | .makeClass _ consumed => 1 - (consumed.toNat : Int)

/-- Instructions that may transfer control inside their unit. -/
def isJump : Instr → Bool
  | .jump _ | .jumpIfFalse _ | .jumpIfTrue _ | .forIter _ | .loop _ => true
  | _ => false

/-- The distance of a forward jump. -/
def forwardDistance? : Instr → Option UInt32
  | .jump n | .jumpIfFalse n | .jumpIfTrue n | .forIter n => some n
  | _ => none

/-- The same forward jump over another distance. -/
def aim? (distance : UInt32) : Instr → Option Instr
  | .jump _ => some (.jump distance)
  | .jumpIfFalse _ => some (.jumpIfFalse distance)
  | .jumpIfTrue _ => some (.jumpIfTrue distance)
  | .forIter _ => some (.forIter distance)
  | _ => none

/-- The number that stands for the instruction in a code stream. -/
def tag : Instr → Nat
  | .constant _ => 0
  | .pushNull => 1
  | .pushTrue => 2
  | .pushFalse => 3
  | .pop => 4
  | .popUnder => 5
  | .dup => 6
  | .swap => 7
  | .copy => 8
  | .getLocal _ => 9
  | .setLocal _ => 10
  | .dropLocal _ => 11
  | .getUpvalue _ => 12
  | .setUpvalue _ => 13
  | .dropUpvalue _ => 14
  | .getGlobal _ => 15
  | .setGlobal _ => 16
  | .defineGlobal _ => 17
  | .dropGlobal _ => 18
  | .getAttr _ => 19
  | .setAttr _ => 20
  | .dropAttr _ => 21
  | .getIndex => 22
  | .setIndex => 23
  | .binary .add => 24
  | .binary .subtract => 25
  | .binary .multiply => 26
  | .binary .divide => 27
  | .binary .modulo => 28
  | .binary .power => 29
  | .unary .negate => 30
  | .binary .equal => 31
  | .binary .notEqual => 32
  | .binary .less => 33
  | .binary .lessEqual => 34
  | .binary .greater => 35
  | .binary .greaterEqual => 36
  | .unary .not => 37
  | .binary .bitAnd => 38
  | .binary .bitOr => 39
  | .binary .bitXor => 40
  | .binary .shiftLeft => 41
  | .binary .shiftRight => 42
  | .unary .bitNot => 43
  | .jump _ => 44
  | .jumpIfFalse _ => 45
  | .jumpIfTrue _ => 46
  | .loop _ => 47
  | .closure _ _ => 48
  | .call _ _ => 49
  | .ret => 50
  | .array _ => 51
  | .map _ => 52
  | .tuple _ => 53
  | .buildString _ => 54
  | .makeClass _ _ => 55
  | .makeEnum _ => 56
  | .accStart => 57
  | .accCollect => 58
  | .accFlush => 59
  | .getIter => 60
  | .forIter _ => 61
  | .inferStep => 62
  | .rangeCheck _ => 63
  | .matchType => 64
  | .ref => 65
  | .deref => 66
  | .throw => 67
  | .assert => 68
  | .directive _ _ => 69

/-- The operands, in stream order. -/
def operands : Instr → List Nat
  | .constant n | .getLocal n | .setLocal n | .dropLocal n => [n.toNat]
  | .getUpvalue n | .setUpvalue n | .dropUpvalue n => [n.toNat]
  | .getGlobal n | .setGlobal n | .defineGlobal n | .dropGlobal n => [n.toNat]
  | .getAttr n | .setAttr n | .dropAttr n => [n.toNat]
  | .array n | .map n | .tuple n | .buildString n => [n.toNat]
  | .makeEnum n | .rangeCheck n => [n.toNat]
  | .jump n | .jumpIfFalse n | .jumpIfTrue n | .loop n | .forIter n => [n.toNat]
  | .closure index defaults => [index.toNat, defaults.toNat]
  | .call positional keyword => [positional.toNat, keyword.toNat]
  | .makeClass index consumed => [index.toNat, consumed.toNat]
  | .directive kind index => [kind.tag, index.toNat]
  | _ => []

/-- The name of the instruction without its operands. -/
def name : Instr → String
  | .constant _ => "Constant"
  | .pushNull => "Null"
  | .pushTrue => "True"
  | .pushFalse => "False"
  | .pop => "Pop"
  | .popUnder => "PopUnder"
  | .dup => "Dup"
  | .swap => "Swap"
  | .copy => "Copy"
  | .getLocal _ => "GetLocal"
  | .setLocal _ => "SetLocal"
  | .dropLocal _ => "DropLocal"
  | .getUpvalue _ => "GetUpvalue"
  | .setUpvalue _ => "SetUpvalue"
  | .dropUpvalue _ => "DropUpvalue"
  | .getGlobal _ => "GetGlobal"
  | .setGlobal _ => "SetGlobal"
  | .defineGlobal _ => "DefineGlobal"
  | .dropGlobal _ => "DropGlobal"
  | .getAttr _ => "GetAttr"
  | .setAttr _ => "SetAttr"
  | .dropAttr _ => "DropAttr"
  | .getIndex => "GetIndex"
  | .setIndex => "SetIndex"
  | .binary op => op.name
  | .unary op => op.name
  | .jump _ => "Jump"
  | .jumpIfFalse _ => "JumpIfFalse"
  | .jumpIfTrue _ => "JumpIfTrue"
  | .loop _ => "Loop"
  | .closure _ _ => "Closure"
  | .call _ _ => "Call"
  | .ret => "Return"
  | .array _ => "Array"
  | .map _ => "Map"
  | .tuple _ => "Tuple"
  | .buildString _ => "BuildString"
  | .makeClass _ _ => "Class"
  | .makeEnum _ => "Enum"
  | .accStart => "AccStart"
  | .accCollect => "AccCollect"
  | .accFlush => "AccFlush"
  | .getIter => "GetIter"
  | .forIter _ => "ForIter"
  | .inferStep => "InferStep"
  | .rangeCheck _ => "RangeCheck"
  | .matchType => "MatchType"
  | .ref => "Ref"
  | .deref => "Deref"
  | .throw => "Throw"
  | .assert => "Assert"
  | .directive _ _ => "Directive"

/-- The instruction with its operands, as in `Call(2, 3)`. -/
def text (i : Instr) : String :=
  let shown := match i with
    | .directive kind index => [kind.name, toString index.toNat]
    | _ => i.operands.map toString
  if shown.isEmpty then i.name else i.name ++ "(" ++ ", ".intercalate shown ++ ")"

end Instr

end Strand
