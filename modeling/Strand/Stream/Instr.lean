import Strand.Instr
import Strand.Stream.Cursor

/-!
# Instructions in a stream

An instruction is its tag followed by its operands. A faulty operand is reported at
the position of the tag, and so is a faulty directive.
-/

namespace Strand.Instr

open Strand.Stream
open Strand.Stream.Reader

/-- The words of an instruction. -/
def encode (i : Instr) : List Int := (i.tag : Int) :: i.operands.map Int.ofNat

/-- A 16-bit operand of the instruction at `place`. -/
def readWord (place : Nat) : Reader UInt16 := do
  UInt16.ofNat <$> inRange .wordOperand 65536 place (← next)

/-- An 8-bit operand of the instruction at `place`. -/
def readByte (place : Nat) : Reader UInt8 := do
  UInt8.ofNat <$> inRange .byteOperand 256 place (← next)

/-- The distance of the jump at `place`. -/
def readDistance (place : Nat) : Reader UInt32 := do
  UInt32.ofNat <$> inRange .jumpOffset 4294967296 place (← next)

/-- The kind of the directive at `place`. -/
def readDirective (place : Nat) : Reader Directive := do
  let w ← next
  match Directive.ofTag? w with
  | some kind => pure kind
  | none => fail (.invalidTag .directive w place)

/-- The instruction with a given tag, whose operands come next. -/
def readTagged (tag : Int) (place : Nat) : Reader Instr :=
  match tag with
  | 0 => .constant <$> readWord place
  | 1 => pure .pushNull
  | 2 => pure .pushTrue
  | 3 => pure .pushFalse
  | 4 => pure .pop
  | 5 => pure .popUnder
  | 6 => pure .dup
  | 7 => pure .swap
  | 8 => pure .copy
  | 9 => .getLocal <$> readWord place
  | 10 => .setLocal <$> readWord place
  | 11 => .dropLocal <$> readWord place
  | 12 => .getUpvalue <$> readWord place
  | 13 => .setUpvalue <$> readWord place
  | 14 => .dropUpvalue <$> readWord place
  | 15 => .getGlobal <$> readWord place
  | 16 => .setGlobal <$> readWord place
  | 17 => .defineGlobal <$> readWord place
  | 18 => .dropGlobal <$> readWord place
  | 19 => .getAttr <$> readWord place
  | 20 => .setAttr <$> readWord place
  | 21 => .dropAttr <$> readWord place
  | 22 => pure .getIndex
  | 23 => pure .setIndex
  | 24 => pure (.binary .add)
  | 25 => pure (.binary .subtract)
  | 26 => pure (.binary .multiply)
  | 27 => pure (.binary .divide)
  | 28 => pure (.binary .modulo)
  | 29 => pure (.binary .power)
  | 30 => pure (.unary .negate)
  | 31 => pure (.binary .equal)
  | 32 => pure (.binary .notEqual)
  | 33 => pure (.binary .less)
  | 34 => pure (.binary .lessEqual)
  | 35 => pure (.binary .greater)
  | 36 => pure (.binary .greaterEqual)
  | 37 => pure (.unary .not)
  | 38 => pure (.binary .bitAnd)
  | 39 => pure (.binary .bitOr)
  | 40 => pure (.binary .bitXor)
  | 41 => pure (.binary .shiftLeft)
  | 42 => pure (.binary .shiftRight)
  | 43 => pure (.unary .bitNot)
  | 44 => .jump <$> readDistance place
  | 45 => .jumpIfFalse <$> readDistance place
  | 46 => .jumpIfTrue <$> readDistance place
  | 47 => .loop <$> readDistance place
  | 48 => do
    let index ← readWord place
    .closure index <$> readByte place
  | 49 => do
    let positional ← readByte place
    .call positional <$> readByte place
  | 50 => pure .ret
  | 51 => .array <$> readWord place
  | 52 => .map <$> readWord place
  | 53 => .tuple <$> readWord place
  | 54 => .buildString <$> readWord place
  | 55 => do
    let index ← readWord place
    .makeClass index <$> readWord place
  | 56 => .makeEnum <$> readWord place
  | 57 => pure .accStart
  | 58 => pure .accCollect
  | 59 => pure .accFlush
  | 60 => pure .getIter
  | 61 => .forIter <$> readDistance place
  | 62 => pure .inferStep
  | 63 => .rangeCheck <$> readWord place
  | 64 => pure .matchType
  | 65 => pure .ref
  | 66 => pure .deref
  | 67 => pure .throw
  | 68 => pure .assert
  | 69 => do
    let kind ← readDirective place
    .directive kind <$> readWord place
  | other => fail (.invalidTag .opcode other place)

/-- The next instruction of a stream. -/
def read : Reader Instr := do
  let place ← position
  readTagged (← next) place

end Strand.Instr
