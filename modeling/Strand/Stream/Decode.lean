import Strand.Stream.Encode

/-!
# Reading a module from a stream

The reader follows the layout that `Strand.Stream.Encode` gives. Two places accept
more than is ever written: a word of flags may have other bits set, and a table of
globals may name one twice, in which case the last entry counts and stands where the
first stood. Whatever follows the module is left alone.
-/

namespace Strand.Stream

open Reader

/-- Whether bit `k` of a word is set, in two's complement. -/
def hasBit (w : Int) (k : Nat) : Bool := (w >>> k) % 2 == 1

def readHeader : Reader UnitHeader := do
  let name ← string
  let arity ← byte .arity
  let totalArity ← byte .arity
  let defaultCount ← byte .defaultCount
  let flags ← next
  let paramNames ← strings
  pure
    { name, arity, totalArity, defaultCount, paramNames
      hasVarargs := hasBit flags 0
      hasKwargs := hasBit flags 1
      isAsync := hasBit flags 2
      catchesResult := hasBit flags 3
      isMethod := hasBit flags 4 }

def readCapture : Reader CaptureSource := do
  let place ← position
  match ← next with
  | 0 => .slot <$> word16 .upvalueSlot
  | 1 => .upvalue <$> word16 .upvalueIndex
  | 2 => .global <$> string
  | tag => fail (.invalidTag .upvalue tag place)

/-- The part of a manifest that precedes the pool. -/
def readModuleHeader : Reader Manifest := do
  let package ← string?
  let exportTarget ← string?
  let entryPoint ← string?
  let exports ← strings
  let optimize ← flag
  pure { package, exportTarget, entryPoint, exports, optimize }

def readGlobal : Reader (String × GlobalInfo) := do
  let name ← string
  let typeName ← string
  let isConst ← flag
  pure (name, { typeName, isConst })

def readMemberKind : Reader MemberKind := do
  let place ← position
  match ← next with
  | 0 => pure .field
  | 1 => pure .method
  | tag => fail (.invalidTag .memberKind tag place)

def readMember : Reader MemberDescriptor := do
  let name ← string
  let kind ← readMemberKind
  let flags ← next
  pure
    { name, kind
      isStatic := hasBit flags 0
      isPrivate := hasBit flags 1
      isOperator := hasBit flags 2 }

def readClass : Reader ClassDescriptor := do
  let name ← string
  let hasParent ← flag
  let hasConstructor ← flag
  let members ← counted readMember
  let generics ← strings
  pure { name, hasParent, hasConstructor, members := members.toList, generics }

def readVariant : Reader VariantDescriptor := do
  let name ← string
  let params ← strings
  pure { name, params }

def readEnum : Reader EnumDescriptor := do
  let name ← string
  let variants ← counted readVariant
  pure { name, variants := variants.toList }

/-- An entry of the pool, given how to read a unit. -/
def readConstant (unit : Reader CodeUnit) : Reader Constant := do
  let place ← position
  match ← next with
  | 0 => (fun w => .int (Int64.ofInt w)) <$> next
  | 1 => (fun w => .float (UInt64.ofNat (wordBits w))) <$> next
  | 2 => .str <$> string
  | 3 => .names <$> strings
  | 4 => .function <$> unit
  | 5 => .classType <$> readClass
  | 6 => .enumType <$> readEnum
  | tag => fail (.invalidTag .constant tag place)

/-- A unit whose units nest at most `depth` deep. A unit inside another comes after a
tag, so as many levels as there are words left are enough, and with no words left
there is no unit. -/
def readUnit : Nat → Reader CodeUnit
  | 0 => do
    let place ← position
    fail (.unexpectedEnd place)
  | depth + 1 => do
    let header ← readHeader
    let captures ← counted readCapture
    let manifest ← readModuleHeader
    let constants ← counted (readConstant (readUnit depth))
    let globals ← counted readGlobal
    let code ← counted Instr.read
    let lines ← counted line
    pure
      { header
        captures := captures.toList
        manifest := { manifest with globals := Table.ofList globals.toList }
        constants := constants.toList
        code, lines }

def readModule (depth : Nat) : Reader Module := do
  let found ← next
  if found ≠ magic then fail (.badMagic found)
  let found ← next
  if found ≠ version then fail (.unsupportedVersion found)
  let place ← position
  let found ← next
  if found ≠ moduleKind then fail (.invalidTag .streamKind found place)
  let sourceName ← string
  let main ← readUnit depth
  pure { sourceName, main }

/-- The module at the start of a stream, with the words after it. -/
def decodeWithRest (words : List Int) : Except DecodeError (Module × List Int) :=
  match readModule (words.length + 1) (Cursor.start words) with
  | .ok (m, c) => .ok (m, c.rest)
  | .error e => .error e

/-- The module at the start of a stream. -/
def decode (words : List Int) : Except DecodeError Module :=
  Prod.fst <$> decodeWithRest words

end Strand.Stream
