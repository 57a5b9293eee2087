import Strand.Code.Unit

/-!
# Chunks: code being laid down

A chunk grows at its end. Instructions are appended, and the only change made to
one that is already there is to aim a forward jump at the current end. Constants
are appended too, except that a string already in the pool is shared.
-/

namespace Strand

/-- Code under construction: instructions with their lines, and the pool. -/
structure Chunk where
  code : Array Instr := #[]
  lines : Array UInt64 := #[]
  constants : Array Constant := #[]

instance : Inhabited Chunk := ⟨{}⟩

namespace Chunk

/-- A pool index is a 16-bit word, which bounds the pool. -/
def poolLimit : Nat := 65536

def size (c : Chunk) : Nat := c.code.size

def isEmpty (c : Chunk) : Bool := c.code.isEmpty

/-- Append an instruction. Its offset is the size before. -/
def emit (c : Chunk) (i : Instr) (line : UInt64) : Chunk :=
  { c with code := c.code.push i, lines := c.lines.push line }

/-- Where a string stands in the pool. -/
def stringIndex? (c : Chunk) (s : String) : Option Nat :=
  c.constants.findIdx? fun
    | .str t => t == s
    | _ => false

/-- Append to the pool, unless it is full. -/
def pushConstant (c : Chunk) (k : Constant) : Option UInt16 × Chunk :=
  if c.constants.size < poolLimit then
    (some (UInt16.ofNat c.constants.size), { c with constants := c.constants.push k })
  else
    (none, c)

/-- Put a constant into the pool and say where it is, or `none` when the pool is
full. A string that is there already is not put there again. -/
def addConstant (c : Chunk) (k : Constant) : Option UInt16 × Chunk :=
  match k with
  | .str s =>
    match c.stringIndex? s with
    | some i => (some (UInt16.ofNat i), c)
    | none => c.pushConstant k
  | _ => c.pushConstant k

/-- Why a jump could not be aimed. -/
inductive PatchFault where
  /-- The distance does not fit the operand. -/
  | tooFar
  /-- There is another kind of instruction at the offset. -/
  | notForwardJump (found : Instr)
  /-- There is no instruction at the offset. -/
  | noInstruction
deriving DecidableEq

/-- How far the end of the code lies beyond the instruction after `offset`. -/
def distanceFrom (c : Chunk) (offset : Nat) : Nat := c.code.size - offset - 1

/-- What keeps the jump at `offset` from being aimed at the end of the code. -/
def patchFault? (c : Chunk) (offset : Nat) : Option PatchFault :=
  if c.distanceFrom offset < Instr.unpatched.toNat then
    match c.code[offset]? with
    | none => some .noInstruction
    | some i => if i.forwardDistance?.isSome then none else some (.notForwardJump i)
  else
    some .tooFar

/-- Aim the forward jump at `offset`, if there is one, at the end of the code. -/
def aimJump (c : Chunk) (offset : Nat) : Chunk :=
  let distance := UInt32.ofNat (c.distanceFrom offset)
  { c with code := c.code.modify offset fun i => (i.aim? distance).getD i }

/-- Aim the forward jump at `offset` at the end of the code, or say why not. -/
def patchJump (c : Chunk) (offset : Nat) : Except PatchFault Chunk :=
  match c.patchFault? offset with
  | none => .ok (c.aimJump offset)
  | some fault => .error fault

end Chunk

/-- Where the jump at `offset` lands, if there is a jump and it lands anywhere. -/
def jumpTarget? (code : Array Instr) (offset : Nat) : Option Nat :=
  match code[offset]? with
  | some (.loop n) => if n.toNat ≤ offset + 1 then some (offset + 1 - n.toNat) else none
  | some i => i.forwardDistance?.map fun n => offset + 1 + n.toNat
  | none => none

namespace Chunk

/-- Offsets of the forward jumps that have not been aimed. -/
def unpatchedJumps (c : Chunk) : List Nat :=
  (List.range c.code.size).filter fun o =>
    (c.code[o]?.bind Instr.forwardDistance?) == some Instr.unpatched

/-- The finished unit that has this code. -/
def toUnit (c : Chunk) (header : UnitHeader) (captures : List CaptureSource)
    (manifest : Manifest) : CodeUnit :=
  { header, captures, manifest
    constants := c.constants.toList
    code := c.code
    lines := c.lines }

end Chunk

end Strand
