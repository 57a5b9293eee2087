/-!
# Reading a code stream

A code stream is a list of 64-bit signed words, kept here as integers. A reader
consumes words from a cursor, which knows its position because every decode error
says where it happened.

The cursor also carries the size of the whole stream. A reader for a counted list
rejects a count larger than what is left at once, instead of running into the end
item by item.
-/

namespace Strand.Stream

/-- The tags a stream can hold. -/
inductive TagKind where
  | streamKind | opcode | directive | upvalue | memberKind | constant
deriving DecidableEq, Inhabited

def TagKind.text : TagKind → String
  | .streamKind => "stream kind"
  | .opcode => "opcode"
  | .directive => "directive"
  | .upvalue => "upvalue"
  | .memberKind => "member kind"
  | .constant => "constant"

/-- The quantities of limited range a stream can hold. -/
inductive Quantity where
  | wordOperand | byteOperand | jumpOffset
  | arity | defaultCount | upvalueSlot | upvalueIndex
  | line | count | flag | codePoint
deriving DecidableEq, Inhabited

def Quantity.text : Quantity → String
  | .wordOperand => "u16 operand"
  | .byteOperand => "u8 operand"
  | .jumpOffset => "jump offset"
  | .arity => "arity"
  | .defaultCount => "default count"
  | .upvalueSlot => "upvalue slot"
  | .upvalueIndex => "upvalue index"
  | .line => "line"
  | .count => "count"
  | .flag => "flag"
  | .codePoint => "code point"

/-- Why a stream is not a module. -/
inductive DecodeError where
  | badMagic (found : Int)
  | unsupportedVersion (found : Int)
  | unexpectedEnd (position : Nat)
  | invalidTag (what : TagKind) (tag : Int) (position : Nat)
  | outOfRange (what : Quantity) (value : Int) (position : Nat)
deriving DecidableEq, Inhabited

/-- A word as the 64-bit pattern it is stored in. -/
def wordBits (w : Int) : Nat := (w % 18446744073709551616).toNat

/-- Lower-case hexadecimal digits. -/
def hexText (n : Nat) : String := String.ofList (Nat.toDigits 16 n)

def DecodeError.message : DecodeError → String
  | .badMagic found => "Bad magic number 0x" ++ hexText (wordBits found)
  | .unsupportedVersion found => "Unsupported format version " ++ toString found
  | .unexpectedEnd position => "Unexpected end of stream at position " ++ toString position
  | .invalidTag what tag position =>
    "Invalid " ++ what.text ++ " tag " ++ toString tag ++ " at position " ++ toString position
  | .outOfRange what value position =>
    "Value " ++ toString value ++ " out of range for " ++ what.text ++ " at position "
      ++ toString position

/-- The words that are left, how many came before, and how many there are in all. -/
structure Cursor where
  rest : List Int
  position : Nat
  size : Nat

/-- A cursor at the first of `words`. -/
def Cursor.start (words : List Int) : Cursor := ⟨words, 0, words.length⟩

/-- A step that consumes words or fails. -/
abbrev Reader := StateT Cursor (Except DecodeError)

namespace Reader

variable {α : Type}

def fail (e : DecodeError) : Reader α := fun _ => .error e

def position : Reader Nat := fun c => .ok (c.position, c)

/-- The next word, whatever it is. -/
def next : Reader Int := fun c =>
  match c.rest with
  | [] => .error (.unexpectedEnd c.position)
  | w :: rest => .ok (w, { c with rest, position := c.position + 1 })

/-- The value of a word that is at least zero and below `bound`. A word outside is
reported at `place`. -/
def inRange (what : Quantity) (bound : Nat) (place : Nat) (w : Int) : Reader Nat :=
  if 0 ≤ w ∧ w < bound then pure w.toNat else fail (.outOfRange what w place)

/-- A natural number below `bound`. -/
def below (what : Quantity) (bound : Nat) : Reader Nat := do
  let place ← position
  inRange what bound place (← next)

def byte (what : Quantity) : Reader UInt8 := UInt8.ofNat <$> below what 256

def word16 (what : Quantity) : Reader UInt16 := UInt16.ofNat <$> below what 65536

/-- A line number: any word that is not negative. -/
def line : Reader UInt64 := UInt64.ofNat <$> below .line 9223372036854775808

/-- The number of items in a list that follows. An item takes at least one word, so a
number above what is left means that the stream was cut short. -/
def count : Reader Nat := do
  let n ← below .count 9223372036854775808
  fun c =>
    if n > c.size - c.position then .error (.unexpectedEnd c.size) else .ok (n, c)

def flag : Reader Bool := do
  let place ← position
  match ← next with
  | 0 => pure false
  | 1 => pure true
  | w => fail (.outOfRange .flag w place)

/-- Run a reader `n` times, after the items in `done`. -/
def times (r : Reader α) : Nat → Array α → Reader (Array α)
  | 0, done => pure done
  | n + 1, done => do
    let a ← r
    times r n (done.push a)

/-- A count and that many items. -/
def counted (r : Reader α) : Reader (Array α) := do
  let n ← count
  times r n #[]

/-- A code point that is a character. -/
def char : Reader Char := do
  let place ← position
  let w ← next
  if 0 ≤ w ∧ w.toNat.isValidChar then
    pure (Char.ofNat w.toNat)
  else
    fail (.outOfRange .codePoint w place)

def string : Reader String := do
  let cs ← counted char
  pure (String.ofList cs.toList)

/-- A string, or the word `-1` for none. -/
def string? : Reader (Option String) := fun c =>
  match c.rest with
  | -1 :: rest => .ok (none, { c with rest, position := c.position + 1 })
  | _ => (some <$> string) c

def strings : Reader (List String) := do
  let ss ← counted string
  pure ss.toList

end Reader

end Strand.Stream
