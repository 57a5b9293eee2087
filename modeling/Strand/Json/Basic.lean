import Strand.Binary64

/-!
# JSON values

A number keeps the decimal it was written as, and whether it was written as a whole
number, because an integer and a float are read from different literals. An object
keeps its members in order and keeps repeated keys, so that a reader can refuse them.
-/

namespace Strand

/-- A number literal: `± mantissa · 10 ^ exponent`. -/
structure Json.Number where
  isNegative : Bool
  mantissa : Nat
  exponent : Int
  /-- Written without fraction and exponent. -/
  isWhole : Bool
deriving DecidableEq, Inhabited

inductive Json where
  | null
  | bool (value : Bool)
  | number (value : Json.Number)
  | string (value : String)
  /-- A string, or an object with a key, that has an escape denoting no character. It is
  well formed and can be skipped, but no data can be read from it. -/
  | unreadable
  | array (items : List Json)
  | object (members : List (String × Json))
deriving Inhabited

namespace Json

def ofInt (n : Int) : Json :=
  .number { isNegative := n < 0, mantissa := n.natAbs, exponent := 0, isWhole := true }

def ofNat (n : Nat) : Json := ofInt n

def ofStrings (ss : List String) : Json := .array (ss.map .string)

/-- The integer a whole literal denotes. A literal minus zero is a float. -/
def Number.toInt? (n : Number) : Option Int :=
  if !n.isWhole || (n.isNegative && n.mantissa == 0) then none
  else if n.isNegative then some (-(n.mantissa : Int))
  else some n.mantissa

/-- The pattern of the float nearest to the literal, if it is in range. -/
def Number.toBinary64? (n : Number) : Option UInt64 :=
  (Binary64.ofDecimal? n.mantissa n.exponent).map fun bits =>
    if n.isNegative then bits + Binary64.signBit else bits

/-! ## How deeply containers nest -/

mutual

/-- The number of containers around the innermost value. -/
def depth : Json → Nat
  | .array items => depthOfItems items + 1
  | .object members => depthOfMembers members + 1
  | _ => 0

def depthOfItems : List Json → Nat
  | [] => 0
  | j :: rest => max (depth j) (depthOfItems rest)

def depthOfMembers : List (String × Json) → Nat
  | [] => 0
  | (_, j) :: rest => max (depth j) (depthOfMembers rest)

end

/-! ## Printing -/

/-- A character inside a string literal. -/
def escapeChar (c : Char) : List Char :=
  match c with
  | '"' => ['\\', '"']
  | '\\' => ['\\', '\\']
  | '\n' => ['\\', 'n']
  | '\r' => ['\\', 'r']
  | '\t' => ['\\', 't']
  | c =>
    if c.toNat < 32 then
      let digits := Nat.toDigits 16 c.toNat
      '\\' :: 'u' :: (List.replicate (4 - digits.length) '0' ++ digits)
    else [c]

def quote (s : String) : String :=
  "\"" ++ String.ofList (s.toList.flatMap escapeChar) ++ "\""

/-- A literal for the number, with an exponent unless it is whole. -/
def Number.text (n : Number) : String :=
  let sign := if n.isNegative then "-" else ""
  if n.isWhole then sign ++ toString n.mantissa
  else sign ++ toString n.mantissa ++ "e" ++ toString n.exponent

mutual

/-- Write a value after `out`, with no blanks between tokens. What is unreadable has no
text of its own and is written as null. -/
def write (out : String) : Json → String
  | .null => out ++ "null"
  | .bool b => out ++ (if b then "true" else "false")
  | .number n => out ++ n.text
  | .string s => out ++ quote s
  | .unreadable => out ++ "null"
  | .array items => writeItems (out ++ "[") true items ++ "]"
  | .object members => writeMembers (out ++ "\x7b") true members ++ "\x7d"

def writeItems (out : String) (first : Bool) : List Json → String
  | [] => out
  | j :: rest => writeItems (write (if first then out else out ++ ",") j) false rest

def writeMembers (out : String) (first : Bool) : List (String × Json) → String
  | [] => out
  | (k, j) :: rest =>
    writeMembers (write ((if first then out else out ++ ",") ++ quote k ++ ":") j) false rest

end

/-- The text of a value without blanks. -/
def render (j : Json) : String := j.write ""

end Json

end Strand
