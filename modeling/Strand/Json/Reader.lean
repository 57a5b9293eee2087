import Strand.Json.Parser

/-!
# Reading data out of JSON

Readers for the shapes that occur in the input: records with required, optional and
defaulted fields, and tagged choices. A field that is not known is ignored, whatever
it holds; a known field that occurs twice makes the record unreadable. There is no
error text, only success or failure.
-/

namespace Strand.Json

variable {α : Type}

/-- The members of a record. -/
structure Fields where
  members : List (String × Json)

/-- The record in an object, provided no known field is repeated. -/
def fields? (known : List String) : Json → Option Fields
  | .object members =>
    if known.all fun k => (members.filter fun m => m.1 == k).length ≤ 1 then some ⟨members⟩
    else none
  | _ => none

namespace Fields

def get? (f : Fields) (key : String) : Option Json :=
  (f.members.find? fun m => m.1 == key).map Prod.snd

/-- A field that has to be there. -/
def required (f : Fields) (key : String) (read : Json → Option α) : Option α :=
  (f.get? key).bind read

/-- A field that may be absent or null. -/
def optional (f : Fields) (key : String) (read : Json → Option α) : Option (Option α) :=
  match f.get? key with
  | none => some none
  | some .null => some none
  | some j => (read j).map some

/-- A field with a value for when it is absent. -/
def withDefault (f : Fields) (key : String) (value : α) (read : Json → Option α) : Option α :=
  match f.get? key with
  | none => some value
  | some j => read j

end Fields

def string? : Json → Option String
  | .string s => some s
  | _ => none

def bool? : Json → Option Bool
  | .bool b => some b
  | _ => none

def int? : Json → Option Int
  | .number n => n.toInt?
  | _ => none

/-- A signed 64-bit integer. -/
def int64? (j : Json) : Option Int64 := do
  let n ← j.int?
  if -9223372036854775808 ≤ n ∧ n ≤ 9223372036854775807 then some (Int64.ofInt n) else none

/-- An unsigned 64-bit integer. -/
def uint64? (j : Json) : Option UInt64 := do
  let n ← j.int?
  if 0 ≤ n ∧ n ≤ 18446744073709551615 then some (UInt64.ofNat n.toNat) else none

/-- The pattern of a 64-bit float; a whole number will do. -/
def binary64? : Json → Option UInt64
  | .number n => n.toBinary64?
  | _ => none

def items? : Json → Option (List Json)
  | .array items => some items
  | _ => none

def list? (read : Json → Option α) (j : Json) : Option (List α) := do
  (← j.items?).mapM read

def strings? : Json → Option (List String) := list? string?

/-- A choice that carries nothing: its name, or an object that maps its name to null. -/
def bareTag? : Json → Option String
  | .string s => some s
  | .object [(s, .null)] => some s
  | _ => none

end Strand.Json
