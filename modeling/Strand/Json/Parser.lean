import Strand.Json.Basic

/-!
# Reading JSON text

A recursive descent over the characters. Every step of the descent takes one unit of
fuel, and a text of `n` characters never needs more than `2 n + 2` steps: between two
consecutive characters at most two steps are made.
-/

namespace Strand.Json

/-- The four characters that may stand between tokens. -/
def isBlank (c : Char) : Bool := c == ' ' || c == '\n' || c == '\t' || c == '\r'

def skipBlanks (cs : List Char) : List Char := cs.dropWhile isBlank

/-! ## Strings

A string literal is first split into pieces, so that two escapes that together denote
one character can be joined afterwards. -/

/-- A piece of a string literal: a character, or an escaped 16-bit unit. -/
inductive Piece where
  | char (c : Char)
  | unit (u : Nat)

def hexDigit? (c : Char) : Option Nat :=
  if '0' ≤ c ∧ c ≤ '9' then some (c.toNat - '0'.toNat)
  else if 'a' ≤ c ∧ c ≤ 'f' then some (c.toNat - 'a'.toNat + 10)
  else if 'A' ≤ c ∧ c ≤ 'F' then some (c.toNat - 'A'.toNat + 10)
  else none

def hexUnit? (a b c d : Char) : Option Nat := do
  let a ← hexDigit? a
  let b ← hexDigit? b
  let c ← hexDigit? c
  let d ← hexDigit? d
  pure (((a * 16 + b) * 16 + c) * 16 + d)

/-- The character after a backslash, other than `u`. -/
def simpleEscape? : Char → Option Char
  | '"' => some '"'
  | '\\' => some '\\'
  | '/' => some '/'
  | 'b' => some '\x08'
  | 'f' => some '\x0c'
  | 'n' => some '\n'
  | 'r' => some '\r'
  | 't' => some '\t'
  | _ => none

/-- The pieces up to the closing quote, in reverse, and what follows it. -/
def scanString : List Char → List Piece → Option (List Piece × List Char)
  | [], _ => none
  | c :: rest, done =>
    if c = '"' then some (done, rest)
    else if c = '\\' then
      match rest with
      | [] => none
      | e :: rest =>
        if e = 'u' then
          match rest with
          | a :: b :: c :: d :: rest =>
            match hexUnit? a b c d with
            | some u => scanString rest (.unit u :: done)
            | none => none
          | _ => none
        else
          match simpleEscape? e with
          | some c => scanString rest (.char c :: done)
          | none => none
    else if c.toNat < 32 then none
    else scanString rest (.char c :: done)

def isHighSurrogate (u : Nat) : Bool := 0xD800 ≤ u && u < 0xDC00

def isLowSurrogate (u : Nat) : Bool := 0xDC00 ≤ u && u < 0xE000

/-- Join reversed pieces into characters; a surrogate that has no partner denotes
nothing. `low` is a low surrogate waiting for the high one before it. -/
def joinPieces : List Piece → Option Nat → List Char → Option (List Char)
  | [], none, done => some done
  | [], some _, _ => none
  | .char c :: rest, none, done => joinPieces rest none (c :: done)
  | .char _ :: _, some _, _ => none
  | .unit u :: rest, none, done =>
    if isLowSurrogate u then joinPieces rest (some u) done
    else if isHighSurrogate u then none
    else joinPieces rest none (Char.ofNat u :: done)
  | .unit u :: rest, some low, done =>
    if isHighSurrogate u then
      joinPieces rest none (Char.ofNat (0x10000 + (u - 0xD800) * 1024 + (low - 0xDC00)) :: done)
    else none

/-- A string literal after its opening quote. -/
def stringLiteral (cs : List Char) : Option (Option String × List Char) := do
  let (pieces, rest) ← scanString cs []
  pure ((joinPieces pieces none []).map String.ofList, rest)

/-! ## Numbers -/

def isDigit (c : Char) : Bool := '0' ≤ c && c ≤ '9'

def digitsValue (ds : List Char) : Nat :=
  ds.foldl (fun n d => 10 * n + (d.toNat - '0'.toNat)) 0

/-- A run of at least one digit. -/
def digits? (cs : List Char) : Option (List Char × List Char) :=
  let (ds, rest) := cs.span isDigit
  if ds.isEmpty then none else some (ds, rest)

/-- The digits before the point: a lone zero, or digits that start with another. -/
def wholeDigits? (cs : List Char) : Option (List Char × List Char) := do
  let (ds, rest) ← digits? cs
  match ds with
  | '0' :: _ :: _ => none
  | _ => some (ds, rest)

def fraction? (cs : List Char) : Option (List Char × List Char) :=
  match cs with
  | '.' :: rest => digits? rest
  | _ => some ([], cs)

/-- The exponent, or `none` inside when there is none. -/
def exponent? (cs : List Char) : Option (Option Int × List Char) :=
  match cs with
  | c :: rest =>
    if c = 'e' ∨ c = 'E' then
      let (negative, rest) := match rest with
        | '+' :: rest => (false, rest)
        | '-' :: rest => (true, rest)
        | _ => (false, rest)
      (digits? rest).map fun (ds, rest) =>
        let n : Int := digitsValue ds
        (some (if negative then -n else n), rest)
    else some (none, cs)
  | [] => some (none, cs)

def numberLiteral (cs : List Char) : Option (Number × List Char) := do
  let (isNegative, cs) := match cs with
    | '-' :: rest => (true, rest)
    | _ => (false, cs)
  let (whole, cs) ← wholeDigits? cs
  let (fraction, cs) ← fraction? cs
  let (exponent, cs) ← exponent? cs
  let number : Number :=
    { isNegative
      mantissa := digitsValue (whole ++ fraction)
      exponent := exponent.getD 0 - fraction.length
      isWhole := fraction.isEmpty && exponent.isNone }
  pure (number, cs)

/-! ## Values -/

/-- Take the characters of a word off the front. -/
def expect? : List Char → List Char → Option (List Char)
  | [], cs => some cs
  | w :: ws, c :: cs => if w = c then expect? ws cs else none
  | _ :: _, [] => none

/-- The object with these members, where a key is absent when it denotes no text. -/
def objectOf (members : List (Option String × Json)) : Json :=
  match members.mapM fun (key, j) => key.map fun key => (key, j) with
  | some members => .object members
  | none => .unreadable

mutual

/-- A value; blanks before it are skipped. -/
def parseValue : Nat → List Char → Option (Json × List Char)
  | 0, _ => none
  | fuel + 1, cs =>
    match skipBlanks cs with
    | [] => none
    | c :: rest =>
      if c = '[' then
        match skipBlanks rest with
        | ']' :: rest => some (.array [], rest)
        | rest => parseItems fuel rest []
      else if c = '\x7b' then
        match skipBlanks rest with
        | '\x7d' :: rest => some (.object [], rest)
        | rest => parseMembers fuel rest []
      else if c = '"' then do
        let (s, rest) ← stringLiteral rest
        match s with
        | some s => some (.string s, rest)
        | none => some (.unreadable, rest)
      else if c = 't' then (expect? "rue".toList rest).map fun rest => (.bool true, rest)
      else if c = 'f' then (expect? "alse".toList rest).map fun rest => (.bool false, rest)
      else if c = 'n' then (expect? "ull".toList rest).map fun rest => (.null, rest)
      else (numberLiteral (c :: rest)).map fun (n, rest) => (.number n, rest)

/-- The items of an array from the next one on, after those in `done`. -/
def parseItems : Nat → List Char → List Json → Option (Json × List Char)
  | 0, _, _ => none
  | fuel + 1, cs, done => do
    let (j, rest) ← parseValue fuel cs
    match skipBlanks rest with
    | ',' :: rest => parseItems fuel rest (j :: done)
    | ']' :: rest => some (.array (j :: done).reverse, rest)
    | _ => none

/-- The members of an object from the next one on, after those in `done`. -/
def parseMembers : Nat → List Char → List (Option String × Json) → Option (Json × List Char)
  | 0, _, _ => none
  | fuel + 1, cs, done => do
    let rest ← expect? ['"'] (skipBlanks cs)
    let (key, rest) ← stringLiteral rest
    let rest ← expect? [':'] (skipBlanks rest)
    let (j, rest) ← parseValue fuel rest
    match skipBlanks rest with
    | ',' :: rest => parseMembers fuel rest ((key, j) :: done)
    | '\x7d' :: rest => some (objectOf ((key, j) :: done).reverse, rest)
    | _ => none

end

/-- The one value in a text. -/
def parse? (text : String) : Option Json := do
  let cs := text.toList
  let (j, rest) ← parseValue (2 * cs.length + 2) cs
  if (skipBlanks rest).isEmpty then some j else none

end Strand.Json
