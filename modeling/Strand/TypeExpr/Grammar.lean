import Strand.Ty.Basic
import Strand.TypeExpr.Token

/-!
# The grammar of type annotations

```text
type     := primary ('<' params? '>')*
primary  := Name ('(' types ')')?
          | '(' types ')'
          | '[' type ']'
types    := (type (',' type)* ','?)?
params   := param (',' param)*
param    := type ('*' | '?')?
```

A parenthesised type without a trailing comma is just grouped; otherwise parentheses
make a tuple. `[T]` is a cell, `Name(T, U)` an instance of a generic class, and
`R<A, B?>` or `R<A*>` a function that returns `R`. A class name by itself means an
instance about whose arguments nothing is known.

Every rule consumes a token before it uses another rule, and every round of a loop consumes
one. More fuel than there are tokens is therefore enough, and running out of it, which has an
outcome of its own, never happens.
-/

namespace Strand.TypeExpr

/-- What is wrong with the form of an annotation. -/
inductive FormFault where
  | empty
  | unexpected (found : Token)
  | unexpectedEnd
  | expected (wanted : Token)
  | takesNoArguments (name : String)
  | varargsNotLast
  | requiredAfterOptional
  | varargsWithOptional
  /-- The fuel of a rule has run out before the tokens. -/
  | outOfFuel
deriving DecidableEq, Inhabited

def FormFault.text : FormFault → String
  | .empty => "empty annotation"
  | .unexpected found => "unexpected '" ++ found.text ++ "'"
  | .unexpectedEnd => "unexpected end of annotation"
  | .expected wanted => "expected '" ++ wanted.text ++ "'"
  | .takesNoArguments name => "'" ++ name ++ "' takes no type arguments"
  | .varargsNotLast => "varargs parameter must be last"
  | .requiredAfterOptional => "required parameter after an optional one"
  | .varargsWithOptional => "varargs and optional parameters cannot be combined"
  | .outOfFuel => "annotation not read to its end"

/-- Why an annotation denotes no type. -/
inductive Fault where
  | form (fault : FormFault)
  | unknownType (name : String)
  | genericArity (name : String) (expected found : Nat)
deriving DecidableEq, Inhabited

/-- A result together with the tokens that are left. -/
abbrev Parsed (α : Type) := α × List Token

/-- A way to read one type. -/
abbrev TypeRule := List Token → Except Fault (Parsed Ty)

def reject {α : Type} (fault : FormFault) : Except Fault α := .error (.form fault)

/-- Take one token that has to be there. -/
def expect (wanted : Token) : List Token → Except Fault (List Token)
  | t :: rest => if t = wanted then .ok rest else reject (.expected wanted)
  | [] => reject (.expected wanted)

/-- The types up to a closing parenthesis, after those in `done`, and whether a comma
came last. `ty` reads one type. -/
def parseTypes (ty : TypeRule) :
    Nat → List Ty → Bool → List Token → Except Fault (Parsed (List Ty × Bool))
  | _, done, comma, .rparen :: rest => .ok ((done, comma), .rparen :: rest)
  | 0, _, _, _ => reject .outOfFuel
  | fuel + 1, done, _, tokens => do
    let (t, rest) ← ty tokens
    match rest with
    | .comma :: rest => parseTypes ty fuel (done ++ [t]) true rest
    | rest => .ok ((done ++ [t], false), rest)

/-- The parameters of a function up to the closing bracket, after those in `sig`. -/
def parseParams (ty : TypeRule) :
    Nat → Signature → List Token → Except Fault (Parsed Signature)
  | 0, _, _ => reject .outOfFuel
  | fuel + 1, sig, tokens => do
    let (t, rest) ← ty tokens
    let sig := { sig with params := sig.params ++ [t] }
    let (sig, rest) ← match rest with
      | .star :: rest =>
        if rest.head? = some .rangle then pure ({ sig with hasVarargs := true }, rest)
        else reject .varargsNotLast
      | .question :: rest => pure ({ sig with defaultCount := sig.defaultCount + 1 }, rest)
      | rest => if 0 < sig.defaultCount then reject .requiredAfterOptional else pure (sig, rest)
    match rest with
    | .comma :: rest => parseParams ty fuel sig rest
    | rest => do
      let rest ← expect .rangle rest
      if sig.hasVarargs && 0 < sig.defaultCount then reject .varargsWithOptional
      else .ok (sig, rest)

/-- The parameter lists behind a type, each of which makes a function of it. -/
def parseSuffixes (ty : TypeRule) : Nat → Ty → List Token → Except Fault (Parsed Ty)
  | 0, _, .langle :: _ => reject .outOfFuel
  | fuel + 1, result, .langle :: rest =>
    match rest with
    | .rangle :: rest => parseSuffixes ty fuel (.fn (.simple [] result)) rest
    | rest => do
      let (sig, rest) ← parseParams ty (rest.length + 1) (.simple [] result) rest
      parseSuffixes ty fuel (.fn sig) rest
  | _, result, rest => .ok (result, rest)

/-- A name, with arguments if it is a class. -/
def parseNamed (lookup : String → Option Ty) (ty : TypeRule) (name : String)
    (tokens : List Token) : Except Fault (Parsed Ty) :=
  match lookup name with
  | none => .error (.unknownType name)
  | some found =>
    match tokens, found with
    | .lparen :: rest, .classObject c => do
      let ((args, _), rest) ← parseTypes ty (rest.length + 1) [] false rest
      let rest ← expect .rparen rest
      if args.length = c.generics.length then .ok (.inst c args, rest)
      else .error (.genericArity name c.generics.length args.length)
    | .lparen :: _, _ => reject (.takesNoArguments name)
    | rest, .classObject c => .ok (.inst c (c.generics.map fun _ => .any), rest)
    | rest, other => .ok (other, rest)

def parsePrimary (lookup : String → Option Ty) (ty : TypeRule) : TypeRule
  | [] => reject .unexpectedEnd
  | .name name :: rest => parseNamed lookup ty name rest
  | .lparen :: rest => do
    let ((items, comma), rest) ← parseTypes ty (rest.length + 1) [] false rest
    let rest ← expect .rparen rest
    match items, comma with
    | [t], false => .ok (t, rest)
    | items, _ => .ok (.tuple items, rest)
  | .lbracket :: rest => do
    let (t, rest) ← ty rest
    let rest ← expect .rbracket rest
    .ok (.ref t, rest)
  | other :: _ => reject (.unexpected other)

/-- One type, and the tokens after it. More fuel than there are tokens is enough. -/
def parseType (lookup : String → Option Ty) : Nat → TypeRule
  | 0, _ => reject .outOfFuel
  | fuel + 1, tokens => do
    let (t, rest) ← parsePrimary lookup (parseType lookup fuel) tokens
    parseSuffixes (parseType lookup fuel) (rest.length + 1) t rest

/-- The type that a complete annotation denotes. -/
def parse (lookup : String → Option Ty) (tokens : List Token) : Except Fault Ty :=
  match tokens with
  | [] => reject .empty
  | _ => do
    let (t, rest) ← parseType lookup (tokens.length + 1) tokens
    match rest with
    | [] => .ok t
    | extra :: _ => reject (.unexpected extra)

end Strand.TypeExpr
