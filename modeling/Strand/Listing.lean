import Strand.Binary64
import Strand.Code.Chunk

/-!
# Code listings

The readable form of a unit: a heading, what it captures, one line for each
instruction, and then the listings of the units inside it. A line shows the offset,
the source line (or a bar when it is that of the instruction before) and the
instruction with its operands explained: names and constants from the pool, and jumps
by where they land.
-/

namespace Strand.Listing

/-- Fill with blanks on the right up to `width` characters. -/
def padRight (width : Nat) (s : String) : String :=
  s ++ String.ofList (List.replicate (width - s.length) ' ')

/-- Fill with `c` on the left up to `width` characters. -/
def padLeft (c : Char) (width : Nat) (s : String) : String :=
  String.ofList (List.replicate (width - s.length) c) ++ s

def constantText : Option Constant → String
  | some (.int n) => toString n.toInt
  | some (.float bits) => Binary64.text bits
  | some (.str s) => "\"" ++ s ++ "\""
  | some (.names ss) => "[" ++ ", ".intercalate ss ++ "]"
  | some (.function u) => "<fn " ++ u.name ++ ">"
  | some (.classType d) => "<class " ++ d.name ++ ">"
  | some (.enumType d) => "<enum " ++ d.name ++ ">"
  | none => "???"

/-- A name from the pool, or its index when there is no string there. -/
def nameText (pool : Array Constant) (index : UInt16) : String :=
  match pool[index.toNat]? with
  | some (.str s) => s
  | _ => "?" ++ toString index.toNat

/-- A label in its column. -/
def label (s : String) : String := padRight 13 s

/-- A label and one number in its column. -/
def labelled (s : String) (n : Nat) : String := label s ++ padLeft ' ' 5 (toString n)

/-- The instruction at `offset`, explained. -/
def instrText (code : Array Instr) (pool : Array Constant) (offset : Nat) (i : Instr) : String :=
  let constant := fun (index : UInt16) => " (" ++ constantText pool[index.toNat]? ++ ")"
  let named := fun s (index : UInt16) => labelled s index.toNat ++ " (" ++ nameText pool index ++ ")"
  let jump := fun s =>
    label s ++ "-> " ++ (match jumpTarget? code offset with
      | some target => toString target
      | none => "?")
  match i with
  | .constant index => labelled "CONSTANT" index.toNat ++ constant index
  | .getLocal slot => labelled "GET_LOCAL" slot.toNat
  | .setLocal slot => labelled "SET_LOCAL" slot.toNat
  | .dropLocal slot => labelled "DROP_LOCAL" slot.toNat
  | .getUpvalue index => labelled "GET_UPVALUE" index.toNat
  | .setUpvalue index => labelled "SET_UPVALUE" index.toNat
  | .dropUpvalue index => labelled "DROP_UPVALUE" index.toNat
  | .getGlobal index => named "GET_GLOBAL" index
  | .setGlobal index => named "SET_GLOBAL" index
  | .defineGlobal index => named "DEF_GLOBAL" index
  | .dropGlobal index => named "DROP_GLOBAL" index
  | .getAttr index => named "GET_ATTR" index
  | .setAttr index => named "SET_ATTR" index
  | .dropAttr index => named "DROP_ATTR" index
  | .jump _ => jump "JUMP"
  | .jumpIfFalse _ => jump "JUMP_IF_FALSE"
  | .jumpIfTrue _ => jump "JUMP_IF_TRUE"
  | .loop _ => jump "LOOP"
  | .forIter _ => jump "FOR_ITER"
  | .closure index defaults =>
    labelled "CLOSURE" index.toNat ++ constant index ++ " defaults=" ++ toString defaults.toNat
  | .call positional keyword =>
    labelled "CALL" positional.toNat ++ " kw=" ++ toString keyword.toNat
  | .array n => labelled "ARRAY" n.toNat
  | .map n => labelled "MAP" n.toNat
  | .tuple n => labelled "TUPLE" n.toNat
  | .buildString n => labelled "BUILD_STRING" n.toNat
  | .makeClass index consumed =>
    labelled "CLASS" index.toNat ++ constant index ++ " consumes=" ++ toString consumed.toNat
  | .makeEnum index => labelled "ENUM" index.toNat ++ constant index
  | .rangeCheck slot => labelled "RANGE_CHECK" slot.toNat
  | .directive kind index => label "DIRECTIVE" ++ kind.name ++ constant index
  | other => other.name.toUpper

/-- The line column: a bar for the line of the instruction before. An instruction
without a line counts as being on line zero. -/
def lineText (lines : Array UInt64) (offset : Nat) : String :=
  let line := lines[offset]?.getD 0
  if 0 < offset ∧ lines[offset - 1]? = some line then "   |"
  else padLeft ' ' 4 (toString line.toNat)

def codeText (code : Array Instr) (lines : Array UInt64) (pool : Array Constant) : String :=
  (List.range code.size).foldl
    (fun out offset =>
      match code[offset]? with
      | some i =>
        out ++ padLeft '0' 4 (toString offset) ++ " " ++ lineText lines offset ++ " " ++
          instrText code pool offset i ++ "\n"
      | none => out)
    ""

def capturesText (captures : List CaptureSource) : String :=
  captures.zipIdx.foldl
    (fun out (source, i) => out ++ "  upvalue " ++ toString i ++ " <- " ++ source.text ++ "\n")
    ""

def heading (header : UnitHeader) (captures : List CaptureSource) : String :=
  "== " ++ header.name ++ " (arity=" ++ toString header.arity.toNat ++ "/"
    ++ toString header.totalArity.toNat ++ ", upvalues=" ++ toString captures.length ++ ") ==\n"

mutual

/-- The listing of a unit and of every unit inside it. -/
def ofUnit : CodeUnit → String
  | ⟨header, captures, _, constants, code, lines⟩ =>
    heading header captures ++ capturesText captures ++
      codeText code lines constants.toArray ++ ofPool constants

/-- The listings of the units in a pool, each after a blank line. -/
def ofPool : List Constant → String
  | [] => ""
  | .function u :: rest => "\n" ++ ofUnit u ++ ofPool rest
  | _ :: rest => ofPool rest

end

end Strand.Listing
