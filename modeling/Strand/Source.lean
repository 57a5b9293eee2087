import Strand.Compile
import Strand.Expr.Reader
import Strand.Failure
import Strand.Stream.Decode
import Strand.Stream.Encode

/-!
# Programs and streams as texts

A program is given as JSON text; a code stream is written as a JSON array of integers.
-/

namespace Strand

/-- The module of a program given as a text. -/
def Module.ofProgramText (text : String) (o : Options) : Except Failure Module :=
  match Program.ofText? text with
  | none => .error .input
  | some p =>
    match compile p o with
    | .ok m => .ok m
    | .error f => .error (.compile f)

/-- The code stream of a program given as a text. -/
def compileText (text : String) (o : Options) : Except Failure (List Int) :=
  (Module.ofProgramText text o).map Stream.encode

/-- The module of a stream given as a text. -/
def Module.ofStreamText (text : String) : Except Failure Module :=
  match (Json.parse? text).bind fun j => j.list? Json.int64? with
  | none => .error .input
  | some words =>
    match Stream.decode (words.map Int64.toInt) with
    | .ok m => .ok m
    | .error e => .error (.decode e)

/-- The stream of a module as a text. -/
def Module.streamText (m : Module) : String :=
  (Json.array ((Stream.encode m).map Json.ofInt)).render

end Strand
