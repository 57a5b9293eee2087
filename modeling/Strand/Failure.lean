import Strand.Diagnostic
import Strand.Stream.Cursor

/-!
# Failures

What can stop the work on a file: the file itself, the text in it, the stream in it,
or the program.
-/

namespace Strand

/-- Why a file could not be read or written. -/
inductive FileFault where
  | notFound
  | notDirectory
  | isDirectory
  /-- A name on the path, or the whole path, is longer than the system allows. -/
  | nameTooLong
  /-- What is in the file is not text. -/
  | notText
  | other (code : Nat) (text : String)
deriving DecidableEq, Inhabited

namespace FileFault

/-- The number of the fault, if it is one of the operating system. -/
def code? : FileFault → Option Nat
  | .notFound => some 2
  | .notDirectory => some 20
  | .isDirectory => some 21
  | .nameTooLong => some 36
  | .notText => none
  | .other code _ => some code

def describe : FileFault → String
  | .notFound => "No such file or directory"
  | .notDirectory => "Not a directory"
  | .isDirectory => "Is a directory"
  | .nameTooLong => "File name too long"
  | .notText => "stream did not contain valid UTF-8"
  | .other _ text => text

def message (f : FileFault) : String :=
  match f.code? with
  | some code => f.describe ++ " (os error " ++ toString code ++ ")"
  | none => f.describe

end FileFault

inductive Failure where
  /-- The program got diagnostics. -/
  | compile (failure : CompileFailure)
  /-- The stream holds no module. -/
  | decode (error : Stream.DecodeError)
  /-- The text is not JSON of the expected shape. -/
  | input
  | file (fault : FileFault)

namespace Failure

def message : Failure → String
  | .compile f => "Compile error: " ++ f.message
  | .decode e => "Decode error: " ++ e.message
  | .input => "Invalid AST input: not JSON of the expected shape"
  | .file f => "IO error: " ++ f.message

/-- The exit code of the command line. -/
def exitCode : Failure → UInt32
  | .file _ => 74
  | .input | .decode _ => 65
  | .compile _ => 70

/-- What the command line prints: a line for each diagnostic, or one for the failure. -/
def report : Failure → String
  | .compile f => String.join (f.diagnostics.map fun d => "Error: " ++ d.message ++ "\n")
  | other => "Error: " ++ other.message ++ "\n"

end Failure

end Strand
