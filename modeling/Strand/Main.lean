import Strand.CommandLine

/-!
# The program

The command line on the files of a disk.
-/

namespace Strand.CommandLine

/-- The fault of the operating system with this number; some numbers come negated. -/
def faultOfCode (code : UInt32) (text : String) : FileFault :=
  match (if code < 2147483648 then code else 0 - code) with
  | 2 => .notFound
  | 20 => .notDirectory
  | 21 => .isDirectory
  | 36 => .nameTooLong
  | code => .other code.toNat text

/-- A fault of the operating system. -/
def faultOf : IO.Error → FileFault
  | .noFileOrDirectory _ code details | .interrupted _ code details
  | .inappropriateType _ code details | .invalidArgument _ code details
  | .permissionDenied _ code details | .resourceExhausted _ code details
  | .alreadyExists _ code details | .noSuchThing _ code details
  | .otherError code details | .resourceBusy code details
  | .unsupportedOperation code details | .hardwareFault code details
  | .illegalOperation code details => faultOfCode code details
  | e => .other 0 (toString e)

/-- Do something with a file and catch its fault. -/
def guarded {α : Type} (act : IO α) : IO (Except FileFault α) :=
  tryCatch (act >>= fun a => pure (.ok a)) fun e => pure (.error (faultOf e))

/-- The text in the bytes of a file. -/
def textOf (bytes : ByteArray) : Except FileFault String :=
  match String.fromUTF8? bytes with
  | some text => .ok text
  | none => .error .notText

/-- Put a text into a file and wait until it is there, so that no fault goes unseen. -/
def writeText (path text : String) : IO Unit :=
  IO.FS.withFile path .write fun h => do
    h.putStr text
    h.flush

def diskFiles : Files IO where
  read path := return (← guarded (IO.FS.readBinFile path)).bind textOf
  write path text := guarded (writeText path text)

end Strand.CommandLine

def main (args : List String) : IO UInt32 := do
  let reply ← Strand.CommandLine.run Strand.CommandLine.diskFiles args
  IO.eprint reply.stderr
  IO.print reply.stdout
  pure reply.exitCode
