import Strand.Folder
import Strand.Listing
import Strand.Source

/-!
# The command line

Reading the arguments and doing what they ask for. The work is written for any way of
reading and writing files, so that it runs both on a disk and on a `Folder`.
-/

namespace Strand.CommandLine

/-! ## Arguments -/

/-- What the options of a compilation say. -/
structure Settings where
  optionsFile : Option String := none
  /-- Where the stream goes; without it the stream is printed. -/
  output : Option String := none
  showsListing : Bool := false
  skipsTypeCheck : Bool := false
  maxDepth : Option UInt64 := none
  /-- Asks for a log. There is nothing to log. -/
  trace : Bool := false
deriving DecidableEq, Inhabited

inductive Command where
  | compile (input : String) (settings : Settings)
  /-- Print the listing of a stream. -/
  | disasm (input : String)
  | help
deriving DecidableEq, Inhabited

/-- What is wrong with the arguments. -/
inductive UsageFault where
  | missingStream
  | missingPath (option : String)
  | missingDepth
  | invalidDepth (text : String)
  | unknownOption (option : String)
  | unexpectedArgument (arg : String)
  | missingInput
deriving DecidableEq, Inhabited

/-- An unsigned 64-bit number in decimal. A plus sign may stand before it. -/
def depth? (text : String) : Option UInt64 :=
  let digits :=
    match text.toList with
    | '+' :: rest => rest
    | cs => cs
  if digits.isEmpty || !digits.all Char.isDigit then none
  else
    let n := digits.foldl (fun n c => 10 * n + (c.toNat - '0'.toNat)) 0
    if n < UInt64.size then some (UInt64.ofNat n) else none

/-- Read the arguments from left to right. `disasm` is a command only before an input
is named, and what follows its file is not looked at. -/
def parseFrom (settings : Settings) (input : Option String) :
    List String → Except UsageFault Command
  | [] =>
    match input with
    | some path => .ok (.compile path settings)
    | none => .error .missingInput
  | arg :: rest =>
    match arg, rest with
    | "--options", [] | "-o", [] => .error (.missingPath arg)
    | "--options", path :: rest => parseFrom { settings with optionsFile := some path } input rest
    | "-o", path :: rest => parseFrom { settings with output := some path } input rest
    | "--max-depth", [] => .error .missingDepth
    | "--max-depth", text :: rest =>
      match depth? text with
      | some depth => parseFrom { settings with maxDepth := some depth } input rest
      | none => .error (.invalidDepth text)
    | "--disassemble", rest => parseFrom { settings with showsListing := true } input rest
    | "--no-type-check", rest => parseFrom { settings with skipsTypeCheck := true } input rest
    | "--trace", rest => parseFrom { settings with trace := true } input rest
    | "--help", _ | "-h", _ => .ok .help
    | arg, rest =>
      match input with
      | none =>
        if arg == "disasm" then
          match rest with
          | [] => .error .missingStream
          | path :: _ => .ok (.disasm path)
        else if arg.startsWith "-" then .error (.unknownOption arg)
        else parseFrom settings (some arg) rest
      | some _ =>
        if arg.startsWith "-" then .error (.unknownOption arg)
        else .error (.unexpectedArgument arg)

def parse (args : List String) : Except UsageFault Command := parseFrom {} none args

/-! ## Help -/

def version : String := "0.4.0"

def usageLines : List String :=
  ["Strandc " ++ version ++ " - Strand bytecode compiler",
   "",
   "Usage: strandc [options] <ast.json>",
   "       strandc disasm <stream.json>",
   "",
   "Commands:",
   "  disasm <file>       Decode an integer stream and print its disassembly",
   "",
   "Options:",
   "  --options FILE      Read compiler options from a JSON file",
   "  -o FILE             Write the integer stream to FILE (default: stdout)",
   "  --disassemble       Print the disassembly to stderr after compiling",
   "  --no-type-check     Do not fail on type errors",
   "  --max-depth N       Maximum expression nesting depth (default: 200)",
   "  --trace             Log compiler activity (filter with RUST_LOG)",
   "  --help, -h          Show this help message",
   "",
   "Examples:",
   "  strandc main.ast.json                 Print the stream as a JSON array",
   "  strandc main.ast.json -o main.strn    Write the stream to a file",
   "  strandc disasm main.strn              Inspect a compiled stream"]

def usage : String := String.join (usageLines.map fun l => l ++ "\n")

namespace UsageFault

def message? : UsageFault → Option String
  | .missingStream => some "disasm command requires a stream file"
  | .missingPath option => some (option ++ " requires a file path")
  | .missingDepth => some "--max-depth requires a number"
  | .invalidDepth text => some ("Invalid depth: " ++ text)
  | .unknownOption option => some ("Unknown option: " ++ option)
  | .unexpectedArgument arg => some ("Unexpected argument: " ++ arg)
  | .missingInput => none

/-- A number that cannot be read is reported without the help text. -/
def showsUsage : UsageFault → Bool
  | .invalidDepth _ => false
  | _ => true

def report (f : UsageFault) : String :=
  (match f.message? with
    | some m => m ++ "\n"
    | none => "") ++ if f.showsUsage then usage else ""

end UsageFault

/-! ## Running -/

/-- What a run prints and the code it exits with. -/
structure Reply where
  exitCode : UInt32 := 0
  stdout : String := ""
  stderr : String := ""
deriving DecidableEq, Inhabited

/-- A run that failed after it had printed `stderr`. -/
def Reply.failed (stderr : String) (f : Failure) : Reply :=
  { exitCode := f.exitCode, stderr := stderr ++ f.report }

/-- A way of reading and writing files by their paths. -/
structure Files (m : Type → Type) where
  read : String → m (Except FileFault String)
  write : String → String → m (Except FileFault Unit)

/-- The options with what the command line says in place of what they say. -/
def Settings.apply (s : Settings) (o : Options) : Options :=
  { o with
    typeCheck := o.typeCheck && !s.skipsTypeCheck
    maxNestingDepth := s.maxDepth.getD o.maxNestingDepth }

variable {m : Type → Type} [Monad m] (files : Files m)

def readFile (path : String) : ExceptT Failure m String := do
  match ← files.read path with
  | .ok text => pure text
  | .error fault => throw (.file fault)

/-- The options of a compilation: those of the options file, or else the defaults with
the input as the name of the source. -/
def loadOptions (input : String) (s : Settings) : ExceptT Failure m Options := do
  match s.optionsFile with
  | none => pure (s.apply (Options.forSource input))
  | some path =>
    match Options.ofText? (← readFile files path) with
    | some o => pure (s.apply o)
    | none => throw .input

def compileFile (input : String) (s : Settings) : ExceptT Failure m Module := do
  let options ← loadOptions files input s
  let text ← readFile files input
  MonadExcept.ofExcept (Module.ofProgramText text options)

def runCompile (input : String) (s : Settings) : m Reply := do
  match ← (compileFile files input s).run with
  | .error f => pure (.failed "" f)
  | .ok module =>
    let listing := if s.showsListing then Listing.ofUnit module.main else ""
    match s.output with
    | none => pure { stdout := module.streamText ++ "\n", stderr := listing }
    | some path =>
      match ← files.write path module.streamText with
      | .ok () => pure { stderr := listing }
      | .error fault => pure (.failed listing (.file fault))

def runDisasm (input : String) : m Reply := do
  match ← (readFile files input).run with
  | .error f => pure (.failed "" f)
  | .ok text =>
    match Module.ofStreamText text with
    | .ok module => pure { stdout := Listing.ofUnit module.main }
    | .error f => pure (.failed "" f)

/-- Do what the arguments ask for. -/
def run (args : List String) : m Reply :=
  match parse args with
  | .error fault => pure { exitCode := 64, stderr := fault.report }
  | .ok .help => pure { stderr := usage }
  | .ok (.compile input settings) => runCompile files input settings
  | .ok (.disasm input) => runDisasm files input

/-! ## Running on a folder -/

/-- Files of a folder in memory. -/
def folderFiles : Files (StateM Folder) where
  read path := return (← get).read path
  write path text := do
    match (← get).write path text with
    | .ok d =>
      set d
      pure (.ok ())
    | .error fault => pure (.error fault)

/-- Run on a folder. The answer holds the folder as it is afterwards. -/
def runOn (d : Folder) (args : List String) : Reply × Folder := (run folderFiles args).run d

end Strand.CommandLine
