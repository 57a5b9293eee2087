import Strand.Codegen.Frame
import Strand.Diagnostic
import Strand.Ty.Declarations

/-!
# The state of a compilation

Code generation is a computation over a state: the frame being worked on, the frames
suspended around it, and the classes and enums declared so far. It has no other way to
fail than to report a diagnostic and go on, so every step is a total function of the
state. What a step reports is an output and not a part of the state: no step can take
back a diagnostic, and none can see those of another.
-/

namespace Strand.Codegen

structure State where
  frame : Frame
  /-- The suspended units, nearest first. -/
  outer : List Frame := []
  decls : Declarations := {}
  /-- How many nodes have been entered and not left yet. -/
  nesting : Nat := 0
  /-- A node was refused because it is nested too deeply, and that was reported. -/
  refused : Bool := false
  /-- Whether type errors are reported. -/
  typeCheck : Bool := true

instance : Inhabited State := ⟨{ frame := default }⟩

/-- An answer and the diagnostics reported on the way to it, in order. -/
structure Logged (α : Type) where
  answer : α
  reports : List Diagnostic

instance : Monad Logged where
  pure a := ⟨a, []⟩
  bind x f :=
    let y := f x.answer
    ⟨y.answer, x.reports ++ y.reports⟩

/-- A step of code generation. -/
abbrev Build := StateT State Logged

/-- The units from the current one outwards. -/
def State.chain (s : State) : List Frame := s.frame :: s.outer

def modifyFrame (g : Frame → Frame) : Build Unit :=
  modify fun s => { s with frame := g s.frame }

def modifyDecls (g : Declarations → Declarations) : Build Unit :=
  modify fun s => { s with decls := g s.decls }

/-! ## Diagnostics -/

/-- Report a diagnostic, unless it is a type error and those are not asked for. -/
def report (cause : Cause) (span : Span) : Build Unit := fun s =>
  ⟨((), s), if s.typeCheck || cause.kind != .type then [⟨cause, span⟩] else []⟩

/-- Report a mismatch unless `found` may stand where `expected` is wanted. -/
def checkAssignable (found expected : Ty) (span : Span) : Build Unit :=
  if found.assignableTo expected then pure ()
  else report (.typeMismatch expected.text found.text) span

/-! ## Code -/

def emit (i : Instr) (line : UInt64) : Build Unit := modifyFrame fun f => f.emit i line

def height : Build Nat := return (← get).frame.height

/-- Set the height where paths of control meet. -/
def setHeight (n : Nat) : Build Unit := modifyFrame fun f => { f with height := n }

/-- The offset of the next instruction. -/
def here : Build Nat := return (← get).frame.chunk.size

/-- Lay down a jump that is aimed later and say where it stands. -/
def emitJump (kind : UInt32 → Instr) (line : UInt64) : Build Nat := do
  let offset ← here
  emit (kind Instr.unpatched) line
  pure offset

/-- Aim the jump at `offset` at the next instruction. -/
def patchJump (offset : Nat) (span : Span) : Build Unit := do
  match (← get).frame.chunk.patchFault? offset with
  | none => modifyFrame fun f => { f with chunk := f.chunk.aimJump offset }
  | some _ => report .jumpTooLarge span

def patchJumps (offsets : List Nat) (span : Span) : Build Unit :=
  offsets.forM fun o => patchJump o span

/-- Go back to `start`. -/
def emitLoop (start : Nat) (span : Span) : Build Unit := do
  let distance := (← here) + 1 - start
  if distance < UInt32.size then
    emit (.loop (UInt32.ofNat distance)) span.line
  else
    report .jumpTooLarge span
    emit (.loop 0) span.line

/-! ## Constants -/

/-- Put a constant into the pool of the unit. When the pool is full the answer is an
index that does not matter. -/
def addConstant (k : Constant) (span : Span) : Build UInt16 := do
  let index ← modifyGet fun s =>
    let (index, chunk) := s.frame.chunk.addConstant k
    (index, { s with frame := { s.frame with chunk } })
  match index with
  | some i => pure i
  | none =>
    report .tooManyConstants span
    pure 0

def nameConstant (name : String) (span : Span) : Build UInt16 := addConstant (.str name) span

def emitConstant (k : Constant) (span : Span) : Build Unit := do
  let index ← addConstant k span
  emit (.constant index) span.line

/-- The operand of an instruction that takes `count` values. -/
def countOperand (count : Nat) (span : Span) : Build UInt16 :=
  if count < UInt16.size then pure (UInt16.ofNat count)
  else do
    report .tooManyLocals span
    pure 65535

/-! ## Nesting -/

@[reducible] def State.enter (s : State) : State := { s with nesting := s.nesting + 1 }

@[reducible] def State.leave (s : State) : State := { s with nesting := s.nesting - 1 }

/-- Enter one level of nesting, unless there are as many as the limit allows. -/
@[inline] def enterNesting (limit : Nat) : Build Bool :=
  modifyGet fun s => if s.nesting < limit then (true, s.enter) else (false, s)

def leaveNesting : Build Unit := modify State.leave

/-! ## Units -/

/-- Suspend the current unit and start one inside it. -/
def beginUnit (name : String) (kind : UnitKind) (receiver : Ty) : Build Unit :=
  modify fun s =>
    { s with frame := .start name kind s.frame.owner receiver, outer := s.frame :: s.outer }

/-- Finish the current unit and go on with the one around it. -/
def endUnit : Build CodeUnit :=
  modifyGet fun s =>
    (s.frame.toUnit,
     match s.outer with
     | f :: rest => { s with frame := f, outer := rest }
     | [] => s)

/-- Push a closure over a finished unit. -/
def emitClosure (unit : CodeUnit) (defaults : UInt8) (span : Span) : Build Unit := do
  let index ← addConstant (.function unit) span
  emit (.closure index defaults) span.line

/-! ## Types -/

/-- What a name means as a type; the innermost unit that knows it decides. -/
def State.findType? (s : State) (name : String) : Option Ty :=
  s.chain.findSome? fun f => f.findType? name

/-- The type an annotation describes. A faulty one is reported and counts as `any`. -/
def resolveType (tokens : List TypeExpr.Token) (span : Span) : Build Ty := do
  match TypeExpr.parse (← get).findType? tokens with
  | .ok ty => pure ty
  | .error fault =>
    report (Cause.ofTypeFault tokens fault) span
    pure .any

def resolveType? (tokens : Option (List TypeExpr.Token)) (span : Span) : Build (Option Ty) :=
  match tokens with
  | some tokens => some <$> resolveType tokens span
  | none => pure none

/-- Run `act` with generic parameters in scope. Afterwards there are as many as before. -/
def withPlaceholders {α : Type} (names : List String) (act : Build α) : Build α := do
  let mark := (← get).frame.placeholders.length
  modifyFrame fun f => { f with placeholders := f.placeholders ++ names }
  let result ← act
  modifyFrame fun f => { f with placeholders := f.placeholders.take mark }
  pure result

end Strand.Codegen
