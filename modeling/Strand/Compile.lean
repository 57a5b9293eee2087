import Strand.Codegen.Node
import Strand.Options

/-!
# Compiling a program

Functions, classes and enums of a module can be mentioned before they are reached, so
their names are entered first. A program that got a diagnostic gives no module; type
errors are reported only when the options ask for type checking.
-/

namespace Strand

open Codegen

namespace Codegen

/-- The frame of a module: it knows the primitive types and the globals of the host. -/
def moduleFrame (hostGlobals : List String) : Frame :=
  let host : GlobalBinding := { ty := .any, isConst := false, isHost := true }
  { Frame.start "<main>" .module none .any with
    types := .builtins
    globals := hostGlobals.foldl (fun t name => t.insert name host) ∅ }

/-- Enter the name of a declaration, unless there is a global of that name. -/
def hoist (name : String) : Build Unit := do
  if !(← get).frame.globals.contains name then defineGlobal name .any true

/-- The globals that the module itself defines. -/
def ownGlobals (t : Table GlobalBinding) : Table GlobalInfo :=
  t.filterMap (fun e => !e.2.isHost) fun g => { typeName := g.ty.text, isConst := g.isConst }

/-- Lay down a whole program. -/
def compileProgram (limit : Nat) (p : Program) : Build CodeUnit := do
  (p.body.filterMap Expr.hoistedName?).forM hoist
  compileEffects (compileNode limit (limit + 1)) p.body
  let line := lastLine p.body .zero
  emit .pushNull line
  emit .ret line
  modifyFrame fun f =>
    { f with manifest := { f.manifest with globals := ownGlobals f.globals } }
  endUnit

end Codegen

/-- Compile a program into a module, or say what is wrong with it. -/
def compile (p : Program) (o : Options) : Except CompileFailure Module :=
  let start : State := { frame := moduleFrame o.hostGlobals, typeCheck := o.typeCheck }
  let result := (compileProgram o.maxNestingDepth.toNat p).run start
  match result.reports with
  | [] => .ok { sourceName := o.sourceName, main := result.answer.1 }
  | diagnostics => .error { diagnostics }

end Strand
