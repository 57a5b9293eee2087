import Strand.Codegen.Place

/-!
# Bodies

Every node is laid down either for its value, which it leaves on the stack, or for
its effect only, which leaves nothing. The definitions here and in the modules for the
various kinds of node take the compiler of the nodes inside as an argument `node`; the
knot is tied in `Strand.Codegen.Node`.
-/

namespace Strand.Codegen

/-- Whether the code around a node uses its value. -/
inductive Position where
  | value
  | effect
deriving DecidableEq, Inhabited

/-- Lays down one node in a position and gives the type of its value. -/
abbrev NodeCompiler := Expr → Position → Build Ty

variable (node : NodeCompiler)

/-- Nodes for their effects. -/
def compileEffects (body : List Expr) : Build Unit :=
  body.forM fun e => do
    let _ ← node e .effect

/-- A body for its value, which is that of its last node; an empty body gives null. -/
def compileSequence (line : UInt64) : List Expr → Build Ty
  | [] => do
    emit .pushNull line
    pure .any
  | [last] => node last .value
  | e :: rest => do
    let _ ← node e .effect
    compileSequence line rest

/-- A body with a scope of its own, for its value. -/
def compileBlock (body : List Expr) (line : UInt64) : Build Ty := do
  openScope
  let ty ← compileSequence node line body
  closeScope true line
  pure ty

/-- A body with a scope of its own, for its effects. -/
def compileBlockEffects (body : List Expr) (line : UInt64) : Build Unit := do
  openScope
  compileEffects node body
  closeScope false line

/-- A unit without parameters that is called where it stands. `body` leaves its value
on the stack. -/
def compileCalledUnit (name : String) (span : Span) (body : Build Ty) : Build Ty := do
  beginUnit name .block .any
  openScope
  let ty ← body
  emit .ret span.line
  let unit ← endUnit
  emitClosure unit 0 span
  emit (.call 0 0) span.line
  pure ty

def compileScope (body : List Expr) (span : Span) : Build Ty :=
  compileCalledUnit "<scope>" span (compileSequence node span.line body)

end Strand.Codegen
