import Strand.Codegen.Block

/-!
# Collections and operators

Operands are laid down from left to right; the instruction takes them from the stack.
-/

namespace Strand.Codegen

variable (node : NodeCompiler)

/-! ## Collections -/

/-- Values from left to right, with their types. -/
def compileValues (items : List Expr) : Build (List Ty) := items.mapM fun e => node e .value

def compileInterpolated (parts : List TextPart) (span : Span) : Build Ty := do
  parts.forM fun part => do
    match part with
    | .literal text => emitConstant (.str text) span
    | .expr e =>
      let _ ← node e .value
  let count ← countOperand parts.length span
  emit (.buildString count) span.line
  pure .str

def compileArray (items : List Expr) (span : Span) : Build Ty := do
  let _ ← compileValues node items
  let count ← countOperand items.length span
  emit (.array count) span.line
  pure .list

def compileMap (pairs : List (Expr × Expr)) (span : Span) : Build Ty := do
  pairs.forM fun (key, value) => do
    let _ ← node key .value
    let _ ← node value .value
  let count ← countOperand pairs.length span
  emit (.map count) span.line
  pure .map

def compileTuple (items : List Expr) (span : Span) : Build Ty := do
  let types ← compileValues node items
  let count ← countOperand items.length span
  emit (.tuple count) span.line
  pure (.tuple types)

/-! ## Operators -/

/-- The result of an operator; operands that do not mix are reported under `symbol`. -/
def operatorResult (op : BinaryOp) (symbol : String) (left right : Ty) (span : Span) :
    Build (Option Ty) := do
  match (← get).decls.binaryResult? op left right with
  | some ty => pure (some ty)
  | none =>
    report (.incompatibleOperands symbol left.text right.text) span
    pure none

def compileBinary (left : Expr) (op : BinaryOp) (right : Expr) : Build Ty := do
  let leftTy ← node left .value
  let rightTy ← node right .value
  emit (.binary op) right.span.line
  let result ← operatorResult op op.symbol leftTy rightTy (left.span.merge right.span)
  pure (result.getD .any)

/-- The left value stays on the stack when it decides the result. -/
def compileLogical (left : Expr) (op : LogicalOp) (right : Expr) (span : Span) : Build Ty := do
  let leftTy ← node left .value
  let done ← emitJump (match op with | .and => .jumpIfFalse | .or => .jumpIfTrue) span.line
  emit .pop span.line
  let rightTy ← node right .value
  patchJump done span
  pure (leftTy.unify rightTy)

def compileUnary (op : UnaryOp) (operand : Expr) (span : Span) : Build Ty := do
  let ty ← node operand .value
  emit (.unary op) span.line
  match ty.unaryResult? op with
  | some result => pure result
  | none =>
    report (.typeMismatch ("operand of '" ++ op.symbol ++ "'") ty.text) span
    pure .any

/-! ## References -/

def compileReference (target : Expr) (span : Span) : Build Ty := do
  let ty ← node target .value
  emit .ref span.line
  pure (.ref ty)

def compileDeref (target : Expr) (span : Span) : Build Ty := do
  let ty ← node target .value
  emit .deref span.line
  match ty with
  | .ref inner => pure inner
  | other =>
    if !other.isDynamic then report (.typeMismatch "reference" other.text) target.span
    pure .any

end Strand.Codegen
