import Strand.Codegen.Block

/-!
# Branches

A conditional jump keeps the value it tests on the stack, so each side starts by
popping it. Where the sides of a branch meet, the stack is one value higher than
before the branch, whichever side was taken.
-/

namespace Strand.Codegen

/-- Branches that meet further on: the type of their values so far and the jumps to
where they meet. -/
structure Join where
  ty : Option Ty := none
  jumps : List Nat := []

namespace Join

/-- The type with one more branch. -/
def withBranch (j : Join) (ty : Ty) : Ty :=
  match j.ty with
  | some acc => acc.unify ty
  | none => ty

/-- Add a branch and the jump at its end. -/
def add (j : Join) (ty : Ty) (jump : Nat) : Join :=
  { ty := some (j.withBranch ty), jumps := jump :: j.jumps }

end Join

variable (node : NodeCompiler)

/-- A body for its value; nothing counts as null. -/
def compileOtherwise (body : Option (List Expr)) (line : UInt64) : Build Ty := do
  match body with
  | some body => compileBlock node body line
  | none =>
    emit .pushNull line
    pure .any

/-- One condition of an `if` chain that starts at height `base`. -/
def compileBranch (base : Nat) (span : Span) (join : Join) (branch : Branch) : Build Join := do
  let line := span.line
  let _ ← node branch.condition .value
  let skip ← emitJump .jumpIfFalse line
  emit .pop line
  let ty ← compileBlock node branch.body line
  let done ← emitJump .jump line
  patchJump skip span
  setHeight (base + 1)
  emit .pop line
  pure (join.add ty done)

/-- An `if` chain. When no condition holds and there is no `else`, it gives null. -/
def compileIf (branches : List Branch) (otherwise : Option (List Expr)) (span : Span) :
    Build Ty := do
  let base ← height
  let join ← branches.foldlM (compileBranch node base span) {}
  let last ← compileOtherwise node otherwise span.line
  patchJumps join.jumps span
  setHeight (base + 1)
  pure (join.withBranch last)

def compileTernary (condition thenValue elseValue : Expr) (span : Span) : Build Ty := do
  let line := span.line
  let base ← height
  let _ ← node condition .value
  let skip ← emitJump .jumpIfFalse line
  emit .pop line
  let thenTy ← node thenValue .value
  let done ← emitJump .jump line
  patchJump skip span
  setHeight (base + 1)
  emit .pop line
  let elseTy ← node elseValue .value
  patchJump done span
  setHeight (base + 1)
  pure (thenTy.unify elseTy)

/-! ## Switch

The subject is evaluated once and compared with the values of all cases in order; the
bodies follow. A switch gives null.
-/

/-- Compare the subject with each value of a case. The answer is the jumps to its body. -/
def compileCaseTests (slot : UInt16) (values : List Expr) : Build (List Nat) :=
  values.mapM fun value => do
    let line := value.span.line
    emit (.getLocal slot) line
    let _ ← node value .value
    emit (.binary .equal) line
    let jump ← emitJump .jumpIfTrue line
    emit .pop line
    pure jump

/-- The body of a case that is entered through `jumps`. The answer is the jump at its
end. -/
def compileCaseBody (base : Nat) (span : Span) (body : List Expr) (jumps : List Nat) :
    Build Nat := do
  patchJumps jumps span
  setHeight (base + 1)
  emit .pop span.line
  compileBlockEffects node body span.line
  emitJump .jump span.line

def compileSwitchBody (subject : Expr) (cases : List SwitchCase)
    (otherwise : Option (List Expr)) (span : Span) : Build Ty := do
  let subjectTy ← node subject .value
  let slot ← declareLocal "$switch" subjectTy true subject.span
  let base ← height
  let tests ← cases.mapM fun c => compileCaseTests node slot c.values
  let toDefault ← emitJump .jump span.line
  let ends ← (cases.zip tests).mapM fun (c, jumps) => compileCaseBody node base span c.body jumps
  patchJump toDefault span
  setHeight base
  match otherwise with
  | some body => compileBlockEffects node body span.line
  | none => pure ()
  patchJumps ends span
  setHeight base
  emit .pushNull span.line
  pure .any

def compileSwitch (subject : Expr) (cases : List SwitchCase) (otherwise : Option (List Expr))
    (span : Span) : Build Ty := do
  let _ ← compileCalledUnit "<switch>" span (compileSwitchBody node subject cases otherwise span)
  pure .void

/-! ## Leaving and checking

After a `return` or `throw` the height is taken to be what it was before, so that the
code that follows, which is never reached, is laid down as if it were.
-/

/-- Check a value that is returned against the result that the function declares. -/
def checkReturned (ty : Ty) (span : Span) : Build Unit := do
  match (← get).frame.returnType with
  | some expected => checkAssignable ty expected span
  | none => pure ()

def compileReturn (value : Option Expr) (span : Span) : Build Ty := do
  let line := span.line
  let before ← height
  if (← get).frame.kind == .constructor then
    match value with
    | some e =>
      let _ ← node e .effect
    | none => pure ()
    emit (.getLocal 0) line
  else
    let ty ←
      match value with
      | some e => node e .value
      | none => do
        emit .pushNull line
        pure Ty.void
    checkReturned ty ((value.map Expr.span).getD span)
  emit .ret line
  setHeight before
  pure .any

def compileThrow (value : Expr) (span : Span) : Build Ty := do
  let before ← height
  let _ ← node value .value
  emit .throw span.line
  setHeight before
  pure .any

def compileAssert (condition : Expr) (message : Option Expr) (span : Span) : Build Unit := do
  let _ ← node condition .value
  match message with
  | some e =>
    let _ ← node e .value
  | none => emit .pushNull span.line
  emit .assert span.line

end Strand.Codegen
