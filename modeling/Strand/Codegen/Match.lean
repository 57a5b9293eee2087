import Strand.Codegen.Branch
import Strand.Codegen.Name

/-!
# Pattern matching

A match is a unit called where it stands. The subject is kept in a slot; each arm
tests it, binds names, checks its guard and runs its body, or falls through to the
next arm.
-/

namespace Strand.Codegen

/-- A name that a pattern introduces. Without a member it is the subject itself. -/
structure Binder where
  name : String
  member : Option String
  ty : Ty

/-- What the test of a pattern leaves behind: the jump taken when it fails, and the
names it introduces when it succeeds. -/
structure PatternTest where
  failed : Option Nat := none
  binders : List Binder := []

/-! ## Patterns -/

/-- A name bound to the field of a class that has it. -/
def classBinder (c : ClassRef) (span : Span) (name : String) : Build Binder := do
  match (← get).decls.field? c name with
  | some ty => pure { name, member := some name, ty }
  | none =>
    report (.patternAttribute c.name name) span
    pure { name, member := some name, ty := .any }

/-- Names bound to attributes of an instance of a class. -/
def classBinders (c : ClassRef) (names : List String) (span : Span) : Build (List Binder) :=
  names.mapM (classBinder c span)

/-- Names bound to the fields of a variant, by position. -/
def variantBinders (v : Variant) (names : List String) (span : Span) : Build (List Binder) := do
  if names.length != v.fieldNames.length then
    report (.patternArity (v.enumName ++ "." ++ v.name) v.fieldNames.length names.length) span
  pure (names.zipIdx.map fun (name, i) =>
    { name, member := some (v.fieldNames[i]?.getD name), ty := v.fieldTypes[i]?.getD .any })

def destructureBinders (target : Ty) (names : List String) (span : Span) :
    Build (List Binder) := do
  match target with
  | .classObject c => classBinders c names span
  | .variant v => variantBinders v names span
  | other =>
    if !other.isDynamic then report (.patternTarget other.text) span
    pure (names.map fun name => { name, member := some name, ty := .any })

/-- The name a pattern binds to the subject: a bare one that denotes nothing. -/
def patternBinder? (e : Expr) : Build (Option String) := do
  match e.kind with
  | .var name =>
    match ← resolveName name with
    | none => pure (some name)
    | some _ => pure none
  | _ => pure none

variable (node : NodeCompiler)

/-- Test the subject against a pattern. A failed test keeps its result on the stack. -/
def compilePattern (pattern : Pattern) (slot : UInt16) (subject : Ty) (span : Span) :
    Build PatternTest := do
  let line := span.line
  match pattern with
  | .wildcard => pure {}
  | .value e =>
    match ← patternBinder? e with
    | some name => pure { binders := [{ name, member := none, ty := subject }] }
    | none =>
      emit (.getLocal slot) line
      let _ ← node e .value
      emit (.binary .equal) line
      let failed ← emitJump .jumpIfFalse line
      emit .pop line
      pure { failed := some failed }
  | .destructure target names =>
    emit (.getLocal slot) line
    let targetTy ← node target .value
    emit .matchType line
    let failed ← emitJump .jumpIfFalse line
    emit .pop line
    let binders ← destructureBinders targetTy names target.span
    pure { failed := some failed, binders }

/-- Push what a name is bound to and declare it. -/
def declareBinder (slot : UInt16) (span : Span) (b : Binder) : Build Unit := do
  emit (.getLocal slot) span.line
  match b.member with
  | some member =>
    let index ← nameConstant member span
    emit (.getAttr index) span.line
  | none => pure ()
  let _ ← declareLocal b.name b.ty false span

/-! ## Arms -/

/-- Check a guard. The answer is the jump taken when it does not hold. -/
def compileGuard (guard : Option Expr) : Build (Option Nat) := do
  match guard with
  | none => pure none
  | some e =>
    let _ ← node e .value
    let failed ← emitJump .jumpIfFalse e.span.line
    emit .pop e.span.line
    pure (some failed)

/-- Where an arm that did not match goes on: a failed guard takes `count` names and its
own result off the stack, a failed test its result. -/
def fallThrough (base count : Nat) (guardFailed failed : Option Nat) (span : Span) :
    Build Unit := do
  let line := span.line
  let toNext ←
    match guardFailed with
    | none => pure none
    | some jump => do
      patchJump jump span
      setHeight (base + count + 1)
      modifyFrame fun f => f.emitTimes .pop line (count + 1)
      match failed with
      | some _ => some <$> emitJump .jump line
      | none => pure none
  match failed with
  | some jump =>
    patchJump jump span
    setHeight (base + 1)
    emit .pop line
  | none => pure ()
  match toNext with
  | some jump => patchJump jump span
  | none => pure ()
  setHeight base

/-- One arm of a match whose subject is in `slot`, with the stack at height `base`. -/
def compileArm (slot : UInt16) (subject : Ty) (base : Nat) (join : Join) (arm : Arm) :
    Build Join := do
  let line := arm.span.line
  openScope
  let test ← compilePattern node arm.pattern slot subject arm.span
  test.binders.forM (declareBinder slot arm.span)
  let guardFailed ← compileGuard node arm.guard
  let ty ← compileSequence node line arm.body
  closeScope true line
  let done ← emitJump .jump line
  fallThrough base test.binders.length guardFailed test.failed arm.span
  pure (join.add ty done)

def compileMatchBody (subject : Expr) (arms : List Arm) (otherwise : Option (List Expr))
    (span : Span) : Build Ty := do
  let subjectTy ← node subject .value
  let slot ← declareLocal "$match" subjectTy true subject.span
  let base ← height
  let join ← arms.foldlM (compileArm node slot subjectTy base) {}
  let last ← compileOtherwise node otherwise span.line
  patchJumps join.jumps span
  setHeight (base + 1)
  pure (join.withBranch last)

/-- A match gives the value of the first arm that matches, or else the default. -/
def compileMatch (subject : Expr) (arms : List Arm) (otherwise : Option (List Expr))
    (span : Span) : Build Ty :=
  compileCalledUnit "<match>" span (compileMatchBody node subject arms otherwise span)

end Strand.Codegen
