import Strand.Codegen.Block

/-!
# Calls

The callee is pushed first, then the positional arguments in order, then a name and a
value for each keyword argument. A call may pass at most 255 arguments of either sort.
-/

namespace Strand.Codegen

variable (node : NodeCompiler)

/-- An argument that was passed by position: its type, and where it stands. -/
abbrev Passed := Ty × Span

/-- Lay down the positional arguments. -/
def compilePositional (args : List Argument) : Build (List Passed) :=
  args.filterMapM fun
    | .positional e => do
      let ty ← node e .value
      pure (some (ty, e.span))
    | .keyword _ _ => pure none

/-- Lay down the keyword arguments and count them. -/
def compileKeywords (args : List Argument) : Build Nat :=
  args.foldlM (fun count arg => do
    match arg with
    | .positional _ => pure count
    | .keyword name value =>
      emitConstant (.str name) value.span
      let _ ← node value .value
      pure (count + 1)) 0

/-- The types that the arguments give to generic parameters. -/
def inferBindings (sig : Signature) (passed : List Passed) : Bindings :=
  passed.zipIdx.foldl (fun b (arg, i) =>
    match sig.paramFor? i with
    | some param => param.infer arg.1 b
    | none => b) []

/-- Check an argument against the parameter that it is passed to, if there is one. -/
def checkArgument (sig : Signature) (bindings : Bindings) (arg : Passed) (i : Nat) :
    Build Unit :=
  match sig.paramFor? i with
  | some param => checkAssignable arg.1 (param.substitute bindings) arg.2
  | none => pure ()

/-- Check the number and the types of the arguments. Keyword arguments only count. -/
def checkCall (sig : Signature) (passed : List Passed) (keywords : Nat) (span : Span) :
    Build Bindings := do
  let got := passed.length + keywords
  if !sig.accepts got then report (.wrongArity sig.expectedArity got) span
  let bindings := inferBindings sig passed
  passed.zipIdx.forM fun (arg, i) => checkArgument sig bindings arg i
  pure bindings

/-- Check the arguments of a class or variant that takes exactly `count`. -/
def checkCount (count got : Nat) (span : Span) : Build Unit := do
  if got != count then report (.wrongArity (.exactly count) got) span

/-- The type of the result of a call. Calling a class makes an instance of it. -/
def callResult (callee : Ty) (passed : List Passed) (keywords : Nat) (span : Span) :
    Build Ty := do
  let got := passed.length + keywords
  match callee with
  | .fn sig =>
    let bindings ← checkCall sig passed keywords span
    pure (sig.result.substitute bindings)
  | .classObject c =>
    let bindings ←
      match (← get).decls.constructor? c with
      | some sig => checkCall sig passed keywords span
      | none => do
        checkCount 0 got span
        pure []
    pure (.inst c (c.generics.map fun g => (Bindings.find? bindings g).getD .any))
  | .variant v =>
    checkCount v.fieldTypes.length got span
    (passed.zip v.fieldTypes).forM fun (arg, field) => checkAssignable arg.1 field arg.2
    pure (.variant v)
  | other =>
    if !other.isDynamic then report (.notCallable other.text) span
    pure .any

/-- The greatest number of arguments of one sort. -/
def argumentLimit : Nat := 255

def compileCall (callee : Expr) (args : List Argument) (span : Span) : Build Ty := do
  let calleeTy ← node callee .value
  let passed ← compilePositional node args
  let keywords ← compileKeywords node args
  if passed.length ≤ argumentLimit && keywords ≤ argumentLimit then
    emit (.call (UInt8.ofNat passed.length) (UInt8.ofNat keywords)) span.line
    callResult calleeTy passed keywords span
  else
    report (.wrongArity (.atMost argumentLimit) (max passed.length keywords)) span
    emit (.call 255 0) span.line
    pure .any

end Strand.Codegen
