import Strand.Codegen.Operation

/-!
# Loops

A loop is laid down in place. Where its value is wanted an accumulator collects the
value of every iteration, and the loop gives the list of those that are not null.

`break` and `continue` first pop what the iteration has left on the stack.
-/

namespace Strand.Codegen

/-! ## Opening and closing -/

/-- Enter a loop whose iterations start here, and say where that is. -/
def beginLoop (continueAtStart : Bool) : Build Nat := do
  let start ← here
  modifyFrame fun f =>
    { f with loops :=
        { start, baseHeight := f.height
          continueTarget := if continueAtStart then some start else none } :: f.loops }
  pure start

/-- Aim the pending jumps of `continue` at the next instruction. -/
def patchContinues (span : Span) : Build Unit := do
  match (← get).frame.loops with
  | l :: rest =>
    modifyFrame fun f => { f with loops := { l with continueJumps := [] } :: rest }
    patchJumps l.continueJumps.reverse span
  | [] => pure ()

/-- Leave the innermost loop. The jumps of `break` land here. -/
def endLoop (span : Span) : Build Unit := do
  match (← get).frame.loops with
  | l :: rest =>
    modifyFrame fun f => { f with loops := rest }
    patchJumps (l.continueJumps.reverse ++ l.breakJumps.reverse) span
    setHeight l.baseHeight
  | [] => pure ()

/-- Start to collect when the value of the loop is wanted. -/
def openAccumulator (position : Position) (line : UInt64) : Build Unit :=
  match position with
  | .value => emit .accStart line
  | .effect => pure ()

/-- The value of the loop, if it is wanted. -/
def closeAccumulator (position : Position) (line : UInt64) : Build Ty :=
  match position with
  | .value => do
    emit .accFlush line
    pure .list
  | .effect => pure .void

/-- Take the value an iteration has left. -/
def finishIteration (position : Position) (line : UInt64) : Build Unit :=
  match position with
  | .value => emit .accCollect line
  | .effect => emit .pop line

/-- Leave a loop whose condition was tested at `exit` and whose iterations start at
height `base`. -/
def leaveAtCondition (exit base : Nat) (span : Span) : Build Unit := do
  patchJump exit span
  setHeight (base + 1)
  emit .pop span.line
  endLoop span

/-! ## The four forms -/

variable (node : NodeCompiler)

def compileWhile (condition : Expr) (body : List Expr) (position : Position) (span : Span) :
    Build Ty := do
  let line := span.line
  openAccumulator position line
  openScope
  let base ← height
  let start ← beginLoop true
  let _ ← node condition .value
  let exit ← emitJump .jumpIfFalse line
  emit .pop line
  let _ ← compileBlock node body line
  finishIteration position line
  emitLoop start span
  leaveAtCondition exit base span
  closeScope false line
  closeAccumulator position line

/-- The condition is tested after the body, and `continue` goes on with the test. -/
def compileDoWhile (body : List Expr) (condition : Expr) (position : Position) (span : Span) :
    Build Ty := do
  let line := span.line
  openAccumulator position line
  openScope
  let base ← height
  let start ← beginLoop false
  let _ ← compileBlock node body line
  finishIteration position line
  patchContinues span
  let _ ← node condition .value
  let exit ← emitJump .jumpIfFalse line
  emit .pop line
  emitLoop start span
  leaveAtCondition exit base span
  closeScope false line
  closeAccumulator position line

/-- The step of a range. When none is given it is found from the bounds as the loop
is entered. -/
def compileStep (step : Option Expr) (counter last : UInt16) (line : UInt64) : Build Ty := do
  match step with
  | some e => node e .value
  | none =>
    emit (.getLocal counter) line
    emit (.getLocal last) line
    emit .inferStep line
    pure .int

/-- The type of the variable of a range: as annotated, or that of the first value plus
a step. -/
def rangeVariableType (typeExpr : Option (List TypeExpr.Token)) (firstTy stepTy : Ty)
    (first span : Span) : Build Ty := do
  match typeExpr with
  | some tokens =>
    let declared ← resolveType tokens span
    checkAssignable firstTy declared first
    pure declared
  | none =>
    let sum ← operatorResult .add "+" firstTy stepTy span
    pure (sum.getD .any)

/-- A range keeps its counter, its end and its step in three slots in a row. The
variable is a copy of the counter, so that assigning to it leaves the counter alone. -/
def compileRangeFor (variableName : String) (typeExpr : Option (List TypeExpr.Token))
    (first last : Expr) (step : Option Expr) (body : List Expr) (position : Position)
    (span : Span) : Build Ty := do
  let line := span.line
  openAccumulator position line
  openScope
  let firstTy ← node first .value
  let counter ← declareLocal "$counter" firstTy false first.span
  let lastTy ← node last .value
  let lastSlot ← declareLocal "$end" lastTy true last.span
  let stepTy ← compileStep node step counter lastSlot line
  let stepSlot ← declareLocal "$step" stepTy true span
  let _ ← operatorResult .less ":" firstTy lastTy (first.span.merge last.span)
  let variableTy ← rangeVariableType typeExpr firstTy stepTy first.span span
  let base ← height
  let start ← beginLoop false
  emit (.rangeCheck counter) line
  let exit ← emitJump .jumpIfFalse line
  emit .pop line
  openScope
  emit (.getLocal counter) line
  emit .copy line
  let _ ← declareLocal variableName variableTy false span
  let _ ← compileSequence node line body
  closeScope true line
  finishIteration position line
  patchContinues span
  emit (.getLocal counter) line
  emit (.getLocal stepSlot) line
  emit (.binary .add) line
  emit (.setLocal counter) line
  emit .pop line
  emitLoop start span
  leaveAtCondition exit base span
  closeScope false line
  closeAccumulator position line

/-- The type of what iterating over a value gives. -/
def itemType (iterable : Ty) : Ty :=
  match iterable with
  | .prim .str => .str
  | .prim .bytes => .prim .u8
  | .tuple (first :: rest) => if rest.all fun t => t.same first then first else .any
  | _ => .any

def compileForEach (variableName : String) (iterable : Expr) (body : List Expr)
    (position : Position) (span : Span) : Build Ty := do
  let line := span.line
  openAccumulator position line
  openScope
  let iterableTy ← node iterable .value
  emit .getIter line
  let _ ← declareLocal "$iter" .any true iterable.span
  let base ← height
  let start ← beginLoop true
  let exit ← emitJump .forIter line
  openScope
  let _ ← declareLocal variableName (itemType iterableTy) false span
  let _ ← compileSequence node line body
  closeScope true line
  finishIteration position line
  emitLoop start span
  patchJump exit span
  setHeight base
  endLoop span
  closeScope false line
  closeAccumulator position line

/-! ## Break and continue -/

/-- Pop what has been pushed since the stack had height `base`. -/
def popTo (base : Nat) (line : UInt64) : Build Unit :=
  modifyFrame fun f => f.emitTimes .pop line (f.height - base)

def modifyLoop (g : Loop → Loop) : Build Unit :=
  modifyFrame fun f =>
    { f with loops :=
        match f.loops with
        | l :: rest => g l :: rest
        | [] => [] }

def compileBreak (span : Span) : Build Ty := do
  match (← get).frame.loops.head? with
  | none =>
    report .breakOutsideLoop span
    pure .any
  | some l =>
    let before ← height
    popTo l.baseHeight span.line
    let jump ← emitJump .jump span.line
    modifyLoop fun l => { l with breakJumps := jump :: l.breakJumps }
    setHeight before
    pure .any

def compileContinue (span : Span) : Build Ty := do
  match (← get).frame.loops.head? with
  | none =>
    report .continueOutsideLoop span
    pure .any
  | some l =>
    let before ← height
    popTo l.baseHeight span.line
    match l.continueTarget with
    | some start => emitLoop start span
    | none =>
      let jump ← emitJump .jump span.line
      modifyLoop fun l => { l with continueJumps := jump :: l.continueJumps }
    setHeight before
    pure .any

end Strand.Codegen
