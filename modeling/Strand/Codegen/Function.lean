import Strand.Codegen.Block

/-!
# Functions

A function is a unit of its own and a closure over it. The values of defaults are
computed where the function is defined and travel with the closure. Arguments are on
the stack when the unit starts, one slot each after slot zero.
-/

namespace Strand.Codegen

/-! ## Signatures and headers -/

/-- The type an annotation describes; without one it is `any`. -/
def annotatedType (tokens : Option (List TypeExpr.Token)) (span : Span) : Build Ty := do
  pure ((← resolveType? tokens span).getD .any)

/-- The type of a declared function. -/
def functionSignature (decl : FunctionDecl) : Build Signature := do
  let params ← (decl.params ++ decl.varargs.toList).mapM fun p => annotatedType p.typeExpr p.span
  let result ← annotatedType decl.returnType decl.span
  pure
    { result, params, generics := decl.generics
      hasVarargs := decl.varargs.isSome
      defaultCount := (decl.params.filter fun p => p.default.isSome).length }

/-- A count in a header stops at the greatest that fits. -/
def headerCount (n : Nat) : UInt8 := UInt8.ofNat (min n 255)

theorem toNat_headerCount_eq_min (n : Nat) : (headerCount n).toNat = min n 255 :=
  UInt8.toNat_ofNat_of_lt' (Nat.lt_succ_of_le (Nat.min_le_right n 255))

theorem toNat_headerCount {n : Nat} (h : n ≤ 255) : (headerCount n).toNat = n :=
  (toNat_headerCount_eq_min n).trans (Nat.min_eq_left h)

/-- One more, up to the greatest count that fits. -/
def oneMore (count : UInt8) : UInt8 := if count.toNat < 255 then count + 1 else count

/-- The parameters with a default, counted one by one. -/
def countDefaults (params : List Param) : UInt8 :=
  params.foldl (fun count p => if p.default.isSome then oneMore count else count) 0

theorem oneMore_headerCount (n : Nat) : oneMore (headerCount n) = headerCount (n + 1) := by
  by_cases h : n < 255
  · have hfits := toNat_headerCount (Nat.le_of_lt h)
    rw [oneMore, if_pos (by omega)]
    refine UInt8.toNat_inj.mp ?_
    rw [toNat_headerCount h, UInt8.toNat_add, hfits]
    exact Nat.mod_eq_of_lt (Nat.succ_lt_succ h)
  · have hfull (m : Nat) (hm : 255 ≤ m) : headerCount m = 255 := by
      rw [headerCount, Nat.min_eq_right hm]
      rfl
    rw [hfull n (by omega), hfull (n + 1) (by omega)]
    rfl

/-- Counting on from `n`. -/
theorem foldl_oneMore : ∀ (params : List Param) (n : Nat),
    params.foldl (fun count p => if p.default.isSome then oneMore count else count) (headerCount n) =
      headerCount (n + (params.filter fun p => p.default.isSome).length)
  | [], _ => rfl
  | p :: params, n => by
    rw [List.foldl_cons, List.filter_cons]
    split
    · rw [oneMore_headerCount, foldl_oneMore params, List.length_cons, Nat.add_assoc, Nat.add_comm 1]
    · exact foldl_oneMore params n

theorem countDefaults_eq (params : List Param) :
    countDefaults params = headerCount (params.filter fun p => p.default.isSome).length := by
  have hcount := foldl_oneMore params 0
  rw [Nat.zero_add] at hcount
  exact hcount

/-- What the unit of a function says about it. -/
def functionHeader (decl : FunctionDecl) (kind : UnitKind) : UnitHeader :=
  { name := decl.name
    arity := headerCount (decl.params.filter fun p => p.default.isNone).length
    totalArity :=
      headerCount (decl.params.length + decl.varargs.isSome.toNat + decl.kwargs.isSome.toNat)
    defaultCount := countDefaults decl.params
    hasVarargs := decl.varargs.isSome
    hasKwargs := decl.kwargs.isSome
    isAsync := decl.isAsync
    catchesResult := decl.catchesResult
    isMethod := kind.hasReceiver
    paramNames :=
      decl.params.map Param.name ++ decl.varargs.toList.map Param.name ++ decl.kwargs.toList }

/-! ## Parameters -/

/-- Defaults fill the last parameters, so none may be required after one. -/
def checkDefaultsLast (params : List Param) : Build Unit :=
  (params.dropWhile fun p => p.default.isNone).forM fun p => do
    if p.default.isNone then report (.requiredAfterDefault p.name) p.span

/-- Declare an argument, which is on the stack already. -/
def declareParam (name : String) (ty : Ty) (span : Span) : Build Unit := do
  modifyFrame fun f => { f with height := f.height + 1 }
  let _ ← declareLocal name ty false span

def declareParams (decl : FunctionDecl) (sig : Signature) : Build Unit := do
  (decl.params.zip sig.params).forM fun (p, ty) => declareParam p.name ty p.span
  decl.varargs.toList.forM fun p => declareParam p.name .list p.span
  decl.kwargs.toList.forM fun name => declareParam name .map decl.span

variable (node : NodeCompiler)

/-- Push the value of the default of a parameter, if it has one. -/
def compileDefault (p : Param) (ty : Ty) : Build Unit := do
  match p.default with
  | some e =>
    let found ← node e .value
    checkAssignable found ty e.span
  | none => pure ()

/-- Push the values of the defaults. -/
def compileDefaults (decl : FunctionDecl) (sig : Signature) : Build Unit :=
  (decl.params.zip sig.params).forM fun (p, ty) => compileDefault node p ty

/-! ## Bodies -/

/-- The line a body ends on. -/
def lastLine (body : List Expr) (span : Span) : UInt64 :=
  ((body.getLast?.map Expr.span).getD span).line

/-- The body of a function and the return at its end. A constructor gives the receiver,
a function declared `void` gives null, any other the value of its body. -/
def compileFunctionBody (body : List Expr) (kind : UnitKind) (span : Span) : Build Unit := do
  let line := lastLine body span
  if kind == .constructor then
    compileEffects node body
    emit (.getLocal 0) line
  else
    let declared := (← get).frame.returnType
    if declared.any Ty.isVoid then
      compileEffects node body
      emit .pushNull line
    else
      let ty ← compileSequence node line body
      match declared with
      | some expected =>
        if !(body.getLast?.any Expr.diverges) then
          checkAssignable ty expected ((body.getLast?.map Expr.span).getD span)
      | none => pure ()
  emit .ret line

/-- The type of the receiver in a unit of a class. -/
def receiverType (owner : Option ClassRef) (kind : UnitKind) : Ty :=
  match owner with
  | some c => if kind.hasReceiver then c.selfInstance else .any
  | none => .any

/-- Lay down a function and push a closure over it. Inside, `owner` is the class that
the code belongs to. -/
def emitFunction (decl : FunctionDecl) (kind : UnitKind) (sig : Signature)
    (owner : Option ClassRef) : Build Unit := do
  checkDefaultsLast decl.params
  compileDefaults node decl sig
  let declared := decl.returnType.isSome && kind != .constructor
  beginUnit decl.name kind (receiverType owner kind)
  modifyFrame fun f =>
    { f with header := functionHeader decl kind, owner := owner <|> f.owner
             returnType := if declared then some sig.result else none }
  declareParams decl sig
  compileFunctionBody node decl.body kind decl.span
  let unit ← endUnit
  emitClosure unit (functionHeader decl kind).defaultCount decl.span

/-! ## Declarations -/

def compileLambda (decl : FunctionDecl) : Build Ty :=
  withPlaceholders decl.generics do
    let sig ← functionSignature decl
    emitFunction node decl .lambda sig none
    pure (.fn sig)

def compileFunctionDecl (decl : FunctionDecl) : Build Unit :=
  withPlaceholders decl.generics do
    let sig ← functionSignature decl
    let place ← reservePlace decl.name (.fn sig) true decl.span
    emitFunction node decl .function sig none
    place.store decl.span.line

/-- Check that a decorator can be called with a function of type `decorated` and gives
something that can stand for it. -/
def checkDecorator (decorator decorated : Ty) (name : String) (span : Span) : Build Unit := do
  match decorator with
  | .fn sig =>
    if !sig.accepts 1 then report (.wrongArity sig.expectedArity 1) span
    if !sig.result.assignableTo decorated then
      report (.decoratorResult name decorated.text sig.result.text) span
  | other => if !other.isDynamic then report (.decoratorNotCallable other.text) span

/-- A decorated function: its place receives what the decorator gives when it is called
with the function. -/
def compileDecorated (decorator target : Expr) (span : Span) : Build Unit := do
  match target.kind with
  | .functionDecl decl =>
    withPlaceholders decl.generics do
      let sig ← functionSignature decl
      let place ← reservePlace decl.name (.fn sig) true span
      let decoratorTy ← node decorator .value
      emitFunction node decl .function sig none
      emit (.call 1 0) span.line
      checkDecorator decoratorTy (.fn sig) decl.name decorator.span
      place.store span.line
  | _ =>
    report .decoratorTarget target.span
    let _ ← node target .effect

/-- A variable. It is declared after its value is built. -/
def compileLet (name : String) (typeExpr : Option (List TypeExpr.Token)) (value : Option Expr)
    (isConst : Bool) (span : Span) : Build Unit := do
  let declared ← resolveType? typeExpr span
  let valueTy ←
    match value with
    | some e => do
      let ty ← node e .value
      match declared with
      | some expected => checkAssignable ty expected e.span
      | none => pure ()
      pure ty
    | none => do
      emit .pushNull span.line
      pure Ty.any
  let ty := declared.getD valueTy
  if (← get).frame.isModuleLevel then
    let index ← nameConstant name span
    emit (.defineGlobal index) span.line
    defineGlobal name ty isConst
  else
    let _ ← declareLocal name ty isConst span

end Strand.Codegen
