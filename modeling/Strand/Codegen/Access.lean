import Strand.Codegen.Block
import Strand.Codegen.Name

/-!
# Variables, attributes and elements

Reading, assigning and dropping what a name, an attribute or an index denotes.
-/

namespace Strand.Codegen

variable (node : NodeCompiler)

/-! ## Reading -/

/-- The value of a name. A macro is laid down as the tree it stands for. -/
def compileVariable (name : String) (span : Span) : Build Ty := do
  match ← resolveName name with
  | some (.inline value) => node value .value
  | some (.slot slot ty _) =>
    emit (.getLocal slot) span.line
    pure ty
  | some (.captured c) =>
    emit (.getUpvalue c.index) span.line
    pure c.ty
  | some (.global ty _) =>
    let index ← nameConstant name span
    emit (.getGlobal index) span.line
    pure ty
  | some (.ofReceiver ty) =>
    let _ ← emitReceiver span.line
    let index ← nameConstant name span
    emit (.getAttr index) span.line
    pure ty
  | none =>
    report (.undefinedVariable name) span
    emit .pushNull span.line
    pure .any

def compileThis (span : Span) : Build Ty := do
  match ← emitReceiver span.line with
  | some ty => pure ty
  | none =>
    report .thisOutsideMethod span
    emit .pushNull span.line
    pure .any

/-- Report the use of a private member outside the class that has it. -/
def checkPrivate (c : ClassRef) (name : String) (span : Span) : Build Unit := do
  let s ← get
  match s.decls.privateOwner? c name with
  | some owner => if s.isInside owner then pure () else report (.privateAttribute c.name name) span
  | none => pure ()

/-- The type of `object.name`. Members that are not there or are private are reported. -/
def attributeType (object : Ty) (name : String) (span : Span) : Build Ty := do
  let missing := fun typeName => do
    report (.noSuchAttribute typeName name) span
    pure Ty.any
  let d := (← get).decls
  match object with
  | .inst c args =>
    match d.field? c name <|> d.staticField? c name with
    | some ty =>
      checkPrivate c name span
      pure (ty.substitute (c.bindGenerics args))
    | none => missing object.text
  | .classObject c =>
    match d.staticField? c name with
    | some ty =>
      checkPrivate c name span
      pure ty
    | none => missing c.name
  | .enumObject e =>
    match d.variant? e name with
    | some v => pure (.variant v)
    | none => missing e.name
  | .variant v =>
    match v.field? name with
    | some ty => pure ty
    | none => missing object.text
  | _ => pure .any

def compileMember (object : Expr) (name : String) (span : Span) : Build Ty := do
  let objectTy ← node object .value
  let ty ← attributeType objectTy name span
  let index ← nameConstant name span
  emit (.getAttr index) span.line
  pure ty

/-- The type of an element. That of a tuple is known when the index is a literal. -/
def elementType (object : Ty) (index : ExprKind) : Ty :=
  match object, index with
  | .prim .str, _ => .str
  | .prim .bytes, _ => .prim .u8
  | .tuple items, .int i => if 0 ≤ i then items[i.toInt.toNat]?.getD .any else .any
  | _, _ => .any

def compileIndex (object index : Expr) : Build Ty := do
  let objectTy ← node object .value
  let _ ← node index .value
  emit .getIndex index.span.line
  pure (elementType objectTy index.kind)

/-! ## Assigning -/

/-- Assign to a name. The value of an assignment is the value assigned. -/
def compileAssignName (isWeak : Bool) (name : String) (target : Span) (value : Expr)
    (span : Span) : Build Ty := do
  let line := span.line
  let constant := fun isConst : Bool => do
    if isConst then report (.assignToConstant name) target
  let check := fun ty declared : Ty => do
    if !isWeak then checkAssignable ty declared value.span
  match ← resolveName name with
  | some (.slot slot declared isConst) =>
    constant isConst
    let ty ← node value .value
    check ty declared
    emit (.setLocal slot) line
    pure ty
  | some (.captured c) =>
    constant c.isConst
    let ty ← node value .value
    check ty c.ty
    emit (.setUpvalue c.index) line
    pure ty
  | some (.global declared isConst) =>
    constant isConst
    let ty ← node value .value
    check ty declared
    let index ← nameConstant name span
    emit (.setGlobal index) line
    pure ty
  | some (.ofReceiver declared) =>
    let index ← nameConstant name span
    let ty ←
      if isWeak then do
        let ty ← node value .value
        let _ ← emitReceiver line
        emit .swap line
        pure ty
      else do
        let _ ← emitReceiver line
        let ty ← node value .value
        checkAssignable ty declared value.span
        pure ty
    emit (.setAttr index) line
    pure ty
  | some (.inline _) =>
    report .invalidAssignmentTarget target
    node value .value
  | none =>
    report (.undefinedVariable name) target
    node value .value

/-- Assign to an attribute. A weak assignment evaluates the value first. -/
def compileAssignMember (isWeak : Bool) (object : Expr) (name : String) (target : Span)
    (value : Expr) (span : Span) : Build Ty := do
  let index ← nameConstant name span
  let ty ←
    if isWeak then do
      let ty ← node value .value
      let _ ← node object .value
      emit .swap span.line
      pure ty
    else do
      let objectTy ← node object .value
      let declared ← attributeType objectTy name target
      let ty ← node value .value
      checkAssignable ty declared value.span
      pure ty
  emit (.setAttr index) span.line
  pure ty

def compileAssignIndex (object index value : Expr) (span : Span) : Build Ty := do
  let _ ← node object .value
  let _ ← node index .value
  let ty ← node value .value
  emit .setIndex span.line
  pure ty

def compileAssign (isWeak : Bool) (target value : Expr) (span : Span) : Build Ty := do
  match target.kind with
  | .var name => compileAssignName node isWeak name target.span value span
  | .member object name => compileAssignMember node isWeak object name target.span value span
  | .index object index => compileAssignIndex node object index value span
  | _ =>
    report .invalidAssignmentTarget target.span
    node value .value

/-! ## Dropping -/

/-- Give up what a name denotes. A local keeps its slot, a macro is forgotten. -/
def compileDropName (name : String) (target span : Span) : Build Unit := do
  let line := span.line
  match ← resolveName name with
  | some (.slot slot _ _) =>
    emit (.dropLocal slot) line
    modifyFrame fun f => f.dropSlot slot
  | some (.captured c) => emit (.dropUpvalue c.index) line
  | some (.global _ _) =>
    let index ← nameConstant name span
    emit (.dropGlobal index) line
    modifyFrame fun f => { f with globals := f.globals.erase name }
  | some (.ofReceiver _) =>
    let _ ← emitReceiver line
    let index ← nameConstant name span
    emit (.dropAttr index) line
  | some (.inline _) => dropInline name
  | none => report (.undefinedVariable name) target

def compileDrop (target : Expr) (span : Span) : Build Unit := do
  match target.kind with
  | .var name => compileDropName name target.span span
  | .member object name =>
    let _ ← node object .value
    let index ← nameConstant name span
    emit (.dropAttr index) span.line
  | _ => report .invalidAssignmentTarget target.span

end Strand.Codegen
