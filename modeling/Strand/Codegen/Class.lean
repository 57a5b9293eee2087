import Strand.Codegen.Access
import Strand.Codegen.Function

/-!
# Classes and enums

The types of all members are entered before any code is laid down, so that the body
of a method sees the whole class. The class instruction takes the parent, the values
of the members from the last declared to the first, the constructor and the names of
the generic parameters.
-/

namespace Strand.Codegen

/-! ## Members -/

def memberDescriptor : MemberDecl → MemberDescriptor
  | .field f =>
    { name := f.name, kind := .field, isStatic := f.isStatic, isPrivate := f.isPrivate
      isOperator := false }
  | .method m =>
    { name := m.function.name, kind := .method, isStatic := m.isStatic
      isPrivate := m.isPrivate, isOperator := m.isOperator }

def classDescriptor (decl : ClassDecl) : ClassDescriptor :=
  { name := decl.name
    hasParent := decl.parent.isSome
    hasConstructor := decl.constructor.isSome
    members := decl.members.map memberDescriptor
    generics := decl.generics }

/-- A member with the signature of its function, if it is a method. -/
inductive TypedMember where
  | field (decl : FieldDecl)
  | method (decl : MethodDecl) (sig : Signature)

/-- The signature of a function, with its own generic parameters in scope. -/
def methodSignature (decl : FunctionDecl) : Build Signature :=
  withPlaceholders decl.generics (functionSignature decl)

/-- Enter the type of a member. -/
def declareMember (c : ClassRef) : MemberDecl → Build TypedMember
  | .field f => do
    let ty ← annotatedType f.typeExpr f.span
    modifyDecls fun d => d.addField c f.name ty f.isStatic f.isPrivate
    pure (.field f)
  | .method m => do
    let sig ← methodSignature m.function
    modifyDecls fun d => d.addField c m.function.name (.fn sig) m.isStatic m.isPrivate
    if m.isOperator then modifyDecls fun d => d.addOperator c m.function.name sig
    pure (.method m sig)

/-- Enter the types of all members and of the constructor, whose result is an instance. -/
def declareMembers (decl : ClassDecl) (c : ClassRef) : Build (List TypedMember) := do
  let members ← decl.members.mapM (declareMember c)
  match decl.constructor with
  | some ctor =>
    let sig ← methodSignature ctor
    modifyDecls fun d => d.setConstructor c { sig with result := c.selfInstance }
  | none => pure ()
  pure members

/-- The class another one extends. -/
def resolveParent (name : String) (span : Span) : Build (Option ClassRef) := do
  match (← get).findType? name with
  | some (.classObject c) => pure (some c)
  | some other =>
    report (.typeMismatch "class" other.text) span
    pure none
  | none =>
    report (.unknownType name) span
    pure none

/-! ## Classes -/

variable (node : NodeCompiler)

/-- Push the value of a field. A field without an annotation gets the type of its
value, which members declared before it can rely on. -/
def compileField (c : ClassRef) (f : FieldDecl) : Build Unit := do
  match f.initializer with
  | none => emit .pushNull f.span.line
  | some e =>
    let ty ← node e .value
    match f.typeExpr with
    | some _ =>
      let d := (← get).decls
      let declared := if f.isStatic then d.staticField? c f.name else d.field? c f.name
      checkAssignable ty (declared.getD .any) e.span
    | none => modifyDecls fun d => d.addField c f.name ty f.isStatic f.isPrivate

/-- Push the value of a member. -/
def compileMemberValue (c : ClassRef) : TypedMember → Build Unit
  | .field f => compileField node c f
  | .method m sig =>
    withPlaceholders m.function.generics
      (emitFunction node m.function (if m.isStatic then .function else .method) sig (some c))

/-- Push the constructor, or null when the class declares none. -/
def compileConstructor (c : ClassRef) (ctor : Option FunctionDecl) (line : UInt64) :
    Build Unit := do
  match ctor, (← get).decls.constructor? c with
  | some decl, some sig => emitFunction node decl .constructor sig (some c)
  | _, _ => emit .pushNull line

/-- Push the class that another one extends, and say how many values that makes. -/
def compileParent (parent : Option String) (span : Span) : Build Nat := do
  match parent with
  | some name =>
    let _ ← compileVariable node name span
    pure 1
  | none => pure 0

/-- Push a value for every item, and count them on from `consumed`. -/
def pushCounted {α : Type} (push : α → Build Unit) (items : List α) (consumed : Nat) : Build Nat :=
  items.foldlM (fun n item => do
    push item
    pure (n + 1)) consumed

/-- Build a class from what it is made of. The values are counted as they are pushed, and so
many the class instruction takes. -/
def compileClassValue (decl : ClassDecl) (c : ClassRef) : Build Unit :=
  withPlaceholders decl.generics do
    let line := decl.span.line
    let members ← declareMembers decl c
    let consumed ← compileParent node decl.parent decl.span
    let consumed ← pushCounted (compileMemberValue node c) members.reverse consumed
    compileConstructor node c decl.constructor line
    let consumed ← pushCounted (fun g => emitConstant (.str g) decl.span) decl.generics (consumed + 1)
    let index ← addConstant (.classType (classDescriptor decl)) decl.span
    let operand ← countOperand consumed decl.span
    emit (.makeClass index operand) line

/-- Declare a class, without members so far. -/
def enterClass (decl : ClassDecl) (parent : Option ClassRef) : Build ClassRef :=
  modifyGet fun s =>
    let (c, decls) := s.decls.declareClass decl.name parent decl.generics
    (c, { s with decls })

def compileClass (decl : ClassDecl) : Build Unit := do
  let place ← reservePlace decl.name .any true decl.span
  let parent ←
    match decl.parent with
    | some name => resolveParent name decl.span
    | none => pure none
  let c ← enterClass decl parent
  modifyFrame fun f => { f with types := f.types.define decl.name (.classObject c) }
  place.retype decl.name (.classObject c)
  compileClassValue node decl c
  place.store decl.span.line

/-! ## Enums -/

/-- Declare an enum, without variants so far. -/
def enterEnum (name : String) : Build EnumRef :=
  modifyGet fun s =>
    let (e, decls) := s.decls.declareEnum name
    (e, { s with decls })

/-- Enter the variant with this ordinal. -/
def declareVariant (e : EnumRef) (decl : VariantDecl) (ordinal : Nat) : Build Unit := do
  let fieldTypes ←
    withPlaceholders decl.generics
      (decl.fields.mapM fun f => resolveType f.typeExpr decl.span)
  modifyDecls fun d => d.addVariant e
    { enumName := e.name, name := decl.name, ordinal, generics := decl.generics
      fieldNames := decl.fields.map VariantField.name, fieldTypes }

def enumDescriptor (decl : EnumDecl) : EnumDescriptor :=
  { name := decl.name
    variants := decl.variants.map fun v =>
      { name := v.name, params := v.fields.map VariantField.name } }

/-- Make a variant of a public enum a global of its own. -/
def publishVariant (e : EnumRef) (place : Place) (line : UInt64) (v : VariantDecl) :
    Build Unit := do
  place.load line
  let index ← nameConstant v.name v.span
  emit (.getAttr index) line
  emit (.defineGlobal index) line
  let ty :=
    match (← get).decls.variant? e v.name with
    | some variant => .variant variant
    | none => .any
  defineGlobal v.name ty true

def compileEnum (decl : EnumDecl) : Build Unit := do
  let line := decl.span.line
  let place ← reservePlace decl.name .any true decl.span
  let e ← enterEnum decl.name
  modifyFrame fun f => { f with types := f.types.define decl.name (.enumObject e) }
  place.retype decl.name (.enumObject e)
  decl.variants.zipIdx.forM fun (v, ordinal) => declareVariant e v ordinal
  let index ← addConstant (.enumType (enumDescriptor decl)) decl.span
  emit (.makeEnum index) line
  place.store line
  if decl.isPublic then decl.variants.forM (publishVariant e place line)

end Strand.Codegen
