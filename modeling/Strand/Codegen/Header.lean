import Strand.Codegen.State

/-!
# Module headers and type names

A `use` header records something about the module and leaves an instruction that
tells the machine. Headers stand at the top level of a module only.
-/

namespace Strand.Codegen

def modifyManifest (g : Manifest → Manifest) : Build Unit :=
  modifyFrame fun f => { f with manifest := g f.manifest }

/-- Leave the instruction of a header whose argument is a constant. -/
def emitDirective (directive : Directive) (argument : Constant) (span : Span) : Build Unit := do
  let index ← addConstant argument span
  emit (.directive directive index) span.line

/-- What a header says, with the arguments it takes. -/
def compileHeader (decl : UseDecl) : Build Unit := do
  let wrongArity := fun expected =>
    report (.directiveArity decl.name expected decl.args.length) decl.span
  match decl.name, decl.args with
  | "optimize", [] =>
    modifyManifest fun m => { m with optimize := true }
    emit (.directive .optimize 0) decl.span.line
  | "optimize", _ => wrongArity (.exactly 0)
  | "func", [entry] | "main", [entry] =>
    emitDirective .entry (.str entry) decl.span
    modifyManifest fun m => { m with entryPoint := some entry }
  | "func", _ | "main", _ => wrongArity (.exactly 1)
  | "export", [] => wrongArity (.atLeast 1)
  | "export", names =>
    emitDirective .exports (.names names) decl.span
    modifyManifest fun m => { m with exports := m.exports ++ names }
  | "package", [] => wrongArity (.atLeast 1)
  | "package", parts =>
    let package := ".".intercalate parts
    emitDirective .package (.str package) decl.span
    modifyManifest fun m => { m with package := some package }
  | "exportTo", [target] =>
    emitDirective .exportTo (.str target) decl.span
    modifyManifest fun m => { m with exportTarget := some target }
  | "exportTo", _ => wrongArity (.exactly 1)
  | name, _ => report (.unknownDirective name) decl.span

def compileUse (decl : UseDecl) : Build Unit := do
  if (← get).frame.isModuleLevel then
    compileHeader decl
  else
    report (.misplacedDirective decl.name) decl.span

/-- Why the right side of a typedef is no type. -/
def typedefReason (tokens : List TypeExpr.Token) (fault : TypeExpr.Fault) (span : Span) :
    String :=
  match fault with
  | .unknownType name => "unknown type " ++ Cause.quoted name
  | other => Diagnostic.message { cause := Cause.ofTypeFault tokens other, span }

/-- Give a type a name. -/
def compileTypedef (name : String) (tokens : List TypeExpr.Token) (span : Span) :
    Build Unit := do
  match TypeExpr.parse (← get).findType? tokens with
  | .ok ty => modifyFrame fun f => { f with types := f.types.define name ty }
  | .error fault => report (.unknownTypedef name (typedefReason tokens fault span)) span

end Strand.Codegen
