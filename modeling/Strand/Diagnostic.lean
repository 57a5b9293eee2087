import Strand.Arity
import Strand.Span
import Strand.TypeExpr.Grammar

/-!
# Diagnostics

A diagnostic is a cause and the place it was found at. Compilation goes on after one,
and a program that got any is not handed out.
-/

namespace Strand

/-- The groups diagnostics fall into. -/
inductive DiagnosticKind where
  | scope | type | member | call | decorator | pattern | typedef | directive
  | controlFlow | limit
deriving DecidableEq, Inhabited

namespace DiagnosticKind

def all : List DiagnosticKind :=
  [.scope, .type, .member, .call, .decorator, .pattern, .typedef, .directive,
   .controlFlow, .limit]

end DiagnosticKind

/-- What is wrong. Types are given by the text a message shows. -/
inductive Cause where
  | undefinedVariable (name : String)
  | redeclaration (name : String)
  | assignToConstant (name : String)
  | invalidAssignmentTarget
  | thisOutsideMethod
  | typeMismatch (expected found : String)
  | incompatibleOperands (op left right : String)
  | unknownType (name : String)
  | invalidTypeForm (text : String) (fault : TypeExpr.FormFault)
  | genericArity (name : String) (expected found : Nat)
  | noSuchAttribute (typeName name : String)
  | privateAttribute (typeName name : String)
  | wrongArity (expected : Arity) (got : Nat)
  | notCallable (typeName : String)
  | requiredAfterDefault (name : String)
  | decoratorNotCallable (typeName : String)
  | decoratorTarget
  | decoratorResult (name expected found : String)
  | patternTarget (typeName : String)
  | patternAttribute (typeName name : String)
  | patternArity (variant : String) (expected found : Nat)
  | unknownTypedef (name reason : String)
  | unknownDirective (name : String)
  | directiveArity (name : String) (expected : Arity) (got : Nat)
  | misplacedDirective (name : String)
  | breakOutsideLoop
  | continueOutsideLoop
  | nestingTooDeep (limit : Nat)
  | tooManyConstants
  | tooManyLocals
  | jumpTooLarge
deriving DecidableEq, Inhabited

namespace Cause

def kind : Cause → DiagnosticKind
  | .undefinedVariable _ | .redeclaration _ | .assignToConstant _
  | .invalidAssignmentTarget | .thisOutsideMethod => .scope
  | .typeMismatch _ _ | .incompatibleOperands _ _ _ | .unknownType _
  | .invalidTypeForm _ _ => .type
  | .noSuchAttribute _ _ | .privateAttribute _ _ => .member
  | .genericArity _ _ _ | .wrongArity _ _ | .notCallable _ | .requiredAfterDefault _ => .call
  | .decoratorNotCallable _ | .decoratorTarget | .decoratorResult _ _ _ => .decorator
  | .patternTarget _ | .patternAttribute _ _ | .patternArity _ _ _ => .pattern
  | .unknownTypedef _ _ => .typedef
  | .unknownDirective _ | .directiveArity _ _ _ | .misplacedDirective _ => .directive
  | .breakOutsideLoop | .continueOutsideLoop => .controlFlow
  | .nestingTooDeep _ | .tooManyConstants | .tooManyLocals | .jumpTooLarge => .limit

/-- A name in quotes. -/
def quoted (name : String) : String := "'" ++ name ++ "'"

/-- The message without the place. -/
def text : Cause → String
  | .undefinedVariable name => "Undefined variable " ++ quoted name
  | .redeclaration name => "Variable " ++ quoted name ++ " already declared in this scope"
  | .assignToConstant name => "Cannot assign to constant " ++ quoted name
  | .invalidAssignmentTarget => "Invalid assignment target"
  | .thisOutsideMethod => "Cannot use 'this' outside of a method"
  | .typeMismatch expected found =>
    "Type mismatch: expected " ++ expected ++ ", found " ++ found
  | .incompatibleOperands op left right =>
    "Operator " ++ quoted op ++ " cannot be applied to " ++ left ++ " and " ++ right
  | .unknownType name => "Unknown type " ++ quoted name
  | .invalidTypeForm shown fault =>
    "Invalid type annotation " ++ quoted shown ++ ": " ++ fault.text
  | .genericArity name expected found =>
    "Type " ++ quoted name ++ " expects " ++ toString expected
      ++ " generic argument(s), found " ++ toString found
  | .noSuchAttribute typeName name =>
    "Type " ++ quoted typeName ++ " has no attribute " ++ quoted name
  | .privateAttribute typeName name =>
    "Attribute " ++ quoted name ++ " of " ++ quoted typeName ++ " is private"
  | .wrongArity expected got =>
    "Wrong number of arguments: expected " ++ expected.text ++ ", got " ++ toString got
  | .notCallable typeName => "Cannot call a value of type " ++ quoted typeName
  | .requiredAfterDefault name =>
    "Required parameter " ++ quoted name ++ " follows a parameter with a default"
  | .decoratorNotCallable typeName =>
    "Decorator must be a function, found " ++ quoted typeName
  | .decoratorTarget => "Only inline function declarations can be decorated"
  | .decoratorResult name expected found =>
    "Decorator returns " ++ quoted found ++ " but " ++ quoted name ++ " has type "
      ++ quoted expected
  | .patternTarget typeName =>
    "Match target " ++ quoted typeName ++ " is not a class or enum variant"
  | .patternAttribute typeName name =>
    quoted typeName ++ " has no attribute " ++ quoted name ++ " to destructure"
  | .patternArity variant expected found =>
    "Variant " ++ quoted variant ++ " has " ++ toString expected
      ++ " field(s), pattern binds " ++ toString found
  | .unknownTypedef name reason =>
    "Typedef " ++ quoted name ++ " refers to an unknown type (" ++ reason ++ ")"
  | .unknownDirective name => "Unknown directive 'use " ++ name ++ "'"
  | .directiveArity name expected got =>
    "Directive 'use " ++ name ++ "' expects " ++ expected.text ++ " argument(s), got "
      ++ toString got
  | .misplacedDirective name =>
    "Directive 'use " ++ name ++ "' is only allowed at module top level"
  | .breakOutsideLoop => "'break' outside of a loop"
  | .continueOutsideLoop => "'continue' outside of a loop"
  | .nestingTooDeep limit => "Nesting deeper than " ++ toString limit ++ " levels"
  | .tooManyConstants => "Too many constants in one function unit"
  | .tooManyLocals => "Too many local variables in one function unit"
  | .jumpTooLarge => "Jump distance too large"

/-- A fault in an annotation as a cause; the message shows the whole annotation. -/
def ofTypeFault (tokens : List TypeExpr.Token) : TypeExpr.Fault → Cause
  | .form fault => .invalidTypeForm (TypeExpr.render tokens) fault
  | .unknownType name => .unknownType name
  | .genericArity name expected found => .genericArity name expected found

end Cause

/-- A cause and where it was found. -/
structure Diagnostic where
  cause : Cause
  span : Span
deriving DecidableEq, Inhabited

namespace Diagnostic

def kind (d : Diagnostic) : DiagnosticKind := d.cause.kind

def message (d : Diagnostic) : String := d.cause.text ++ " at " ++ d.span.text

end Diagnostic

/-- The diagnostics of a compilation that failed. -/
structure CompileFailure where
  diagnostics : List Diagnostic

namespace CompileFailure

/-- How many there are, and the first. -/
def message (f : CompileFailure) : String :=
  let first := match f.diagnostics.head? with
    | some d => d.message
    | none => "none"
  "compilation failed with " ++ toString f.diagnostics.length ++ " error(s); first: " ++ first

def hasKind (f : CompileFailure) (k : DiagnosticKind) : Bool :=
  f.diagnostics.any fun d => d.kind == k

/-- The kinds that occur. -/
def kinds (f : CompileFailure) : List DiagnosticKind := DiagnosticKind.all.filter f.hasKind

end CompileFailure

end Strand
