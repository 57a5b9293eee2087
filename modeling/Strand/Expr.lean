import Strand.TypeExpr.Token
import Strand.Operator
import Strand.Span

/-!
# Program trees

A program is a list of expressions: declarations, loops and control transfer are
expressions too, and every one of them can stand where a value is wanted. Each node
carries the span it was read from.
-/

namespace Strand

open TypeExpr (Token)

/-! ## Declarations that hold no expressions -/

structure VariantField where
  name : String
  typeExpr : List Token

structure VariantDecl where
  name : String
  generics : List String
  fields : List VariantField
  span : Span

structure EnumDecl where
  name : String
  variants : List VariantDecl
  /-- The variants of a public enum become globals of their own. -/
  isPublic : Bool
  span : Span

/-- A header such as `use export(a, b)`. -/
structure UseDecl where
  name : String
  args : List String
  span : Span

/-! ## Expressions -/

mutual

/-- A node of a program tree. -/
structure Expr where
  kind : ExprKind
  span : Span

inductive ExprKind where
  | int (value : Int64)
  /-- A float literal, as the bit pattern of its value. -/
  | float (bits : UInt64)
  | str (value : String)
  | bool (value : Bool)
  | null
  | interpolated (parts : List TextPart)
  | array (items : List Expr)
  | map (pairs : List (Expr × Expr))
  | tuple (items : List Expr)
  | var (name : String)
  /-- A weak assignment is not checked against the declared type. -/
  | assign (isWeak : Bool) (target value : Expr)
  | member (object : Expr) (name : String)
  | index (object index : Expr)
  | this
  | drop (target : Expr)
  | binary (left : Expr) (op : BinaryOp) (right : Expr)
  | logical (left : Expr) (op : LogicalOp) (right : Expr)
  | unary (op : UnaryOp) (operand : Expr)
  | reference (target : Expr)
  | deref (target : Expr)
  | call (callee : Expr) (args : List Argument)
  | lambda (decl : FunctionDecl)
  | cond (branches : List Branch) (otherwise : Option (List Expr))
  | ternary (condition thenValue elseValue : Expr)
  | whileLoop (condition : Expr) (body : List Expr)
  | doWhile (body : List Expr) (condition : Expr)
  | rangeFor (variableName : String) (typeExpr : Option (List Token)) (first last : Expr)
      (step : Option Expr) (body : List Expr)
  | forEach (variableName : String) (iterable : Expr) (body : List Expr)
  | breakLoop
  | continueLoop
  | ret (value : Option Expr)
  | switch (subject : Expr) (cases : List SwitchCase) (otherwise : Option (List Expr))
  | patternMatch (subject : Expr) (arms : List Arm) (otherwise : Option (List Expr))
  | scope (body : List Expr)
  | letDecl (name : String) (typeExpr : Option (List Token)) (value : Option Expr)
      (isConst : Bool)
  /-- A macro: its name stands for the tree itself wherever it is used. -/
  | inlineDecl (name : String) (value : Expr)
  | functionDecl (decl : FunctionDecl)
  | decorated (decorator target : Expr)
  | classDecl (decl : ClassDecl)
  | enumDecl (decl : EnumDecl)
  | typedef (name : String) (tokens : List Token)
  | use (decl : UseDecl)
  | throw (value : Expr)
  | assert (condition : Expr) (message : Option Expr)

/-- A part of an interpolated string. -/
inductive TextPart where
  | literal (value : String)
  | expr (value : Expr)

inductive Argument where
  | positional (value : Expr)
  | keyword (name : String) (value : Expr)

/-- One condition of an `if` chain with its body. -/
structure Branch where
  condition : Expr
  body : List Expr

structure SwitchCase where
  values : List Expr
  body : List Expr

inductive Pattern where
  /-- Compared with the subject, unless it is a name that denotes nothing: such a name
  is bound to the subject. -/
  | value (expr : Expr)
  | destructure (target : Expr) (binders : List String)
  | wildcard

structure Arm where
  pattern : Pattern
  guard : Option Expr
  body : List Expr
  span : Span

structure Param where
  name : String
  typeExpr : Option (List Token)
  default : Option Expr
  span : Span

structure FunctionDecl where
  name : String
  generics : List String
  params : List Param
  /-- The parameter that takes the remaining positional arguments. -/
  varargs : Option Param
  /-- The parameter that takes the remaining keyword arguments. -/
  kwargs : Option String
  returnType : Option (List Token)
  body : List Expr
  isAsync : Bool
  catchesResult : Bool
  span : Span

structure FieldDecl where
  name : String
  typeExpr : Option (List Token)
  initializer : Option Expr
  isStatic : Bool
  isPrivate : Bool
  span : Span

structure MethodDecl where
  function : FunctionDecl
  isStatic : Bool
  isPrivate : Bool
  isOperator : Bool

inductive MemberDecl where
  | field (decl : FieldDecl)
  | method (decl : MethodDecl)

structure ClassDecl where
  name : String
  generics : List String
  parent : Option String
  members : List MemberDecl
  constructor : Option FunctionDecl
  span : Span

end

instance : Inhabited Expr := ⟨⟨.null, .zero⟩⟩

/-- Control never reaches the end of these. -/
def Expr.diverges (e : Expr) : Bool :=
  match e.kind with
  | .breakLoop | .continueLoop | .ret _ | .throw _ => true
  | _ => false

/-- The name a module-level declaration introduces before it is reached. A decorator
may stand before a function only. -/
def Expr.hoistedName? (e : Expr) : Option String :=
  match e.kind with
  | .functionDecl decl => some decl.name
  | .classDecl decl => some decl.name
  | .enumDecl decl => some decl.name
  | .decorated _ target =>
    match target.kind with
    | .functionDecl decl => some decl.name
    | _ => none
  | _ => none

/-- A whole program. -/
structure Program where
  body : List Expr

end Strand
