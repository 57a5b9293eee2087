import Strand.Expr
import Strand.Json.Reader
import Strand.Options

/-!
# Reading programs and options from JSON

Nodes are tagged choices inside records. Every reader of a container takes one unit
from a budget of nesting and hands what is left to the readers inside, so the budget
bounds how deeply the containers that are actually read may nest. Containers inside
ignored fields are not counted.
-/

namespace Strand

open TypeExpr (Token)

/-- How deeply containers may nest in a text. A tree that is already in memory may
nest as deeply as it likes. -/
def textNesting : Nat := 127

def Span.read (depth : Nat) (j : Json) : Option Span := do
  if depth = 0 then none
  let f ← j.fields? ["start", "end", "line", "column"]
  let start ← f.required "start" Json.uint64?
  let stop ← f.required "end" Json.uint64?
  let line ← f.required "line" Json.uint64?
  let column ← f.required "column" Json.uint64?
  pure { start, stop, line, column }

namespace Json

/-- A list of `α`, which takes one level itself. -/
def listWithin {α : Type} (depth : Nat) (read : Json → Option α) (j : Json) : Option (List α) :=
  if depth = 0 then none else j.list? read

/-- A choice that carries nothing; as an object it takes one level. -/
def tagWithin (depth : Nat) (j : Json) : Option String :=
  match j with
  | .string s => some s
  | _ => if depth = 0 then none else j.bareTag?

end Json

def TypeExpr.Token.ofTag? : String → Option Token
  | "LParen" => some .lparen
  | "RParen" => some .rparen
  | "LBracket" => some .lbracket
  | "RBracket" => some .rbracket
  | "LAngle" => some .langle
  | "RAngle" => some .rangle
  | "Comma" => some .comma
  | "Star" => some .star
  | "Question" => some .question
  | _ => none

def TypeExpr.Token.read (depth : Nat) (j : Json) : Option Token :=
  match j with
  | .object [("Name", s)] => if depth = 0 then none else s.string?.map .name
  | _ => (j.tagWithin depth).bind Token.ofTag?

/-- A type annotation. -/
def readTokens (depth : Nat) (j : Json) : Option (List Token) :=
  j.listWithin depth (Token.read (depth - 1))

def readNames (depth : Nat) (j : Json) : Option (List String) :=
  j.listWithin depth Json.string?

def VariantField.read (depth : Nat) (j : Json) : Option VariantField := do
  if depth = 0 then none
  let f ← j.fields? ["name", "type_annotation"]
  let name ← f.required "name" Json.string?
  let typeExpr ← f.required "type_annotation" (readTokens (depth - 1))
  pure { name, typeExpr }

def VariantDecl.read (depth : Nat) (j : Json) : Option VariantDecl := do
  if depth = 0 then none
  let f ← j.fields? ["name", "generics", "fields", "span"]
  let name ← f.required "name" Json.string?
  let generics ← f.withDefault "generics" [] (readNames (depth - 1))
  let fields ← f.withDefault "fields" []
    (Json.listWithin (depth - 1) (VariantField.read (depth - 2)))
  let span ← f.withDefault "span" .zero (Span.read (depth - 1))
  pure { name, generics, fields, span }

def EnumDecl.read (depth : Nat) (j : Json) : Option EnumDecl := do
  if depth = 0 then none
  let f ← j.fields? ["name", "variants", "is_public", "span"]
  let name ← f.required "name" Json.string?
  let variants ← f.required "variants"
    (Json.listWithin (depth - 1) (VariantDecl.read (depth - 2)))
  let isPublic ← f.withDefault "is_public" false Json.bool?
  let span ← f.withDefault "span" .zero (Span.read (depth - 1))
  pure { name, variants, isPublic, span }

def UseDecl.read (depth : Nat) (j : Json) : Option UseDecl := do
  if depth = 0 then none
  let f ← j.fields? ["name", "args", "span"]
  let name ← f.required "name" Json.string?
  let args ← f.withDefault "args" [] (readNames (depth - 1))
  let span ← f.withDefault "span" .zero (Span.read (depth - 1))
  pure { name, args, span }

def BinaryOp.read (depth : Nat) (j : Json) : Option BinaryOp :=
  (j.tagWithin depth).bind BinaryOp.ofName?

def LogicalOp.read (depth : Nat) (j : Json) : Option LogicalOp :=
  (j.tagWithin depth).bind LogicalOp.ofName?

def UnaryOp.read (depth : Nat) (j : Json) : Option UnaryOp :=
  (j.tagWithin depth).bind UnaryOp.ofName?

/-- The kinds that carry nothing. -/
def ExprKind.ofTag? : String → Option ExprKind
  | "Null" => some .null
  | "This" => some .this
  | "Break" => some .breakLoop
  | "Continue" => some .continueLoop
  | _ => none

mutual

def Expr.read : Nat → Json → Option Expr
  | 0, _ => none
  | depth + 1, j => do
    let f ← j.fields? ["kind", "span"]
    let kind ← f.required "kind" (ExprKind.read depth)
    let span ← f.withDefault "span" .zero (Span.read depth)
    pure { kind, span }

def Expr.readList : Nat → Json → Option (List Expr)
  | 0, _ => none
  | depth + 1, j => j.list? (Expr.read depth)

def ExprKind.read : Nat → Json → Option ExprKind
  | _, .string tag => ExprKind.ofTag? tag
  | 0, _ => none
  | depth + 1, .object [(tag, j)] =>
    match tag with
    | "Int" => .int <$> j.int64?
    | "Float" => .float <$> j.binary64?
    | "Str" => .str <$> j.string?
    | "Bool" => .bool <$> j.bool?
    | "Variable" => .var <$> j.string?
    | "Interpolated" => .interpolated <$> TextPart.readList depth j
    | "Array" => .array <$> Expr.readList depth j
    | "Map" => .map <$> Expr.readPairs depth j
    | "Tuple" => .tuple <$> Expr.readList depth j
    | "Drop" => .drop <$> Expr.read depth j
    | "Reference" => .reference <$> Expr.read depth j
    | "Deref" => .deref <$> Expr.read depth j
    | "Throw" => .throw <$> Expr.read depth j
    | "Return" =>
      match j with
      | .null => some (.ret none)
      | _ => (fun e => .ret (some e)) <$> Expr.read depth j
    | "Lambda" => .lambda <$> FunctionDecl.read depth j
    | "Function" => .functionDecl <$> FunctionDecl.read depth j
    | "Scope" => .scope <$> Expr.readList depth j
    | "Class" => .classDecl <$> ClassDecl.read depth j
    | "Enum" => .enumDecl <$> EnumDecl.read depth j
    | "Use" => .use <$> UseDecl.read depth j
    | _ =>
      match ExprKind.ofTag? tag, j with
      | some kind, .null => some kind
      | some _, _ => none
      | none, _ => ExprKind.readRecord depth tag j
  | _ + 1, _ => none

/-- The kinds whose parts are named. -/
def ExprKind.readRecord : Nat → String → Json → Option ExprKind
  | 0, _, _ => none
  | depth + 1, tag, j =>
    match tag with
    | "Assign" => do
      let f ← j.fields? ["target", "value"]
      let target ← f.required "target" (Expr.read depth)
      let value ← f.required "value" (Expr.read depth)
      pure (.assign false target value)
    | "WeakAssign" => do
      let f ← j.fields? ["target", "value"]
      let target ← f.required "target" (Expr.read depth)
      let value ← f.required "value" (Expr.read depth)
      pure (.assign true target value)
    | "Member" => do
      let f ← j.fields? ["object", "name"]
      let object ← f.required "object" (Expr.read depth)
      let name ← f.required "name" Json.string?
      pure (.member object name)
    | "Index" => do
      let f ← j.fields? ["object", "index"]
      let object ← f.required "object" (Expr.read depth)
      let index ← f.required "index" (Expr.read depth)
      pure (.index object index)
    | "Binary" => do
      let f ← j.fields? ["left", "op", "right"]
      let left ← f.required "left" (Expr.read depth)
      let op ← f.required "op" (BinaryOp.read depth)
      let right ← f.required "right" (Expr.read depth)
      pure (.binary left op right)
    | "Logical" => do
      let f ← j.fields? ["left", "op", "right"]
      let left ← f.required "left" (Expr.read depth)
      let op ← f.required "op" (LogicalOp.read depth)
      let right ← f.required "right" (Expr.read depth)
      pure (.logical left op right)
    | "Unary" => do
      let f ← j.fields? ["op", "operand"]
      let op ← f.required "op" (UnaryOp.read depth)
      let operand ← f.required "operand" (Expr.read depth)
      pure (.unary op operand)
    | "Call" => do
      let f ← j.fields? ["callee", "args"]
      let callee ← f.required "callee" (Expr.read depth)
      let args ← f.required "args" (Argument.readList depth)
      pure (.call callee args)
    | "If" => do
      let f ← j.fields? ["branches", "else_branch"]
      let branches ← f.required "branches" (Branch.readList depth)
      let otherwise ← f.optional "else_branch" (Expr.readList depth)
      pure (.cond branches otherwise)
    | "Ternary" => do
      let f ← j.fields? ["condition", "then_value", "else_value"]
      let condition ← f.required "condition" (Expr.read depth)
      let thenValue ← f.required "then_value" (Expr.read depth)
      let elseValue ← f.required "else_value" (Expr.read depth)
      pure (.ternary condition thenValue elseValue)
    | "While" => do
      let f ← j.fields? ["condition", "body"]
      let condition ← f.required "condition" (Expr.read depth)
      let body ← f.required "body" (Expr.readList depth)
      pure (.whileLoop condition body)
    | "DoWhile" => do
      let f ← j.fields? ["body", "condition"]
      let body ← f.required "body" (Expr.readList depth)
      let condition ← f.required "condition" (Expr.read depth)
      pure (.doWhile body condition)
    | "RangeFor" => do
      let f ← j.fields? ["variable", "var_type", "start", "end", "step", "body"]
      let name ← f.required "variable" Json.string?
      let typeExpr ← f.optional "var_type" (readTokens depth)
      let first ← f.required "start" (Expr.read depth)
      let last ← f.required "end" (Expr.read depth)
      let step ← f.optional "step" (Expr.read depth)
      let body ← f.required "body" (Expr.readList depth)
      pure (.rangeFor name typeExpr first last step body)
    | "ForEach" => do
      let f ← j.fields? ["variable", "iterable", "body"]
      let name ← f.required "variable" Json.string?
      let iterable ← f.required "iterable" (Expr.read depth)
      let body ← f.required "body" (Expr.readList depth)
      pure (.forEach name iterable body)
    | "Switch" => do
      let f ← j.fields? ["subject", "cases", "default"]
      let subject ← f.required "subject" (Expr.read depth)
      let cases ← f.required "cases" (SwitchCase.readList depth)
      let otherwise ← f.optional "default" (Expr.readList depth)
      pure (.switch subject cases otherwise)
    | "Match" => do
      let f ← j.fields? ["subject", "arms", "default"]
      let subject ← f.required "subject" (Expr.read depth)
      let arms ← f.required "arms" (Arm.readList depth)
      let otherwise ← f.optional "default" (Expr.readList depth)
      pure (.patternMatch subject arms otherwise)
    | "Let" => do
      let f ← j.fields? ["name", "type_annotation", "value", "is_const"]
      let name ← f.required "name" Json.string?
      let typeExpr ← f.optional "type_annotation" (readTokens depth)
      let value ← f.optional "value" (Expr.read depth)
      let isConst ← f.required "is_const" Json.bool?
      pure (.letDecl name typeExpr value isConst)
    | "Macro" => do
      let f ← j.fields? ["name", "value"]
      let name ← f.required "name" Json.string?
      let value ← f.required "value" (Expr.read depth)
      pure (.inlineDecl name value)
    | "Decorated" => do
      let f ← j.fields? ["decorator", "target"]
      let decorator ← f.required "decorator" (Expr.read depth)
      let target ← f.required "target" (Expr.read depth)
      pure (.decorated decorator target)
    | "Typedef" => do
      let f ← j.fields? ["name", "tokens"]
      let name ← f.required "name" Json.string?
      let tokens ← f.required "tokens" (readTokens depth)
      pure (.typedef name tokens)
    | "Assert" => do
      let f ← j.fields? ["condition", "message"]
      let condition ← f.required "condition" (Expr.read depth)
      let message ← f.optional "message" (Expr.read depth)
      pure (.assert condition message)
    | _ => none

/-- A list of key and value pairs. -/
def Expr.readPairs : Nat → Json → Option (List (Expr × Expr))
  | 0, _ => none
  | depth + 1, j => j.list? (Expr.readPair depth)

def Expr.readPair : Nat → Json → Option (Expr × Expr)
  | depth + 1, .array [key, value] => do
    let key ← Expr.read depth key
    let value ← Expr.read depth value
    pure (key, value)
  | _, _ => none

def TextPart.readList : Nat → Json → Option (List TextPart)
  | 0, _ => none
  | depth + 1, j => j.list? (TextPart.read depth)

def TextPart.read : Nat → Json → Option TextPart
  | _ + 1, .object [("Literal", j)] => .literal <$> j.string?
  | depth + 1, .object [("Expr", j)] => .expr <$> Expr.read depth j
  | _, _ => none

def Argument.readList : Nat → Json → Option (List Argument)
  | 0, _ => none
  | depth + 1, j => j.list? (Argument.read depth)

def Argument.read : Nat → Json → Option Argument
  | depth + 1, .object [("Positional", j)] => .positional <$> Expr.read depth j
  | depth + 2, .object [("Keyword", j)] => do
    let f ← j.fields? ["name", "value"]
    let name ← f.required "name" Json.string?
    let value ← f.required "value" (Expr.read depth)
    pure (.keyword name value)
  | _, _ => none

def Branch.readList : Nat → Json → Option (List Branch)
  | 0, _ => none
  | depth + 1, j => j.list? (Branch.read depth)

def Branch.read : Nat → Json → Option Branch
  | 0, _ => none
  | depth + 1, j => do
    let f ← j.fields? ["condition", "body"]
    let condition ← f.required "condition" (Expr.read depth)
    let body ← f.required "body" (Expr.readList depth)
    pure { condition, body }

def SwitchCase.readList : Nat → Json → Option (List SwitchCase)
  | 0, _ => none
  | depth + 1, j => j.list? (SwitchCase.read depth)

def SwitchCase.read : Nat → Json → Option SwitchCase
  | 0, _ => none
  | depth + 1, j => do
    let f ← j.fields? ["values", "body"]
    let values ← f.required "values" (Expr.readList depth)
    let body ← f.required "body" (Expr.readList depth)
    pure { values, body }

def Arm.readList : Nat → Json → Option (List Arm)
  | 0, _ => none
  | depth + 1, j => j.list? (Arm.read depth)

def Arm.read : Nat → Json → Option Arm
  | 0, _ => none
  | depth + 1, j => do
    let f ← j.fields? ["pattern", "guard", "body", "span"]
    let pattern ← f.required "pattern" (Pattern.read depth)
    let guard ← f.optional "guard" (Expr.read depth)
    let body ← f.required "body" (Expr.readList depth)
    let span ← f.withDefault "span" .zero (Span.read depth)
    pure { pattern, guard, body, span }

def Pattern.read : Nat → Json → Option Pattern
  | _, .string "Wildcard" => some .wildcard
  | _ + 1, .object [("Wildcard", .null)] => some .wildcard
  | depth + 1, .object [("Value", j)] => .value <$> Expr.read depth j
  | depth + 2, .object [("Destructure", j)] => do
    let f ← j.fields? ["target", "binders"]
    let target ← f.required "target" (Expr.read depth)
    let binders ← f.required "binders" (readNames depth)
    pure (.destructure target binders)
  | _, _ => none

def Param.readList : Nat → Json → Option (List Param)
  | 0, _ => none
  | depth + 1, j => j.list? (Param.read depth)

def Param.read : Nat → Json → Option Param
  | 0, _ => none
  | depth + 1, j => do
    let f ← j.fields? ["name", "type_annotation", "default", "span"]
    let name ← f.required "name" Json.string?
    let typeExpr ← f.optional "type_annotation" (readTokens depth)
    let default ← f.optional "default" (Expr.read depth)
    let span ← f.withDefault "span" .zero (Span.read depth)
    pure { name, typeExpr, default, span }

def FunctionDecl.read : Nat → Json → Option FunctionDecl
  | 0, _ => none
  | depth + 1, j => do
    let f ← j.fields? ["name", "generics", "params", "varargs", "kwargs", "return_type", "body",
      "is_async", "catches_result", "span"]
    let name ← f.required "name" Json.string?
    let generics ← f.withDefault "generics" [] (readNames depth)
    let params ← f.withDefault "params" [] (Param.readList depth)
    let varargs ← f.optional "varargs" (Param.read depth)
    let kwargs ← f.optional "kwargs" Json.string?
    let returnType ← f.optional "return_type" (readTokens depth)
    let body ← f.required "body" (Expr.readList depth)
    let isAsync ← f.withDefault "is_async" false Json.bool?
    let catchesResult ← f.withDefault "catches_result" false Json.bool?
    let span ← f.withDefault "span" .zero (Span.read depth)
    pure
      { name, generics, params, varargs, kwargs, returnType, body, isAsync, catchesResult, span }

def MemberDecl.readList : Nat → Json → Option (List MemberDecl)
  | 0, _ => none
  | depth + 1, j => j.list? (MemberDecl.read depth)

def MemberDecl.read : Nat → Json → Option MemberDecl
  | depth + 2, .object [("Field", j)] => do
    let f ← j.fields? ["name", "type_annotation", "initializer", "is_static", "is_private", "span"]
    let name ← f.required "name" Json.string?
    let typeExpr ← f.optional "type_annotation" (readTokens depth)
    let initializer ← f.optional "initializer" (Expr.read depth)
    let isStatic ← f.withDefault "is_static" false Json.bool?
    let isPrivate ← f.withDefault "is_private" false Json.bool?
    let span ← f.withDefault "span" .zero (Span.read depth)
    pure (.field { name, typeExpr, initializer, isStatic, isPrivate, span })
  | depth + 2, .object [("Method", j)] => do
    let f ← j.fields? ["function", "is_static", "is_private", "is_operator"]
    let function ← f.required "function" (FunctionDecl.read depth)
    let isStatic ← f.withDefault "is_static" false Json.bool?
    let isPrivate ← f.withDefault "is_private" false Json.bool?
    let isOperator ← f.withDefault "is_operator" false Json.bool?
    pure (.method { function, isStatic, isPrivate, isOperator })
  | _, _ => none

def ClassDecl.read : Nat → Json → Option ClassDecl
  | 0, _ => none
  | depth + 1, j => do
    let f ← j.fields? ["name", "generics", "parent", "members", "constructor", "span"]
    let name ← f.required "name" Json.string?
    let generics ← f.withDefault "generics" [] (readNames depth)
    let parent ← f.optional "parent" Json.string?
    let members ← f.withDefault "members" [] (MemberDecl.readList depth)
    let constructor ← f.optional "constructor" (FunctionDecl.read depth)
    let span ← f.withDefault "span" .zero (Span.read depth)
    pure { name, generics, parent, members, constructor, span }

end

/-- A program from JSON whose containers nest at most `depth` deep. -/
def Program.read (depth : Nat) (j : Json) : Option Program := do
  if depth = 0 then none
  let f ← j.fields? ["body"]
  let body ← f.required "body" (Expr.readList (depth - 1))
  pure { body }

/-- A program from a value already in memory. -/
def Program.ofJson? (j : Json) : Option Program := Program.read j.depth j

/-- A program from a text. -/
def Program.ofText? (text : String) : Option Program := do
  Program.read textNesting (← Json.parse? text)

/-- Options from JSON; a field that is absent keeps its default. -/
def Options.ofJson? (j : Json) : Option Options := do
  let f ← j.fields? ["source_name", "max_nesting_depth", "type_check", "host_globals"]
  let o : Options := {}
  let sourceName ← f.withDefault "source_name" o.sourceName Json.string?
  let maxNestingDepth ← f.withDefault "max_nesting_depth" o.maxNestingDepth Json.uint64?
  let typeCheck ← f.withDefault "type_check" o.typeCheck Json.bool?
  let hostGlobals ← f.withDefault "host_globals" o.hostGlobals Json.strings?
  pure { sourceName, maxNestingDepth, typeCheck, hostGlobals }

def Options.ofText? (text : String) : Option Options := do
  Options.ofJson? (← Json.parse? text)

end Strand
