import Strand.Codegen.Access
import Strand.Codegen.Call
import Strand.Codegen.Class
import Strand.Codegen.Header
import Strand.Codegen.Loop
import Strand.Codegen.Match

/-!
# Nodes

The compiler of one node, by its kind, and the recursion over the tree. A macro makes
the tree that is compiled larger than the one that was read, and one that mentions
itself makes it infinite, so the recursion is bounded by a limit on the levels of nesting. A
node for which none is left is refused: it is reported, once in a compilation, and
counts as null.
-/

namespace Strand.Codegen

/-- What the code of a node has left on the stack. -/
inductive Left where
  /-- Its value. -/
  | value (ty : Ty)
  /-- Nothing. -/
  | nothing (ty : Ty)
  /-- What the position of the node asks for. -/
  | asWanted (ty : Ty)

/-- Nothing, from a node that has no value of interest. -/
def leaveNothing (act : Build Unit) : Build Left := do
  act
  pure (.nothing .void)

/-- Bring the stack into the state that the position asks for. -/
def settle (left : Left) (position : Position) (line : UInt64) : Build Ty := do
  match left, position with
  | .value ty, .value => pure ty
  | .value ty, .effect =>
    emit .pop line
    pure ty
  | .nothing ty, .value =>
    emit .pushNull line
    pure ty
  | .nothing ty, .effect => pure ty
  | .asWanted ty, _ => pure ty

/-- A macro is visible from its declaration to the end of the block. -/
def declareInline (name : String) (value : Expr) : Build Unit :=
  modifyFrame fun f => { f with inlines := { name, value, depth := f.depth } :: f.inlines }

/-- Push a constant of a known type. -/
def compileLiteral (k : Constant) (ty : Ty) (span : Span) : Build Left := do
  emitConstant k span
  pure (.value ty)

/-- Push a value that has an instruction of its own. -/
def compileFixed (i : Instr) (ty : Ty) (line : UInt64) : Build Left := do
  emit i line
  pure (.value ty)

/-- Lay down a node of a given kind, with `node` for the nodes inside. -/
def compileKind (node : NodeCompiler) (kind : ExprKind) (position : Position) (span : Span) :
    Build Left :=
  match kind with
  | .int n => compileLiteral (.int n) .int span
  | .float bits => compileLiteral (.float bits) .float span
  | .str s => compileLiteral (.str s) .str span
  | .bool b => compileFixed (if b then .pushTrue else .pushFalse) .bool span.line
  | .null => compileFixed .pushNull .any span.line
  | .interpolated parts => .value <$> compileInterpolated node parts span
  | .array items => .value <$> compileArray node items span
  | .map pairs => .value <$> compileMap node pairs span
  | .tuple items => .value <$> compileTuple node items span
  | .var name => .value <$> compileVariable node name span
  | .assign isWeak target value => .value <$> compileAssign node isWeak target value span
  | .member object name => .value <$> compileMember node object name span
  | .index object index => .value <$> compileIndex node object index
  | .this => .value <$> compileThis span
  | .drop target => leaveNothing (compileDrop node target span)
  | .binary left op right => .value <$> compileBinary node left op right
  | .logical left op right => .value <$> compileLogical node left op right span
  | .unary op operand => .value <$> compileUnary node op operand span
  | .reference target => .value <$> compileReference node target span
  | .deref target => .value <$> compileDeref node target span
  | .call callee args => .value <$> compileCall node callee args span
  | .lambda decl => .value <$> compileLambda node decl
  | .cond branches otherwise => .value <$> compileIf node branches otherwise span
  | .ternary condition thenValue elseValue =>
    .value <$> compileTernary node condition thenValue elseValue span
  | .whileLoop condition body => .asWanted <$> compileWhile node condition body position span
  | .doWhile body condition => .asWanted <$> compileDoWhile node body condition position span
  | .rangeFor variableName typeExpr first last step body =>
    .asWanted <$> compileRangeFor node variableName typeExpr first last step body position span
  | .forEach variableName iterable body =>
    .asWanted <$> compileForEach node variableName iterable body position span
  | .breakLoop => .nothing <$> compileBreak span
  | .continueLoop => .nothing <$> compileContinue span
  | .ret value => .nothing <$> compileReturn node value span
  | .switch subject cases otherwise => .value <$> compileSwitch node subject cases otherwise span
  | .patternMatch subject arms otherwise =>
    .value <$> compileMatch node subject arms otherwise span
  | .scope body => .value <$> compileScope node body span
  | .letDecl name typeExpr value isConst =>
    leaveNothing (compileLet node name typeExpr value isConst span)
  | .inlineDecl name value => leaveNothing (declareInline name value)
  | .functionDecl decl => leaveNothing (compileFunctionDecl node decl)
  | .decorated decorator target => leaveNothing (compileDecorated node decorator target span)
  | .classDecl decl => leaveNothing (compileClass node decl)
  | .enumDecl decl => leaveNothing (compileEnum decl)
  | .typedef name tokens => leaveNothing (compileTypedef name tokens span)
  | .use decl => leaveNothing (compileUse decl)
  | .throw value => .nothing <$> compileThrow node value span
  | .assert condition message => leaveNothing (compileAssert node condition message span)

/-- Refuse a node that is nested too deeply. -/
def refuseNode (limit : Nat) (span : Span) (position : Position) : Build Ty := do
  if !(← get).refused then
    modify fun s => { s with refused := true }
    report (.nestingTooDeep limit) span
  match position with
  | .value => emit .pushNull span.line
  | .effect => pure ()
  pure .any

/-- Lay down a node. Only `limit` nodes may be entered and not left at a time. `fuel` is there
for the recursion and no part of the language: while there are levels left it does not run out,
and how much of it there is makes no difference. -/
def compileNode (limit : Nat) : (fuel : Nat) → NodeCompiler
  | 0 => fun e position => refuseNode limit e.span position
  | fuel + 1 => fun e position => do
    if ← enterNesting limit then
      let left ← compileKind (compileNode limit fuel) e.kind position e.span
      leaveNesting
      settle left position e.span.line
    else refuseNode limit e.span position

end Strand.Codegen
