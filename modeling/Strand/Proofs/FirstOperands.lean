import Strand.Proofs.Nodes

/-!
# Which operand comes first

A declaration leaves its local on the stack, below its value. Where it stands as an operand
this is harmless only if nothing else that the node around it takes is on the stack by
then: the node takes what lies above the local, and leaves the local in turn. So the
operands of a node are told apart by whether its code starts with them.
-/

namespace Strand

variable {p : Program}

namespace ExprKind

/-- Declarations, which leave a local on the stack unless they make a global. -/
def isDeclaration : ExprKind → Bool
  | .letDecl _ _ _ _ | .functionDecl _ | .decorated _ _ | .classDecl _ | .enumDecl _ => true
  | _ => false

/-- The operand that the code of a node starts with, and whose locals the node leaves in turn.
None is named for nodes that set the height of the stack to what it was before their
operands, and for loops, whose block takes off what their first operand has left. -/
def first : ExprKind → Option Expr
  | .interpolated parts => parts.head?.bind fun part => part.exprs.head?
  | .array items | .tuple items => items.head?
  | .map pairs => pairs.head?.map Prod.fst
  | .assign isWeak target value =>
    match target.kind with
    | .var _ => if isWeak then some value else none
    | .member object _ => some (if isWeak then value else object)
    | .index object _ => some object
    | _ => none
  | .drop target =>
    match target.kind with
    | .member object _ => some object
    | _ => none
  | .member e _ | .unary _ e | .reference e | .deref e => some e
  | .index e _ | .binary e _ _ | .logical e _ _ | .call e _ | .assert e _ => some e
  | _ => none

end ExprKind

/-- The defaults of the parameters that have one. -/
def FunctionDecl.defaults (decl : FunctionDecl) : List Expr := decl.params.filterMap Param.default

/-- What is evaluated where a member is declared. -/
def MemberDecl.operands : MemberDecl → List Expr
  | .field f => f.initializer.toList
  | .method m => m.function.defaults

/-- The operands of a node that must leave nothing but their value: those that its code does
not start with, and those whose locals it would forget. -/
def ExprKind.later : ExprKind → List Expr
  | .interpolated parts => parts.tail.flatMap TextPart.exprs
  | .array items | .tuple items => items.tail
  | .map pairs =>
    (pairs.head?.map Prod.snd).toList ++ pairs.tail.flatMap fun e => [e.1, e.2]
  | .assign isWeak target value =>
    match target.kind with
    | .var _ => if isWeak then [] else [value]
    | .member object _ => [if isWeak then object else value]
    | .index _ i => [i, value]
    | _ => [value]
  | .index _ e | .binary _ _ e | .logical _ _ e => [e]
  | .call _ args => args.map Argument.value
  | .lambda decl | .functionDecl decl => decl.defaults
  | .cond branches _ => branches.map Branch.condition
  | .ternary a b c => [a, b, c]
  | .whileLoop e _ | .doWhile _ e | .throw e | .decorated e _ => [e]
  | .rangeFor _ _ _ last step _ => last :: step.toList
  | .ret value => value.toList
  | .switch subject cases _ => subject :: cases.flatMap SwitchCase.values
  | .patternMatch subject arms _ =>
    subject :: arms.flatMap fun a => a.pattern.exprs ++ a.guard.toList
  | .classDecl decl =>
    decl.members.flatMap MemberDecl.operands ++ decl.constructor.toList.flatMap FunctionDecl.defaults
  | .assert _ message => message.toList
  | _ => []

/-- The code of the node leaves a local below its value: it declares something, or starts
with a node that leaves one, in its own right or by a macro. -/
inductive LeavesLocal (p : Program) : Expr → Prop where
  | declares {e : Expr} (h : e.kind.isDeclaration = true) : LeavesLocal p e
  | starts {e f : Expr} (h : e.kind.first = some f) (hf : LeavesLocal p f) : LeavesLocal p e
  | expands {e value : Expr} {name : String} (h : e.kind = .var name) (hvalue : Expands p name value)
      (hleaves : LeavesLocal p value) : LeavesLocal p e

/-- What leaves a local stands in bodies, after its decorator or as a first operand. -/
def DeclaresFirst (p : Program) : Prop :=
  ∀ st e, Occurs p st e → ∀ f ∈ e.kind.later, ¬ LeavesLocal p f

/-- Without macros it is enough to look at the operands themselves, where they start with
nothing further. -/
theorem declaresFirst_of_nodesAt {n : Nat} (hend : (p.nodesAt n).isEmpty = true)
    (hmacros : ∀ value, ¬ IsMacro p value) (h : ∀ d < n, ∀ x ∈ p.nodesAt d, ∀ f ∈ x.2.kind.later,
      f.kind.isDeclaration = false ∧ f.kind.first.isNone = true) : DeclaresFirst p := by
  intro st e he f hf hleaves
  obtain ⟨hplain, hnone⟩ := forall_occurs hend h he f hf
  cases hleaves with
  | declares hdecl =>
    rw [hdecl] at hplain
    cases hplain
  | starts hfirst _ =>
    rw [hfirst] at hnone
    cases hnone
  | expands _ hvalue _ => exact hmacros _ hvalue.isMacro

/-- Declarations stand in bodies. A function may also stand after its decorator. -/
def DeclaresInBodies (p : Program) : Prop :=
  ∀ st e, Occurs p st e → e.kind.isDeclaration = true → st = .element ∨ st = .decorated

/-- Operands that leave no local, by a predicate that holds of all that must not. -/
structure PlainOperands (p : Program) (plain : Expr → Prop) : Prop where
  leaves : ∀ {e}, ¬ LeavesLocal p e → plain e
  later : ∀ {st e}, Occurs p st e → ∀ f ∈ e.kind.later, plain f
  declares : ∀ {e}, Occurs p .operand e → plain e → e.kind.isDeclaration = false
  starts : ∀ {e}, plain e → ∀ f ∈ e.kind.first, plain f
  expands : ∀ {e name value}, plain e → e.kind = .var name → Expands p name value → plain value

theorem DeclaresFirst.plainOperands (h : DeclaresFirst p) :
    PlainOperands p fun e => ¬ LeavesLocal p e where
  leaves hleaves := hleaves
  later he := h _ _ he
  declares _ hplain := Bool.eq_false_iff.mpr fun hdecl => hplain (.declares hdecl)
  starts hplain _ hf hleaves := hplain (.starts hf hleaves)
  expands hplain hkind hvalue hleaves := hplain (.expands hkind hvalue hleaves)

/-- Where declarations stand in bodies, no operand leaves a local. -/
theorem DeclaresInBodies.plainOperands (h : DeclaresInBodies p) :
    PlainOperands p fun _ => True where
  leaves _ := trivial
  later _ _ _ := trivial
  declares {e} he _ := by
    refine Bool.eq_false_iff.mpr fun hdecl => ?_
    rcases h .operand e he hdecl with hst | hst <;> cases hst
  starts _ _ _ := trivial
  expands _ _ _ := trivial

end Strand
