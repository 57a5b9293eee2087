import Strand.Codegen.Frame

/-!
# The nodes of a program

Every node that code is laid down for is a node of the program that was read: macros
put one in place of a name, but they do not make new ones. What holds of all nodes of
the program therefore holds of all nodes that are compiled, and conditions on a
program are stated in terms of `Occurs`.

How a node stands matters: declarations leave a local on the stack, which only a body
takes off again.
-/

namespace Strand

open Codegen (UnitKind)

variable {p : Program} {e : Expr} {es : List Expr} {name : String} {st : Standing} {n : Nat}
  {decl : FunctionDecl} {kind : UnitKind}

/-- How a node stands in the one around it. -/
inductive Standing where
  /-- As an element of a body. -/
  | element
  /-- After its decorator. -/
  | decorated
  | operand
deriving DecidableEq

/-- The nodes of a body. -/
def elements (body : List Expr) : List (Standing × Expr) := body.map (Prod.mk .element)

/-- Nodes that are evaluated for the one around them. -/
def operands (es : List Expr) : List (Standing × Expr) := es.map (Prod.mk .operand)

/-- The body of a function and the defaults of its parameters. -/
def FunctionDecl.nodes (decl : FunctionDecl) : List (Standing × Expr) :=
  operands (decl.params.filterMap Param.default) ++ elements decl.body

/-- The nodes of a field or a method. -/
def MemberDecl.nodes : MemberDecl → List (Standing × Expr)
  | .field f => operands f.initializer.toList
  | .method m => m.function.nodes

/-- The nodes of all members and of the constructor. -/
def ClassDecl.nodes (decl : ClassDecl) : List (Standing × Expr) :=
  decl.members.flatMap MemberDecl.nodes ++ decl.constructor.toList.flatMap FunctionDecl.nodes

/-- The node in a part of a text, if there is one. -/
def TextPart.exprs : TextPart → List Expr
  | .literal _ => []
  | .expr e => [e]

/-- What is passed. -/
def Argument.value : Argument → Expr
  | .positional e | .keyword _ e => e

/-- The node that a pattern compares with. -/
def Pattern.exprs : Pattern → List Expr
  | .value e => [e]
  | .destructure target _ => [target]
  | .wildcard => []

/-- The condition and the body. -/
def Branch.nodes (b : Branch) : List (Standing × Expr) := operands [b.condition] ++ elements b.body

/-- The values of a case and its body. -/
def SwitchCase.nodes (c : SwitchCase) : List (Standing × Expr) :=
  operands c.values ++ elements c.body

/-- The nodes of a pattern, of its guard and of the body. -/
def Arm.nodes (a : Arm) : List (Standing × Expr) :=
  operands (a.pattern.exprs ++ a.guard.toList) ++ elements a.body

/-- A body that may be missing. -/
def optionalBody (body : Option (List Expr)) : List (Standing × Expr) := elements (body.getD [])

/-- The nodes directly inside one of a given kind. -/
def ExprKind.nodes : ExprKind → List (Standing × Expr)
  | .int _ | .float _ | .str _ | .bool _ | .null | .var _ | .this => []
  | .breakLoop | .continueLoop | .enumDecl _ | .typedef _ _ | .use _ => []
  | .interpolated parts => operands (parts.flatMap TextPart.exprs)
  | .array items | .tuple items => operands items
  | .map pairs => operands (pairs.flatMap fun e => [e.1, e.2])
  | .assign _ target value => operands [target, value]
  | .member e _ | .drop e | .unary _ e | .reference e | .deref e | .throw e => operands [e]
  | .index a b | .binary a _ b | .logical a _ b => operands [a, b]
  | .call callee args => operands (callee :: args.map Argument.value)
  | .lambda decl | .functionDecl decl => decl.nodes
  | .cond branches otherwise => branches.flatMap Branch.nodes ++ optionalBody otherwise
  | .ternary a b c => operands [a, b, c]
  | .whileLoop condition body | .doWhile body condition =>
    operands [condition] ++ elements body
  | .rangeFor _ _ first last step body =>
    operands ([first, last] ++ step.toList) ++ elements body
  | .forEach _ iterable body => operands [iterable] ++ elements body
  | .ret value => operands value.toList
  | .switch subject cases otherwise =>
    operands [subject] ++ cases.flatMap SwitchCase.nodes ++ optionalBody otherwise
  | .patternMatch subject arms otherwise =>
    operands [subject] ++ arms.flatMap Arm.nodes ++ optionalBody otherwise
  | .scope body => elements body
  | .letDecl _ _ value _ => operands value.toList
  | .inlineDecl _ value => operands [value]
  | .decorated decorator target => [(.operand, decorator), (.decorated, target)]
  | .classDecl decl => decl.nodes
  | .assert condition message => operands (condition :: message.toList)

/-- A node of the program, and how it stands there. -/
inductive Occurs (p : Program) : Standing → Expr → Prop where
  | top {e : Expr} (h : e ∈ p.body) : Occurs p .element e
  | inside {st st' : Standing} {e c : Expr} (h : Occurs p st e) (hc : (st', c) ∈ e.kind.nodes) :
      Occurs p st' c

/-- The nodes that stand at a given depth. -/
def Program.nodesAt (p : Program) : (depth : Nat) → List (Standing × Expr)
  | 0 => elements p.body
  | n + 1 => (p.nodesAt n).flatMap fun x => x.2.kind.nodes

/-- Every node of a program is found at some depth. -/
theorem Occurs.mem_nodesAt (h : Occurs p st e) : ∃ n, (st, e) ∈ p.nodesAt n := by
  induction h with
  | top h => exact ⟨0, List.mem_map.mpr ⟨_, h, rfl⟩⟩
  | inside _ hc ih =>
    obtain ⟨n, hn⟩ := ih
    exact ⟨n + 1, List.mem_flatMap.mpr ⟨_, hn, hc⟩⟩

/-- A condition on all nodes can be checked depth by depth. -/
theorem forall_occurs (hend : (p.nodesAt n).isEmpty = true)
    {P : Standing × Expr → Prop} (h : ∀ d < n, ∀ x ∈ p.nodesAt d, P x)
    (he : Occurs p st e) : P (st, e) := by
  have hempty (k : Nat) : p.nodesAt (n + k) = [] := by
    induction k with
    | zero => exact List.isEmpty_iff.mp hend
    | succ k ih =>
      rw [← Nat.add_assoc, Program.nodesAt, ih]
      rfl
  obtain ⟨d, hd⟩ := he.mem_nodesAt
  rcases Nat.lt_or_ge d n with hlt | hge
  · exact h d hlt _ hd
  · obtain ⟨k, rfl⟩ := Nat.exists_eq_add_of_le hge
    rw [hempty k] at hd
    exact absurd hd List.not_mem_nil

/-- Something holds of all of these nodes. -/
def AllNodes (P : Standing → Expr → Prop) (nodes : List (Standing × Expr)) : Prop :=
  ∀ st e, (st, e) ∈ nodes → P st e

namespace AllNodes

variable {P : Standing → Expr → Prop} {xs ys : List (Standing × Expr)}

theorem operand (h : AllNodes P (operands es)) (he : e ∈ es) : P .operand e :=
  h .operand e (List.mem_map.mpr ⟨e, he, rfl⟩)

theorem element (h : AllNodes P (elements es)) (he : e ∈ es) : P .element e :=
  h .element e (List.mem_map.mpr ⟨e, he, rfl⟩)

theorem tail (h : AllNodes P (elements (e :: es))) : AllNodes P (elements es) :=
  fun st c hc => h st c (.tail _ hc)

theorem left (h : AllNodes P (xs ++ ys)) : AllNodes P xs :=
  fun st e he => h st e (List.mem_append_left _ he)

theorem right (h : AllNodes P (xs ++ ys)) : AllNodes P ys :=
  fun st e he => h st e (List.mem_append_right _ he)

theorem ofMem {γ : Type} {g : γ → List (Standing × Expr)} {items : List γ}
    (h : AllNodes P (items.flatMap g)) {a : γ} (ha : a ∈ items) : AllNodes P (g a) :=
  fun st e he => h st e (List.mem_flatMap.mpr ⟨a, ha, he⟩)

end AllNodes

/-- All of these are nodes of the program. -/
abbrev AllOccur (p : Program) : List (Standing × Expr) → Prop := AllNodes (Occurs p)

/-- What stands directly inside a node of the program is one itself. -/
theorem Occurs.nodes (h : Occurs p st e) : AllOccur p e.kind.nodes :=
  fun _ _ hc => h.inside hc

/-- A tree that a macro of the program stands for. -/
def IsMacro (p : Program) (value : Expr) : Prop :=
  ∃ st name span, Occurs p st ⟨.inlineDecl name value, span⟩

/-- The value of a macro is evaluated wherever its name stands, as an operand. -/
theorem IsMacro.occurs {value : Expr} (h : IsMacro p value) : Occurs p .operand value := by
  obtain ⟨st, name, span, h⟩ := h
  exact h.inside (by simp [ExprKind.nodes, operands])

/-- A macro of the program has this name and stands for this tree. -/
def Expands (p : Program) (name : String) (value : Expr) : Prop :=
  ∃ st span, Occurs p st ⟨.inlineDecl name value, span⟩

theorem Expands.isMacro {value : Expr} (h : Expands p name value) : IsMacro p value := by
  obtain ⟨st, span, h⟩ := h
  exact ⟨st, name, span, h⟩

/-- The declaration of a macro. -/
def ExprKind.isInlineDecl : ExprKind → Bool
  | .inlineDecl _ _ => true
  | _ => false

theorem not_isMacro_of_nodesAt (hend : (p.nodesAt n).isEmpty = true)
    (h : ∀ d < n, ∀ x ∈ p.nodesAt d, x.2.kind.isInlineDecl = false) (value : Expr) :
    ¬ IsMacro p value := by
  intro hmacro
  obtain ⟨st, name, span, he⟩ := hmacro
  cases forall_occurs hend h he

/-- No node gives up the receiver of a method, as is the case when nothing is named
`this`. -/
def KeepsReceiver (p : Program) : Prop :=
  ∀ st target span, Occurs p st ⟨.drop target, span⟩ → target.kind ≠ .var "this"

/-- The node gives something up. -/
def ExprKind.isDrop : ExprKind → Bool
  | .drop _ => true
  | _ => false

/-- A program without a node that gives something up gives up no receiver. The search ends at a
depth without nodes. -/
theorem keepsReceiver_of_nodesAt (hend : (p.nodesAt n).isEmpty = true)
    (h : ∀ d < n, ∀ x ∈ p.nodesAt d, x.2.kind.isDrop = false) : KeepsReceiver p := by
  intro st target span he
  cases forall_occurs hend h he

/-! ## Functions -/

/-- The units that a method is compiled as. -/
def MethodDecl.unitKind (m : MethodDecl) : UnitKind := if m.isStatic then .function else .method

/-- The function that a member is, unless it is a field. -/
def MemberDecl.functions : MemberDecl → List (FunctionDecl × UnitKind)
  | .field _ => []
  | .method m => [(m.function, m.unitKind)]

/-- The functions that a node of a given kind declares, each with the kind of its unit. -/
def ExprKind.functions : ExprKind → List (FunctionDecl × UnitKind)
  | .lambda decl => [(decl, .lambda)]
  | .functionDecl decl => [(decl, .function)]
  | .classDecl decl =>
    decl.members.flatMap MemberDecl.functions ++
      decl.constructor.toList.map fun ctor => (ctor, .constructor)
  | _ => []

/-- A function declared in the program. -/
def Declares (p : Program) (decl : FunctionDecl) (kind : UnitKind) : Prop :=
  ∃ st e, Occurs p st e ∧ (decl, kind) ∈ e.kind.functions

/-- The nodes of a function that a program declares are nodes of the program. -/
theorem Declares.nodes (h : Declares p decl kind) : AllOccur p decl.nodes := by
  obtain ⟨st, ⟨k, span⟩, he, hdecl⟩ := h
  intro st' c hc
  refine he.inside (?_ : (st', c) ∈ k.nodes)
  cases k with
  | lambda d =>
    obtain ⟨rfl, rfl⟩ : decl = d ∧ kind = .lambda := by simpa [ExprKind.functions] using hdecl
    exact hc
  | functionDecl d =>
    obtain ⟨rfl, rfl⟩ : decl = d ∧ kind = .function := by simpa [ExprKind.functions] using hdecl
    exact hc
  | classDecl d =>
    rcases List.mem_append.mp hdecl with hmember | hctor
    · obtain ⟨m, hm, hmember⟩ := List.mem_flatMap.mp hmember
      refine List.mem_append_left _ (List.mem_flatMap.mpr ⟨m, hm, ?_⟩)
      cases m with
      | field f => exact absurd hmember List.not_mem_nil
      | method m =>
        cases List.mem_singleton.mp hmember
        exact hc
    · obtain ⟨ctor, hmem, heq⟩ := List.mem_map.mp hctor
      cases heq
      exact List.mem_append_right _ (List.mem_flatMap.mpr ⟨_, hmem, hc⟩)
  | _ => exact absurd hdecl List.not_mem_nil

/-- The parameters of a function, counting those that take the rest. -/
def FunctionDecl.slotNames (decl : FunctionDecl) : List String :=
  decl.params.map Param.name ++ decl.varargs.toList.map Param.name ++ decl.kwargs.toList

/-! ## Names -/

/-- The names that the code of a node declares, apart from the nodes inside. -/
def ExprKind.binds : ExprKind → List String
  | .letDecl name _ _ _ => [name]
  | .functionDecl decl => [decl.name]
  | .decorated _ ⟨.functionDecl decl, _⟩ => [decl.name]
  | .classDecl decl => [decl.name]
  | .enumDecl decl => [decl.name]
  | .rangeFor name _ _ _ _ _ => ["$counter", "$end", "$step", name]
  | .forEach name _ _ => ["$iter", name]
  | _ => []

/-- The names that a pattern may bind. -/
def Pattern.names : Pattern → List String
  | .value ⟨.var name, _⟩ => [name]
  | .destructure _ names => names
  | _ => []

/-- The names of the variables that a node of a given kind declares, the parameters of its
functions among them. -/
def ExprKind.variables : ExprKind → List String
  | .patternMatch _ arms _ => arms.flatMap fun a => a.pattern.names
  | kind => kind.binds ++ kind.functions.flatMap fun f => f.1.slotNames

/-- No variable is called like the receiver. -/
def Unshadowed (p : Program) : Prop := ∀ st e, Occurs p st e → "this" ∉ e.kind.variables

theorem Occurs.unshadowed (h : Occurs p st e)
    (hname : name ∈ e.kind.binds) (hp : Unshadowed p) : name ≠ "this" := by
  rintro rfl
  refine hp st e h ?_
  obtain ⟨kind, span⟩ := e
  cases kind with
  | patternMatch _ _ _ => cases hname
  | _ => exact List.mem_append_left _ hname

theorem Declares.unshadowed
    (h : Declares p decl kind) (hname : name ∈ decl.slotNames) (hp : Unshadowed p) : name ≠ "this" := by
  rintro rfl
  obtain ⟨st, ⟨k, span⟩, he, hdecl⟩ := h
  refine hp st _ he ?_
  cases k with
  | patternMatch _ _ _ => cases hdecl
  | _ => exact List.mem_append_right _ (List.mem_flatMap.mpr ⟨_, hdecl, hname⟩)

end Strand
