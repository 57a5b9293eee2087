import Strand.Proofs.Moves.Visited

/-!
# Every node that is reached keeps what was there

A node keeps what was there in every state in which all that is stored is in order, and no other
state is ever reached. Of the macros only those are gone that a node inside says to drop.
-/

namespace Strand.Codegen

variable {e : Expr} {position : Position} {s : State}

/-- When the node is compiled, with so much fuel, a node that is asked for says to drop `name`. -/
def Drops (limit fuel : Nat) (e : Expr) (position : Position) (s : State) (name : String) : Prop :=
  ∃ (e' target : Expr) (position' : Position) (s' : State),
    Inside limit fuel e position s e' position' s' ∧ e'.kind = .drop target ∧ target.kind = .var name

/-- What was there is held, and macros are dropped by the nodes that say so. -/
theorem held_of_drops (limit fuel : Nat) (e : Expr) (position : Position) (hs : s.Proper .free) :
    s.Held (.dropping (Drops limit fuel e position s)) (compileNode limit fuel e position s).answer.2 := by
  have hallows : ∀ {e' position' s'}, Inside limit fuel e position s e' position' s' →
      (Setting.dropping (Drops limit fuel e position s)).Allows e'.kind s' := by
    intro e' position' s' hinside
    exact ⟨fun _ _ _ _ _ _ _ => trivial,
      fun target _ hkind hname => ⟨e', target, position', s', hinside, hkind, hname⟩⟩
  exact (answered_inside limit fuel hallows (State.proper_dropping_iff.mpr hs) fun hc => hc.elim).kept

/-- **Compiling a node keeps what was there.** Whatever node is reached, wherever, and
whatever errors were found: afterwards the same unit is worked on in the same surroundings, and as
many nodes are being compiled as before, which are as many as the node stands deep. From the units
around macros are gone only if a node inside said to drop them. -/
theorem kept_of_visited {p : Program} {o : Options} {n : Nat} (h : Visited p o n e position s) :
    let limit := o.maxNestingDepth.toNat
    let s' := (compilerAt o n e position s).answer.2
    s.nesting = n ∧ n ≤ limit ∧ s.Kept s' ∧ s.Macros (Drops limit (limit + 1 - n) e position s) s' := by
  have hheld := held_of_drops o.maxNestingDepth.toNat (o.maxNestingDepth.toNat + 1 - n) e position h.proper
  exact ⟨h.nesting.1, h.nesting.2, hheld.toKept, hheld.macros⟩

/-- A class with a method that leaves a loop, captures a variable, matches patterns and
mentions what is not there. -/
def openedAndClosed : Expr :=
  let node (kind : ExprKind) : Expr := ⟨kind, .zero⟩
  let function (name : String) (params : List String) (body : List Expr) : FunctionDecl :=
    { name, generics := ["T"], params := params.map fun x => ⟨x, none, none, .zero⟩
      varargs := none, kwargs := none, returnType := none
      isAsync := false, catchesResult := false, body, span := .zero }
  node (.classDecl
    { name := "Shelf", generics := ["T"], parent := none, constructor := none, span := .zero
      members := [.method
        { isStatic := false, isPrivate := false, isOperator := false
          function := function "scan" ["items"]
            [node (.forEach "item" (node (.var "items"))
              [node (.letDecl "seen" none (some (node (.var "missing"))) false),
                node (.lambda (function "" [] [node (.var "seen")])),
                node (.patternMatch (node (.var "item"))
                  [⟨.wildcard, none, [node .breakLoop], .zero⟩] none)])] }] })

theorem kept_of_visited_openedAndClosed : ∃ s,
    Visited ⟨[openedAndClosed]⟩ {} 0 openedAndClosed .effect s ∧
    (compilerAt {} 0 openedAndClosed .effect s).reports ≠ [] ∧
    s.Kept (compilerAt {} 0 openedAndClosed .effect s).answer.2 := by
  have hvisited : Visited ⟨[openedAndClosed]⟩ {} 0 openedAndClosed .effect
      (hoistedState ⟨[openedAndClosed]⟩ {}) := visited_first rfl
  obtain ⟨-, -, hkept, -⟩ := kept_of_visited hvisited
  refine ⟨_, hvisited, ?_, hkept⟩
  decide +kernel

end Strand.Codegen
