import Strand.Proofs.Descent

/-!
# The nodes that are reached

`Visited p o n e position s` says that in the compilation of `p` the node `e` is asked for
in the state `s`, when `n` nodes are being compiled. What is reported about such a node is
among the diagnostics of the program, so a property of all nodes of a program that compiles
can be read off the code of a single one.
-/

namespace Strand.Codegen

variable {α : Type} {node : NodeCompiler} {e : Expr} {position position' : Position} {s s0 : State}
  {n : Nat}

variable {p : Program} {o : Options}

namespace Dialogue

theorem Reaches.sublist {d : Dialogue α} (h : d.Reaches node e position s) :
    (node e position s).reports.Sublist (d.run node).reports := by
  induction h with
  | here => exact (List.sublist_append_left _ _).trans (List.sublist_append_right _ _)
  | later _ ih => exact (ih.trans (List.sublist_append_right _ _)).trans (List.sublist_append_right _ _)

/-- What is reported about a node that is asked for is reported. -/
theorem Reaches.reports {d : Dialogue α} (h : d.Reaches node e position s) :
    (node e position s).reports ⊆ (d.run node).reports := h.sublist.subset

/-- A node that is not asked for may be compiled in any way. -/
theorem run_eq_of_not_reaches {node' : NodeCompiler}
    (hsame : ∀ e' position' s', node' e' position' s' ≠ node e' position' s' →
      e' = e ∧ position' = position ∧ s' = s) :
    ∀ d : Dialogue α, ¬ d.Reaches node e position s → d.run node' = d.run node
  | done _, _ => rfl
  | asks said e' position' s' next, h => by
    have hnode : node' e' position' s' = node e' position' s' := by
      by_contra hne
      obtain ⟨rfl, rfl, rfl⟩ := hsame e' position' s' hne
      exact h .here
    have hrest := run_eq_of_not_reaches hsame (next (node e' position' s').answer)
      fun hlater => h (.later hlater)
    simp only [run, hnode, hrest]

open Classical in
/-- Compile nodes as `node` does, and report `said` about one of them. -/
noncomputable def saying (said : List Diagnostic) (node : NodeCompiler) (e : Expr)
    (position : Position) (s : State) : NodeCompiler := fun e' position' s' =>
  if e' = e ∧ position' = position ∧ s' = s then ⟨(node e position s).answer, said⟩
  else node e' position' s'

theorem reports_saying (said : List Diagnostic) :
    (saying said node e position s e position s).reports = said := by
  rw [saying, if_pos ⟨rfl, rfl, rfl⟩]

theorem eq_of_saying_ne {said : List Diagnostic} {e' : Expr} {s' : State}
    (h : saying said node e position s e' position' s' ≠ node e' position' s') :
    e' = e ∧ position' = position ∧ s' = s := by
  by_contra hother
  exact h (by rw [saying, if_neg hother])

/-- If what is reported about a node is always reported, then the node is asked for. -/
theorem Of.reaches {act : NodeCompiler → Build α} {d : Dialogue α} (hd : d.Of act s0)
    (node : NodeCompiler) (h : ∀ node' : NodeCompiler,
      (node' e position s).reports.length ≤ (act node' s0).reports.length) :
    d.Reaches node e position s := by
  by_contra hnot
  -- say more about the node than is reported altogether
  have hsame (said : List Diagnostic) : act (saying said node e position s) s0 = act node s0 := by
    rw [hd.run_eq, hd.run_eq]
    exact run_eq_of_not_reaches (fun _ _ _ hne => eq_of_saying_ne hne) d hnot
  have hlong := h (saying (List.replicate ((act node s0).reports.length + 1) default) node e position s)
  rw [reports_saying, List.length_replicate, hsame] at hlong
  omega

end Dialogue

/-! ## Leaving a mark -/

/-- `node'` compiles nodes as `node` does where this is good, and elsewhere sets whether types
are checked, which is not changed back. -/
structure LeavesMark (mark : Bool) (good : Expr → State → Prop) (node node' : NodeCompiler) : Prop where
  same (e : Expr) (position : Position) (s : State) (h : good e s) :
    node' e position s = node e position s
  marked (e : Expr) (position : Position) (s : State) (h : ¬ good e s) :
    (node' e position s).answer.2.typeCheck = mark
  stays (e : Expr) (position : Position) (s : State) (h : s.typeCheck = mark) :
    (node' e position s).answer.2.typeCheck = mark

section

variable {mark : Bool} {good : Expr → State → Prop} {node' : NodeCompiler} {d : Dialogue α}

theorem Dialogue.Steady.typeCheck_run (hd : d.Steady s) (hmarks : LeavesMark mark good node node')
    (h : s.typeCheck = mark) : (d.run node').answer.2.typeCheck = mark := by
  induction hd with
  | done hkept _ => exact (State.typeCheck_of_marks hkept).trans h
  | asks hkept _ _ ih => exact ih _ (hmarks.stays _ _ _ ((State.typeCheck_of_marks hkept).trans h))

/-- If a node is asked for where this is not good, the mark is left. -/
theorem Dialogue.Reaches.typeCheck_run (h : d.Reaches node e position s)
    (hmarks : LeavesMark mark good node node') (hs : ¬ good e s) (hd : d.Steady s0) :
    (d.run node').answer.2.typeCheck = mark := by
  induction h generalizing s0 with
  | here =>
    cases hd with
    | asks _ _ hnext => exact (hnext _).typeCheck_run hmarks (hmarks.marked _ _ _ hs)
  | @later said e' position' s' next _ ih =>
    cases hd with
    | asks _ _ hnext =>
      -- up to the first such state the nodes are compiled as by `node`
      by_cases hs' : good e' s'
      · have hrest := ih (hnext _)
        rw [← hmarks.same e' position' s' hs'] at hrest
        exact hrest
      · exact (hnext _).typeCheck_run hmarks (hmarks.marked _ _ _ hs')

end

/-! ## Visits -/

/-- The compiler for nodes that stand `n` levels deep. -/
abbrev compilerAt (o : Options) (n : Nat) : NodeCompiler :=
  compileNode o.maxNestingDepth.toNat (o.maxNestingDepth.toNat + 1 - n)

/-- In the compilation of `p` the node `e` is asked for in the state `s`, when `n` nodes are
being compiled. -/
inductive Visited (p : Program) (o : Options) : Nat → Expr → Position → State → Prop where
  | top {d : Dialogue CodeUnit} {e : Expr} {position : Position} {s : State}
      (hd : d.Of (compileProgramWith p) (startState o)) (h : d.Reaches (compilerAt o 0) e position s) :
      Visited p o 0 e position s
  | inside {n : Nat} {d : Dialogue Ty} {e e' : Expr} {position position' : Position} {s s' : State}
      (hv : Visited p o n e position s) (hn : n < o.maxNestingDepth.toNat)
      (hd : d.Of (compileEntered e position) s.enter)
      (h : d.Reaches (compilerAt o (n + 1)) e' position' s') :
      Visited p o (n + 1) e' position' s'

/-- A node leaves the counter as it was. -/
theorem nesting_compileNode {limit fuel : Nat} (h : limit ≤ s.nesting + fuel) :
    (compileNode limit fuel e position s).answer.2.nesting = s.nesting := by
  obtain ⟨⟨x, hx⟩, haccounts⟩ := accountable_compileNode limit fuel s.nesting h e position s rfl
  rw [← (haccounts x hx).result]
  exact (haccounts x hx).nesting

/-- Between its nodes a part leaves the counter alone. -/
theorem Dialogue.Reaches.nesting {d : Dialogue α} (h : d.Reaches node e position s)
    (hnode : ∀ e position s, s.nesting = n → (node e position s).answer.2.nesting = n)
    (hd : d.Steady s0) (hs0 : s0.nesting = n) : s.nesting = n := by
  induction h generalizing s0 with
  | here =>
    cases hd with
    | asks hmarks _ _ => exact (State.nesting_of_marks hmarks).trans hs0
  | later _ ih =>
    cases hd with
    | asks hmarks _ hnext => exact ih (hnext _) (hnode _ _ _ ((State.nesting_of_marks hmarks).trans hs0))

/-- The counter of the state counts the nodes that are being compiled, and they are never more
than the limit allows. -/
theorem Visited.nesting (h : Visited p o n e position s) :
    s.nesting = n ∧ n ≤ o.maxNestingDepth.toNat := by
  have hnode (m : Nat) (e : Expr) (position : Position) (s : State) (hs : s.nesting = m) :
      (compilerAt o m e position s).answer.2.nesting = m :=
    (nesting_compileNode (by omega)).trans hs
  induction h with
  | top hd h => exact ⟨h.nesting (hnode 0) hd.steady rfl, Nat.zero_le _⟩
  | inside _ hn hd h ih => exact ⟨h.nesting (hnode _) hd.steady (congrArg (· + 1) ih.1), hn⟩

/-- When the node `e` is compiled in the state `s`, with so much fuel, the node `e'` is asked for
in the state `s'`. -/
inductive Inside (limit : Nat) : Nat → Expr → Position → State → Expr → Position → State → Prop where
  | here {fuel : Nat} {e : Expr} {position : Position} {s : State} :
      Inside limit fuel e position s e position s
  | deeper {fuel : Nat} {d : Dialogue Ty} {e e1 e' : Expr} {position position1 position' : Position}
      {s s1 s' : State} (hs : s.nesting < limit) (hd : d.Of (compileEntered e position) s.enter)
      (hr : d.Reaches (compileNode limit fuel) e1 position1 s1)
      (h : Inside limit fuel e1 position1 s1 e' position' s') :
      Inside limit (fuel + 1) e position s e' position' s'

theorem Inside.visited {fuel : Nat} {e' : Expr} {s' : State}
    (h : Inside o.maxNestingDepth.toNat fuel e position s e' position' s') :
    ∀ {n : Nat}, o.maxNestingDepth.toNat + 1 - n = fuel → Visited p o n e position s →
      ∃ n', Visited p o n' e' position' s' := by
  induction h with
  | here => exact fun _ hv => ⟨_, hv⟩
  | @deeper fuel d e e1 e' position position1 position' s s1 s' hs hd hr _ ih =>
    intro n hfuel hv
    have hn : n < o.maxNestingDepth.toNat := hv.nesting.1 ▸ hs
    have hnext : o.maxNestingDepth.toNat + 1 - (n + 1) = fuel := by omega
    subst hnext
    exact ih rfl (.inside hv hn hd hr)

/-- A node that is not refused is compiled one level deeper. -/
theorem compilerAt_entered (hs : s.nesting = n) (hn : n < o.maxNestingDepth.toNat) (e : Expr)
    (position : Position) : compilerAt o n e position s =
      (compileEntered e position (compilerAt o (n + 1)) s.enter).leaving := by
  have hfuel : o.maxNestingDepth.toNat + 1 - n = o.maxNestingDepth.toNat + 1 - (n + 1) + 1 := by omega
  rw [compilerAt, hfuel, compileNode_entered (hs ▸ hn)]

theorem Visited.reports (h : Visited p o n e position s) :
    (compilerAt o n e position s).reports ⊆ (layProgram p o).reports := by
  induction h with
  | top hd h =>
    have hrun := h.reports
    rw [← hd.run_eq] at hrun
    exact hrun
  | inside hv hn hd h ih =>
    have hrun := h.reports
    rw [← hd.run_eq] at hrun
    rw [compilerAt_entered hv.nesting.1 hn] at ih
    exact List.Subset.trans hrun ih

/-! ## What is reported on the way -/

section

variable {β : Type} {act : Build α} {f : α → Build β} {g : α → β}

theorem reports_bind (s : State) : ((act >>= f) s).reports =
    (act s).reports ++ (f (act s).answer.1 (act s).answer.2).reports := rfl

theorem reports_prefix_bind (s : State) : (act s).reports <+: ((act >>= f) s).reports :=
  List.prefix_append _ _

theorem reports_suffix_bind (s : State) :
    (f (act s).answer.1 (act s).answer.2).reports <:+ ((act >>= f) s).reports :=
  List.suffix_append _ _

theorem reports_map (s : State) : ((g <$> act) s).reports = (act s).reports := by
  rw [map_eq_pure_bind, reports_bind]
  exact List.append_nil _

end

/-! ## The first node -/

/-- The state in which the names of all declarations of a module have been entered. -/
def hoistedState (p : Program) (o : Options) : State :=
  ((p.body.filterMap Expr.hoistedName?).forM hoist (startState o)).answer.2

/-- The first node of a program is reached after the names have been entered. -/
theorem visited_first {rest : List Expr} (h : p.body = e :: rest) :
    Visited p o 0 e .effect (hoistedState p o) := by
  have hspeaks : Speaks (compileProgramWith p) := inferInstance
  obtain ⟨d, hd⟩ := hspeaks.dialogue (startState o)
  refine .top hd (hd.reaches _ fun node' => ?_)
  have heffects : (node' e .effect (hoistedState p o)).reports.length ≤
      (compileEffects node' p.body (hoistedState p o)).reports.length := by
    rw [h]
    exact ((reports_prefix_bind _).trans (reports_prefix_bind _)).length_le
  unfold compileProgramWith
  refine Nat.le_trans heffects (Nat.le_trans ?_ (reports_suffix_bind (startState o)).length_le)
  exact (reports_prefix_bind (hoistedState p o)).length_le

end Strand.Codegen
