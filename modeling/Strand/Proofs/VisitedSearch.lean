import Strand.Proofs.Visited

/-!
# Looking for a node

Whether a node with some property is reached in a compilation can be computed: something is
reported about every such node, and then the program is compiled. A compilation that reports
nothing without this reports something with it if and only if there is such a node.
-/

namespace Strand.Codegen

variable {α : Type} {node node' : NodeCompiler} {e : Expr} {position : Position} {s : State}
  {p : Program} {o : Options} {n : Nat}

namespace Dialogue

/-- What nodes report does not change which are asked for. -/
theorem Reaches.congr {d : Dialogue α} (h : d.Reaches node e position s)
    (hsame : ∀ e position s, (node' e position s).answer = (node e position s).answer) :
    d.Reaches node' e position s := by
  induction h with
  | here => exact .here
  | later _ ih => exact .later (hsame _ _ _ ▸ ih)

theorem answer_run_congr (hsame : ∀ e position s, (node' e position s).answer = (node e position s).answer) :
    ∀ d : Dialogue α, (d.run node').answer = (d.run node).answer
  | done _ => rfl
  | asks said e' position' s' next => by
    have hrest := answer_run_congr hsame (next (node e' position' s').answer)
    simpa only [run, hsame] using hrest

/-- The nodes that are asked for decide. -/
theorem run_congr : ∀ {d : Dialogue α},
    (∀ e position s, d.Reaches node e position s → node' e position s = node e position s) →
      d.run node' = d.run node
  | done _, _ => rfl
  | asks said e' position' s' next, hsame => by
    have hrest := run_congr (d := next (node e' position' s').answer) fun e position s hr =>
      hsame e position s (.later hr)
    simp only [run, hsame e' position' s' .here, hrest]

end Dialogue

/-- Say something, if it was found. -/
def Logged.marked (found : Bool) (r : Logged α) : Logged α :=
  ⟨r.answer, if found then default :: r.reports else r.reports⟩

/-- Compile nodes, and report something about each one that is looked for. -/
def markedNode (look : Expr → State → Bool) (limit : Nat) : (fuel : Nat) → NodeCompiler
  | 0 => fun e position s => (refuseNode limit e.span position s).marked (look e s)
  | fuel + 1 => fun e position s =>
    if s.nesting < limit then
      (compileEntered e position (markedNode look limit fuel) s.enter).leaving.marked (look e s)
    else (refuseNode limit e.span position s).marked (look e s)

/-- Whether a node that is looked for is reached. -/
def finds (look : Expr → State → Bool) (p : Program) (o : Options) : Bool :=
  let limit := o.maxNestingDepth.toNat
  !(compileProgramWith p (markedNode look limit (limit + 1)) (startState o)).reports.isEmpty

variable {look : Expr → State → Bool} {limit fuel : Nat}

theorem markedNode_refused (h : limit ≤ s.nesting) : markedNode look limit fuel e position s =
    (refuseNode limit e.span position s).marked (look e s) := by
  cases fuel with
  | zero => rfl
  | succ fuel => exact if_neg (Nat.not_lt.mpr h)

theorem markedNode_entered (h : s.nesting < limit) : markedNode look limit (fuel + 1) e position s =
    (compileEntered e position (markedNode look limit fuel) s.enter).leaving.marked (look e s) :=
  if_pos h

/-- What is said about nodes changes nothing else. -/
theorem answer_markedNode (look : Expr → State → Bool) (limit : Nat) :
    ∀ (fuel : Nat) (e : Expr) (position : Position) (s : State),
      (markedNode look limit fuel e position s).answer = (compileNode limit fuel e position s).answer
  | 0, _, _, _ => rfl
  | fuel + 1, e, position, s => by
    rcases Nat.lt_or_ge s.nesting limit with hopen | hfull
    · have hspeaks : Speaks (compileEntered e position) := inferInstance
      obtain ⟨d, hd⟩ := hspeaks.dialogue s.enter
      have hinside := Dialogue.answer_run_congr (answer_markedNode look limit fuel) d
      rw [← hd.run_eq, ← hd.run_eq] at hinside
      rw [markedNode_entered hopen, compileNode_entered hopen]
      exact congrArg (fun x => (x.1, x.2.leave)) hinside
    · rw [markedNode_refused hfull, compileNode_refused hfull]
      rfl

theorem reports_marked (found : Bool) (r : Logged α) : r.reports ⊆ (r.marked found).reports := by
  cases found
  · exact List.Subset.refl _
  · exact List.subset_cons_self ..

/-- What is reported about a node is reported. -/
theorem Visited.reports_markedNode (h : Visited p o n e position s) :
    (markedNode look o.maxNestingDepth.toNat (o.maxNestingDepth.toNat + 1 - n) e position s).reports ⊆
      (compileProgramWith p (markedNode look o.maxNestingDepth.toNat (o.maxNestingDepth.toNat + 1))
        (startState o)).reports := by
  induction h with
  | top hd h =>
    rw [hd.run_eq]
    exact (h.congr (answer_markedNode look _ _)).reports
  | @inside n d e e' position position' s s' hv hn hd h ih =>
    have hrun := (h.congr (answer_markedNode look _ _)).reports
    rw [← hd.run_eq] at hrun
    have hfuel : o.maxNestingDepth.toNat + 1 - n = o.maxNestingDepth.toNat + 1 - (n + 1) + 1 := by omega
    rw [hfuel, markedNode_entered (hv.nesting.1 ▸ hn)] at ih
    refine List.Subset.trans hrun (List.Subset.trans ?_ ih)
    exact reports_marked (look e s) (Logged.leaving (compileEntered e position _ s.enter))

/-- Where nothing is looked for, nothing more is reported. -/
theorem markedNode_eq (hnone : ∀ n e position s, Visited p o n e position s → look e s = false) :
    ∀ (fuel n : Nat) (e : Expr) (position : Position) (s : State), o.maxNestingDepth.toNat + 1 - n = fuel →
      Visited p o n e position s → markedNode look o.maxNestingDepth.toNat fuel e position s =
        compileNode o.maxNestingDepth.toNat fuel e position s
  | 0, n, e, position, s, _, hv => by
    show Logged.marked (look e s) _ = _
    rw [hnone n e position s hv]
    rfl
  | fuel + 1, n, e, position, s, hfuel, hv => by
    rcases Nat.lt_or_ge s.nesting o.maxNestingDepth.toNat with hopen | hfull
    · have hspeaks : Speaks (compileEntered e position) := inferInstance
      obtain ⟨d, hd⟩ := hspeaks.dialogue s.enter
      have hn : n < o.maxNestingDepth.toNat := hv.nesting.1 ▸ hopen
      have hnext : o.maxNestingDepth.toNat + 1 - (n + 1) = fuel := by omega
      subst hnext
      have hrun : d.run (markedNode look o.maxNestingDepth.toNat (o.maxNestingDepth.toNat + 1 - (n + 1))) =
          d.run (compilerAt o (n + 1)) :=
        Dialogue.run_congr fun e' position' s' hr =>
          markedNode_eq hnone _ (n + 1) e' position' s' rfl (.inside hv hn hd hr)
      rw [markedNode_entered hopen, compileNode_entered hopen, hd.run_eq, hd.run_eq, hrun,
        hnone n e position s hv]
      rfl
    · rw [markedNode_refused hfull, compileNode_refused hfull, hnone n e position s hv]
      rfl

/-- **Looking for a node finds it.** -/
theorem finds_iff (hclean : (layProgram p o).reports = []) :
    finds look p o = true ↔ ∃ n e position s, Visited p o n e position s ∧ look e s = true := by
  constructor
  · intro hfinds
    by_contra hnone
    have hunseen : ∀ n e position s, Visited p o n e position s → look e s = false :=
      fun n e position s hv => Bool.eq_false_iff.mpr fun hlook => hnone ⟨n, e, position, s, hv, hlook⟩
    have hspeaks : Speaks (compileProgramWith p) := inferInstance
    obtain ⟨d, hd⟩ := hspeaks.dialogue (startState o)
    -- where nothing looked for is reached the search compiles as usual
    have hrun : d.run (markedNode look o.maxNestingDepth.toNat (o.maxNestingDepth.toNat + 1)) =
        d.run (compilerAt o 0) :=
      Dialogue.run_congr fun e position s hr =>
        markedNode_eq hunseen _ 0 e position s rfl (.top hd hr)
    have hnothing : (d.run (compilerAt o 0)).reports = [] := by
      rw [← hd.run_eq]
      exact hclean
    simp [finds, hd.run_eq, hrun, hnothing] at hfinds
  · rintro ⟨n, e, position, s, hv, hlook⟩
    -- at the node that is found the mark is reported, and reports are never taken back
    have hmark : default ∈ (markedNode look o.maxNestingDepth.toNat
        (o.maxNestingDepth.toNat + 1 - n) e position s).reports := by
      have hsaid (r : Logged (Ty × State)) : default ∈ (r.marked (look e s)).reports := by
        rw [hlook]
        exact .head _
      have hn := hv.nesting.2
      rcases Nat.lt_or_ge s.nesting o.maxNestingDepth.toNat with hopen | hfull
      · have hfuel : o.maxNestingDepth.toNat + 1 - n = o.maxNestingDepth.toNat - n + 1 := by omega
        rw [hfuel, markedNode_entered hopen]
        exact hsaid _
      · rw [markedNode_refused hfull]
        exact hsaid _
    have hsome := List.ne_nil_of_mem (hv.reports_markedNode hmark)
    simpa [finds] using hsome

end Strand.Codegen
