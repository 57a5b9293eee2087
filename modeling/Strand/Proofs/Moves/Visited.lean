import Strand.Proofs.Visited

/-!
# Moves of a whole compilation

Every node that is reached lies on the way from the start of a compilation to its end: moves
lead to the state in which it is asked for, from there to the state after it, and on to the
unit of the module.
-/

namespace Strand.Codegen

open Typed (Sound)

variable {α : Type} {K : Setting} {known : Known} {node : NodeCompiler} {e : Expr}
  {position : Position} {s s0 : State} {p : Program} {o : Options} {n : Nat}

/-! ## Dialogues of the same part -/

namespace Dialogue

theorem answer_saying (said : List Diagnostic) (e' : Expr) (position' : Position) (s' : State) :
    (saying said node e position s e' position' s').answer = (node e' position' s').answer := by
  unfold saying
  split
  · rename_i h
    obtain ⟨rfl, rfl, rfl⟩ := h
    rfl
  · rfl

theorem Reaches.saying {d : Dialogue α} (h : d.Reaches node e position s) (said : List Diagnostic) :
    d.Reaches (saying said node e position s) e position s := by
  induction h with
  | here => exact .here
  | later _ ih =>
    refine .later ?_
    rw [answer_saying]
    exact ih

theorem Reaches.length_reports {d : Dialogue α} (h : d.Reaches node e position s) :
    (node e position s).reports.length ≤ (d.run node).reports.length := by
  induction h with
  | here =>
    simp only [run, List.length_append]
    omega
  | later _ ih =>
    simp only [run, List.length_append]
    omega

/-- Which nodes are asked for shows in the results. -/
theorem Reaches.of_run_eq {d d' : Dialogue α} (hrun : ∀ node, d.run node = d'.run node)
    (h : d.Reaches node e position s) : d'.Reaches node e position s := by
  by_contra hnot
  -- say more about the node than is reported altogether
  have hsame (said : List Diagnostic) :
      d.run (Dialogue.saying said node e position s) = d.run node := by
    rw [hrun, hrun]
    exact run_eq_of_not_reaches (fun _ _ _ hne => eq_of_saying_ne hne) d' hnot
  have hlong :=
    (h.saying (List.replicate ((d.run node).reports.length + 1) default)).length_reports
  rw [reports_saying, List.length_replicate, hsame] at hlong
  omega

end Dialogue

/-! ## Running a part -/

section

variable {P : State → Prop} {Q : State → α → State → Prop}

/-- The part comes to its end, by way of the nodes that it asks for. -/
theorem Triple.follow {act : NodeCompiler → Build α} (h : Triple K P act Q) {d : Dialogue α}
    (hd : ∀ node, act node s = d.run node) (hp : P s) (hs : s.Proper K)
    (hnode : ∀ e position s', d.Reaches node e position s' → s'.Proper K →
      (K.clean → (node e position s').reports = []) → Answered K s' (node e position s').answer)
    (hclean : K.clean → (act node s).reports = []) :
    (Progress K s (act node s).answer.2 ∧ Q s (act node s).answer.1 (act node s).answer.2) ∧
      ∀ e position s1, d.Reaches node e position s1 → Progress K s s1 ∧
        Answered K s1 (node e position s1).answer ∧
        Progress K (node e position s1).answer.2 (act node s).answer.2 := by
  obtain ⟨d', hof, hadvances⟩ := h.dialogue s
  have hsame : ∀ node, d.run node = d'.run node :=
    fun node => (hd node).symm.trans (hof.run_eq node)
  have hnode' : ∀ e position s', d'.Reaches node e position s' → s'.Proper K →
      (K.clean → (node e position s').reports = []) → Answered K s' (node e position s').answer :=
    fun e position s' hr => hnode e position s' (hr.of_run_eq fun node => (hsame node).symm)
  rw [hof.run_eq node] at hclean ⊢
  exact ⟨(hadvances hp hs).run hnode' hclean,
    fun e position s1 hr => (hadvances hp hs).reaches hnode' hclean (hr.of_run_eq hsame)⟩

/-- One that asks for no nodes can be run by itself. -/
theorem Triple.run {act : Build α} (h : Triple K P (fun _ => act) Q) (hp : P s) (hs : s.Proper K)
    (hclean : K.clean → (act s).reports = []) :
    Progress K s (act s).answer.2 ∧ Q s (act s).answer.1 (act s).answer.2 := by
  have hnode : ∀ (e : Expr) (position : Position) (s' : State),
      Dialogue.Reaches (default : NodeCompiler) e position s' (.done (act s)) → s'.Proper K →
      (K.clean → ((default : NodeCompiler) e position s').reports = []) →
      Answered K s' ((default : NodeCompiler) e position s').answer := fun _ _ _ hr => by cases hr
  exact (h.follow (d := .done (act s)) (fun _ => rfl) hp hs hnode hclean).1

end

/-! ## Nodes -/

/-- A node is refused only if something is reported. -/
theorem not_clean_of_refuseNode {limit : Nat} {span : Span} (hs : s.Proper K)
    (hclean : K.clean → (refuseNode limit span position s).reports = []) : ¬ K.clean := by
  intro hc
  have hreports := hclean hc
  rw [reports_refuseNode, hs.entered hc] at hreports
  cases hreports

/-- A node that is refused counts as null. -/
theorem answered_refuseNode {limit : Nat} {span : Span} (hs : s.Proper K)
    (hclean : K.clean → (refuseNode limit span position s).reports = []) :
    Answered K s (refuseNode limit span position s).answer := by
  have hnot := not_clean_of_refuseNode hs hclean
  obtain ⟨frame, outer, decls, nesting, refused, typeCheck⟩ := s
  have hnull : frame.Change K outer (frame.emit .pushNull span.line) :=
    .emit hs.frame fun hc => absurd hc hnot
  have hemitted := hnull.progress hs
  have hprogress : Progress K ⟨frame, outer, decls, nesting, refused, typeCheck⟩
      ⟨frame.emit .pushNull span.line, outer, decls, nesting, true, typeCheck⟩ :=
    ⟨fun hc => absurd hc hnot, hemitted.proper.frames, hs.decls, fun hc => absurd hc hnot⟩
  have hsame : Progress K ⟨frame, outer, decls, nesting, refused, typeCheck⟩
      ⟨frame, outer, decls, nesting, true, typeCheck⟩ :=
    ⟨fun hc => absurd hc hnot, hs.frames, hs.decls, fun hc => absurd hc hnot⟩
  have hkept : State.Held K ⟨frame, outer, decls, nesting, refused, typeCheck⟩
      ⟨frame.emit .pushNull span.line, outer, decls, nesting, true, typeCheck⟩ :=
    ⟨⟨hnull.kept, allSuspended_refl _, rfl, rfl⟩, .same hnull.macros rfl⟩
  cases refused <;> cases position
  · exact ⟨trivial, hkept, hprogress⟩
  · exact ⟨trivial, .same rfl rfl rfl, hsame⟩
  · exact ⟨trivial, hkept, hprogress⟩
  · exact ⟨trivial, .refl _, hsame⟩

/-- Neither entering nor leaving a node touches what is stored. -/
theorem State.Proper.enter (hs : s.Proper K) : s.enter.Proper K := ⟨hs.frames, hs.decls, hs.entered⟩

theorem State.Proper.leave (hs : s.Proper K) : s.leave.Proper K := ⟨hs.frames, hs.decls, hs.entered⟩

theorem Setting.Allows.enter {kind : ExprKind} (h : K.Allows kind s) : K.Allows kind s.enter := ⟨h.1, h.2⟩

/-- What was answered one level deeper is answered when the level has been left. -/
theorem Answered.leaving {x : Ty × State} (h : Answered K s.enter x) : Answered K s (x.1, x.2.leave) where
  ty := h.ty
  kept := by
    have hnesting : x.2.leave.nesting = s.nesting := congrArg (· - 1) h.kept.nesting
    exact ⟨⟨h.kept.frame, h.kept.outer, hnesting, h.kept.typeCheck⟩, h.kept.macros.frame, h.kept.macros.outer⟩
  progress := ⟨h.progress.moves, h.progress.proper.leave⟩

section

theorem triple_allowed : Triple K (K.Allows e.kind) (compileEntered e position) fun s ty s' =>
    Sound ty ∧ s.Held K s' := by
  have hentered : Advances (.start (K.Allows e.kind)) K (compileEntered e position) := advances_entered
  exact hentered.yields.fresh fun _ hs => hs

/-- A node that is compiled in good order is answered as it should be. -/
theorem answered_inside (limit : Nat) : ∀ (fuel : Nat) {e : Expr} {position : Position} {s : State},
    (∀ {e' position' s'}, Inside limit fuel e position s e' position' s' → K.Allows e'.kind s') →
    s.Proper K → (K.clean → (compileNode limit fuel e position s).reports = []) →
    Answered K s (compileNode limit fuel e position s).answer
  | 0, _, _, _, _, hs, hclean => answered_refuseNode hs hclean
  | fuel + 1, e, position, s, hallows, hs, hclean => by
    rcases Nat.lt_or_ge s.nesting limit with hopen | hfull
    · rw [compileNode_entered hopen] at hclean ⊢
      have hspeaks : Speaks (compileEntered e position) := inferInstance
      obtain ⟨d, hd⟩ := hspeaks.dialogue s.enter
      obtain ⟨⟨hprogress, hty, hkept⟩, -⟩ := triple_allowed.follow hd.run_eq (hallows .here).enter hs.enter
        (fun _ _ _ hr => answered_inside limit fuel fun h => hallows (.deeper hopen hd hr h)) hclean
      have hdeeper : Answered K s.enter _ := ⟨hty, hkept, hprogress⟩
      exact hdeeper.leaving
    · rw [compileNode_refused hfull] at hclean ⊢
      exact answered_refuseNode hs hclean

/-- Every node that is reached in good order is answered as it should be. -/
theorem answered_of_visited
    (hallows : ∀ {n e position s}, Visited p o n e position s → K.Allows e.kind s)
    (hv : Visited p o n e position s) : s.Proper K →
      (K.clean → (compilerAt o n e position s).reports = []) →
      Answered K s (compilerAt o n e position s).answer :=
  answered_inside _ _ fun h => (h.visited rfl hv).elim fun _ hv' => hallows hv'

end

/-- Whatever node it is, and whatever is reported. -/
theorem answered_compileNode (limit fuel : Nat) (hs : s.Proper .free) :
    Answered .free s (compileNode limit fuel e position s).answer :=
  answered_inside limit fuel (fun _ => Setting.free_allows _ _) hs fun hc => hc.elim

/-! ## Programs -/

/-- The frame of a module holds nothing but what the host supplies. -/
theorem proper_startState (h : ∀ name ∈ o.hostGlobals, K.assignable name) :
    (startState o).Proper K := by
  have hglobals : ∀ e ∈ (moduleFrame o.hostGlobals).globals.entries,
      e.2.ty.WellFormed ∧ K.Admits e := by
    refine List.foldlRecOn (motive := fun t : Table GlobalBinding => ∀ e ∈ t.entries,
      e.2.ty.WellFormed ∧ K.Admits e) _ _ (fun _ he => absurd he List.not_mem_nil)
      fun t ht name hname => Table.forall_insert ht ⟨trivial, fun _ => h name hname⟩
  have hstart : (Frame.start "<main>" .module none .any).Proper K := Frame.proper_start trivial
  refine ⟨List.forall_mem_singleton.mpr ⟨⟨hstart.locals, fun e he => (hglobals e he).1, fun e he => ?_,
    hstart.returnType⟩, fun e he => (hglobals e he).2, hstart.settled, hstart.macros, hstart.pool⟩,
    Declarations.wellFormed_empty, fun _ => rfl⟩
  obtain ⟨_, -, rfl⟩ := List.mem_map.mp he
  trivial

section

variable (hallows : ∀ {n e position s}, Visited p o n e position s → K.Allows e.kind s)
  (hclean : K.clean → (layProgram p o).reports = []) (hstart : (startState o).Proper K)

include hallows hclean hstart

/-- A compilation is progress, and its unit is the one that is left in the end. -/
theorem progress_layProgram : Progress K (startState o) (layProgram p o).answer.2 ∧
    ((layProgram p o).answer.1 = (layProgram p o).answer.2.frame.toUnit ∧
      (layProgram p o).answer.2.outer = []) ∧
    (layProgram p o).answer.1.manifest.globals = ownGlobals (layProgram p o).answer.2.frame.globals := by
  have hspeaks : Speaks (compileProgramWith p) := inferInstance
  obtain ⟨d, hd⟩ := hspeaks.dialogue (startState o)
  exact (triple_program.follow hd.run_eq rfl hstart
    (fun _ _ _ hr => answered_of_visited hallows (.top hd hr)) hclean).1

/-- Every node that is reached lies on the way. -/
theorem progress_of_visited (hv : Visited p o n e position s) :
    Progress K (startState o) s ∧ Answered K s (compilerAt o n e position s).answer ∧
      Progress K (compilerAt o n e position s).answer.2 (layProgram p o).answer.2 := by
  induction hv with
  | top hd h =>
    exact (triple_program.follow hd.run_eq rfl hstart
      (fun _ _ _ hr => answered_of_visited hallows (.top hd hr)) hclean).2 _ _ _ h
  | @inside n d e e' position position' s s' hv hn hd h ih =>
    obtain ⟨hto, -, hfrom⟩ := ih
    have hreports := hv.reports
    rw [compilerAt_entered hv.nesting.1 hn] at hfrom hreports
    obtain ⟨hto', hanswered', hfrom'⟩ :=
      (triple_allowed.follow hd.run_eq (hallows hv).enter hto.proper.enter
        (fun _ _ _ hr => answered_of_visited hallows (.inside hv hn hd hr))
        fun hc => List.subset_nil.mp (hclean hc ▸ hreports)).2 _ _ _ h
    -- between entering the node and leaving it the units are those of the states around
    have hinto : Progress K (startState o) s.enter := ⟨hto.moves, hto.proper.enter⟩
    have hout : Progress K (compileEntered e position (compilerAt o (n + 1)) s.enter).answer.2
      (layProgram p o).answer.2 := ⟨hfrom.moves, hfrom.proper⟩
    exact ⟨hinto.trans hto', hanswered', hfrom'.trans hout⟩

end

/-- All that is stored is in order wherever a node is reached, whatever is reported. -/
theorem Visited.proper (hv : Visited p o n e position s) : s.Proper .free :=
  (progress_of_visited (fun _ => Setting.free_allows _ _) (fun hc => hc.elim)
    (proper_startState fun _ _ => trivial) hv).1.proper

/-- If nothing is reported, every node that is reached is entered. -/
theorem Visited.entered (hv : Visited p o n e position s) (hs : s.Proper K)
    (hclean : K.clean) (hreports : (layProgram p o).reports = []) : n < o.maxNestingDepth.toNat := by
  by_contra hdeep
  have hfull : o.maxNestingDepth.toNat ≤ s.nesting := hv.nesting.1.symm ▸ Nat.not_lt.mp hdeep
  have hnode := hv.reports
  rw [compilerAt, compileNode_refused hfull, hreports] at hnode
  exact not_clean_of_refuseNode hs (fun _ => List.subset_nil.mp hnode) hclean

end Strand.Codegen
