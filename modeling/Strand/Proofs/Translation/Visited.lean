import Strand.Proofs.Translation.Program
import Strand.Proofs.VisitedSearch

/-!
# The states in which nodes are translated

Code generation follows the schemes from states in which all frames are sound. In a
compilation that reports no more than type errors no other state is reached, and no node that
is not one of the program. To see this, let a node compiler stop checking types wherever it is
asked for such a node or in such a state. It still follows the schemes where it has to, so
what is compiled with it leaves alone whether types are checked; and because type checking
changes nothing else, it reports what was reported before. So it is never asked.
-/

namespace Strand.Codegen

variable {α : Type} {node : NodeCompiler} {e : Expr} {position : Position} {s s0 : State}
  {good : Expr → State → Prop} {act : NodeCompiler → Build α} {d d' : Dialogue α}

/-! ## With and without type checking -/

theorem State.unchecked_of_typeCheck (h : s.typeCheck = false) : s.unchecked = s := by
  unfold State.unchecked
  rw [← h]

/-- A node compiler for which type checking makes no difference. -/
abbrev BlindNodes (node : NodeCompiler) : Prop := ∀ e position, Blind (node e position)

theorem BlindNodes.unchecked (hnode : BlindNodes node) (h : s.typeCheck = false) :
    (node e position s).unchecked = node e position s := by
  rw [← (hnode e position).unchecked, State.unchecked_of_typeCheck h]

/-- What does not check types does not start to. -/
theorem BlindNodes.typeCheck (hnode : BlindNodes node) (h : s.typeCheck = false) :
    (node e position s).answer.2.typeCheck = false := by
  rw [← hnode.unchecked h]
  rfl

theorem Dialogue.Reaches.typeCheck (h : d.Reaches node e position s) (hnode : BlindNodes node)
    (hd : d.Steady s0) (h0 : s0.typeCheck = false) : s.typeCheck = false := by
  induction h generalizing s0 with
  | here =>
    cases hd with
    | asks hmarks _ _ => exact (State.typeCheck_of_marks hmarks).trans h0
  | later _ ih =>
    cases hd with
    | asks hmarks _ hnext =>
      exact ih (hnext _) (hnode.typeCheck ((State.typeCheck_of_marks hmarks).trans h0))

theorem clean_iff_unchecked {r : Logged (α × State)} :
    Clean r.reports ↔ r.unchecked.reports = [] := by
  unfold Clean Logged.unchecked
  simp only [List.filter_eq_nil_iff, bne_iff_ne, ne_eq, not_not]

/-! ## Nodes are reached in the same states -/

open Classical in
/-- Compile nodes as `node` does, and say something about one of them that is no type error. -/
noncomputable def alluding (times : Nat) (node : NodeCompiler) (e : Expr) (position : Position)
    (s : State) : NodeCompiler := fun e' position' s' =>
  ⟨(node e' position' s').answer,
    (if e' = e ∧ position' = position ∧ s'.unchecked = s then
      List.replicate times ⟨.nestingTooDeep 0, .zero⟩ else []) ++ (node e' position' s').reports⟩

theorem blindNodes_alluding (hnode : BlindNodes node) (times : Nat) :
    BlindNodes (alluding times node e position s) := by
  intro e' position'
  constructor
  intro s'
  have hsame : s'.unchecked.unchecked = s'.unchecked := rfl
  unfold alluding
  rw [(hnode e' position').unchecked, hsame]
  split <;> simp [Logged.unchecked, Diagnostic.kind, Cause.kind]

/-- What is reached without type checking is reached with it. -/
theorem Dialogue.Of.reaches_checked (hd : d.Of act s0) (hd' : d'.Of act s0.unchecked)
    (hact : ∀ node, BlindNodes node → Blind (act node)) (hnode : BlindNodes node)
    (h : d'.Reaches node e position s) :
    ∃ s', d.Reaches node e position s' ∧ s'.unchecked = s := by
  by_contra hnone
  -- say more about the node than is reported altogether; with type checking it is not heard
  let node' := alluding ((act node s0.unchecked).reports.length + 1) node e position s
  have hunheard : act node' s0 = act node s0 := by
    rw [hd.run_eq, hd.run_eq]
    refine Dialogue.run_congr fun e' position' s' hr => ?_
    have hother : ¬ (e' = e ∧ position' = position ∧ s'.unchecked = s) := by
      rintro ⟨rfl, rfl, hs'⟩
      exact hnone ⟨s', hr, hs'⟩
    show alluding _ node e position s e' position' s' = _
    rw [alluding, if_neg hother, List.nil_append]
  have hsame : act node' s0.unchecked = act node s0.unchecked := by
    rw [(hact node' (blindNodes_alluding hnode _)).unchecked, hunheard, ← (hact node hnode).unchecked]
  have hreached : d'.Reaches node' e position s := h.congr fun _ _ _ => rfl
  have hlong := hreached.sublist.length_le
  rw [← hd'.run_eq, hsame] at hlong
  have hunchecked : s.unchecked = s :=
    State.unchecked_of_typeCheck (h.typeCheck hnode hd'.steady rfl)
  have hsaid : (node' e position s).reports.length =
      (act node s0.unchecked).reports.length + 1 + (node e position s).reports.length := by
    show (alluding _ node e position s e position s).reports.length = _
    rw [alluding, if_pos ⟨rfl, rfl, hunchecked⟩, List.length_append, List.length_replicate]
  omega

/-! ## Nodes are reached in sound states -/

open Classical in
/-- Compile nodes as `node` does, but stop checking types where this is not good. -/
noncomputable def unchecking (good : Expr → State → Prop) (node : NodeCompiler) : NodeCompiler :=
  fun e position s => if good e s then node e position s else (node e position s).unchecked

theorem leavesMark_unchecking (hnode : BlindNodes node) :
    LeavesMark false good node (unchecking good node) where
  same _ _ _ h := if_pos h
  marked e position s h := by
    rw [unchecking, if_neg h]
    rfl
  stays e position s h := by
    unfold unchecking
    split
    · exact hnode.typeCheck h
    · rfl

theorem blindNodes_unchecking (hnode : BlindNodes node)
    (hgood : ∀ e s, good e (State.unchecked s) ↔ good e s) : BlindNodes (unchecking good node) := by
  intro e position
  constructor
  intro s
  have hblind := (hnode e position).unchecked s
  have htwice : (node e position s).unchecked.unchecked = (node e position s).unchecked := by
    simp [Logged.unchecked, State.unchecked]
  by_cases h : good e s
  · rw [unchecking, if_pos ((hgood e s).mpr h), unchecking, if_pos h, hblind]
  · rw [unchecking, if_neg (fun h' => h ((hgood e s).mp h')), unchecking, if_neg h, hblind]

/-- Where types are not checked anyway, nothing changes. -/
theorem act_unchecking [hspeaks : Speaks act] (hnode : BlindNodes node) (h : s.typeCheck = false) :
    act (unchecking good node) s = act node s := by
  obtain ⟨d, hd⟩ := hspeaks.dialogue s
  rw [hd.run_eq, hd.run_eq]
  refine Dialogue.run_congr fun e position s' hr => ?_
  unfold unchecking
  split
  · rfl
  · exact hnode.unchecked (hr.typeCheck hnode hd.steady h)

/-- A part that leaves alone whether types are checked, as long as nodes do so where this is
good, asks for nodes only where it is. -/
theorem Dialogue.Of.reaches_good [hspeaks : Speaks act] (hact : ∀ node, BlindNodes node → Blind (act node))
    (hnode : BlindNodes node) (hgood : ∀ e s, good e (State.unchecked s) ↔ good e s)
    (hkeeps : ∀ s, s.unchecked = s0.unchecked → Clean (act (unchecking good node) s).reports →
      (act (unchecking good node) s).answer.2.typeCheck = s.typeCheck)
    (hclean : Clean (act node s0).reports) (hd : d.Of act s0) (h : d.Reaches node e position s) :
    good e s := by
  -- the same with type checking
  let s1 : State := { s0 with typeCheck := true }
  have hsame (node' : NodeCompiler) (hnode' : BlindNodes node') :
      (act node' s1).unchecked = act node' s0.unchecked := ((hact node' hnode').unchecked s1).symm
  obtain ⟨d1, s', hd1, hreached, hs'⟩ : ∃ (d1 : Dialogue α) (s' : State), d1.Of act s1 ∧
      d1.Reaches node e position s' ∧ s'.unchecked = s.unchecked := by
    cases htype : s0.typeCheck with
    | true =>
      have heq : s1 = s0 := by
        show { s0 with typeCheck := true } = s0
        rw [← htype]
      exact ⟨d, s, heq ▸ hd, h, rfl⟩
    | false =>
      have heq : s1.unchecked = s0 := State.unchecked_of_typeCheck htype
      obtain ⟨d1, hd1⟩ := hspeaks.dialogue s1
      obtain ⟨s', hreached, hs'⟩ := hd1.reaches_checked (heq.symm ▸ hd) hact hnode h
      exact ⟨d1, s', hd1, hreached, by rw [← hs']⟩
  by_contra hbad
  have hbad' : ¬ good e s' := by rwa [← hgood e s', hs', hgood e s]
  -- where this is not good types are no longer checked, and nothing else is different
  have hunchecked := hreached.typeCheck_run (leavesMark_unchecking hnode) hbad' hd1.steady
  rw [← hd1.run_eq] at hunchecked
  have hsilent : act (unchecking good node) s0.unchecked = act node s0.unchecked :=
    act_unchecking hnode rfl
  have hclean' : Clean (act (unchecking good node) s1).reports := by
    rw [clean_iff_unchecked, hsame _ (blindNodes_unchecking hnode hgood), hsilent,
      (hact node hnode).unchecked, ← clean_iff_unchecked]
    exact hclean
  rw [hkeeps s1 rfl hclean'] at hunchecked
  cases hunchecked

section

variable {p : Program} {scheme : NodeScheme}

theorem Inv.unchecked (h : Inv p s) : Inv p s.unchecked := ⟨h.refused, h.frame, h.outer⟩

theorem inv_unchecked_iff : Inv p s.unchecked ↔ Inv p s :=
  ⟨fun h => ⟨h.refused, h.frame, h.outer⟩, Inv.unchecked⟩

/-- A node of the program, in a state in which all frames are sound. -/
def InOrder (p : Program) (e : Expr) (s : State) : Prop := (∃ st, Occurs p st e) ∧ Inv p s

theorem Implements.unchecking (hnode : Implements p node scheme) :
    Implements p (Codegen.unchecking (InOrder p) node) scheme where
  does {st e} he position s hs := by
    have hsame : Codegen.unchecking (InOrder p) node e position s = node e position s :=
      if_pos ⟨⟨st, he⟩, hs⟩
    unfold Ensures
    rw [hsame]
    exact hnode.does he position s hs
  translated := hnode.translated

/-- A part that follows a scheme when nodes do asks for nodes of the program in sound states. -/
theorem Dialogue.Of.inOrder [Speaks act] (hact : ∀ node, BlindNodes node → Blind (act node))
    (hdoes : ∀ {node}, Implements p node scheme → ∀ s, Inv p s →
      Ensures s (act node) fun _ s' => s'.typeCheck = s.typeCheck)
    (hblind : BlindNodes node) (hnode : Implements p node scheme) (hs : Inv p s0)
    (hclean : Clean (act node s0).reports) (hd : d.Of act s0) (h : d.Reaches node e position s) :
    InOrder p e s := by
  refine hd.reaches_good hact hblind (fun _ _ => and_congr_right' inv_unchecked_iff) (fun s hsame => ?_)
    hclean h
  refine hdoes hnode.unchecking s (inv_unchecked_iff.mp ?_)
  rw [hsame]
  exact hs.unchecked

end

/-! ## Programs -/

variable {p : Program} {o : Options} {n : Nat}

theorem Visited.clean (hclean : Clean (layProgram p o).reports) (hv : Visited p o n e position s) :
    Clean (compilerAt o n e position s).reports :=
  fun r hr => hclean r (hv.reports hr)

theorem typeCheck_endUnit (s : State) : (endUnit s).answer.2.typeCheck = s.typeCheck := by
  obtain ⟨frame, outer, decls, nesting, refused, typeCheck⟩ := s
  cases outer <;> rfl

/-- **Only nodes of the program are reached, and only in sound states.** -/
theorem Visited.inOrder (hclean : Clean (layProgram p o).reports)
    (hv : Visited p o n e position s) : InOrder p e s := by
  induction hv with
  | @top d e position s hd h =>
    refine hd.inOrder (fun _ => blind_program) (fun {node} hnode s hs => ?_) (blind_compileNode _ _)
      (implements_compileNode p _ _) (inv_moduleFrame p o.hostGlobals o.typeCheck) hclean h
    have hprogram := (does_program hnode.toObeys).first (f := fun _ => endUnit)
      (Q := fun _ s' => s'.typeCheck = s.typeCheck) hs fun _ s' h' _ =>
        (typeCheck_endUnit s').trans h'.beside.typeCheck
    simp only [bind_assoc] at hprogram
    exact hprogram
  | @inside n d e e' position position' s s' hv hn hd h ih =>
    obtain ⟨⟨st, he⟩, hs⟩ := ih
    have hreports := hv.clean hclean
    rw [compilerAt_entered hv.nesting.1 hn] at hreports
    refine hd.inOrder (fun _ => blind_entered) (fun {node} hnode s hs => ?_) (blind_compileNode _ _)
      (implements_compileNode p _ _) (hs.quiet (quiet_enter s)) hreports h
    exact (does_entered hnode he position s hs).imp fun _ _ h' => h'.beside.typeCheck

end Strand.Codegen
