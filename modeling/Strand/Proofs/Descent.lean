import Strand.Proofs.TypeChecking

/-!
# The descent into nodes

A macro puts a tree in the place of a name, and one that mentions itself does so without
end. What bounds the descent is the counter of the nodes that are being compiled, which is a
part of the state: it goes up when a node is entered and down when it is left, and at the limit
a node is refused.

`Descends` says how a descent goes, by the dialogues of the nodes and without fuel. It always
comes to an end, with the counter as it was, because every part of the code generator leaves the
counter to the nodes. So the code generator never runs out of fuel: its result is that of the
descent, with any amount from the levels that are left on. The first refusal is reported, and
no other.
-/

namespace Strand

variable {reports : List Diagnostic}

namespace Codegen

variable {α : Type} {limit n : Nat} {s s' : State} {r : Logged (α × State)}

/-- What a descent ends with. -/
structure Descent (α : Type) where
  result : Logged (α × State)
  /-- How many nodes were entered and not left yet, at most, at any time in between. -/
  peak : Nat
  /-- How many nodes were refused. -/
  refusals : Nat

mutual

/-- Compiling a node. -/
inductive Descends (limit : Nat) : Expr → Position → State → Descent Ty → Prop where
  | refused {e : Expr} {position : Position} {s : State} (h : limit ≤ s.nesting) :
      Descends limit e position s ⟨refuseNode limit e.span position s, 0, 1⟩
  | entered {e : Expr} {position : Position} {s : State} {d : Dialogue Ty} {x : Descent Ty}
      (h : s.nesting < limit) (hd : d.Of (compileEntered e position) s.enter)
      (hx : Continues limit d x) :
      Descends limit e position s ⟨x.result.leaving, x.peak + 1, x.refusals⟩

/-- Holding a dialogue. -/
inductive Continues (limit : Nat) : {α : Type} → Dialogue α → Descent α → Prop where
  | done {α : Type} {r : Logged (α × State)} : Continues limit (.done r) ⟨r, 0, 0⟩
  | asks {α : Type} {said : List Diagnostic} {e : Expr} {position : Position} {s : State}
      {next : Ty × State → Dialogue α} {x : Descent Ty} {y : Descent α}
      (hx : Descends limit e position s x) (hy : Continues limit (next x.result.answer) y) :
      Continues limit (.asks said e position s next)
        ⟨⟨y.result.answer, said ++ (x.result.reports ++ y.result.reports)⟩, max x.peak y.peak,
          x.refusals + y.refusals⟩

end

/-- What holds of a descent that is started in `s` and that should give `expected`. -/
structure Descent.Accounts (limit : Nat) (s : State) (expected : Logged (α × State))
    (x : Descent α) : Prop where
  result : x.result = expected
  nesting : x.result.answer.2.nesting = s.nesting
  peak : x.peak ≤ limit - s.nesting
  refused : x.result.answer.2.refused = (s.refused || x.refusals != 0)
  /-- A refusal is reported when it is the first. -/
  reported : nestings x.result.reports + s.refused.toNat = x.result.answer.2.refused.toNat
  cause : ∀ r ∈ x.result.reports, r.cause.isNesting = true → r.cause = .nestingTooDeep limit

theorem isNesting_of_silent (h : nestings reports = 0) : ∀ r ∈ reports, r.cause.isNesting = false :=
  fun r hr => Bool.eq_false_iff.mpr (List.countP_eq_zero.mp h r hr)

theorem refused_refuseNode (limit : Nat) (span : Span) (position : Position) (s : State) :
    (refuseNode limit span position s).answer.2.refused = true := by
  obtain ⟨frame, outer, decls, nesting, refused, typeCheck⟩ := s
  cases refused <;> cases position <;> rfl

theorem nesting_refuseNode (limit : Nat) (span : Span) (position : Position) (s : State) :
    (refuseNode limit span position s).answer.2.nesting = s.nesting := by
  obtain ⟨frame, outer, decls, nesting, refused, typeCheck⟩ := s
  cases refused <;> cases position <;> rfl

theorem reports_refuseNode (limit : Nat) (span : Span) (position : Position) (s : State) :
    (refuseNode limit span position s).reports =
      if s.refused then [] else [⟨.nestingTooDeep limit, span⟩] := by
  obtain ⟨frame, outer, decls, nesting, refused, typeCheck⟩ := s
  cases refused <;> cases position <;> cases typeCheck <;> rfl

/-- The refusal of a node: the first one is reported, all are noted. -/
theorem Descent.Accounts.ofRefused (limit : Nat) (e : Expr) (position : Position) (s : State) :
    Accounts limit s (refuseNode limit e.span position s)
      ⟨refuseNode limit e.span position s, 0, 1⟩ where
  result := rfl
  nesting := nesting_refuseNode ..
  peak := Nat.zero_le _
  refused := by
    rw [refused_refuseNode]
    exact (Bool.or_true _).symm
  reported := by
    rw [refused_refuseNode, reports_refuseNode]
    cases s.refused <;> rfl
  cause r hr _ := by
    rw [reports_refuseNode] at hr
    cases hs : s.refused with
    | true =>
      rw [hs] at hr
      exact absurd hr List.not_mem_nil
    | false =>
      rw [hs] at hr
      cases List.mem_singleton.mp hr
      rfl

/-- A dialogue that has come to its end. -/
theorem Descent.Accounts.ofDone (hmarks : r.answer.2.marks = s.marks)
    (hsilent : nestings r.reports = 0) : Accounts limit s r ⟨r, 0, 0⟩ where
  result := rfl
  nesting := State.nesting_of_marks hmarks
  peak := Nat.zero_le _
  refused := (State.refused_of_marks hmarks).trans (Bool.or_false _).symm
  reported := by rw [hsilent, State.refused_of_marks hmarks, Nat.zero_add]
  cause r hr hnesting := by
    rw [isNesting_of_silent hsilent r hr] at hnesting
    cases hnesting

/-- A node and then the rest of the dialogue. -/
theorem Descent.Accounts.ofAsks {said : List Diagnostic} {a : Logged (Ty × State)}
    {x : Descent Ty} {y : Descent α} (hmarks : s'.marks = s.marks)
    (hsilent : nestings said = 0) (hx : x.Accounts limit s' a) (hy : y.Accounts limit a.answer.2 r) :
    Accounts limit s ⟨r.answer, said ++ (a.reports ++ r.reports)⟩
      ⟨⟨y.result.answer, said ++ (x.result.reports ++ y.result.reports)⟩, max x.peak y.peak,
        x.refusals + y.refusals⟩ := by
  have hnesting := State.nesting_of_marks hmarks
  have hrefused := State.refused_of_marks hmarks
  -- the node leaves the counter as it was, so the rest of the dialogue goes on from there
  have hafter : a.answer.2.nesting = s.nesting := by rw [← hx.result, hx.nesting, hnesting]
  have hbefore := hx.refused
  have hfirst := hx.reported
  rw [hx.result, hrefused] at hbefore hfirst
  have hpeak := hx.peak
  have hpeak' := hy.peak
  rw [hnesting] at hpeak
  rw [hafter] at hpeak'
  refine ⟨by rw [hx.result, hy.result], hy.nesting.trans hafter, Nat.max_le.mpr ⟨hpeak, hpeak'⟩, ?_, ?_,
    fun d hd hnesting => ?_⟩
  · rw [hy.refused, hbefore, Bool.or_assoc]
    congr 1
    -- a sum of two counts is zero when both are
    cases x.refusals <;> cases y.refusals <;> rfl
  · have hrest := hy.reported
    rw [hx.result, nestings_append, nestings_append, hsilent]
    dsimp only
    omega
  · rcases List.mem_append.mp hd with hd | hd
    · rw [isNesting_of_silent hsilent d hd] at hnesting
      cases hnesting
    · rcases List.mem_append.mp hd with hd | hd
      · exact hx.cause d hd hnesting
      · exact hy.cause d hd hnesting

/-- A node that is entered, from the dialogue that compiles it one level deeper. -/
theorem Descent.Accounts.entered {expected : Logged (Ty × State)} {x : Descent Ty}
    (hx : x.Accounts limit s.enter expected) (h : s.nesting < limit) :
    Accounts limit s expected.leaving ⟨x.result.leaving, x.peak + 1, x.refusals⟩ where
  result := by rw [hx.result]
  nesting := by
    have hinside := hx.nesting
    show x.result.answer.2.nesting - 1 = s.nesting
    rw [hinside]
    rfl
  peak := by
    have hpeak : x.peak ≤ limit - (s.nesting + 1) := hx.peak
    show x.peak + 1 ≤ limit - s.nesting
    omega
  refused := hx.refused
  reported := hx.reported
  cause := hx.cause

/-- What is known about the descent into a node when `n` nodes are being compiled. -/
def Accountable (limit n : Nat) (node : NodeCompiler) : Prop :=
  ∀ e position s, s.nesting = n → (∃ x, Descends limit e position s x) ∧
    ∀ x, Descends limit e position s x → x.Accounts limit s (node e position s)

/-- A dialogue is accounted for when the nodes in it are, by induction on the dialogue. -/
theorem Accountable.continues {node : NodeCompiler} (h : Accountable limit n node) {d : Dialogue α}
    (hd : d.Steady s) (hs : s.nesting = n) :
    (∃ x, Continues limit d x) ∧ ∀ x, Continues limit d x → x.Accounts limit s (d.run node) := by
  induction hd with
  | done hmarks hsilent =>
    refine ⟨⟨_, .done⟩, fun x hx => ?_⟩
    cases hx
    exact .ofDone hmarks hsilent
  | @asks s s' said e position next hmarks hsilent _ ih =>
    have hs' : s'.nesting = n := (State.nesting_of_marks hmarks).trans hs
    obtain ⟨⟨x, hx⟩, hnode⟩ := h e position s' hs'
    constructor
    · obtain ⟨⟨y, hy⟩, -⟩ := ih x.result.answer ((hnode x hx).nesting.trans hs')
      exact ⟨_, .asks hx hy⟩
    · intro z hz
      cases hz with
      | asks hx hy =>
        have hax := hnode _ hx
        have hafter := hax.nesting.trans hs'
        rw [hax.result] at hy hafter
        exact .ofAsks hmarks hsilent hax ((ih _ hafter).2 _ hy)

/-- The descent into a node does what is computed with as much fuel as there are levels left, or
more, by induction on the fuel. -/
theorem accountable_compileNode (limit : Nat) : ∀ fuel n, limit ≤ n + fuel →
    Accountable limit n (compileNode limit fuel)
  | fuel, n, hfuel, e, position, s, hs => by
    rcases Nat.lt_or_ge s.nesting limit with hopen | hfull
    · obtain ⟨fuel, rfl⟩ : ∃ k, fuel = k + 1 := ⟨fuel - 1, by omega⟩
      have hinside := accountable_compileNode limit fuel (n + 1) (by omega)
      have hdeeper : s.enter.nesting = n + 1 := congrArg (· + 1) hs
      constructor
      · have hspeaks : Speaks (compileEntered e position) := inferInstance
        obtain ⟨d, hd⟩ := hspeaks.dialogue s.enter
        obtain ⟨x, hx⟩ := (hinside.continues hd.steady hdeeper).1
        exact ⟨_, .entered hopen hd hx⟩
      · intro x hx
        cases hx with
        | refused hfull => exact absurd hopen (Nat.not_lt.mpr hfull)
        | entered h hd hx =>
          have hrun := ((hinside.continues hd.steady hdeeper).2 _ hx).entered hopen
          rw [← hd.run_eq, ← compileNode_entered hopen] at hrun
          exact hrun
    · -- no level is left, so the node is refused whatever the fuel is
      rw [compileNode_refused hfull]
      refine ⟨⟨_, .refused hfull⟩, fun x hx => ?_⟩
      cases hx with
      | refused => exact .ofRefused limit e position s
      | entered h => exact absurd hfull (Nat.not_le.mpr h)

/-- The state in which a program is laid down. -/
def startState (o : Options) : State :=
  { frame := moduleFrame o.hostGlobals, typeCheck := o.typeCheck }

/-- The descent into a whole program, with no node being compiled at first. -/
theorem accounts_compileProgram {p : Program} {o : Options} {d : Dialogue CodeUnit}
    (hd : d.Of (compileProgramWith p) (startState o)) :
    (∃ x, Continues o.maxNestingDepth.toNat d x) ∧
      ∀ x, Continues o.maxNestingDepth.toNat d x →
        x.Accounts o.maxNestingDepth.toNat (startState o) (layProgram p o) := by
  have hnode := accountable_compileNode o.maxNestingDepth.toNat (o.maxNestingDepth.toNat + 1) 0 (by omega)
  have hprogram := hnode.continues hd.steady rfl
  rw [← hd.run_eq] at hprogram
  exact hprogram

end Codegen

open Codegen

theorem exists_nesting (h : nestings reports ≠ 0) : ∃ r ∈ reports, r.cause.isNesting = true := by
  by_contra hnone
  exact h (List.countP_eq_zero.mpr fun r hr hnesting => hnone ⟨r, hr, hnesting⟩)

/-- **Compiling comes to an end with no more nodes open than the limit allows.** In every state
the descent into a node ends, with the counter of the state as it was, and so does the one into a
program; in between no more than the limit are being compiled. It is what the code generator does,
and fuel has no part in it: any amount from the levels that are left on gives the same. It is
reported at most once that nodes are nested too deeply, and then the program fails, if and only if
a node was refused anywhere. -/
theorem compile_boundedDescent (p : Program) (o : Options) :
    let limit := o.maxNestingDepth.toNat
    (∀ e position s, (∃ x, Descends limit e position s x) ∧
      ∀ x, Descends limit e position s x →
        (∀ fuel, limit ≤ s.nesting + fuel → compileNode limit fuel e position s = x.result) ∧
          x.result.answer.2.nesting = s.nesting ∧ x.peak ≤ limit - s.nesting) ∧
    (∃ d x, d.Of (compileProgramWith p) (startState o) ∧ Continues limit d x) ∧
    ∀ d x, d.Of (compileProgramWith p) (startState o) → Continues limit d x →
      x.result = layProgram p o ∧ x.result.answer.2.nesting = 0 ∧ x.peak ≤ limit ∧
      nestings (diagnosticsOf (compile p o)) ≤ 1 ∧
      (x.refusals = 0 → nestings (diagnosticsOf (compile p o)) = 0) ∧
      (x.refusals ≠ 0 → ∃ failure span, compile p o = .error failure ∧
        ⟨.nestingTooDeep limit, span⟩ ∈ failure.diagnostics) := by
  intro limit
  refine ⟨fun e position s => ?_, ?_, fun d x hd hx => ?_⟩
  · have hnode (fuel : Nat) (hfuel : limit ≤ s.nesting + fuel) :=
      accountable_compileNode limit fuel s.nesting hfuel e position s rfl
    obtain ⟨hends, haccounts⟩ := hnode limit (Nat.le_add_left _ _)
    exact ⟨hends, fun x hx => ⟨fun fuel hfuel => ((hnode fuel hfuel).2 x hx).result.symm,
      (haccounts x hx).nesting, (haccounts x hx).peak⟩⟩
  · have hspeaks : Speaks (compileProgramWith p) := inferInstance
    obtain ⟨d, hd⟩ := hspeaks.dialogue (startState o)
    obtain ⟨x, hx⟩ := (accounts_compileProgram hd).1
    exact ⟨d, x, hd, hx⟩
  · have haccounts := (accounts_compileProgram hd).2 x hx
    have hrefused : x.result.answer.2.refused = (x.refusals != 0) := haccounts.refused
    -- nothing is refused at the start, so what is reported is what is noted at the end
    have hreported : nestings (diagnosticsOf (compile p o)) = (x.refusals != 0).toNat := by
      rw [diagnosticsOf_compile, ← hrefused, ← haccounts.result]
      exact haccounts.reported
    refine ⟨haccounts.result, haccounts.nesting, haccounts.peak, ?_, fun hnone => ?_, fun hsome => ?_⟩
    · rw [hreported]
      exact Bool.toNat_le _
    · rw [hreported, hnone]
      rfl
    · have hone : nestings (diagnosticsOf (compile p o)) ≠ 0 := by
        rw [hreported, bne_iff_ne.mpr hsome]
        exact Nat.one_ne_zero
      obtain ⟨r, hr, hnesting⟩ := exists_nesting hone
      rw [diagnosticsOf_compile] at hr
      have hcause : r.cause = .nestingTooDeep limit := by
        refine haccounts.cause r ?_ hnesting
        rw [haccounts.result]
        exact hr
      rcases compile_cases p o with ⟨hnil, -⟩ | ⟨-, herror⟩
      · rw [hnil] at hr
        exact absurd hr List.not_mem_nil
      · refine ⟨_, r.span, herror, ?_⟩
        rw [← hcause]
        exact hr

/-- Two macros that stand for each other. -/
def mutualMacros : Program :=
  let node (kind : ExprKind) : Expr := ⟨kind, .zero⟩
  ⟨[node (.inlineDecl "ping" (node (.var "pong"))), node (.inlineDecl "pong" (node (.var "ping"))),
    node (.array [node (.var "ping"), node (.var "pong")])]⟩

/-- Both elements of the array are refused at the fifth level, without a check of types, and
the first refusal is reported. -/
theorem compile_boundedDescent_mutualMacros : ∃ d x failure span,
    d.Of (compileProgramWith mutualMacros) (startState { maxNestingDepth := 5, typeCheck := false }) ∧
    Continues 5 d x ∧ x.result.answer.2.nesting = 0 ∧ x.peak ≤ 5 ∧
    compile mutualMacros { maxNestingDepth := 5, typeCheck := false } = .error failure ∧
    ⟨.nestingTooDeep 5, span⟩ ∈ failure.diagnostics ∧ nestings failure.diagnostics = 1 := by
  obtain ⟨-, ⟨d, x, hd, hx⟩, hall⟩ :=
    compile_boundedDescent mutualMacros { maxNestingDepth := 5, typeCheck := false }
  obtain ⟨-, hnesting, hpeak, -, hzero, hfails⟩ := hall d x hd hx
  have hone : nestings (diagnosticsOf
      (compile mutualMacros { maxNestingDepth := 5, typeCheck := false })) = 1 := by decide +kernel
  have hsome : x.refusals ≠ 0 := fun hnone => Nat.zero_ne_one ((hzero hnone).symm.trans hone)
  obtain ⟨failure, span, herror, hmem⟩ := hfails hsome
  rw [herror] at hone
  exact ⟨d, x, failure, span, hd, hx, hnesting, hpeak, herror, hmem, hone⟩

end Strand
