import Strand.Proofs.Moves.Programs

/-!
# Type errors leave no trace

Whether type errors are reported is a part of the state, so that any step could look at
it. None does but `report`: a step that is run without type checking gives the same
answer and the same state as with it, and reports the same without the type errors.
-/

namespace Strand

namespace Codegen

instance {limit : Nat} {span : Span} {position : Position} :
    Blind (refuseNode limit span position) := by
  have hrefused : Blind (modify fun s => { s with refused := true } : Build Unit) :=
    ⟨fun _ => rfl⟩
  have hreport : Blind (report (.nestingTooDeep limit) span) := inferInstance
  refine .ofGet (fun s => ?_) fun _ => rfl
  cases position
  all_goals
    dsimp only
    split
    · exact hrefused.bind fun _ => hreport.bind fun _ => ⟨fun _ => rfl⟩
    · exact ⟨fun _ => rfl⟩

/-- Whether a node is entered does not depend on it, and the nodes inside are blind to it by
induction on the fuel. -/
theorem blind_compileNode (limit : Nat) : ∀ (fuel : Nat) (e : Expr) (position : Position),
    Blind (compileNode limit fuel e position)
  | 0, e, position => inferInstanceAs (Blind (refuseNode limit e.span position))
  | fuel + 1, e, position => by
    constructor
    intro s
    rcases Nat.lt_or_ge s.nesting limit with h | h
    · have hinside : Blind (compileEntered e position (compileNode limit fuel)) :=
        blind_entered (blind_compileNode limit fuel)
      have hsame : s.unchecked.enter = s.enter.unchecked := rfl
      have h' : s.unchecked.nesting < limit := h
      rw [compileNode_entered h', compileNode_entered h, hsame, hinside.unchecked]
      rfl
    · have hrefuse : Blind (refuseNode limit e.span position) := inferInstance
      have h' : limit ≤ s.unchecked.nesting := h
      rw [compileNode_refused h', compileNode_refused h, hrefuse.unchecked]

theorem blind_compileProgram (limit : Nat) (p : Program) : Blind (compileProgram limit p) :=
  blind_program (blind_compileNode limit (limit + 1))

end Codegen

open Codegen

/-- What is wrong with a program, which is nothing when it compiles. -/
def diagnosticsOf : Except CompileFailure Module → List Diagnostic
  | .ok _ => []
  | .error failure => failure.diagnostics

/-- The outcome of laying down a program. -/
def layProgram (p : Program) (o : Options) : Logged (CodeUnit × State) :=
  (compileProgram o.maxNestingDepth.toNat p).run
    { frame := moduleFrame o.hostGlobals, typeCheck := o.typeCheck }

/-- A program compiles when nothing was reported, and otherwise it fails with all that was. -/
theorem compile_cases (p : Program) (o : Options) :
    (layProgram p o).reports = [] ∧
        compile p o = .ok ⟨o.sourceName, (layProgram p o).answer.1⟩ ∨
      (layProgram p o).reports ≠ [] ∧ compile p o = .error ⟨(layProgram p o).reports⟩ := by
  unfold compile
  dsimp only
  split
  · rename_i hnone
    exact .inl ⟨hnone, rfl⟩
  · rename_i hsome
    exact .inr ⟨hsome, rfl⟩

theorem compile_eq_ok {p : Program} {o : Options} (h : (layProgram p o).reports = []) :
    compile p o = .ok ⟨o.sourceName, (layProgram p o).answer.1⟩ := by
  rcases compile_cases p o with ⟨-, hok⟩ | ⟨hsome, -⟩
  · exact hok
  · exact absurd h hsome

theorem diagnosticsOf_compile (p : Program) (o : Options) :
    diagnosticsOf (compile p o) = (layProgram p o).reports := by
  rcases compile_cases p o with ⟨hnone, hok⟩ | ⟨-, herror⟩
  · rw [hok, hnone]
    rfl
  · rw [herror]
    rfl

theorem layProgram_unchecked (p : Program) (o : Options) :
    layProgram p { o with typeCheck := false } =
      (layProgram p { o with typeCheck := true }).unchecked := by
  have hblind := blind_compileProgram o.maxNestingDepth.toNat p
  exact hblind.unchecked { frame := moduleFrame o.hostGlobals, typeCheck := true }

/-- **Type checking never influences code generation.** Without it a program gets the
diagnostics that it gets with it, in the same order, but for the type errors. So a program
that has only type errors compiles without it, and one that compiles with it compiles to the
same module without. -/
theorem compile_unchecked (p : Program) (o : Options) :
    let checked := compile p { o with typeCheck := true }
    let unchecked := compile p { o with typeCheck := false }
    diagnosticsOf unchecked = (diagnosticsOf checked).filter (fun d => d.kind != .type) ∧
      (∀ failure, checked = .error failure → (∀ d ∈ failure.diagnostics, d.kind = .type) →
        ∃ m, unchecked = .ok m) ∧
      ∀ m, checked = .ok m → unchecked = .ok m := by
  intro checked unchecked
  have hsame := layProgram_unchecked p o
  have hreports : (layProgram p { o with typeCheck := false }).reports =
      (layProgram p { o with typeCheck := true }).reports.filter fun d => d.kind != .type := by
    rw [hsame]
    rfl
  -- all three parts follow from the reports, which are filtered, and the unit, which is the same
  refine ⟨?_, ?_, ?_⟩
  · rw [diagnosticsOf_compile, diagnosticsOf_compile, hreports]
  · intro failure hfailure htype
    have hall : failure.diagnostics = (layProgram p { o with typeCheck := true }).reports := by
      rw [← diagnosticsOf_compile, show compile p _ = _ from hfailure]
      rfl
    refine ⟨_, compile_eq_ok ?_⟩
    rw [hreports, ← hall, List.filter_eq_nil_iff]
    intro d hd
    simp [htype d hd]
  · intro m hm
    have hnone : (layProgram p { o with typeCheck := true }).reports = [] := by
      rw [← diagnosticsOf_compile, show compile p _ = _ from hm]
      rfl
    have hnone' : (layProgram p { o with typeCheck := false }).reports = [] := by
      rw [hreports, hnone]
      rfl
    have hmain : (layProgram p { o with typeCheck := false }).answer.1 =
        (layProgram p { o with typeCheck := true }).answer.1 := by
      rw [hsame]
      rfl
    have hchecked : checked = _ := compile_eq_ok hnone
    have hunchecked : unchecked = _ := compile_eq_ok hnone'
    rw [hunchecked, hmain, ← hm, hchecked]

/-- A number that is a text, and is used as a number later on. -/
def mislabelled : Program :=
  let node (kind : ExprKind) : Expr := ⟨kind, .zero⟩
  ⟨[node (.letDecl "count" (some [.name "i64"]) (some (node (.str "three"))) false),
    node (.binary (node (.var "count")) .subtract (node (.str "one")))]⟩

theorem compile_unchecked_mislabelled :
    (diagnosticsOf (compile mislabelled {})).length = 2 ∧
      ∃ m, compile mislabelled { typeCheck := false } = .ok m := by
  have hlength : (diagnosticsOf (compile mislabelled {})).length = 2 := by decide +kernel
  have htype : ∀ d ∈ diagnosticsOf (compile mislabelled {}), d.kind = .type := by decide +kernel
  refine ⟨hlength, ?_⟩
  cases hm : compile mislabelled {} with
  | ok m =>
    rw [hm] at hlength
    cases hlength
  | error failure =>
    rw [hm] at htype
    exact (compile_unchecked mislabelled {}).2.1 failure hm htype

end Strand
