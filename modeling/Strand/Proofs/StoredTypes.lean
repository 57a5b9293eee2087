import Strand.Proofs.Moves.Visited

/-!
# The types of a compilation

The types that a compilation stores and computes come from many places: annotations, calls,
members of classes that are still being declared, branches that meet. At every node that is
reached, before it and after it, all of them are well formed, whatever was reported. So an
instance always has an argument for each generic parameter of its class, and neither the
number of arguments that a function needs nor the type of a field of a variant is ever asked
for where there is none.
-/

namespace Strand.Codegen

open Typed (Sound)

/-- What the answer of a part is known to be in a state where all that is stored is in order. -/
theorem Yields.answer {α : Type} {act : Build α} {s : State} {known : Known} {found : α → Known}
    (h : Yields known .free found fun _ => act) (hknown : known.Holds s s) (hs : s.Proper .free) :
    (found (act s).answer.1).Holds s (act s).answer.2 :=
  ((h s).run ⟨hknown, .refl s⟩ hs fun hc => hc.elim).2.1

/-- In this state every type that is read, put together or looked up is well formed, if the
types that it is made of are. -/
structure State.ComputesWellFormed (s : State) : Prop where
  parse (tokens : List TypeExpr.Token) (ty : Ty) :
    TypeExpr.parse s.findType? tokens = .ok ty → ty.WellFormed
  substitute (b : Bindings) (ty : Ty) : b.WellFormed → ty.WellFormed → (ty.substitute b).WellFormed
  unify (a b : Ty) : a.WellFormed → b.WellFormed → (a.unify b).WellFormed
  binaryResult (op : BinaryOp) (left right ty : Ty) : left.WellFormed → right.WellFormed →
    s.decls.binaryResult? op left right = some ty → ty.WellFormed
  attributeType (object : Ty) (name : String) (span : Span) : object.WellFormed →
    (attributeType object name span s).answer.1.WellFormed
  callResult (callee : Ty) (passed : List Passed) (keywords : Nat) (span : Span) :
    callee.WellFormed → (∀ arg ∈ passed, arg.1.WellFormed) →
      (callResult callee passed keywords span s).answer.1.WellFormed
  functionSignature (decl : FunctionDecl) : (functionSignature decl s).answer.1.WellFormed
  capture (name : String) (c : Capture) : (captureName name s).answer.1 = some c → c.ty.WellFormed

theorem State.Proper.computesWellFormed {s : State} (h : s.Proper .free) : s.ComputesWellFormed where
  parse _ _ hty := TypeExpr.wellFormed_parse h.wellTyped.knows hty
  substitute _ _ hb hty := hty.substitute hb
  unify _ _ ha hb := ha.unify hb
  binaryResult _ _ _ _ hleft _ hty := h.decls.binaryResult hleft hty
  attributeType object name span hobject := by
    have hpart : Advances (.fact (Sound object)) .free fun _ => attributeType object name span :=
      inferInstance
    exact hpart.yields.answer hobject h
  callResult callee passed keywords span hcallee hpassed := by
    have hpart : Advances ((Known.fact (Sound callee)).and (.fact (Sound passed))) .free fun _ =>
      callResult callee passed keywords span := inferInstance
    exact hpart.yields.answer ⟨hcallee, fun arg harg => ⟨hpassed arg harg, trivial⟩⟩ h
  functionSignature decl := by
    have hpart : Advances (.fact True) .free fun _ => functionSignature decl := inferInstance
    exact hpart.yields.answer trivial h
  capture name c hc := by
    have hpart : Learns (.fact True) .free (fun _ => captureName name) fun c =>
      .meaning .free name (c.map .captured) := inferInstance
    have hmeaning := hpart.yields.answer trivial h
    rw [hc] at hmeaning
    exact hmeaning.2

/-- **Every type that a compilation handles is well formed**, at every node that is reached,
after it, and at the end. What a well-formed type is includes that a function never needs a
negative number of arguments, and that a field which a variant names is there. -/
theorem wellFormed_types (p : Program) (o : Options) :
    (∀ n e position s, Visited p o n e position s →
      (s.WellTyped ∧ s.ComputesWellFormed) ∧
      (compilerAt o n e position
        s).answer.1.WellFormed ∧
      (compilerAt o n e position
        s).answer.2.WellTyped) ∧
    (layProgram p o).answer.2.WellTyped ∧
    (∀ c args, (Ty.inst c args).WellFormed → args.length = c.generics.length) ∧
    (∀ sig, (Ty.fn sig).WellFormed →
      sig.requiredArity + sig.defaultCount + sig.hasVarargs.toNat = sig.params.length) ∧
    ∀ v, (Ty.variant v).WellFormed → ∀ i < v.fieldNames.length, ∃ ty, v.fieldTypes[i]? = some ty := by
  have hallows : ∀ {n e position s}, Visited p o n e position s → Setting.free.Allows e.kind s :=
    fun _ => Setting.free_allows _ _
  have hclean : Setting.free.clean → (layProgram p o).reports = [] := False.elim
  have hstart : (startState o).Proper .free := proper_startState fun _ _ => trivial
  refine ⟨fun n e position s hv => ?_, ?_, fun _ _ h => h.1, fun sig h => ?_, fun v h i hi => ?_⟩
  · obtain ⟨hto, hanswered, -⟩ := progress_of_visited hallows hclean hstart hv
    exact ⟨⟨hto.proper.wellTyped, hto.proper.computesWellFormed⟩, hanswered.ty,
      hanswered.progress.proper.wellTyped⟩
  · exact (progress_layProgram hallows hclean hstart).1.proper.wellTyped
  · have hsig : sig.WellFormed := h
    exact hsig.requiredArity
  · have hv : v.WellFormed := h
    exact (hv.field hi).imp fun _ hty => hty.1

/-- A generic class whose constructor takes any number of values more, and an instance of it. -/
def boxed : Program :=
  let node (kind : ExprKind) : Expr := ⟨kind, .zero⟩
  let ctor : FunctionDecl :=
    { name := "new", generics := [], kwargs := none, returnType := none, body := []
      params := [⟨"first", some [.name "T"], none, .zero⟩]
      varargs := some ⟨"others", some [.name "T"], none, .zero⟩
      isAsync := false, catchesResult := false, span := .zero }
  ⟨[node (.classDecl { name := "Box", generics := ["T"], parent := none, members := []
                       constructor := some ctor, span := .zero }),
    node (.letDecl "box" none (some (node (.call (node (.var "Box"))
      [.positional (node (.int 1)), .positional (node (.int 2))]))) true)]⟩

theorem wellFormed_types_boxed : (layProgram boxed {}).reports = [] ∧
    ((layProgram boxed {}).answer.2.frame.globals.find? "box").map (fun g => g.ty.text) =
      some "Box(i64)" ∧
    (layProgram boxed {}).answer.2.WellTyped ∧
    (hoistedState boxed {}).WellTyped :=
  ⟨by decide +kernel, by decide +kernel, (wellFormed_types boxed {}).2.1,
    ((wellFormed_types boxed {}).1 0 _ .effect _ (visited_first rfl)).1.1⟩

end Strand.Codegen
