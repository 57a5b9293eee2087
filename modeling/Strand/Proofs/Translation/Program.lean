import Strand.Compile
import Strand.Proofs.Entering
import Strand.Proofs.Translation.Classes

/-!
# Every unit is a translation

The recursion over the nodes of a program, and with it the statement that the rest is
built on: if a program compiles, each unit of its module is the code that the schemes
give for some part of the program.
-/

namespace Strand

variable {span : Span} {x : Scheme}

namespace Codegen

open Scheme (op)

variable {p : Program} {node : NodeCompiler} {scheme : NodeScheme} {g : Manifest → Manifest}
  {decl : UseDecl} {name : String} {st : Standing} {position : Position} {act : Build Unit}

/-! ## Headers and type names -/

theorem isQuiet_modifyManifest : IsQuiet (modifyManifest g) :=
  isQuiet_modifyFrame fun _ => ⟨rfl, rfl, rfl, rfl, rfl, rfl, fun _ h => h⟩

theorem does_directive {d : Directive} {k : Constant} (hk : isUnit k = false) : Does p (do
      emitDirective d k span
      modifyManifest g) fun _ => useScheme := by
  intro s hs
  have hdirective : Does p (emitDirective d k span) fun _ =>
      .choose fun i => .pooled k i ++ op (.directive d i) := by
    intro s hs
    refine (does_addData hk).first hs fun i s1 h1 => ?_
    exact (Does.last (does_emit rfl) h1).imp fun _ _ h => h.choose i
  refine hdirective.first hs fun _ s1 h1 => ?_
  exact (isQuiet_modifyManifest.last h1).imp fun _ _ h =>
    .another (.thisOne ((h.choose k).choose d))

theorem does_header : Does p (compileHeader decl) fun _ => useScheme := by
  have hrefused {cause : Cause} (h : cause.kind ≠ .type) :
      Does p (report cause decl.span) fun _ => useScheme := fun _ _ => ensures_refused h
  unfold compileHeader
  dsimp only
  split
  · refine isQuiet_modifyManifest.does_bind fun _ s hs => ?_
    exact (does_emit rfl s hs).imp fun _ _ h => .thisOne h
  all_goals first | exact does_directive rfl | exact hrefused (by simp [Cause.kind])

theorem does_use : Does p (compileUse decl) fun _ => useScheme := by
  refine fun s hs => Ensures.ofGet ?_
  split
  · exact does_header s hs
  · exact ensures_refused (by simp [Cause.kind])

theorem isQuiet_typedef {tokens : List TypeExpr.Token} :
    IsQuiet (compileTypedef name tokens span) := by
  refine .ofGet fun s => ?_
  split
  · exact isQuiet_modifyFrame fun f => like_types f _
  · exact isQuiet_report

/-! ## Nodes -/

/-- What was left, without its type. -/
def Left.leaving : Left → Leaving
  | .value _ => .value
  | .nothing _ => .nothing
  | .asWanted _ => .asWanted

/-- The step lays down what the scheme says and leaves on the stack what is said. -/
def Lays (p : Program) (act : Build Left) (x : Scheme) (left : Leaving) : Prop :=
  ∀ s, Inv p s → Ensures s act fun l s' => l.leaving = left ∧ Ran p s x [] s'

theorem Does.lays {act : Build Ty} (h : Does p act fun _ => x) {mk : Ty → Left}
    {left : Leaving} (hmk : ∀ ty, (mk ty).leaving = left) : Lays p (mk <$> act) x left :=
  fun s hs => Ensures.map ((h s hs).imp fun ty _ hran => ⟨hmk ty, hran⟩)

theorem Does.laysNothing (h : Does p act fun _ => x) : Lays p (leaveNothing act) x .nothing :=
  fun s hs => (h s hs).bind fun _ _ hran => ensures_pure ⟨rfl, hran⟩

theorem Does.laysValue (h : Does p act fun _ => x) {ty : Ty} :
    Lays p (do act; pure (.value ty)) x .value :=
  fun s hs => (h s hs).bind fun _ _ hran => ensures_pure ⟨rfl, hran⟩

/-- One case for each kind of node. -/
theorem lays_kind (hnode : Implements p node scheme) {kind : ExprKind}
    (h : Occurs p st ⟨kind, span⟩) (position : Position) :
    Lays p (compileKind node kind position span) (kindScheme p scheme position kind)
      (leaving kind) := by
  have hnodes : AllOccur p kind.nodes := h.nodes
  have hname {name : String} (hmem : name ∈ kind.binds) (hp : Unshadowed p) : name ≠ "this" :=
    h.unshadowed hmem hp
  -- the three ways in which a kind says what it leaves
  have hvalue {act : Build Ty} {x : Scheme} (h : Does p act fun _ => x) :
      Lays p (.value <$> act) x .value := h.lays fun _ => rfl
  have hnothing {act : Build Ty} {x : Scheme} (h : Does p act fun _ => x) :
      Lays p (.nothing <$> act) x .nothing := h.lays fun _ => rfl
  have hwanted {act : Build Ty} {x : Scheme} (h : Does p act fun _ => x) :
      Lays p (.asWanted <$> act) x .asWanted := h.lays fun _ => rfl
  cases kind with
  | int n => exact Does.laysValue (does_emitConstant rfl)
  | float bits => exact Does.laysValue (does_emitConstant rfl)
  | str text => exact Does.laysValue (does_emitConstant rfl)
  | bool b => exact Does.laysValue (does_emit (by cases b <;> rfl))
  | null => exact Does.laysValue (does_emit rfl)
  | interpolated parts => exact hvalue (does_interpolated hnode.toObeys hnodes)
  | array items => exact hvalue (does_array hnode.toObeys hnodes)
  | map pairs => exact hvalue (does_map hnode.toObeys hnodes)
  | tuple items => exact hvalue (does_tuple hnode.toObeys hnodes)
  | var name => exact hvalue (does_variable hnode.toObeys)
  | assign isWeak target value => exact hvalue (does_assign hnode.toObeys hnodes)
  | member object name => exact hvalue (does_member hnode.toObeys hnodes)
  | index object index => exact hvalue (does_index hnode.toObeys hnodes)
  | this => exact hvalue does_this
  | drop target => exact (does_drop hnode.toObeys h).laysNothing
  | binary left b right => exact hvalue (does_binary hnode.toObeys hnodes)
  | logical left b right => exact hvalue (does_logical hnode.toObeys hnodes)
  | unary u operand => exact hvalue (does_unary hnode.toObeys hnodes)
  | reference target => exact hvalue (does_reference hnode.toObeys hnodes)
  | deref target => exact hvalue (does_deref hnode.toObeys hnodes)
  | call callee args => exact hvalue (does_call hnode.toObeys hnodes)
  | lambda decl => exact hvalue (does_lambda hnode ⟨_, _, h, .head _⟩)
  | cond branches otherwise => exact hvalue (does_if hnode.toObeys hnodes)
  | ternary a b c => exact hvalue (does_ternary hnode.toObeys hnodes)
  | whileLoop condition body => exact hwanted (does_while hnode.toObeys hnodes)
  | doWhile body condition => exact hwanted (does_doWhile hnode.toObeys hnodes)
  | rangeFor name typeExpr first last step body =>
    exact hwanted (does_rangeFor hnode.toObeys hnodes (hname (by simp [ExprKind.binds])))
  | forEach name iterable body =>
    exact hwanted (does_forEach hnode.toObeys hnodes (hname (by simp [ExprKind.binds])))
  | breakLoop => exact hnothing does_break
  | continueLoop => exact hnothing does_continue
  | ret value => exact hnothing (does_return hnode.toObeys hnodes)
  | switch subject cases otherwise => exact hvalue (does_switch hnode h)
  | patternMatch subject arms otherwise => exact hvalue (does_match hnode h)
  | scope body => exact hvalue (does_scope hnode h)
  | letDecl name typeExpr value isConst =>
    exact (does_let hnode.toObeys hnodes (hname (.head _))).laysNothing
  | inlineDecl name value => exact (does_inlineDecl h).laysNothing
  | functionDecl decl =>
    exact (does_functionDecl hnode ⟨_, _, h, .head _⟩
      (hname (.head _))).laysNothing
  | decorated decorator target => exact (does_decorated hnode hnodes).laysNothing
  | classDecl decl => exact (does_class hnode h).laysNothing
  | enumDecl decl => exact (does_enum (hname (.head _))).laysNothing
  | typedef name tokens => exact isQuiet_typedef.does.laysNothing
  | use decl => exact does_use.laysNothing
  | throw value => exact hnothing (does_throw hnode.toObeys hnodes)
  | assert condition message => exact (does_assert hnode.toObeys hnodes).laysNothing

theorem does_settle {left : Left} {line : UInt64} :
    Does p (settle left position line) fun _ => settleScheme left.leaving position := by
  cases left <;> cases position <;>
    first
    | exact isQuiet_pure.does
    | exact Does.bind_quiet (does_emit rfl) fun _ => isQuiet_pure

/-- A node is refused only where this is reported. -/
theorem does_refuseNode {limit : Nat} : Does p (refuseNode limit span position) fun _ => x := by
  intro s hs
  refine Ensures.ofGet ?_
  dsimp only
  rw [hs.refused, if_pos (by rfl)]
  refine Ensures.bind (ensures_modify (Q := fun _ _ => True) trivial) fun _ _ _ => ?_
  exact ensures_refused_bind (by simp [Cause.kind])

/-- The code of a node that is not refused. -/
theorem does_entered (hnode : Implements p node scheme) {e : Expr}
    (he : Occurs p st e) (position : Position) : Does p (compileEntered e position node) fun _ =>
        .marked e (kindScheme p scheme position e.kind ++ settleScheme (leaving e.kind) position) := by
  intro s hs
  obtain ⟨kind, span⟩ := e
  refine (lays_kind hnode he position s hs).bind fun left s1 ⟨hleft, h1⟩ => ?_
  refine (does_settle.last h1).imp fun ty s2 h2 => ?_
  rw [hleft] at h2
  exact h2.marked ⟨kind, span⟩

theorem quiet_enter (s : State) : Quiet s s.enter := ⟨.refl _, .refl _, .refl _, rfl, rfl⟩

theorem quiet_leave (s : State) : Quiet s s.leave := ⟨.refl _, .refl _, .refl _, rfl, rfl⟩

/-- Code generation follows the schemes, whatever the fuel is. -/
theorem implements_compileNode (p : Program) (limit : Nat) :
    ∀ fuel : Nat, Implements p (compileNode limit fuel) (nodeScheme p fuel)
  | 0 => ⟨⟨fun _ _ => does_refuseNode⟩, fun hsource h => ⟨0, _, hsource, h⟩⟩
  | fuel + 1 => by
    refine ⟨⟨fun {st e} he position s hs => ?_⟩, fun hsource h => ⟨fuel + 1, _, hsource, h⟩⟩
    unfold Ensures
    rcases Nat.lt_or_ge s.nesting limit with hopen | hfull
    · -- the counter is no part of the scene, so that entering and leaving do not show
      rw [compileNode_entered hopen]
      intro hclean
      have hran := does_entered (implements_compileNode p limit fuel) he position s.enter
        (hs.quiet (quiet_enter s)) hclean
      have hwhole := (Ran.before (quiet_enter s) hran).quiet (quiet_leave _)
      exact hwhole.imp fun _ _ hx => ⟨he, hx⟩
    · rw [compileNode_refused hfull]
      exact does_refuseNode s hs

/-! ## Programs -/

theorem fresh_moduleFrame (hostGlobals : List String) :
    (moduleFrame hostGlobals).Fresh .module :=
  ⟨rfl, rfl, rfl, rfl⟩

theorem isQuiet_hoist : IsQuiet (hoist name) :=
  .ofGet fun _ => isQuiet_defineGlobal.ite isQuiet_pure

/-- A program up to the end of its unit. -/
theorem does_program (hnode : Obeys p node scheme) :
    Does p (do
      (p.body.filterMap Expr.hoistedName?).forM hoist
      compileEffects node p.body
      emit .pushNull (lastLine p.body .zero)
      emit .ret (lastLine p.body .zero)
      modifyFrame fun f =>
        { f with manifest := { f.manifest with globals := ownGlobals f.globals } }) fun _ =>
      (Source.main p.body).scheme scheme := by
  intro s hs
  have hbody : AllOccur p (elements p.body) := by
    intro st e he
    obtain ⟨e', he', heq⟩ := List.mem_map.mp he
    cases heq
    exact .top he'
  have hhoist : IsQuiet ((p.body.filterMap Expr.hoistedName?).forM hoist) :=
    isQuiet_forM fun _ _ => isQuiet_hoist
  have hmanifest : IsQuiet (modifyFrame fun f =>
      { f with manifest := { f.manifest with globals := ownGlobals f.globals } }) :=
    isQuiet_modifyFrame fun _ => ⟨rfl, rfl, rfl, rfl, rfl, rfl, fun _ h => h⟩
  have heffects : Does p (do
      (p.body.filterMap Expr.hoistedName?).forM hoist
      compileEffects node p.body) fun _ => effectsScheme _ p.body :=
    hhoist.does_bind fun _ => does_effects hnode hbody
  rw [← bind_assoc]
  refine heffects.first hs fun _ s1 h1 => ?_
  refine Does.then (does_emit rfl) h1 fun _ s2 h2 => ?_
  refine Does.then (does_emit rfl) h2 fun _ s3 h3 => ?_
  exact hmanifest.last h3

theorem inv_moduleFrame (p : Program) (hostGlobals : List String) (typeCheck : Bool) :
    Inv p { frame := moduleFrame hostGlobals, typeCheck } :=
  ⟨rfl, (fresh_moduleFrame hostGlobals).sound, fun _ h => absurd h List.not_mem_nil⟩

/-- The body of the module is laid down like that of any unit. -/
theorem ensures_compileProgram (p : Program) (limit : Nat) (hostGlobals : List String)
    (typeCheck : Bool) :
    Ensures { frame := moduleFrame hostGlobals, typeCheck } (compileProgram limit p) fun u _ =>
      CodeOf (nodeScheme p (limit + 1)) (.main p.body) u ∧ ∀ v ∈ u.units, Translated p v := by
  have hnode := implements_compileNode p limit (limit + 1)
  have hmain : (Source.main p.body).DeclaredIn p := rfl
  have hcode := (does_program hnode.toObeys).first (f := fun _ => endUnit) (Q := fun u _ =>
      CodeOf (nodeScheme p (limit + 1)) (.main p.body) u ∧ ∀ v ∈ u.units, Translated p v)
    (inv_moduleFrame p hostGlobals typeCheck) fun _ _ h =>
      ensures_modifyGet (h.codeOf hnode hmain (fresh_moduleFrame hostGlobals) rfl)
  simp only [bind_assoc] at hcode
  exact hcode

end Codegen

open Codegen

/-- Each unit of a module is the code of a part of the program that it was compiled from,
and its main unit that of the whole. -/
theorem compile_translated {p : Program} {o : Options} {m : Module} (h : compile p o = .ok m) :
    CodeOf (nodeScheme p (o.maxNestingDepth.toNat + 1)) (.main p.body) m.main ∧
      ∀ u ∈ m.units, Translated p u := by
  unfold compile at h
  dsimp only at h
  split at h
  · rename_i hnone
    cases h
    rw [Module.units_eq]
    refine ensures_compileProgram p o.maxNestingDepth.toNat o.hostGlobals o.typeCheck ?_
    intro d hd
    rw [StateT.run] at hnone
    rw [hnone] at hd
    cases hd
  · cases h

end Strand
