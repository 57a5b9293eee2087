import Strand.Proofs.Moves.Nodes

/-!
# Nodes and programs as dialogues

What is known of the parts of the code generator, put together for a node and for a program:
each holds a dialogue, which makes moves, and whether types are checked makes no difference to
either.
-/

namespace Strand.Codegen

open Typed (Sound)

variable {K : Setting} {known : Known} {e : Expr} {position : Position} {p : Program}
  {node : NodeCompiler}

/-! ## Nodes -/

/-- A node whose kind advances does so with its stack settled. -/
theorem advances_entered [Implies known (.start (K.Allows e.kind))] :
    Advances known K (compileEntered e position) :=
  .bind advances_kind fun _ => inferInstance

/-- Nothing is known, every global may be assigned to and every macro dropped. -/
def Setting.free : Setting := ⟨False, fun _ => True, fun _ => True⟩

theorem Setting.free_allows (kind : ExprKind) (s : State) : Setting.free.Allows kind s :=
  ⟨fun _ _ _ _ _ _ _ => trivial, fun _ _ _ _ => trivial⟩

/-- Nothing is reported, every global may be assigned to and every macro dropped. -/
def Setting.silent : Setting := ⟨True, fun _ => True, fun _ => True⟩

theorem Setting.silent_allows (kind : ExprKind) (s : State) : Setting.silent.Allows kind s :=
  ⟨fun _ _ _ _ _ _ _ => trivial, fun _ _ _ _ => trivial⟩

/-- Macros of these names may be dropped, and nothing else is known. -/
def Setting.dropping (dropped : String → Prop) : Setting := ⟨False, fun _ => True, dropped⟩

/-- Which names are given up makes no difference to what a proper state is. -/
theorem State.proper_dropping_iff {dropped : String → Prop} {s : State} :
    s.Proper (.dropping dropped) ↔ s.Proper .free :=
  ⟨fun hs => ⟨fun f hf => { hs.frames f hf with }, hs.decls, hs.entered⟩,
    fun hs => ⟨fun f hf => { hs.frames f hf with }, hs.decls, hs.entered⟩⟩

theorem triple_entered : Triple .free (fun _ => True) (compileEntered e position) fun s ty s' =>
    Sound ty ∧ s.Held .free s' := by
  have hfree : Implies (.fact True) (.start (Setting.free.Allows e.kind)) :=
    ⟨fun {s0 _} _ => Setting.free_allows e.kind s0⟩
  have hentered : Advances (.fact True) .free (compileEntered e position) := advances_entered
  exact hentered.yields.fresh fun _ _ => trivial

instance : Speaks (compileEntered e position) :=
  ⟨fun s => (triple_entered.dialogue s).imp fun _ hd => hd.1⟩

theorem blind_entered (hnode : ∀ e position, Blind (node e position)) :
    Blind (compileEntered e position node) := triple_entered.blind node hnode

/-! ## Programs -/

instance {name : String} : Advances known K fun _ => hoist name := by
  unfold hoist
  infer_instance

/-- A program up to the end of its code. -/
def compileCode (p : Program) (node : NodeCompiler) : Build Unit := do
  (p.body.filterMap Expr.hoistedName?).forM hoist
  compileEffects node p.body
  emit .pushNull (lastLine p.body .zero)
  emit .ret (lastLine p.body .zero)

instance : Advances known K (compileCode p) := by
  unfold compileCode
  infer_instance

/-- The unit of a program is the one that is left in the end, and its table is that of the
globals there are then. -/
theorem triple_program : Triple K (fun s => s.outer = []) (compileProgramWith p)
    fun _ u s => (u = s.frame.toUnit ∧ s.outer = []) ∧ u.manifest.globals = ownGlobals s.frame.globals := by
  have hcode : Advances (.fact True) K (compileCode p) := inferInstance
  have htable : Triple K (fun s => s.outer = []) (fun _ => modifyFrame fun f =>
      { f with manifest := { f.manifest with globals := ownGlobals f.globals } }) fun _ _ s =>
        s.frame.manifest.globals = ownGlobals s.frame.globals ∧ s.outer = [] :=
    .plain fun s hlevel hs _ => by
      have hchange : s.frame.Change K s.outer { s.frame with
        manifest := { s.frame.manifest with globals := ownGlobals s.frame.globals } } := .ofOutline hs.frame rfl
      exact ⟨hchange.progress hs, rfl, hlevel⟩
  have hend : Triple K (fun s => s.frame.manifest.globals = ownGlobals s.frame.globals ∧ s.outer = [])
      (fun _ => endUnit) fun _ u s =>
        (u = s.frame.toUnit ∧ s.outer = []) ∧ u.manifest.globals = ownGlobals s.frame.globals :=
    .plain fun s hp hs _ => by
      obtain ⟨frame, outer, decls, refused, typeCheck⟩ := s
      obtain ⟨htable, rfl⟩ := hp
      exact ⟨.refl hs, ⟨rfl, rfl⟩, htable⟩
  have hcode' := hcode.yields.fresh (P := fun s => s.outer = []) fun _ _ => trivial
  have hwhole := hcode'.bind fun s _ => (htable.imp (fun s' hs' => ?_) fun _ _ _ _ hq => hq).bind
    fun _ _ => hend.imp (fun _ hs => hs.2) fun _ _ _ _ hq => hq
  · simp only [compileCode, bind_assoc] at hwhole
    exact hwhole
  · have houter := hs'.2.2.outer
    rw [hs'.1] at houter
    exact List.forall₂_nil_left_iff.mp houter

instance : Speaks (compileProgramWith p) :=
  ⟨fun s => ((triple_program (K := .free)).dialogue s).imp fun _ hd => hd.1⟩

theorem blind_program (hnode : ∀ e position, Blind (node e position)) :
    Blind (compileProgramWith p node) := (triple_program (K := .free)).blind node hnode

end Strand.Codegen
