import Strand.Proofs.Naming

/-!
# Steps that lay down no code

Working out types, checking them and entering declarations: steps that can report but
touch neither the code nor the scene of any unit.
-/

namespace Strand.Codegen

variable {p : Program} {α β : Type} {sig : Signature} {keywords : Nat} {decl : FunctionDecl}
  {act : Build α} {passed : List Passed}

variable {span : Span} {tokens : Option (List TypeExpr.Token)} {names : List String} {name : String}

theorem IsQuiet.ite {c : Prop} [Decidable c] {a b : Build α} (ha : IsQuiet a) (hb : IsQuiet b) :
    IsQuiet (if c then a else b) := by
  split
  · exact ha
  · exact hb

/-- A check reports, or it does nothing. -/
theorem isQuiet_reportIf {c : Prop} [Decidable c] {cause : Cause} :
    IsQuiet (if c then report cause span else pure ()) :=
  isQuiet_report.ite isQuiet_pure

theorem IsQuiet.ofGet {f : State → Build α} (h : ∀ s, IsQuiet (f s)) : IsQuiet (get >>= f) :=
  isQuiet_get.bind h

/-! ## Types -/

theorem isQuiet_checkAssignable {found expected : Ty} : IsQuiet (checkAssignable found expected span) :=
  isQuiet_pure.ite isQuiet_report

/-- Reading an annotation may report a fault, but lays down nothing. -/
theorem isQuiet_resolveType {tokens : List TypeExpr.Token} : IsQuiet (resolveType tokens span) := by
  refine .ofGet fun s => ?_
  cases TypeExpr.parse s.findType? tokens with
  | ok ty => exact isQuiet_pure
  | error fault => exact isQuiet_report.bind fun _ => isQuiet_pure

theorem isQuiet_resolveType? : IsQuiet (resolveType? tokens span) := by
  cases tokens with
  | none => exact isQuiet_pure
  | some tokens => exact isQuiet_resolveType.map

theorem isQuiet_annotatedType : IsQuiet (annotatedType tokens span) :=
  isQuiet_resolveType?.bind fun _ => isQuiet_pure

/-- Generic parameters that are in scope do not matter to the code. -/
theorem like_placeholders (f : Frame) (names : List String) :
    f.Like { f with placeholders := names } :=
  ⟨rfl, rfl, rfl, rfl, rfl, rfl, fun _ h => h⟩

theorem IsQuiet.withPlaceholders (h : IsQuiet act) : IsQuiet (withPlaceholders names act) :=
  .ofGet fun _ =>
    (isQuiet_modifyFrame fun f => like_placeholders f _).bind fun _ =>
      h.bind fun _ => (isQuiet_modifyFrame fun f => like_placeholders f _).bind fun _ =>
        isQuiet_pure

/-- So what is laid down with more of them in scope is the same. -/
theorem Does.withPlaceholders {z : Scheme}
    (h : Does p act fun _ => z) : Does p (withPlaceholders names act) fun _ => z :=
  isQuiet_get.does_bind fun _ =>
    (isQuiet_modifyFrame fun f => like_placeholders f _).does_bind fun _ =>
      h.bind_quiet fun _ => (isQuiet_modifyFrame fun f => like_placeholders f _).bind fun _ =>
        isQuiet_pure

theorem isQuiet_checkPrivate {c : ClassRef} : IsQuiet (checkPrivate c name span) := by
  refine .ofGet fun s => ?_
  cases s.decls.privateOwner? c name with
  | none => exact isQuiet_pure
  | some owner => exact isQuiet_pure.ite isQuiet_report

/-- Whatever the object is, finding the type of an attribute lays down nothing. -/
theorem isQuiet_attributeType {object : Ty} : IsQuiet (attributeType object name span) := by
  have hmissing {typeName : String} : IsQuiet (do
      report (.noSuchAttribute typeName name) span
      pure Ty.any) := isQuiet_report.bind fun _ => isQuiet_pure
  refine .ofGet fun s => ?_
  dsimp only
  split
  · split
    · exact isQuiet_checkPrivate.bind fun _ => isQuiet_pure
    · exact hmissing
  · split
    · exact isQuiet_checkPrivate.bind fun _ => isQuiet_pure
    · exact hmissing
  · split
    · exact isQuiet_pure
    · exact hmissing
  · split
    · exact isQuiet_pure
    · exact hmissing
  · exact isQuiet_pure

theorem isQuiet_operatorResult {op : BinaryOp} {symbol : String} {left right : Ty} :
    IsQuiet (operatorResult op symbol left right span) := by
  refine .ofGet fun s => ?_
  split
  · exact isQuiet_pure
  · exact isQuiet_report.bind fun _ => isQuiet_pure

theorem isQuiet_rangeVariableType {firstTy stepTy : Ty}
    {first : Span} : IsQuiet (rangeVariableType tokens firstTy stepTy first span) := by
  cases tokens with
  | some tokens =>
    exact isQuiet_resolveType.bind fun _ => isQuiet_checkAssignable.bind fun _ => isQuiet_pure
  | none => exact isQuiet_operatorResult.bind fun _ => isQuiet_pure

/-! ## Calls -/

theorem isQuiet_checkArgument {bindings : Bindings} {arg : Passed} {i : Nat} :
    IsQuiet (checkArgument sig bindings arg i) := by
  unfold checkArgument
  split
  · exact isQuiet_checkAssignable
  · exact isQuiet_pure

/-- Checking the arguments of a call lays down nothing, whatever is found wrong. -/
theorem isQuiet_checkCall : IsQuiet (checkCall sig passed keywords span) := by
  have hrest : IsQuiet (do
      passed.zipIdx.forM fun arg => checkArgument sig (inferBindings sig passed) arg.1 arg.2
      pure (inferBindings sig passed)) :=
    (isQuiet_forM fun _ _ => isQuiet_checkArgument).bind fun _ => isQuiet_pure
  unfold checkCall
  dsimp only
  split
  · exact isQuiet_report.bind fun _ => hrest
  · exact hrest

theorem isQuiet_checkCount {count got : Nat} : IsQuiet (checkCount count got span) :=
  isQuiet_reportIf

/-- The result of a call is found by what is called: a function, a class, a variant, or
something dynamic. -/
theorem isQuiet_callResult {callee : Ty} : IsQuiet (callResult callee passed keywords span) := by
  unfold callResult
  dsimp only
  -- one case each for a function, a class, a variant and anything else
  split
  · exact isQuiet_checkCall.bind fun _ => isQuiet_pure
  · refine .ofGet fun s => ?_
    split
    · exact isQuiet_checkCall.bind fun _ => isQuiet_pure
    · exact isQuiet_checkCount.bind fun _ => isQuiet_pure
  · refine isQuiet_checkCount.bind fun _ => (isQuiet_forM fun e _ => ?_).bind fun _ => isQuiet_pure
    exact isQuiet_checkAssignable
  · split
    · exact isQuiet_report.bind fun _ => isQuiet_pure
    · exact isQuiet_pure

theorem isQuiet_checkDecorator {decorator decorated : Ty} :
    IsQuiet (checkDecorator decorator decorated name span) := by
  unfold checkDecorator
  split
  · dsimp only
    split
    · refine isQuiet_report.bind fun _ => ?_
      exact isQuiet_reportIf
    · exact isQuiet_reportIf
  · exact isQuiet_reportIf

/-! ## Signatures -/

/-- A step that only finds something out, and what is known of the answer. -/
def Finds {α : Type} (act : Build α) (R : α → Prop) : Prop :=
  ∀ s, Quiet s (act s).answer.2 ∧ R (act s).answer.1

section

variable {act : Build α} {f : α → Build β} {R : α → Prop} {S : β → Prop}

theorem IsQuiet.finds (h : IsQuiet act) : Finds act fun _ => True := fun s => ⟨h s, trivial⟩

theorem Finds.imp {T : α → Prop} (h : Finds act R) (himp : ∀ a, R a → T a) : Finds act T :=
  fun s => ⟨(h s).1, himp _ (h s).2⟩

theorem finds_pure {a : α} (h : R a) : Finds (pure a) R := fun s => ⟨Quiet.refl s, h⟩

/-- What was found out first is known in what follows. -/
theorem Finds.bind (h : Finds act R) (hf : ∀ a, R a → Finds (f a) S) : Finds (act >>= f) S :=
  fun s => ⟨(h s).1.trans (hf _ (h s).2 _).1, (hf _ (h s).2 _).2⟩

theorem Finds.does_bind {z : β → Scheme} (h : Finds act R) (hf : ∀ a, R a → Does p (f a) z) :
    Does p (act >>= f) z := by
  intro s hs
  refine Ensures.bind (Q := fun a s' => Quiet s s' ∧ R a) (fun _ => h s) fun a s' ⟨hq, ha⟩ => ?_
  exact (hf a ha s' (hs.quiet hq)).imp fun _ _ h => h.before hq

/-- A step that only finds something out may come after any code. -/
theorem Finds.then {s s' : State} {x : Scheme} {π : List (Label × Nat)} {Q : β → State → Prop}
    (hact : Finds act R) (h : Ran p s x π s')
    (hf : ∀ a s'', R a → Ran p s x π s'' → Ensures s'' (f a) Q) : Ensures s' (act >>= f) Q :=
  Ensures.bind (Q := fun a s'' => R a ∧ Ran p s x π s'')
    (fun _ => ⟨(hact s').2, h.quiet (hact s').1⟩) fun a s'' ha => hf a s'' ha.1 ha.2

theorem Finds.withPlaceholders (h : Finds act R) : Finds (withPlaceholders names act) R := by
  refine isQuiet_get.finds.bind fun s _ => ?_
  refine (isQuiet_modifyFrame fun f => like_placeholders f _).finds.bind fun _ _ => ?_
  refine h.bind fun a ha => ?_
  refine (isQuiet_modifyFrame fun f => like_placeholders f _).finds.bind fun _ _ => ?_
  exact finds_pure ha

/-- What is found for each item is found for all, in their order. -/
theorem finds_mapM {γ : Type} {g : γ → Build α} {T : γ → α → Prop} :
    ∀ {items : List γ}, (∀ a ∈ items, Finds (g a) (T a)) →
      Finds (items.mapM g) (List.Forall₂ T items)
  | [], _ => by
    rw [List.mapM_nil]
    exact finds_pure .nil
  | a :: _, h => by
    rw [List.mapM_cons]
    refine (h a (.head _)).bind fun b hb => ?_
    refine (finds_mapM fun c hc => h c (.tail _ hc)).bind fun bs hbs => ?_
    exact finds_pure (.cons hb hbs)

end

/-- A signature has a type for every parameter that arguments are bound to one by one. -/
def Covered (decl : FunctionDecl) (sig : Signature) : Prop :=
  decl.params.length ≤ sig.params.length

/-- Rest parameters add to the types, so there are at least as many as parameters. -/
theorem finds_functionSignature : Finds (functionSignature decl) fun sig => Covered decl sig := by
  refine (finds_mapM (T := fun _ _ => True) fun a _ => isQuiet_annotatedType.finds).bind
    fun params hparams => ?_
  refine isQuiet_annotatedType.finds.bind fun result _ => finds_pure ?_
  have hlength := hparams.length_eq
  rw [List.length_append] at hlength
  unfold Covered
  dsimp only
  omega

theorem finds_methodSignature : Finds (methodSignature decl) fun sig => Covered decl sig :=
  finds_functionSignature.withPlaceholders

theorem isQuiet_checkDefaultsLast {params : List Param} : IsQuiet (checkDefaultsLast params) :=
  isQuiet_forM fun _ _ => isQuiet_reportIf

end Strand.Codegen
