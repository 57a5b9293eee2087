import Strand.Proofs.Translation.Loops

/-!
# Functions and variables

A function is laid down in a frame of its own. Its parameters are the first locals of
that frame, and the heights after them are those of the values that a caller pushes.
-/

namespace Strand.Codegen

open Scheme (op each change declared)

variable {p : Program} {node : NodeCompiler} {scheme : NodeScheme} {s s' : State} {isConst : Bool}

variable {name : String} {span : Span} {decl : FunctionDecl} {sig : Signature} {kind : UnitKind}

/-! ## Parameters -/

theorem does_declareParam {ty : Ty} (hname : Unshadowed p → name ≠ "this") :
    Does p (declareParam name ty span) fun _ => paramScheme name := by
  intro s hs
  have h1 : Ran p s (change fun c => c.setHeight (c.height + 1)) []
      (s.withFrame { s.frame with height := s.frame.height + 1 }) :=
    ran_change hs ⟨hs.frame.macros, hs.frame.units, hs.frame.receiver, hs.frame.named, hs.frame.loops, hs.frame.pool⟩
      rfl rfl rfl rfl rfl rfl rfl
  refine Ensures.bind (ensures_modifyFrame (Q := fun _ s' => Ran p s (change _) [] s') h1) ?_
  intro _ s1 h1
  refine (does_declared hname).then h1 fun _ s2 h2 => ?_
  exact ensures_pure h2

/-- Pairing parameters with types leaves the parameters as they are. -/
theorem map_zip_params (hsig : Covered decl sig) {β : Type} (g : Param → β) :
    (decl.params.zip sig.params).map (fun e => g e.1) = decl.params.map g := by
  conv_rhs => rw [← List.map_fst_zip hsig, List.map_map]
  rfl

theorem does_declareParams (hsig : Covered decl sig) (h : Declares p decl kind) :
    Does p (declareParams decl sig) fun _ => paramsScheme decl := by
  intro s hs
  have hone : ∀ e ∈ decl.params.zip sig.params, Does p
      (declareParam e.1.name e.2 e.1.span) fun _ => paramScheme e.1.name := by
    refine fun e he => does_declareParam (h.unshadowed ?_)
    exact List.mem_append_left _ (List.mem_append_left _ (List.mem_map_of_mem (List.of_mem_zip he).1))
  refine (does_forM (fun e => paramScheme e.1.name) hone).first hs fun _ s1 h1 => ?_
  rw [← each_map paramScheme fun e : Param × Ty => e.1.name, map_zip_params hsig Param.name] at h1
  have hvarargs : ∀ q ∈ decl.varargs.toList, q.name ∈ decl.slotNames := fun q hq =>
    List.mem_append_left _ (List.mem_append_right _ (List.mem_map_of_mem hq))
  refine (does_forM (fun q : Param => paramScheme q.name) fun q hq =>
    does_declareParam (h.unshadowed (hvarargs q hq))).then h1 fun _ s2 h2 => ?_
  rw [← each_map paramScheme Param.name] at h2
  exact (does_forM paramScheme fun name hname =>
    does_declareParam (h.unshadowed (List.mem_append_right _ hname))).last h2

theorem does_defaults (hnode : Obeys p node scheme) (hsig : Covered decl sig)
    (h : AllOccur p (operands (decl.params.filterMap Param.default))) :
    Does p (compileDefaults node decl sig) fun _ =>
      each (paramDefaultScheme scheme) decl.params := by
  have hone : ∀ e ∈ decl.params.zip sig.params,
      Does p (compileDefault node e.1 e.2) fun _ => paramDefaultScheme scheme e.1 := by
    intro e he
    unfold compileDefault paramDefaultScheme
    cases hd : e.1.default with
    | some d =>
      have hmem : d ∈ decl.params.filterMap Param.default :=
        List.mem_filterMap.mpr ⟨e.1, (List.of_mem_zip he).1, hd⟩
      exact (hnode.value (h.operand hmem)).bind_quiet fun _ => isQuiet_checkAssignable
    | none => exact isQuiet_pure.does
  have hall := does_forM (fun e : Param × Ty => paramDefaultScheme scheme e.1) hone
  rw [← each_map (paramDefaultScheme scheme) fun e : Param × Ty => e.1,
    map_zip_params hsig fun q => q, List.map_id'] at hall
  exact hall

/-! ## Bodies -/

/-- A constructor returns its receiver, any other function its last value or null. -/
theorem ensures_functionBody (hnode : Obeys p node scheme)
    (h : AllOccur p (elements decl.body)) (hs : Inv p s)
    (hreturn : s.frame.returnType.isSome = true → decl.returnType.isSome = true) :
    Ensures s (compileFunctionBody node decl.body kind decl.span) fun _ s' =>
      Ran p s (functionBodyScheme scheme decl kind ++ op .ret) [] s' := by
  unfold compileFunctionBody functionBodyScheme
  dsimp only
  by_cases hkind : kind = .constructor
  · rw [if_pos hkind, if_pos (beq_iff_eq.mpr hkind)]
    refine (does_effects hnode h).first hs fun _ s1 h1 => ?_
    refine Does.then (does_emit rfl) h1 fun _ s2 h2 => ?_
    exact Does.last (does_emit rfl) h2
  · rw [if_neg hkind, if_neg (by rw [beq_iff_eq]; exact hkind)]
    refine Ensures.ofGet ?_
    cases hdeclared : s.frame.returnType with
    | none =>
      rw [Option.any_none, if_neg Bool.false_ne_true]
      refine (does_sequence hnode h).first hs fun ty s1 h1 => ?_
      exact Does.last (does_emit rfl) (.thisOne h1)
    | some expected =>
      have hsome : decl.returnType.isSome = true := hreturn (by rw [hdeclared]; rfl)
      -- where the declared result is void the body is laid down for its effects
      split
      · have h0 : Ran p s (.requires fun _ => decl.returnType.isSome = true) [] s :=
          .requires hs hsome
        refine (does_effects hnode h).then h0 fun _ s1 h1 => ?_
        refine Does.then (does_emit rfl) h1 fun _ s2 h2 => ?_
        exact Does.last (does_emit rfl) (.another (.thisOne h2))
      · refine (does_sequence hnode h).first hs fun ty s1 h1 => ?_
        dsimp only
        split
        · refine isQuiet_checkAssignable.then h1 fun _ s2 h2 => ?_
          exact Does.last (does_emit rfl) (.thisOne h2)
        · exact Does.last (does_emit rfl) (.thisOne h1)

/-! ## Functions -/

/-- The defaults are laid down outside, the body in a unit of its own. -/
theorem does_emitFunction (hnode : Implements p node scheme)
    {owner : Option ClassRef} (h : Declares p decl kind) (hsig : Covered decl sig) :
    Does p (emitFunction node decl kind sig owner) fun _ => functionScheme scheme decl kind := by
  refine isQuiet_checkDefaultsLast.does_bind fun _ s hs => ?_
  refine (does_defaults hnode.toObeys hsig h.nodes.left).first hs fun _ s1 h1 => ?_
  dsimp only
  let fresh : Frame := .start decl.name kind s1.frame.owner (receiverType owner kind)
  let f : Frame :=
    { fresh with
      header := functionHeader decl kind
      owner := owner <|> fresh.owner
      returnType :=
        if (decl.returnType.isSome && kind != .constructor) = true then some sig.result else none }
  have hfresh : f.Fresh (Source.function decl kind).kind := ⟨rfl, rfl, rfl, rfl⟩
  have hsource : (Source.function decl kind).DeclaredIn p := h
  refine Ensures.bind (ensures_modify (Q := fun _ s' => s' = s1.nested fresh) rfl) ?_
  rintro _ _ rfl
  refine Ensures.bind (ensures_modifyFrame (Q := fun _ s' => s' = s1.nested f) rfl) ?_
  rintro _ _ rfl
  refine (does_declareParams hsig h).first (h1.inv.nested hfresh) fun _ s2 h2 => ?_
  -- a result was noted only if the function declares one
  have hreturn : s2.frame.returnType.isSome = true → decl.returnType.isSome = true := by
    rw [h2.beside.returnType]
    intro hsome
    by_contra hnone
    have hnot : f.returnType = none := if_neg (by simp [hnone])
    rw [State.nested, hnot] at hsome
    cases hsome
  refine (ensures_functionBody hnode.toObeys h.nodes.right h2.inv hreturn).bind fun _ s3 h3 => ?_
  have hunit : Ran p (s1.nested f) ((Source.function decl kind).scheme scheme) [] s3 := h2.closed h3
  refine (ensures_endUnit hnode hsource hfresh rfl h1.inv hunit).bind
    fun u s4 h4 => ?_
  obtain ⟨hquiet, hcode, hunits⟩ := h4
  exact (does_emitClosure hcode hunits).last (h1.quiet hquiet)

theorem does_lambda (hnode : Implements p node scheme) (h : Declares p decl .lambda) :
    Does p (compileLambda node decl) fun _ => functionScheme scheme decl .lambda :=
  Does.withPlaceholders <| finds_functionSignature.does_bind fun _ hsig =>
    (does_emitFunction hnode h hsig).bind_quiet fun _ => isQuiet_pure

theorem does_functionDecl (hnode : Implements p node scheme)
    (h : Declares p decl .function) (hname : Unshadowed p → decl.name ≠ "this") :
    Does p (compileFunctionDecl node decl) fun _ => functionDeclScheme scheme decl := by
  refine Does.withPlaceholders <| finds_functionSignature.does_bind fun sig hsig s hs => ?_
  refine (does_reservePlace hname).first hs fun place s1 h1 => ?_
  refine (does_emitFunction hnode h hsig).then h1 fun _ s2 h2 => ?_
  exact (does_store.last h2).imp fun _ _ h => h.choose place

/-- The decorator comes first, then the function it is called with. -/
theorem does_decorated (hnode : Implements p node scheme) {decorator target : Expr}
    (h : AllOccur p [(.operand, decorator), (.decorated, target)]) :
    Does p (compileDecorated node decorator target span) fun _ =>
      decoratedScheme scheme decorator target := by
  have hdecorator : Occurs p .operand decorator := h _ _ (.head _)
  have htarget : Occurs p .decorated target :=
    h .decorated target (.tail _ (.head _))
  obtain ⟨kind, targetSpan⟩ := target
  unfold compileDecorated decoratedScheme
  dsimp only
  split
  · rename_i decl
    have hdecl : Declares p decl .function := ⟨_, _, htarget, .head _⟩
    refine Does.withPlaceholders <| finds_functionSignature.does_bind fun sig hsig s hs => ?_
    have hname := htarget.unshadowed (.head _)
    refine (does_reservePlace hname).first hs fun place s1 h1 => ?_
    refine (hnode.value hdecorator).then h1 fun ty s2 h2 => ?_
    refine (does_emitFunction hnode hdecl hsig).then h2 fun _ s3 h3 => ?_
    refine Does.then (does_emit rfl) h3 fun _ s4 h4 => ?_
    refine isQuiet_checkDecorator.then h4 fun _ s5 h5 => ?_
    exact (does_store.last h5).imp fun _ _ h => h.choose place
  · intro s _
    exact ensures_refused_bind (by simp [Cause.kind])

/-! ## Variables -/

/-- Declaring the value on top of the stack, as a global or a local. -/
theorem ensures_letPlace {ty : Ty} {x : Scheme}
    (hname : Unshadowed p → name ≠ "this") (h : Ran p s x [] s') : Ensures s' (do
      if (← get).frame.isModuleLevel then
        let index ← nameConstant name span
        emit (.defineGlobal index) span.line
        defineGlobal name ty isConst
      else
        let _ ← declareLocal name ty isConst span) fun _ s'' =>
      Ran p s (x ++ .oneOf
        [.choose fun i => .requires (fun c => c.isModuleLevel = true) ++ .pooled (.str name) i ++
            op (.defineGlobal i),
          .requires (fun c => c.isModuleLevel = false) ++ declared name]) [] s'' := by
  refine Ensures.ofGet ?_
  split
  · rename_i hmodule
    have h0 : Ran p s' (.requires fun c => c.isModuleLevel = true) [] s' := .requires h.inv hmodule
    refine Does.then (does_addData rfl) h0 fun i s1 h1 => ?_
    refine Does.then (does_emit rfl) h1 fun _ s2 h2 => ?_
    exact (isQuiet_defineGlobal.last h2).imp fun _ _ h' => h.closed (.thisOne (h'.choose i))
  · rename_i hlocal
    have h0 : Ran p s' (.requires fun c => c.isModuleLevel = false) [] s' :=
      .requires h.inv (Bool.eq_false_iff.mpr hlocal)
    refine (does_declared hname).then h0 fun _ s1 h1 => ?_
    exact ensures_pure (h.closed (.another (.thisOne h1)))

theorem does_let (hnode : Obeys p node scheme)
    {typeExpr : Option (List TypeExpr.Token)} {value : Option Expr}
    (h : AllOccur p (operands value.toList)) (hname : Unshadowed p → name ≠ "this") :
    Does p (compileLet node name typeExpr value isConst span) fun _ =>
      letScheme scheme name value := by
  refine isQuiet_resolveType?.does_bind fun expected s hs => ?_
  dsimp only
  cases value with
  | none =>
    refine Does.first (does_emit rfl) hs fun _ s1 h1 => ?_
    rw [pure_bind]
    exact ensures_letPlace hname h1
  | some e =>
    refine (hnode.value (h.operand (by simp))).first hs fun ty s1 h1 => ?_
    cases expected with
    | none => exact ensures_letPlace hname h1
    | some ty =>
      refine isQuiet_checkAssignable.then h1 fun _ s2 h2 => ?_
      exact ensures_letPlace hname h2

/-- A macro is a node of the program, so what it stands for can be told. -/
theorem does_inlineDecl {st : Standing} {value : Expr} (h : Occurs p st ⟨.inlineDecl name value, span⟩) :
    Does p (declareInline name value) fun _ => Scheme.skip := by
  intro s hs
  have hmacros : ∀ m ∈ { name, value, depth := s.frame.depth } :: s.frame.inlines,
      Expands p (InlineDef.name m) (InlineDef.value m) := by
    intro m hm
    rcases List.mem_cons.mp hm with rfl | hm
    · exact ⟨st, span, h⟩
    · exact hs.frame.macros m hm
  refine ensures_modifyFrame ⟨.nil, .nothing rfl rfl, fun _ _ => ⟨rfl, rfl⟩,
    ⟨rfl, rfl, rfl, rfl, .refl _, .refl _, List.prefix_rfl, rfl⟩, hs.withFrame ?_⟩
  exact ⟨hmacros, hs.frame.units, hs.frame.receiver, hs.frame.named, hs.frame.loops, hs.frame.pool⟩

end Strand.Codegen
