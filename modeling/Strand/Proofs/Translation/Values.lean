import Strand.Proofs.Typing

/-!
# Bodies, collections, operators and calls

Each of the functions that lay down a kind of node follows its scheme, given that the
compiler of the nodes inside does.
-/

namespace Strand.Codegen

open Scheme (op each constant counted block change)

variable {p : Program} {α β : Type} {node : NodeCompiler} {scheme : NodeScheme}
  {left right target : Expr}

variable {body items : List Expr} {line : UInt64} {span : Span}

/-! ## Lists of nodes -/

theorem does_forM {γ : Type} {f : γ → Build Unit} (y : γ → Scheme) :
    ∀ {items : List γ}, (∀ a ∈ items, Does p (f a) fun _ => y a) →
      Does p (items.forM f) fun _ => each y items
  | [], _ => fun _ hs => ensures_pure (Ran.refl hs)
  | a :: _, h => fun _ hs =>
    (h a (.head _)).first hs fun _ _ h1 =>
      (does_forM _ fun b hb => h b (.tail _ hb)).last h1

theorem does_mapM {γ : Type} {f : γ → Build α} (y : γ → Scheme) :
    ∀ {items : List γ}, (∀ a ∈ items, Does p (f a) fun _ => y a) →
      Does p (items.mapM f) fun _ => each y items
  | [], _ => fun _ hs => by
    rw [List.mapM_nil]
    exact ensures_pure (Ran.refl hs)
  | a :: _, h => fun _ hs => by
    rw [List.mapM_cons]
    refine (h a (.head _)).first hs fun _ s1 h1 => ?_
    refine (does_mapM _ fun b hb => h b (.tail _ hb)).then h1 fun _ s2 h2 => ?_
    exact ensures_pure h2

theorem each_map (y : β → Scheme) (g : α → β) :
    ∀ items : List α, each y (items.map g) = each (fun a => y (g a)) items
  | [] => rfl
  | a :: rest => by rw [List.map_cons, each, each, each_map y g rest]

/-- A node inside another, for its value. -/
theorem Obeys.value (hnode : Obeys p node scheme) {e : Expr}
    (he : Occurs p .operand e) : Does p (node e .value) fun _ => scheme.value e :=
  hnode.does he .value

/-! ## Bodies -/

theorem does_effects (hnode : Obeys p node scheme) (hbody : AllOccur p (elements body)) :
    Does p (compileEffects node body) fun _ => effectsScheme scheme body :=
  does_forM _ fun _ he => (hnode.does (hbody.element he) .effect).bind_quiet fun _ => isQuiet_pure

theorem does_sequence (hnode : Obeys p node scheme) : ∀ {body : List Expr}, AllOccur p (elements body) →
      Does p (compileSequence node line body) fun _ => sequenceScheme scheme body
  | [], _ => Does.bind_quiet (does_emit rfl) fun _ => isQuiet_pure
  | [_], hbody => hnode.does (hbody.element (.head _)) .value
  | _ :: _ :: _, hbody => fun _ hs =>
    (hnode.does (hbody.element (.head _)) .effect).first hs fun _ _ h1 =>
      (does_sequence hnode hbody.tail).last h1

theorem does_block (hnode : Obeys p node scheme) (hbody : AllOccur p (elements body)) :
    Does p (compileBlock node body line) fun _ => blockScheme scheme body := by
  intro s hs
  refine does_openScope.first hs fun _ s1 h1 => ?_
  refine (does_sequence hnode hbody).then h1 fun _ s2 h2 => ?_
  refine does_closeScope.then h2 fun _ s3 h3 => ?_
  exact ensures_pure h3

theorem does_blockEffects (hnode : Obeys p node scheme) (hbody : AllOccur p (elements body)) :
    Does p (compileBlockEffects node body line) fun _ => blockEffectsScheme scheme body := by
  intro s hs
  refine does_openScope.first hs fun _ s1 h1 => ?_
  refine (does_effects hnode hbody).then h1 fun _ s2 h2 => ?_
  exact does_closeScope.last h2

/-- A unit that is called where it stands, from what lays down its body. -/
theorem does_calledUnit (hnode : Implements p node scheme) {source : Source} {name : String}
    {body : Build Ty} {x : Scheme} (hdeclared : source.DeclaredIn p) (hkind : source.kind = .block)
    (hheader : source.header = { name })
    (hsource : source.scheme scheme = change Scene.openScope ++ x ++ op .ret)
    (hbody : Does p body fun _ => x) :
    Does p (compileCalledUnit name span body) fun _ => calledScheme scheme source := by
  intro s hs
  let f : Frame := .start name .block s.frame.owner .any
  have hfresh : f.Fresh source.kind := by
    rw [hkind]
    exact ⟨rfl, rfl, rfl, rfl⟩
  refine Ensures.bind (ensures_modify (Q := fun _ s' => s' = s.nested f) rfl) ?_
  rintro _ _ rfl
  refine does_openScope.first (hs.nested hfresh) fun _ s1 h1 => ?_
  refine hbody.then h1 fun ty s2 h2 => ?_
  refine Does.then (does_emit rfl) h2 fun _ s3 h3 => ?_
  rw [← hsource] at h3
  refine (ensures_endUnit hnode hdeclared hfresh hheader.symm hs h3).bind
    fun u s4 ⟨hquiet, hcode, hunits⟩ => ?_
  refine (does_emitClosure hcode hunits).first (hs.quiet hquiet) fun _ s5 h5 => ?_
  refine Does.then (does_emit rfl) h5 fun _ s6 h6 => ?_
  exact ensures_pure (h6.before hquiet)

theorem does_scope (hnode : Implements p node scheme) {st : Standing}
    (h : Occurs p st ⟨.scope body, span⟩) :
    Does p (compileScope node body span) fun _ => calledScheme scheme (.scope body) :=
  does_calledUnit hnode ⟨st, span, h⟩ rfl rfl rfl (does_sequence hnode.toObeys h.nodes)

/-! ## Collections -/

theorem does_values (hnode : Obeys p node scheme) (hitems : AllOccur p (operands items)) :
    Does p (compileValues node items) fun _ => valuesScheme scheme items :=
  does_mapM _ fun _ he => hnode.value (hitems.operand he)

/-- An instruction that takes as many values as there are. -/
theorem does_counted {mk : UInt16 → Instr} (hmk : ∀ i, (mk i).isJump = false) {n : Nat} {a : α} :
    Does p (do
      let count ← countOperand n span
      emit (mk count) line
      pure a) fun _ => counted mk n := by
  intro s hs
  refine does_countOperand.first hs fun i s1 h1 => ?_
  refine (does_emit (hmk i)).then h1 fun _ s2 h2 => ?_
  refine ensures_pure (h2.imp ?_)
  rintro k t ⟨t1, c1, t2, ⟨rfl, rfl, hlt, rfl⟩, hop, rfl⟩
  exact ⟨_, _, _, ⟨rfl, rfl, hlt⟩, hop, rfl⟩

theorem does_array (hnode : Obeys p node scheme) (hitems : AllOccur p (operands items)) :
    Does p (compileArray node items span) fun _ =>
      valuesScheme scheme items ++ counted .array items.length := by
  intro s hs
  refine (does_values hnode hitems).first hs fun _ s1 h1 => ?_
  exact (does_counted fun _ => rfl).last h1

theorem does_tuple (hnode : Obeys p node scheme) (hitems : AllOccur p (operands items)) :
    Does p (compileTuple node items span) fun _ =>
      valuesScheme scheme items ++ counted .tuple items.length := by
  intro s hs
  refine (does_values hnode hitems).first hs fun _ s1 h1 => ?_
  exact (does_counted fun _ => rfl).last h1

theorem does_interpolated (hnode : Obeys p node scheme) {parts : List TextPart}
    (hparts : AllOccur p (operands (parts.flatMap TextPart.exprs))) :
    Does p (compileInterpolated node parts span) fun _ =>
      each (textPartScheme scheme) parts ++ counted .buildString parts.length := by
  intro s hs
  refine (does_forM (textPartScheme scheme) fun part hpart => ?_).first hs fun _ s1 h1 => ?_
  · cases part with
    | literal text => exact (does_emitConstant rfl)
    | expr e =>
      have he : Occurs p .operand e :=
        hparts.operand (List.mem_flatMap.mpr ⟨.expr e, hpart, .head _⟩)
      exact (hnode.value he).bind_quiet fun _ => isQuiet_pure
  · exact (does_counted fun _ => rfl).last h1

theorem does_map (hnode : Obeys p node scheme) {pairs : List (Expr × Expr)}
    (hpairs : AllOccur p (operands (pairs.flatMap fun e => [e.1, e.2]))) :
    Does p (compileMap node pairs span) fun _ =>
      each (pairScheme scheme) pairs ++ counted .map pairs.length := by
  intro s hs
  refine (does_forM (pairScheme scheme) fun pair hpair => ?_).first hs fun _ s1 h1 => ?_
  · intro s hs
    have hkey : Occurs p .operand pair.1 :=
      hpairs.operand (List.mem_flatMap.mpr ⟨pair, hpair, by simp⟩)
    have hvalue : Occurs p .operand pair.2 :=
      hpairs.operand (List.mem_flatMap.mpr ⟨pair, hpair, by simp⟩)
    refine (hnode.value hkey).first hs fun _ s1 h1 => ?_
    refine (hnode.value hvalue).then h1 fun _ s2 h2 => ?_
    exact ensures_pure h2
  · exact (does_counted fun _ => rfl).last h1

/-! ## Operators -/

theorem does_binary (hnode : Obeys p node scheme) {b : BinaryOp}
    (h : AllOccur p (operands [left, right])) : Does p (compileBinary node left b right) fun _ =>
      scheme.value left ++ scheme.value right ++ op (.binary b) := by
  intro s hs
  refine (hnode.value (h.operand (by simp))).first hs fun _ s1 h1 => ?_
  refine (hnode.value (h.operand (by simp))).then h1 fun _ s2 h2 => ?_
  refine Does.then (does_emit rfl) h2 fun _ s3 h3 => ?_
  refine isQuiet_operatorResult.then h3 fun _ s4 h4 => ?_
  exact ensures_pure h4

/-- Either of the two logical operators, which differ in when the left value decides. -/
theorem does_decided (hnode : Obeys p node scheme)
    (kind : JumpKind) (h : AllOccur p (operands [left, right])) : Does p (do
      let leftTy ← node left .value
      let done ← emitJump kind.instr span.line
      emit .pop span.line
      let rightTy ← node right .value
      patchJump done span
      pure (leftTy.unify rightTy)) fun _ =>
        block .done
          (scheme.value left ++ .jump kind .done ++ op .pop ++ scheme.value right) := by
  intro s hs
  refine (hnode.value (h.operand (by simp))).first hs fun _ s1 h1 => ?_
  refine h1.jump kind .done rfl fun o s2 h2 => ?_
  refine Does.then (does_emit rfl) h2 fun _ s3 h3 => ?_
  refine (hnode.value (h.operand (by simp))).then h3 fun _ s4 h4 => ?_
  refine h4.patch .done rfl (by simp) fun s5 h5 => ?_
  exact ensures_pure h5

theorem does_logical (hnode : Obeys p node scheme) {b : LogicalOp}
    (h : AllOccur p (operands [left, right])) :
    Does p (compileLogical node left b right span) fun _ => logicalScheme scheme left b right := by
  cases b with
  | and => exact does_decided hnode .ifFalse h
  | or => exact does_decided hnode .ifTrue h

theorem does_unary (hnode : Obeys p node scheme) {u : UnaryOp} {operand : Expr}
    (h : AllOccur p (operands [operand])) : Does p (compileUnary node u operand span) fun _ =>
      scheme.value operand ++ op (.unary u) := by
  intro s hs
  refine (hnode.value (h.operand (by simp))).first hs fun ty s1 h1 => ?_
  refine Does.then (does_emit rfl) h1 fun _ s2 h2 => ?_
  split
  · exact ensures_pure h2
  · exact (isQuiet_report.bind fun _ => isQuiet_pure).last h2

theorem does_reference (hnode : Obeys p node scheme) (h : AllOccur p (operands [target])) :
    Does p (compileReference node target span) fun _ => scheme.value target ++ op .ref := by
  intro s hs
  refine (hnode.value (h.operand (by simp))).first hs fun ty s1 h1 => ?_
  refine Does.then (does_emit rfl) h1 fun _ s2 h2 => ?_
  exact ensures_pure h2

theorem does_deref (hnode : Obeys p node scheme) (h : AllOccur p (operands [target])) :
    Does p (compileDeref node target span) fun _ => scheme.value target ++ op .deref := by
  intro s hs
  refine (hnode.value (h.operand (by simp))).first hs fun ty s1 h1 => ?_
  refine Does.then (does_emit rfl) h1 fun _ s2 h2 => ?_
  split
  · exact ensures_pure h2
  · dsimp only
    split
    · exact (isQuiet_report.bind fun _ => isQuiet_pure).last h2
    · exact ensures_pure h2

/-! ## Calls -/

theorem ensures_positional (hnode : Obeys p node scheme) : ∀ {args : List Argument},
    AllOccur p (operands (args.map Argument.value)) → ∀ {s : State}, Inv p s →
      Ensures s (compilePositional node args) fun passed s' =>
        Ran p s (valuesScheme scheme (args.filterMap positional?)) [] s' ∧
          passed.length = (args.filterMap positional?).length
  | [], _, s, hs => by
    unfold compilePositional
    rw [List.filterMapM_nil]
    exact ensures_pure ⟨Ran.refl hs, rfl⟩
  | arg :: rest, hargs, s, hs => by
    have hrest : AllOccur p (operands (rest.map Argument.value)) :=
      fun st e he => hargs st e (.tail _ he)
    unfold compilePositional
    rw [List.filterMapM_cons]
    cases arg with
    | keyword name e =>
      rw [pure_bind, List.filterMap_cons_none (by rfl)]
      exact ensures_positional hnode hrest hs
    | positional e =>
      have he : Occurs p .operand e := hargs .operand e (.head _)
      rw [List.filterMap_cons_some (by rfl), bind_assoc]
      refine (hnode.value he).first hs fun ty s1 h1 => ?_
      rw [pure_bind]
      refine (ensures_positional hnode hrest h1.inv).bind fun passed s2 ⟨h2, hlength⟩ => ?_
      exact ensures_pure ⟨h1.append h2, by rw [List.length_cons, List.length_cons, hlength]⟩

theorem ensures_keywords (hnode : Obeys p node scheme) : ∀ {args : List Argument},
    AllOccur p (operands (args.map Argument.value)) → ∀ {s : State} (n : Nat), Inv p s →
      Ensures s (args.foldlM (fun count arg => do
          match arg with
          | .positional _ => pure count
          | .keyword name value =>
            emitConstant (.str name) value.span
            let _ ← node value .value
            pure (count + 1)) n) fun m s' =>
        Ran p s (each (keywordScheme scheme) (args.filterMap keyword?)) [] s' ∧
          m = n + (args.filterMap keyword?).length
  | [], _, s, n, hs => by
    rw [List.foldlM_nil]
    exact ensures_pure ⟨Ran.refl hs, rfl⟩
  | arg :: rest, hargs, s, n, hs => by
    have hrest : AllOccur p (operands (rest.map Argument.value)) :=
      fun st e he => hargs st e (.tail _ he)
    rw [List.foldlM_cons]
    cases arg with
    | positional e =>
      rw [pure_bind, List.filterMap_cons_none (by rfl)]
      exact ensures_keywords hnode hrest n hs
    | keyword name e =>
      have he : Occurs p .operand e := hargs .operand e (.head _)
      rw [List.filterMap_cons_some (by rfl), bind_assoc]
      refine Does.first (does_emitConstant rfl) hs fun _ s1 h1 => ?_
      rw [bind_assoc]
      refine (hnode.value he).then h1 fun _ s2 h2 => ?_
      rw [pure_bind]
      refine (ensures_keywords hnode hrest (n + 1) h2.inv).imp fun m s3 ⟨h3, hm⟩ => ?_
      exact ⟨h2.append h3, by rw [hm, List.length_cons]; omega⟩

theorem does_call (hnode : Obeys p node scheme) {callee : Expr} {args : List Argument}
    (h : AllOccur p (operands (callee :: args.map Argument.value))) :
    Does p (compileCall node callee args span) fun _ => callScheme scheme callee args := by
  intro s hs
  have hargs : AllOccur p (operands (args.map Argument.value)) :=
    fun st e he => h st e (.tail _ he)
  refine (hnode.value (h.operand (.head _))).first hs fun ty s1 h1 => ?_
  refine (ensures_positional hnode hargs h1.inv).bind fun passed s2 ⟨h2, hpassed⟩ => ?_
  refine (ensures_keywords hnode hargs 0 h2.inv).bind fun keywords s3 ⟨h3, hkeywords⟩ => ?_
  rw [Nat.zero_add] at hkeywords
  rw [hpassed, hkeywords]
  split
  · rename_i hlimit
    rw [Bool.and_eq_true, decide_eq_true_iff, decide_eq_true_iff] at hlimit
    refine Does.then (does_emit rfl) (((h1.closed h2).closed h3).known hlimit) fun _ s4 h4 => ?_
    exact isQuiet_callResult.last h4
  · exact ensures_refused_bind (by simp [Cause.kind])

end Strand.Codegen
