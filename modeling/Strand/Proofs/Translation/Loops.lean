import Strand.Proofs.Translation.Matches

/-!
# Loops

The body of a loop is laid down from the state in which the loop is open, and closing
the loop turns what was laid down there into one stretch of the code around it.
-/

namespace Strand.Codegen

open Scheme (op block change atHeight heightIs declare times looped back)

variable {p : Program} {node : NodeCompiler} {scheme : NodeScheme} {s s' : State} {x : Scheme}
  {l : Loop} {condition : Expr} {variableName : String} {step : Option Expr}
variable {π : List (Label × Nat)} {position : Position} {line : UInt64}

variable {span : Span} {body : List Expr} {rest : List Loop}

/-! ## Opening and closing -/

theorem does_openAccumulator :
    Does p (openAccumulator position line) fun _ => openAccumulatorScheme position := by
  cases position with
  | value => exact (does_emit rfl)
  | effect => exact isQuiet_pure.does

theorem does_closeAccumulator :
    Does p (closeAccumulator position line) fun _ => closeAccumulatorScheme position := by
  cases position with
  | value => exact Does.bind_quiet (does_emit rfl) fun _ => isQuiet_pure
  | effect => exact isQuiet_pure.does

theorem does_finishIteration :
    Does p (finishIteration position line) fun _ => finishScheme position := by
  cases position <;> exact (does_emit rfl)

section

variable {β : Type} {Q : β → State → Prop} {b : Bool}

theorem Ensures.ofBeginLoop {f : Nat → Build β}
    (h : Ensures (s.entered b) (f s.frame.chunk.size) Q) : Ensures s (beginLoop b >>= f) Q :=
  (ensures_beginLoop (Q := fun n s' => n = s.frame.chunk.size ∧ s' = s.entered b) ⟨rfl, rfl⟩).bind
    fun _ _ ⟨hn, hs⟩ => by
      rw [hn, hs]
      exact h

/-- Going back to the start of the loop that was entered at `s`. -/
theorem Ran.loopBack {f : Unit → Build β} (h : Ran p (s.entered b) x π s')
    (hf : ∀ s'', Ran p (s.entered b) (x ++ back) π s'' → Ensures s'' (f ()) Q) :
    Ensures s' (emitLoop s.frame.chunk.size span >>= f) Q := by
  have hsite : sitesOf s'.frame.loops .start = some s.frame.chunk.size := by
    obtain ⟨t, hlaid, _⟩ := h
    rw [hlaid.loops.sites, sites_entered, Sites.set_self]
  exact (ensures_emitLoop h.inv hsite).bind fun _ s'' h' => hf s'' (h.closed h')

end

/-- Leaving a loop at its condition closes it. -/
theorem ensures_leaveAtCondition (hs : Inv p s) {b : Bool} {exit base : Nat}
    (h : Ran p (s.entered b) x [(.done, exit)] s') :
    Ensures s' (leaveAtCondition exit base span) fun _ s'' =>
      Ran p s (conditionLoop b base x) [] s'' := by
  refine h.patch .done rfl (by simp) fun s1 h1 => ?_
  refine does_setHeight.then h1 fun _ s2 h2 => ?_
  refine Does.then (does_emit rfl) h2 fun _ s3 h3 => ?_
  exact ensures_endLoop hs h3

/-- The end of all loops: the scope around the loop is closed, and its value is there if
it is wanted. -/
theorem ensures_afterLoop (h : Ran p s x [] s') :
    Ensures s' (do
      closeScope false line
      closeAccumulator position line) fun _ s'' =>
        Ran p s (x ++ .leave false ++ closeAccumulatorScheme position) [] s'' := by
  refine does_closeScope.then h fun _ s1 h1 => ?_
  exact does_closeAccumulator.last h1

/-! ## The four forms -/

theorem does_while (hnode : Obeys p node scheme)
    (h : AllOccur p (operands [condition] ++ elements body)) :
    Does p (compileWhile node condition body position span) fun _ =>
      whileScheme scheme condition body position := by
  intro s hs
  refine does_openAccumulator.first hs fun _ s1 h1 => ?_
  refine does_openScope.then h1 fun _ s2 h2 => ?_
  refine Ensures.ofHeight (Ensures.ofBeginLoop ?_)
  refine (hnode.value (h.left.operand (by simp))).first (h2.inv.entered true) fun _ s3 h3 => ?_
  refine h3.jump .ifFalse .done rfl fun exit s4 h4 => ?_
  refine Does.then (does_emit rfl) h4 fun _ s5 h5 => ?_
  refine (does_block hnode h.right).then h5 fun _ s6 h6 => ?_
  refine does_finishIteration.then h6 fun _ s7 h7 => ?_
  refine h7.loopBack fun s8 h8 => ?_
  refine (ensures_leaveAtCondition h2.inv h8).bind fun _ s9 h9 => ?_
  have hloop := (h2.note (P := fun c => c.height = s2.frame.height) rfl).closed h9
  exact (ensures_afterLoop hloop).imp fun _ _ h => h.choose s2.frame.height

theorem does_doWhile (hnode : Obeys p node scheme)
    (h : AllOccur p (operands [condition] ++ elements body)) :
    Does p (compileDoWhile node body condition position span) fun _ =>
      doWhileScheme scheme body condition position := by
  intro s hs
  refine does_openAccumulator.first hs fun _ s1 h1 => ?_
  refine does_openScope.then h1 fun _ s2 h2 => ?_
  refine Ensures.ofHeight (Ensures.ofBeginLoop ?_)
  refine (does_block hnode h.right).first (h2.inv.entered false) fun _ s3 h3 => ?_
  refine does_finishIteration.then h3 fun _ s4 h4 => ?_
  refine h4.patchContinues fun s5 h5 => ?_
  refine (hnode.value (h.left.operand (by simp))).then h5 fun _ s6 h6 => ?_
  refine h6.jump .ifFalse .done rfl fun exit s7 h7 => ?_
  refine Does.then (does_emit rfl) h7 fun _ s8 h8 => ?_
  refine h8.loopBack fun s9 h9 => ?_
  refine (ensures_leaveAtCondition h2.inv h9).bind fun _ s10 h10 => ?_
  have hloop := (h2.note (P := fun c => c.height = s2.frame.height) rfl).closed h10
  exact (ensures_afterLoop hloop).imp fun _ _ h => h.choose s2.frame.height

theorem does_step (hnode : Obeys p node scheme) {counter last : UInt16}
    (h : AllOccur p (operands step.toList)) :
    Does p (compileStep node step counter last line) fun _ => stepScheme scheme counter last step := by
  cases step with
  | some e => exact hnode.value (h.operand (by simp))
  | none =>
    intro s hs
    refine Does.first (does_emit rfl) hs fun _ s1 h1 => ?_
    refine Does.then (does_emit rfl) h1 fun _ s2 h2 => ?_
    refine Does.then (does_emit rfl) h2 fun _ s3 h3 => ?_
    exact ensures_pure h3

theorem does_rangeFor (hnode : Obeys p node scheme)
    {typeExpr : Option (List TypeExpr.Token)} {first last : Expr}
    (h : AllOccur p (operands ([first, last] ++ step.toList) ++ elements body))
    (hname : Unshadowed p → variableName ≠ "this") :
    Does p (compileRangeFor node variableName typeExpr first last step body position span) fun _ =>
      rangeScheme scheme variableName first last step body position := by
  have hbounds : AllOccur p (operands [first, last] ++ operands step.toList) := by
    have hleft := h.left
    rwa [operands, List.map_append] at hleft
  intro s hs
  refine does_openAccumulator.first hs fun _ s1 h1 => ?_
  refine does_openScope.then h1 fun _ s2 h2 => ?_
  refine (hnode.value (hbounds.left.operand (by simp))).then h2 fun firstTy s3 h3 => ?_
  refine (does_declareLocal fun _ => by decide).then h3 fun counter s4 h4 => ?_
  refine (hnode.value (hbounds.left.operand (by simp))).then h4 fun lastTy s5 h5 => ?_
  refine (does_declareLocal fun _ => by decide).then h5 fun lastSlot s6 h6 => ?_
  refine (does_step hnode hbounds.right).then h6 fun stepTy s7 h7 => ?_
  refine (does_declareLocal fun _ => by decide).then h7 fun stepSlot s8 h8 => ?_
  refine isQuiet_operatorResult.then h8 fun _ s9 h9 => ?_
  refine isQuiet_rangeVariableType.then h9 fun variableTy t0 g0 => ?_
  -- from here on the code belongs to the loop, which starts with no jumps noted
  refine Ensures.ofHeight (Ensures.ofBeginLoop ?_)
  refine Does.first (does_emit rfl) (g0.inv.entered false) fun _ t1 g1 => ?_
  refine g1.jump .ifFalse .done rfl fun exit t2 g2 => ?_
  refine Does.then (does_emit rfl) g2 fun _ t3 g3 => ?_
  refine does_openScope.then g3 fun _ t4 g4 => ?_
  refine Does.then (does_emit rfl) g4 fun _ t5 g5 => ?_
  refine Does.then (does_emit rfl) g5 fun _ t6 g6 => ?_
  refine (does_declared hname).then g6 fun _ t7 g7 => ?_
  refine (does_sequence hnode h.right).then g7 fun _ t8 g8 => ?_
  refine does_closeScope.then g8 fun _ t9 g9 => ?_
  refine does_finishIteration.then g9 fun _ t10 g10 => ?_
  -- a continue goes on with the step, not with the test
  refine g10.patchContinues fun t11 g11 => ?_
  refine Does.then (does_emit rfl) g11 fun _ t12 g12 => ?_
  refine Does.then (does_emit rfl) g12 fun _ t13 g13 => ?_
  refine Does.then (does_emit rfl) g13 fun _ t14 g14 => ?_
  refine Does.then (does_emit rfl) g14 fun _ t15 g15 => ?_
  refine Does.then (does_emit rfl) g15 fun _ t16 g16 => ?_
  refine g16.loopBack fun t17 g17 => ?_
  refine (ensures_leaveAtCondition g0.inv g17).bind fun _ t18 g18 => ?_
  have hloop := (g0.note (P := fun c => c.height = t0.frame.height) rfl).closed g18
  refine (ensures_afterLoop hloop).imp fun _ _ h => ?_
  exact (((h.choose t0.frame.height).choose stepSlot).choose lastSlot).choose counter

theorem does_forEach (hnode : Obeys p node scheme) {iterable : Expr}
    (h : AllOccur p (operands [iterable] ++ elements body))
    (hname : Unshadowed p → variableName ≠ "this") :
    Does p (compileForEach node variableName iterable body position span) fun _ =>
      forEachScheme scheme variableName iterable body position := by
  intro s hs
  refine does_openAccumulator.first hs fun _ s1 h1 => ?_
  refine does_openScope.then h1 fun _ s2 h2 => ?_
  refine (hnode.value (h.left.operand (by simp))).then h2 fun ty s3 h3 => ?_
  refine Does.then (does_emit rfl) h3 fun _ s4 h4 => ?_
  refine (does_declared fun _ => by decide).then h4 fun _ s5 h5 => ?_
  refine Ensures.ofHeight (Ensures.ofBeginLoop ?_)
  refine Ran.jumpFirst (h5.inv.entered true) .atEnd .done rfl fun exit t1 g1 => ?_
  refine does_openScope.then g1 fun _ t2 g2 => ?_
  refine (does_declared hname).then g2 fun _ t3 g3 => ?_
  refine (does_sequence hnode h.right).then g3 fun _ t4 g4 => ?_
  refine does_closeScope.then g4 fun _ t5 g5 => ?_
  refine does_finishIteration.then g5 fun _ t6 g6 => ?_
  refine g6.loopBack fun t7 g7 => ?_
  refine g7.patch .done rfl (by simp) fun t8 g8 => ?_
  refine does_setHeight.then g8 fun _ t9 g9 => ?_
  refine (ensures_endLoop h5.inv g9).bind fun _ s6 h6 => ?_
  have hloop := (h5.note (P := fun c => c.height = s5.frame.height) rfl).closed h6
  exact (ensures_afterLoop hloop).imp fun _ _ h => h.choose s5.frame.height

/-! ## Break and continue -/

/-- What `break` or `continue` notes with the innermost loop: the offset of its jump. -/
def Loop.noting (l : Loop) (label : Label) (offset : Nat) : Loop :=
  if label = .exit then { l with breakJumps := offset :: l.breakJumps }
  else { l with continueJumps := offset :: l.continueJumps }

/-- A jump that is aimed when the innermost loop is closed. -/
theorem ran_noted (hs : Inv p s) (hloops : s.frame.loops = l :: rest)
    {label : Label} (hlabel : label.ofLoop = true) (line : UInt64) : Ran p s (.jump .always label) []
      ((s.withFrame (s.frame.emit (JumpKind.always.instr Instr.unpatched) line)).withLoops
        (l.noting label s.frame.chunk.size :: rest)) := by
  have hstart : label ≠ .start := by rintro rfl; cases hlabel
  have hscene : (l.noting label s.frame.chunk.size).scene = l.scene := by
    unfold Loop.noting
    split <;> rfl
  refine ⟨.jump .always label, ⟨Array.size_push .., fun o ho => Laid.code_push ho, ?_, ?_, ?_⟩,
    fun _ _ => ⟨rfl, ?_⟩, ⟨rfl, rfl, rfl, rfl, .refl _, .refl _, List.prefix_rfl, rfl⟩, ?_⟩
  · rw [Tree.At, show sitesOf s.frame.loops label = none from if_neg hstart]
    exact Array.getElem?_push_size
  -- the noted jump is one of those the loop has to aim when it ends
  · rw [hloops]
    cases label <;> first | exact Noted.inside [s.frame.chunk.size] [] l rest |
      exact Noted.inside [] [s.frame.chunk.size] l rest | cases hlabel
  · intro m hm o
    have hne : label ≠ m := by rintro rfl; rw [hlabel] at hm; cases hm
    simp [Tree.uses, hne]
  · exact (scene_withLoops hloops hscene rest)
  · have hinv := hs.withFrame (hs.frame.emit (JumpKind.always.instr Instr.unpatched) line)
    have hplaced : ∀ k ∈ s.frame.loops, k.Placed _ := hinv.frame.loops
    rw [hloops] at hplaced
    refine hinv.withLoops fun k hk => ?_
    rcases List.mem_cons.mp hk with rfl | hk
    · have hfirst := hplaced l (.head _)
      unfold Loop.noting
      split <;> exact ⟨hfirst.start_le, hfirst.target⟩
    · exact hplaced k (.tail _ hk)

theorem Ran.noteJump {β : Type} (h : Ran p s x π s')
    (hloops : s'.frame.loops = l :: rest) (label : Label) (hlabel : label.ofLoop = true)
    (g : Nat → Loop → Loop) (hg : ∀ o l, g o l = l.noting label o) {f : Unit → Build β}
    {Q : β → State → Prop} (hf : ∀ s'', Ran p s (x ++ .jump .always label) π s'' → Ensures s'' (f ()) Q) :
    Ensures s' (emitJump .jump line >>= fun jump => modifyLoop (g jump) >>= f) Q := by
  refine Ensures.bind (Q := fun o s1 => o = s'.frame.chunk.size ∧
    s1 = s'.withFrame (s'.frame.emit (JumpKind.always.instr Instr.unpatched) line))
    (fun _ => ⟨rfl, rfl⟩) ?_
  rintro _ _ ⟨rfl, rfl⟩
  refine Ensures.bind (ensures_modifyFrame (Q := fun _ s2 =>
    Ran p s (x ++ .jump .always label) π s2) ?_) fun _ => hf
  have hemitted : (s'.frame.emit (JumpKind.always.instr Instr.unpatched) line).loops = l :: rest :=
    hloops
  dsimp only [State.withFrame]
  rw [hemitted]
  dsimp only
  rw [hg]
  exact h.closed (ran_noted h.inv hloops hlabel line)

theorem ensures_popTo {base : Nat} (hs : Inv p s) :
    Ensures s (popTo base line) fun _ s' =>
      Ran p s (times .pop (s.scene.height - base)) [] s' ∧ s'.frame.loops = s.frame.loops := by
  refine ensures_modifyFrame ⟨ran_emitTimes rfl line _ hs, ?_⟩
  rw [State.withFrame, Frame.emitTimes_eq]

theorem scene_loop (h : s.frame.loops = l :: rest) : s.scene.loop = some l.scene := by
  rw [State.scene, Frame.scene, h]
  rfl

theorem does_break : Does p (compileBreak span) fun _ => breakScheme := by
  intro s hs
  refine Ensures.ofGet ?_
  cases hloops : s.frame.loops with
  | nil => exact ensures_refused_bind (by simp [Cause.kind])
  | cons l rest =>
    have h0 : Ran p s (.requires fun c => c.loop = some l.scene) [] s :=
      .requires hs (scene_loop hloops)
    refine Ensures.ofHeight ?_
    refine (ensures_popTo hs).bind fun _ s1 h => ?_
    obtain ⟨h1, hsame⟩ := h
    refine (h0.closed h1).noteJump (hsame.trans hloops) .exit rfl
      (fun o l => { l with breakJumps := o :: l.breakJumps }) (fun _ _ => rfl) fun s2 h2 => ?_
    refine does_setHeight.then h2 fun _ s3 h3 => ?_
    exact ensures_pure (Ran.reading (h3.choose l.scene))

theorem does_continue : Does p (compileContinue span) fun _ => continueScheme := by
  intro s hs
  refine Ensures.ofGet ?_
  cases hloops : s.frame.loops with
  | nil => exact ensures_refused_bind (by simp [Cause.kind])
  | cons l rest =>
    have h0 : Ran p s (.requires fun c => c.loop = some l.scene) [] s :=
      .requires hs (scene_loop hloops)
    refine Ensures.ofHeight ?_
    refine (ensures_popTo hs).bind fun _ s1 h => ?_
    obtain ⟨h1, hsame⟩ := h
    have hafter := h0.closed h1
    -- a loop that is continued at its start is jumped back to; for another the jump is noted
    cases htarget : l.continueTarget with
    | some start =>
      have hplaced := hs.frame.loops l (by rw [hloops]; exact .head _)
      have hsite : sitesOf s1.frame.loops .start = some start := by
        rw [hsame, hloops, hplaced.target start htarget]
        rfl
      refine (ensures_emitLoop h1.inv hsite).bind fun _ s2 h2 => ?_
      refine does_setHeight.then (hafter.closed h2) fun _ s3 h3 => ?_
      refine ensures_pure (Ran.reading (Ran.choose l.scene ?_))
      rw [if_pos (by rw [Loop.scene, htarget]; rfl)]
      exact h3
    | none =>
      refine hafter.noteJump (hsame.trans hloops) .again rfl
        (fun o l => { l with continueJumps := o :: l.continueJumps }) (fun _ _ => rfl)
        fun s2 h2 => ?_
      refine does_setHeight.then h2 fun _ s3 h3 => ?_
      refine ensures_pure (Ran.reading (Ran.choose l.scene ?_))
      rw [if_neg (by rw [Loop.scene, htarget]; simp)]
      exact h3

end Strand.Codegen
