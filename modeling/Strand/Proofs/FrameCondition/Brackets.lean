import Strand.Proofs.FrameCondition

/-!
# What is opened is closed

A block, a loop and the scope of generic parameters are each opened and closed in one part of
the code generator. Here they are combinators around the steps in between; the closing gives
back what was there before the opening.
-/

namespace Strand.Codegen

variable {α : Type} {s0 s s' : State} {f g : Frame} {line : UInt64} {rest : List Loop}

/-! ## Blocks -/

/-- A step in a block of its own. -/
def inScope (carry : Bool) (line : UInt64) (act : Build α) : Build α := do
  openScope
  let a ← act
  closeScope carry line
  pure a

/-- The state in which a block has been opened. -/
def State.opened (s : State) : State := s.withFrame s.frame.openScope

theorem Frame.emitTimes_locals {i : Instr} : ∀ (n : Nat) (f : Frame),
    (f.emitTimes i line n).locals = f.locals
  | 0, _ => rfl
  | n + 1, f => emitTimes_locals n (f.emit i line)

/-- The locals of a block are those that are deeper than what is around it. -/
theorem Frame.Kept.takeWhile_locals (h : f.openScope.Kept g)
    (hsettled : ∀ l ∈ f.locals, l.depth ≤ f.depth) :
    ∃ new old, g.locals = new ++ old ∧ (∀ l ∈ new, l.depth = f.depth + 1) ∧
      List.Forall₂ Local.Kept f.locals old ∧
      (g.locals.takeWhile fun l => decide (g.depth - 1 < l.depth)).length = new.length := by
  obtain ⟨new, old, hlocals, hnew, hold⟩ := h.locals
  have hdepth : g.depth - 1 = f.depth := by rw [h.depth]; rfl
  have hdeep : ∀ l ∈ new, decide (g.depth - 1 < l.depth) = true := by
    intro l hl
    rw [hdepth, hnew l hl]
    exact decide_eq_true (Nat.lt_succ_self _)
  have hshallow : ∀ l ∈ old, decide (g.depth - 1 < l.depth) = false := by
    intro l hl
    obtain ⟨i, hi, rfl⟩ := List.mem_iff_getElem.mp hl
    have hi' : i < f.locals.length := Nat.lt_of_lt_of_eq hi hold.length_eq.symm
    have hkept : Local.Kept f.locals[i] old[i] := hold.get hi' hi
    rw [hdepth, hkept.depth]
    exact decide_eq_false (Nat.not_lt.mpr (hsettled _ (List.getElem_mem _)))
  -- so the search stops at the first local that was there before
  have hrest : old.takeWhile (fun l => decide (g.depth - 1 < l.depth)) = [] := by
    cases old with
    | nil => rfl
    | cons l _ => exact List.takeWhile_cons_of_neg (by simp [hshallow l (.head _)])
  refine ⟨new, old, hlocals, hnew, hold, ?_⟩
  rw [hlocals, List.takeWhile_append_of_pos hdeep, hrest, List.append_nil]

theorem Frame.Kept.closeScope (h : f.openScope.Kept g)
    (hsettled : ∀ l ∈ f.locals, l.depth ≤ f.depth) (carry : Bool) (line : UInt64) :
    f.Kept (g.closeScope carry line) := by
  obtain ⟨new, old, hlocals, -, hold, hcount⟩ := h.takeWhile_locals hsettled
  have hpopped := h.emitTimes (if carry then .popUnder else .pop) line
    (g.locals.takeWhile fun l => decide (g.depth - 1 < l.depth)).length
  unfold Frame.closeScope
  exact
    { hpopped with
      depth := by
        show g.depth - 1 = f.depth
        rw [h.depth]
        rfl
      locals := by
        refine ⟨[], old, ?_, fun _ hl => absurd hl List.not_mem_nil, hold⟩
        show (Frame.emitTimes g _ line _).locals.drop _ = old
        rw [Frame.emitTimes_locals, hcount, hlocals, List.drop_left] }

theorem State.Kept.closed (h : s.opened.Kept s') (hs : ∀ l ∈ s.frame.locals, l.depth ≤ s.frame.depth)
    (carry : Bool) (line : UInt64) : s.Kept (s'.withFrame (s'.frame.closeScope carry line)) :=
  ⟨h.frame.closeScope hs carry line, h.outer, h.nesting, h.typeCheck⟩

theorem Frame.emitTimes_inlines {i : Instr} : ∀ (n : Nat) (f : Frame),
    (f.emitTimes i line n).inlines = f.inlines
  | 0, _ => rfl
  | n + 1, f => emitTimes_inlines n (f.emit i line)

/-- The macros of a block are forgotten with it. -/
theorem State.Macros.closed {droppable : String → Prop} (h : s.opened.Macros droppable s')
    (hs : ∀ m ∈ s.frame.inlines, m.depth ≤ s.frame.depth) (carry : Bool) (line : UInt64) :
    List.Forall₂ (fun f g => DroppedBy droppable f.inlines g.inlines) s.chain
      (s'.withFrame (s'.frame.closeScope carry line)).chain := by
  obtain ⟨new, left, hinlines, hnew, hleft⟩ := h.frame.inlines
  have hdepth : s'.frame.depth - 1 = s.frame.depth := by rw [h.frame.depth]; rfl
  refine .cons ?_ h.outer
  show DroppedBy _ _
    ((Frame.emitTimes s'.frame _ line _).inlines.filter fun m => m.depth ≤ s'.frame.depth - 1)
  have hgone : new.filter (fun m => m.depth ≤ s.frame.depth) = [] := by
    refine List.filter_eq_nil_iff.mpr fun m hm hle => ?_
    have hm : m.depth = s.frame.depth + 1 := hnew m hm
    have hle := of_decide_eq_true hle
    omega
  rw [Frame.emitTimes_inlines, hinlines, hdepth, List.filter_append, hgone, List.nil_append,
    List.filter_eq_self.mpr fun m hm => decide_eq_true (hs m (hleft.subset hm))]
  exact hleft

/-! ## Loops -/

/-- A step in a loop of its own. It is told where the loop starts. -/
def inLoop (continueAtStart : Bool) (span : Span) (act : Nat → Build Unit) : Build Unit := do
  let start ← beginLoop continueAtStart
  act start
  endLoop span

/-- The innermost loop has been opened just now. -/
def State.FreshLoop (s : State) : Prop :=
  ∃ l rest, s.frame.loops = l :: rest ∧ l.continueJumps = [] ∧ l.breakJumps = []

/-- The innermost loop, of which all jumps stand behind the code of `s0`. -/
theorem State.FreshLoop.head (h : s0.FreshLoop) (hs : s0.Kept s) :
    ∃ l rest, s.frame.loops = l :: rest ∧ (∀ o ∈ l.continueJumps, s0.frame.chunk.size ≤ o) ∧
      (∀ o ∈ l.breakJumps, s0.frame.chunk.size ≤ o) := by
  obtain ⟨l0, rest0, hloops, hcontinues, hbreaks⟩ := h
  have hkept := hs.frame.loops
  rw [hloops] at hkept
  obtain ⟨l, rest, hl, -, hs⟩ := List.forall₂_cons_left_iff.mp hkept
  refine ⟨l, rest, hs, fun o ho => ?_, fun o ho => ?_⟩
  · have hmem := hl.continues o ho
    rw [hcontinues] at hmem
    exact hmem.resolve_left List.not_mem_nil
  · have hmem := hl.breaks o ho
    rw [hbreaks] at hmem
    exact hmem.resolve_left List.not_mem_nil

/-- Jumps may be noted with the innermost loop, or forgotten. -/
theorem Frame.Kept.noted (h : f.Kept g) {l l' : Loop}
    (hloops : g.loops = l :: rest) (hl : l.Kept f.chunk.size l') :
    f.Kept { g with loops := l' :: rest } := by
  have hkept := h.loops
  rw [hloops] at hkept
  obtain ⟨l0, rest0, hl0, hrest, heq⟩ := List.forall₂_cons_right_iff.mp hkept
  refine { h with loops := ?_ }
  rw [heq]
  exact .cons (hl0.trans hl (Nat.le_refl _)) hrest

theorem State.freshLoop_entered (s : State) (c : Bool) : (s.entered c).FreshLoop :=
  ⟨_, _, rfl, rfl, rfl⟩

/-- The loop is left, and its jumps are still to be aimed. -/
theorem State.Kept.left {c : Bool} (h : (s.entered c).Kept s') {l : Loop}
    (hloops : s'.frame.loops = l :: rest) : s.Kept (s'.withFrame { s'.frame with loops := rest }) := by
  have hkept := h.frame.loops
  rw [hloops] at hkept
  exact ⟨{ h.frame with loops := (List.forall₂_cons.mp hkept).2 }, h.outer, h.nesting, h.typeCheck⟩

/-! ## What is opened where -/

section

variable (node : NodeCompiler)

theorem compileBlockEffects_eq (body : List Expr) (line : UInt64) :
    compileBlockEffects node body line = inScope false line (compileEffects node body) := by
  simp only [compileBlockEffects, inScope, bind_pure_unit]

/-- The part of an arm that has a block of its own. -/
def compileMatched (node : NodeCompiler) (slot : UInt16) (subject : Ty) (arm : Arm) :
    Build (PatternTest × Option Nat × Ty) := do
  let test ← compilePattern node arm.pattern slot subject arm.span
  test.binders.forM (declareBinder slot arm.span)
  let guardFailed ← compileGuard node arm.guard
  let ty ← compileSequence node arm.span.line arm.body
  pure (test, guardFailed, ty)

theorem compileArm_eq (slot : UInt16) (subject : Ty) (base : Nat) (join : Join) (arm : Arm) :
    compileArm node slot subject base join arm = (do
      let r ← inScope true arm.span.line (compileMatched node slot subject arm)
      let done ← emitJump .jump arm.span.line
      fallThrough base r.1.binders.length r.2.1 r.1.failed arm.span
      pure (join.add r.2.2 done)) := by
  simp only [compileArm, compileMatched, inScope, bind_assoc, pure_bind]

/-- A loop whose value may be wanted. -/
def inAccumulator (position : Position) (line : UInt64) (act : Build Unit) : Build Ty := do
  openAccumulator position line
  inScope false line act
  closeAccumulator position line

theorem compileWhile_eq (condition : Expr) (body : List Expr) (position : Position) (span : Span) :
    compileWhile node condition body position span = inAccumulator position span.line (do
      let base ← height
      inLoop true span fun start => do
        let _ ← node condition .value
        let exit ← emitJump .jumpIfFalse span.line
        emit .pop span.line
        let _ ← compileBlock node body span.line
        finishIteration position span.line
        emitLoop start span
        patchJump exit span
        setHeight (base + 1)
        emit .pop span.line) := by
  simp only [compileWhile, inAccumulator, inScope, inLoop, leaveAtCondition, bind_assoc, pure_bind]

theorem compileDoWhile_eq (body : List Expr) (condition : Expr) (position : Position) (span : Span) :
    compileDoWhile node body condition position span = inAccumulator position span.line (do
      let base ← height
      inLoop false span fun start => do
        let _ ← compileBlock node body span.line
        finishIteration position span.line
        patchContinues span
        let _ ← node condition .value
        let exit ← emitJump .jumpIfFalse span.line
        emit .pop span.line
        emitLoop start span
        patchJump exit span
        setHeight (base + 1)
        emit .pop span.line) := by
  simp only [compileDoWhile, inAccumulator, inScope, inLoop, leaveAtCondition, bind_assoc, pure_bind]

theorem compileRangeFor_eq (variableName : String) (typeExpr : Option (List TypeExpr.Token))
    (first last : Expr) (step : Option Expr) (body : List Expr) (position : Position) (span : Span) :
    compileRangeFor node variableName typeExpr first last step body position span =
    inAccumulator position span.line (do
      let firstTy ← node first .value
      let counter ← declareLocal "$counter" firstTy false first.span
      let lastTy ← node last .value
      let lastSlot ← declareLocal "$end" lastTy true last.span
      let stepTy ← compileStep node step counter lastSlot span.line
      let stepSlot ← declareLocal "$step" stepTy true span
      let _ ← operatorResult .less ":" firstTy lastTy (first.span.merge last.span)
      let variableTy ← rangeVariableType typeExpr firstTy stepTy first.span span
      let base ← height
      inLoop false span fun start => do
        emit (.rangeCheck counter) span.line
        let exit ← emitJump .jumpIfFalse span.line
        emit .pop span.line
        let _ ← inScope true span.line (do
          emit (.getLocal counter) span.line
          emit .copy span.line
          let _ ← declareLocal variableName variableTy false span
          compileSequence node span.line body)
        finishIteration position span.line
        patchContinues span
        emit (.getLocal counter) span.line
        emit (.getLocal stepSlot) span.line
        emit (.binary .add) span.line
        emit (.setLocal counter) span.line
        emit .pop span.line
        emitLoop start span
        patchJump exit span
        setHeight (base + 1)
        emit .pop span.line) := by
  simp only [compileRangeFor, inAccumulator, inScope, inLoop, leaveAtCondition, bind_assoc, pure_bind]

theorem compileForEach_eq (variableName : String) (iterable : Expr) (body : List Expr)
    (position : Position) (span : Span) :
    compileForEach node variableName iterable body position span =
    inAccumulator position span.line (do
      let iterableTy ← node iterable .value
      emit .getIter span.line
      let _ ← declareLocal "$iter" .any true iterable.span
      let base ← height
      inLoop true span fun start => do
        let exit ← emitJump .forIter span.line
        let _ ← inScope true span.line (do
          let _ ← declareLocal variableName (itemType iterableTy) false span
          compileSequence node span.line body)
        finishIteration position span.line
        emitLoop start span
        patchJump exit span
        setHeight base) := by
  simp only [compileForEach, inAccumulator, inScope, inLoop, bind_assoc, pure_bind]

end

end Strand.Codegen
