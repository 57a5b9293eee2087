import Strand.Proofs.Translation.Access

/-!
# Branches and pattern matching

The branches of an `if`, the cases of a switch and the arms of a match are laid down
one after the other, and the jumps to where they meet stay pending until the last.
-/

namespace Strand.Codegen

open Scheme (op each block change atHeight heightIs declare times)

variable {p : Program} {node : NodeCompiler} {scheme : NodeScheme} {s s' : State} {x : Scheme}
  {condition subject : Expr} {slot : UInt16} {ends : List Nat} {cases : List SwitchCase}

variable {span : Span} {base : Nat} {otherwise : Option (List Expr)}

/-! ## Branches that meet -/

/-- Branches one after the other: each leaves one jump to where they meet. -/
theorem ensures_branches {γ : Type} {step : Join → γ → Build Join} {y : γ → Scheme} :
    ∀ {items : List γ},
      (∀ a ∈ items, ∀ (join : Join) (s : State), Inv p s →
        Ensures s (step join a) fun j s' =>
          ∃ o, j.jumps = o :: join.jumps ∧ Ran p s (y a) [(.done, o)] s') →
      ∀ (join : Join) {s : State}, Inv p s →
        Ensures s (items.foldlM step join) fun j s' =>
          ∃ new : List Nat, j.jumps = new.reverse ++ join.jumps ∧
            Ran p s (each y items) (new.map (Prod.mk .done)) s'
  | [], _, join, s, hs => by
    rw [List.foldlM_nil]
    exact ensures_pure ⟨[], rfl, Ran.refl hs⟩
  | a :: rest, hstep, join, s, hs => by
    rw [List.foldlM_cons]
    refine (hstep a (.head _) join s hs).bind ?_
    rintro j s1 ⟨o, hj, h1⟩
    refine (ensures_branches (fun b hb => hstep b (.tail _ hb)) j h1.inv).imp ?_
    rintro j' s2 ⟨new, hnew, h2⟩
    refine ⟨o :: new, ?_, h1.append h2⟩
    rw [hnew, hj, List.reverse_cons, List.append_assoc, List.singleton_append]

/-- Where branches meet: all the jumps that they have left are aimed. -/
theorem Ran.meet {β : Type} {new : List Nat} (h : Ran p s x (new.map (Prod.mk .done)) s')
    (hends : ∀ o, o ∈ ends ↔ o ∈ new) {f : Unit → Build β} {Q : β → State → Prop}
    (hf : ∀ s'', Ran p s (block .done x) [] s'' → Ensures s'' (f ()) Q) :
    Ensures s' (patchJumps ends span >>= f) Q := by
  refine h.patchAll .done rfl (fun o => by simp [hends]) fun s1 h1 => hf s1 ?_
  exact h1.pending fun e => by grind

theorem does_otherwise (hnode : Obeys p node scheme) {body : Option (List Expr)}
    (hbody : AllOccur p (optionalBody body)) {line : UInt64} :
    Does p (compileOtherwise node body line) fun _ => otherwiseScheme scheme body := by
  cases body with
  | some body => exact does_block hnode hbody
  | none => exact Does.bind_quiet (does_emit rfl) fun _ => isQuiet_pure

/-! ## Conditions -/

theorem ensures_branch (hnode : Obeys p node scheme) {b : Branch}
    (hb : AllOccur p b.nodes) (join : Join) (hs : Inv p s) :
    Ensures s (compileBranch node base span join b) fun j s' =>
      ∃ o, j.jumps = o :: join.jumps ∧ Ran p s (branchScheme scheme base b) [(.done, o)] s' := by
  refine (hnode.value (hb.left.operand (by simp))).first hs fun _ s1 h1 => ?_
  refine h1.jump .ifFalse .skip rfl fun o s2 h2 => ?_
  refine Does.then (does_emit rfl) h2 fun _ s3 h3 => ?_
  refine (does_block hnode hb.right).then h3 fun ty s4 h4 => ?_
  refine h4.jump .always .done rfl fun done s5 h5 => ?_
  refine h5.patch .skip rfl (by simp) fun s6 h6 => ?_
  refine does_setHeight.then h6 fun _ s7 h7 => ?_
  refine Does.then (does_emit rfl) h7 fun _ s8 h8 => ?_
  exact ensures_pure ⟨done, rfl, h8⟩

theorem does_if (hnode : Obeys p node scheme) {branches : List Branch}
    (h : AllOccur p (branches.flatMap Branch.nodes ++ optionalBody otherwise)) :
    Does p (compileIf node branches otherwise span) fun _ =>
      ifScheme scheme branches otherwise := by
  intro s hs
  have h0 : Ran p s (heightIs s.frame.height) [] s := .requires hs rfl
  refine Ensures.ofHeight ?_
  refine (ensures_branches (y := branchScheme scheme _)
    (fun b hb join s hs => ensures_branch hnode (h.left.ofMem hb) join hs) {} hs).bind ?_
  rintro join s1 ⟨new, hnew, h1⟩
  refine (does_otherwise hnode h.right).then (h0.append h1) fun ty s2 h2 => ?_
  refine h2.meet (by simp [hnew]) fun s3 h3 => ?_
  refine does_setHeight.then h3 fun _ s4 h4 => ?_
  exact ensures_pure (h4.choose s.frame.height)

theorem does_ternary (hnode : Obeys p node scheme) {thenValue elseValue : Expr}
    (h : AllOccur p (operands [condition, thenValue, elseValue])) :
    Does p (compileTernary node condition thenValue elseValue span) fun _ =>
      ternaryScheme scheme condition thenValue elseValue := by
  intro s hs
  have h0 : Ran p s (heightIs s.frame.height) [] s := .requires hs rfl
  refine Ensures.ofHeight ?_
  refine (hnode.value (h.operand (by simp))).then h0 fun _ s1 h1 => ?_
  refine h1.jump .ifFalse .skip rfl fun skip s2 h2 => ?_
  refine Does.then (does_emit rfl) h2 fun _ s3 h3 => ?_
  refine (hnode.value (h.operand (by simp))).then h3 fun _ s4 h4 => ?_
  refine h4.jump .always .done rfl fun done s5 h5 => ?_
  refine h5.patch .skip rfl (by simp) fun s6 h6 => ?_
  refine does_setHeight.then h6 fun _ s7 h7 => ?_
  refine Does.then (does_emit rfl) h7 fun _ s8 h8 => ?_
  refine (hnode.value (h.operand (by simp))).then h8 fun _ s9 h9 => ?_
  refine h9.patch .done rfl (by simp) fun s10 h10 => ?_
  refine does_setHeight.then h10 fun _ s11 h11 => ?_
  exact ensures_pure (h11.choose s.frame.height)

/-! ## Switch -/

/-- The jumps to the bodies of the cases from a given index on. -/
def casePending : (index : Nat) → List (List Nat) → List (Label × Nat)
  | _, [] => []
  | i, jumps :: rest => jumps.map (Prod.mk (.case i)) ++ casePending (i + 1) rest

theorem mem_casePending {l : Label} {o : Nat} : ∀ {tests : List (List Nat)} {i : Nat},
    (l, o) ∈ casePending i tests → ∃ j, i ≤ j ∧ l = .case j
  | [], _, h => by cases h
  | jumps :: rest, i, h => by
    rcases List.mem_append.mp h with h | h
    · obtain ⟨_, _, heq⟩ := List.mem_map.mp h
      exact ⟨i, Nat.le_refl i, (Prod.mk.inj heq).1.symm⟩
    · obtain ⟨j, hj, rfl⟩ := mem_casePending h
      exact ⟨j, Nat.le_of_succ_le hj, rfl⟩

theorem ensures_caseTests (hnode : Obeys p node scheme) (index : Nat) :
    ∀ {values : List Expr}, AllOccur p (operands values) → ∀ {s : State}, Inv p s →
      Ensures s (compileCaseTests node slot values) fun jumps s' =>
        Ran p s (caseTestsScheme scheme slot index values) (jumps.map (Prod.mk (.case index))) s'
  | [], _, s, hs => by
    unfold compileCaseTests
    rw [List.mapM_nil]
    exact ensures_pure (Ran.refl hs)
  | value :: rest, hvalues, s, hs => by
    unfold compileCaseTests
    rw [List.mapM_cons, bind_assoc]
    refine Does.first (does_emit rfl) hs fun _ s1 h1 => ?_
    rw [bind_assoc]
    refine (hnode.value (hvalues.operand (.head _))).then h1 fun _ s2 h2 => ?_
    rw [bind_assoc]
    refine Does.then (does_emit rfl) h2 fun _ s3 h3 => ?_
    rw [bind_assoc]
    refine h3.jump .ifTrue (.case index) rfl fun o s4 h4 => ?_
    rw [bind_assoc]
    refine Does.then (does_emit rfl) h4 fun _ s5 h5 => ?_
    rw [pure_bind]
    have hrest : AllOccur p (operands rest) :=
      fun st e he => hvalues st e (.tail _ he)
    refine (ensures_caseTests hnode index hrest h5.inv).bind fun jumps s6 h6 => ?_
    exact ensures_pure (h5.append h6)

theorem ensures_tests (hnode : Obeys p node scheme) :
    ∀ {cases : List SwitchCase} (index : Nat), AllOccur p (cases.flatMap SwitchCase.nodes) →
      ∀ {s : State}, Inv p s →
      Ensures s (cases.mapM fun c => compileCaseTests node slot c.values) fun tests s' =>
        tests.length = cases.length ∧
          Ran p s (testsScheme scheme slot index cases) (casePending index tests) s'
  | [], _, _, s, hs => by
    rw [List.mapM_nil]
    exact ensures_pure ⟨rfl, Ran.refl hs⟩
  | c :: rest, index, hcases, s, hs => by
    rw [List.mapM_cons]
    refine (ensures_caseTests hnode index hcases.left.left hs).bind fun jumps s1 h1 => ?_
    refine (ensures_tests hnode (index + 1) hcases.right h1.inv).bind ?_
    rintro tests s2 ⟨hlength, h2⟩
    exact ensures_pure ⟨by rw [List.length_cons, List.length_cons, hlength], h1.append h2⟩

/-- The end of a switch, whose bodies meet at height `base`. -/
theorem ensures_switchEnd (h : Ran p s x (ends.map (Prod.mk .done)) s') : Ensures s' (do
      patchJumps ends span
      setHeight base
      emit .pushNull span.line
      pure Ty.any) fun _ s'' =>
        Ran p s (block .done x ++ atHeight base ++ op .pushNull) [] s'' := by
  refine h.meet (fun _ => Iff.rfl) fun s1 h1 => ?_
  refine does_setHeight.then h1 fun _ s2 h2 => ?_
  refine Does.then (does_emit rfl) h2 fun _ s3 h3 => ?_
  exact ensures_pure h3

/-- The body of one case: the jumps to it are aimed, and one to the end is left. -/
theorem ensures_caseBody (hnode : Obeys p node scheme) {index : Nat}
    {body : List Expr} (hbody : AllOccur p (elements body)) {jumps : List Nat}
    {ρ τ : List (Label × Nat)} (hρ : ∀ e ∈ ρ ++ τ, e.1 ≠ .case index)
    (h : Ran p s x (ρ ++ (jumps.map (Prod.mk (.case index)) ++ τ)) s') :
    Ensures s' (compileCaseBody node base span body jumps) fun o s'' =>
      Ran p s (block (.case index) x ++ atHeight (base + 1) ++ op .pop ++
        blockEffectsScheme scheme body ++ .jump .always .done) (ρ ++ [(.done, o)] ++ τ) s'' := by
  have hnot : ∀ l o, (l, o) ∈ ρ ∨ (l, o) ∈ τ → l ≠ .case index := fun l o hl =>
    hρ (l, o) (List.mem_append.mpr hl)
  refine h.patchAll (.case index) rfl (fun o => ?_) fun s1 h1 => ?_
  · have hout : (Label.case index, o) ∉ ρ ∧ (Label.case index, o) ∉ τ :=
      ⟨fun hin => hnot _ o (.inl hin) rfl, fun hin => hnot _ o (.inr hin) rfl⟩
    simp [hout.1, hout.2]
  · refine does_setHeight.then h1 fun _ s2 h2 => ?_
    refine Does.then (does_emit rfl) h2 fun _ s3 h3 => ?_
    refine (does_blockEffects hnode hbody).then h3 fun _ s4 h4 => ?_
    refine (h4.jumpLast .always .done rfl).imp fun o s5 h5 => h5.pending fun e => ?_
    obtain ⟨l, o'⟩ := e
    have hout := hnot l o'
    simp only [List.mem_append, List.mem_filter, List.mem_map, List.mem_singleton, Prod.mk.injEq,
      decide_eq_true_iff]
    grind

theorem ensures_caseBodies (hnode : Obeys p node scheme) :
    ∀ {cases : List SwitchCase} {tests : List (List Nat)} (index : Nat) {x : Scheme}
      {ρ : List (Label × Nat)} {s s' : State}, AllOccur p (cases.flatMap SwitchCase.nodes) →
      tests.length = cases.length → (∀ e ∈ ρ, ∀ j, e.1 ≠ .case j) →
      Ran p s x (ρ ++ casePending index tests) s' →
      Ensures s' ((cases.zip tests).mapM fun e => compileCaseBody node base span e.1.body e.2)
        fun ends s'' =>
          Ran p s (caseBodiesScheme scheme base index cases x) (ρ ++ ends.map (Prod.mk .done)) s''
  | [], tests, index, x, ρ, s, s', _, hlength, _, h => by
    obtain rfl := List.length_eq_zero_iff.mp hlength
    rw [List.zip_nil_left, List.mapM_nil]
    exact ensures_pure h
  | c :: rest, [], _, _, _, _, _, _, hlength, _, _ => by cases hlength
  | c :: rest, jumps :: tests, index, x, ρ, s, s', hcases, hlength, hρ, h => by
    rw [List.zip_cons_cons, List.mapM_cons]
    -- the jumps that are open besides are of later cases, or of none
    have hother : ∀ e ∈ ρ ++ casePending (index + 1) tests, e.1 ≠ .case index := by
      intro e he
      rcases List.mem_append.mp he with he | he
      · exact hρ e he index
      · obtain ⟨j, hj, heq⟩ := mem_casePending he
        rw [heq]
        simp only [ne_eq, Label.case.injEq]
        omega
    refine (ensures_caseBody hnode hcases.left.right hother h).bind fun o s1 h1 => ?_
    have hρ' : ∀ e ∈ ρ ++ [(Label.done, o)], ∀ j, e.1 ≠ .case j := by
      intro e he j
      rcases List.mem_append.mp he with he | he
      · exact hρ e he j
      · rw [List.mem_singleton.mp he]
        nofun
    refine (ensures_caseBodies hnode (index + 1) hcases.right (Nat.succ.inj hlength) hρ' h1).bind ?_
    intro ends s2 h2
    rw [List.append_assoc, List.singleton_append] at h2
    exact ensures_pure h2

theorem does_switchBody (hnode : Obeys p node scheme)
    (h : AllOccur p (operands [subject] ++ cases.flatMap SwitchCase.nodes ++
      optionalBody otherwise)) : Does p (compileSwitchBody node subject cases otherwise span) fun _ =>
      switchScheme scheme subject cases otherwise := by
  intro s hs
  refine (hnode.value (h.left.left.operand (by simp))).first hs fun ty s1 h1 => ?_
  refine (does_declareLocal fun _ => by decide).then h1 fun slot s2 h2 => ?_
  refine Ensures.ofHeight ?_
  refine (ensures_tests hnode 0 h.left.right h2.inv).bind ?_
  rintro tests s3 ⟨hlength, h3⟩
  have hstart := (h2.note (P := fun c => c.height = s2.frame.height) rfl).append h3
  refine hstart.jump .always .otherwise rfl fun toDefault s4 h4 => ?_
  have hpending : Ran p s _ ([(.otherwise, toDefault)] ++ casePending 0 tests) s4 :=
    h4.pending fun e => by simp [or_comm]
  refine (ensures_caseBodies hnode 0 h.left.right hlength (by simp) hpending).bind ?_
  intro ends s5 h5
  refine h5.patch .otherwise rfl (by simp) fun s6 h6 => ?_
  refine does_setHeight.then h6 fun _ s7 h7 => ?_
  have hends : Ran p s _ (ends.map (Prod.mk .done)) s7 := h7.pending fun e => by grind
  cases otherwise with
  | some body =>
    refine (does_blockEffects hnode h.right).then hends fun _ s8 h8 => ?_
    exact (ensures_switchEnd h8).imp fun _ _ h => (h.choose s2.frame.height).choose slot
  | none =>
    exact (ensures_switchEnd hends.skip).imp fun _ _ h =>
      (h.choose s2.frame.height).choose slot

theorem does_switch (hnode : Implements p node scheme) {st : Standing}
    (h : Occurs p st ⟨.switch subject cases otherwise, span⟩) :
    Does p (compileSwitch node subject cases otherwise span) fun _ =>
      calledScheme scheme (.switch subject cases otherwise) := by
  refine Does.bind_quiet (?_ : Does p _ fun _ => calledScheme scheme (.switch subject cases otherwise))
    fun _ => isQuiet_pure
  exact does_calledUnit hnode ⟨st, span, h⟩ rfl rfl rfl (does_switchBody hnode.toObeys h.nodes)

/-! ## Leaving and checking -/

theorem does_return (hnode : Obeys p node scheme) {value : Option Expr}
    (h : AllOccur p (operands value.toList)) :
    Does p (compileReturn node value span) fun _ => returnScheme scheme value := by
  intro s hs
  refine Ensures.ofHeight (Ensures.ofGet ?_)
  -- whatever was laid down for the value, the rest is the same
  have hend {y : Scheme} {s1 : State} (h1 : Ran p s y [] s1) :
      Ensures s1 (do
        emit .ret span.line
        setHeight s.frame.height
        pure Ty.any) fun _ s' => Ran p s (y ++ op .ret ++ atHeight s.scene.height) [] s' := by
    refine Does.then (does_emit rfl) h1 fun _ s2 h2 => ?_
    refine does_setHeight.then h2 fun _ s3 h3 => ?_
    exact ensures_pure h3
  have hcheck {y : Scheme} {s1 : State} {ty : Ty} (h1 : Ran p s y [] s1) :
      Ensures s1 (do
        checkReturned ty ((value.map Expr.span).getD span)
        emit .ret span.line
        setHeight s.frame.height
        pure Ty.any) fun _ s' => Ran p s (y ++ op .ret ++ atHeight s.scene.height) [] s' := by
    have hquiet {at_ : Span} : IsQuiet (checkReturned ty at_) := by
      refine IsQuiet.ofGet fun s => ?_
      split
      · exact isQuiet_checkAssignable
      · exact isQuiet_pure
    exact hquiet.then h1 fun _ s2 h2 => hend h2
  refine Ensures.imp (Q := fun _ s' => Ran p s (returnedScheme scheme s.scene.kind value ++
    op .ret ++ atHeight s.scene.height) [] s') ?_ fun _ _ h => h.reading
  unfold returnedScheme
  dsimp only
  rw [show s.scene.kind = s.frame.kind from rfl]
  by_cases hkind : s.frame.kind = .constructor
  · rw [if_pos hkind, if_pos (beq_iff_eq.mpr hkind)]
    cases value with
    | some e =>
      refine (hnode.does (h.operand (by simp)) .effect).first hs fun _ s1 h1 => ?_
      exact Does.then (does_emit rfl) h1 fun _ s2 h2 => hend h2
    | none =>
      exact Does.then (does_emit rfl) (Ran.refl hs) fun _ s2 h2 => hend h2
  · rw [if_neg hkind, if_neg (by rw [beq_iff_eq]; exact hkind)]
    cases value with
    | some e => exact (hnode.value (h.operand (by simp))).first hs fun _ s1 h1 => hcheck h1
    | none => exact Does.first (does_emit rfl) hs fun _ s1 h1 => hcheck h1

theorem does_throw (hnode : Obeys p node scheme) {value : Expr} (h : AllOccur p (operands [value])) :
    Does p (compileThrow node value span) fun _ => throwScheme scheme value := by
  intro s hs
  refine Ensures.ofHeight ?_
  refine (hnode.value (h.operand (by simp))).first hs fun _ s1 h1 => ?_
  refine Does.then (does_emit rfl) h1 fun _ s2 h2 => ?_
  refine does_setHeight.then h2 fun _ s3 h3 => ?_
  exact ensures_pure h3.reading

theorem does_assert (hnode : Obeys p node scheme) {message : Option Expr}
    (h : AllOccur p (operands (condition :: message.toList))) :
    Does p (compileAssert node condition message span) fun _ =>
      assertScheme scheme condition message := by
  intro s hs
  refine (hnode.value (h.operand (.head _))).first hs fun _ s1 h1 => ?_
  cases message with
  | some e =>
    refine (hnode.value (h.operand (by simp))).then h1 fun _ s2 h2 => ?_
    exact Does.last (does_emit rfl) h2
  | none =>
    refine Does.then (does_emit rfl) h1 fun _ s2 h2 => ?_
    exact Does.last (does_emit rfl) h2

end Strand.Codegen
