import Strand.Proofs.Translation.Branches

/-!
# Pattern matching

An arm may leave two sorts of jump besides the one to the end of the match: from a test
that failed and from a guard that does not hold. Both are aimed before the next arm.
-/

namespace Strand.Codegen

open Scheme (op each block change atHeight heightIs declare times)

variable {p : Program} {node : NodeCompiler} {scheme : NodeScheme} {s s' : State} {x : Scheme}
  {subject : Ty} {names : List String} {arms : List Arm} {otherwise : Option (List Expr)}

variable {span : Span} {slot : UInt16}

/-! ## Patterns -/

/-- The name that a binder introduces, and the member it is bound to. -/
def Binder.bound (b : Binder) : String × Option String := (b.name, b.member)

/-- The names that binders introduce. -/
def boundNames (binders : List Binder) : List String := (binders.map Binder.bound).map Prod.fst

theorem finds_classBinders {c : ClassRef} :
    Finds (classBinders c names span) fun binders => boundNames binders = names := by
  have hone (name : String) : Finds (classBinder c span name) fun b => b.name = name := by
    refine isQuiet_get.finds.bind fun s _ => ?_
    split
    · exact finds_pure rfl
    · exact isQuiet_report.finds.bind fun _ _ => finds_pure rfl
  refine (finds_mapM fun name _ => hone name).imp fun binders hnames => ?_
  induction hnames with
  | nil => rfl
  | cons hb _ ih => exact congrArg₂ List.cons hb ih

/-- Whatever is matched against, all names of the pattern are bound. -/
theorem finds_destructureBinders {target : Ty} :
    Finds (destructureBinders target names span) fun binders => boundNames binders = names := by
  unfold destructureBinders
  split
  · exact finds_classBinders
  · have hnames {v : Variant} : boundNames (names.zipIdx.map fun e =>
        { name := e.1, member := some (v.fieldNames[e.2]?.getD e.1)
          ty := v.fieldTypes[e.2]?.getD .any }) = names := by
      unfold boundNames
      rw [List.map_map, List.map_map]
      exact List.zipIdx_map_fst 0 names
    unfold variantBinders
    dsimp only
    split
    · exact isQuiet_report.finds.bind fun _ _ => finds_pure hnames
    · exact finds_pure hnames
  · have hnames : boundNames (names.map fun name => { name, member := some name, ty := .any }) =
        names := by
      unfold boundNames
      rw [List.map_map, List.map_map]
      exact List.map_id names
    dsimp only
    split
    · exact isQuiet_report.finds.bind fun _ _ => finds_pure hnames
    · exact finds_pure hnames

theorem ensures_patternBinder (hs : Inv p s) {e : Expr} :
    Ensures s (patternBinder? e) fun r s' =>
      Quiet s s' ∧ ∀ name, r = some name → e.kind = .var name := by
  unfold patternBinder?
  split
  · rename_i name hkind
    refine (ensures_resolveName hs).bind fun m s1 hm => ?_
    cases m with
    | none =>
      refine ensures_pure ⟨hm.1, fun n hn => ?_⟩
      rw [hkind, Option.some.inj hn]
    | some _ => exact ensures_pure ⟨hm.1, fun _ hnone => by cases hnone⟩
  · exact ensures_pure ⟨.refl s, fun _ hnone => by cases hnone⟩

/-- The test says which form of the scheme was laid down. -/
theorem ensures_pattern (hnode : Obeys p node scheme) {pattern : Pattern}
    (h : AllOccur p (operands pattern.exprs)) (hs : Inv p s) :
    Ensures s (compilePattern node pattern slot subject span) fun test s' =>
      Ran p s (patternScheme scheme slot pattern test.failed.isSome (test.binders.map Binder.bound))
        (test.failed.toList.map (Prod.mk .failed)) s' := by
  cases pattern with
  | wildcard => exact ensures_pure (Ran.requires hs ⟨rfl, rfl⟩)
  | value e =>
    refine (ensures_patternBinder hs).bind fun r s1 ⟨hq, hname⟩ => ?_
    -- a name that denotes nothing is bound; anything else is compared with the subject
    cases r with
    | some name =>
      have h1 : Ran p s (.requires fun _ => false = false ∧
          ∃ n, e.kind = .var n ∧ [(name, none)] = [(n, (none : Option String))]) [] s1 :=
        (Ran.requires hs ⟨rfl, name, hname name rfl, rfl⟩).quiet hq
      exact ensures_pure (.thisOne h1)
    | none =>
      have h1 : Ran p s (.requires fun _ => true = true ∧
          ([] : List (String × Option String)) = []) [] s1 :=
        (Ran.requires hs ⟨rfl, rfl⟩).quiet hq
      refine Does.then (does_emit rfl) h1 fun _ s2 h2 => ?_
      refine (hnode.value (h.operand (.head _))).then h2 fun _ s3 h3 => ?_
      refine Does.then (does_emit rfl) h3 fun _ s4 h4 => ?_
      refine h4.jump .ifFalse .failed rfl fun o s5 h5 => ?_
      refine Does.then (does_emit rfl) h5 fun _ s6 h6 => ?_
      exact ensures_pure (.another (.thisOne h6))
  | destructure target names =>
    refine Does.first (does_emit rfl) hs fun _ s1 h1 => ?_
    refine (hnode.value (h.operand (.head _))).then h1 fun _ s2 h2 => ?_
    refine Does.then (does_emit rfl) h2 fun _ s3 h3 => ?_
    refine h3.jump .ifFalse .failed rfl fun o s4 h4 => ?_
    refine Does.then (does_emit rfl) h4 fun _ s5 h5 => ?_
    refine finds_destructureBinders.then h5 fun binders s6 hbinders h6 => ?_
    exact ensures_pure (h6.known ⟨rfl, hbinders⟩)

theorem does_declareBinder {b : Binder} (hname : Unshadowed p → b.name ≠ "this") :
    Does p (declareBinder slot span b) fun _ => binderScheme slot b.bound := by
  obtain ⟨name, member, ty⟩ := b
  intro s hs
  refine Does.first (does_emit rfl) hs fun _ s1 h1 => ?_
  cases member with
  | some member =>
    refine Does.first (does_addData rfl) h1.inv fun i s2 h2 => ?_
    refine Does.then (does_emit rfl) h2 fun _ s3 h3 => ?_
    have hmember : Ran p s1 (.choose fun i => .pooled (.str member) i ++ op (.getAttr i)) [] s3 :=
      h3.choose i
    refine (does_declared hname).then (h1.closed hmember) fun _ s4 h4 => ?_
    exact ensures_pure h4
  | none =>
    refine (does_declared hname).then h1.skip fun _ s2 h2 => ?_
    exact ensures_pure h2

/-! ## Arms -/

theorem ensures_guard (hnode : Obeys p node scheme) {guard : Option Expr}
    (h : AllOccur p (operands guard.toList)) (hs : Inv p s) :
    Ensures s (compileGuard node guard) fun r s' =>
      r.isSome = guard.isSome ∧
        Ran p s (guardScheme scheme guard) (r.toList.map (Prod.mk .unguarded)) s' := by
  cases guard with
  | none => exact ensures_pure ⟨rfl, Ran.refl hs⟩
  | some e =>
    refine (hnode.value (h.operand (.head _))).first hs fun _ s1 h1 => ?_
    refine h1.jump .ifFalse .unguarded rfl fun o s2 h2 => ?_
    refine Does.then (does_emit rfl) h2 fun _ s3 h3 => ?_
    exact ensures_pure ⟨rfl, h3⟩

/-- Where an arm that did not match goes on. -/
theorem ensures_fallThrough {base count done : Nat} {guardFailed failed : Option Nat}
    (h : Ran p s x (failed.toList.map (Prod.mk .failed) ++
      guardFailed.toList.map (Prod.mk .unguarded) ++ [(.done, done)]) s') :
    Ensures s' (fallThrough base count guardFailed failed span) fun _ s'' =>
      Ran p s (fallThroughScheme base count guardFailed.isSome failed.isSome x)
        [(.done, done)] s'' := by
  unfold fallThrough
  dsimp only
  -- if both can fail, the code after the guard has to jump over that after the test
  cases guardFailed with
  | none =>
    cases failed with
    | none =>
      simp only [pure_bind]
      exact does_setHeight.last h
    | some test =>
      simp only [pure_bind]
      refine h.patch .failed rfl (by simp) fun s1 h1 => ?_
      refine does_setHeight.then h1 fun _ s2 h2 => ?_
      refine Does.then (does_emit rfl) h2 fun _ s3 h3 => ?_
      exact does_setHeight.last h3
  | some guard =>
    cases failed with
    | none =>
      simp only [pure_bind]
      refine h.patch .unguarded rfl (by simp) fun s1 h1 => ?_
      refine does_setHeight.then h1 fun _ s2 h2 => ?_
      refine Does.then (does_emitTimes rfl) h2 fun _ s3 h3 => ?_
      exact does_setHeight.last h3.skip
    | some test =>
      simp only [bind_assoc, pure_bind, map_eq_pure_bind]
      refine h.patch .unguarded rfl (by simp) fun s1 h1 => ?_
      refine does_setHeight.then h1 fun _ s2 h2 => ?_
      refine Does.then (does_emitTimes rfl) h2 fun _ s3 h3 => ?_
      refine h3.jump .always .next rfl fun next s4 h4 => ?_
      refine h4.patch .failed rfl (by simp) fun s5 h5 => ?_
      refine does_setHeight.then h5 fun _ s6 h6 => ?_
      refine Does.then (does_emit rfl) h6 fun _ s7 h7 => ?_
      refine h7.patch .next rfl (by simp) fun s8 h8 => ?_
      exact does_setHeight.last h8

/-- An arm leaves one jump open, to the end of the match. -/
theorem ensures_arm (hnode : Obeys p node scheme) {base : Nat}
    {a : Arm} (ha : AllOccur p a.nodes) (hnames : Unshadowed p → "this" ∉ a.pattern.names)
    (join : Join) (hs : Inv p s) : Ensures s (compileArm node slot subject base join a) fun j s' =>
      ∃ o, j.jumps = o :: join.jumps ∧ Ran p s (armScheme scheme slot base a) [(.done, o)] s' := by
  have hexprs : AllOccur p (operands a.pattern.exprs ++ operands a.guard.toList) := by
    have hleft := ha.left
    rwa [operands, List.map_append] at hleft
  refine does_openScope.first hs fun _ s1 h1 => ?_
  refine (ensures_pattern hnode hexprs.left h1.inv).bind fun test s2 h2 => ?_
  have hbinders : ∀ b ∈ test.binders, b.name ∈ a.pattern.names := by
    obtain ⟨t, -, hx, -⟩ := h2
    exact fun b hb => mem_names_of_pattern (hx _ List.prefix_rfl) _ (List.mem_map_of_mem hb)
  refine (does_forM (fun b => binderScheme slot b.bound) fun b hb => does_declareBinder fun hp heq =>
    hnames hp (heq ▸ hbinders b hb)).then (h1.append h2) fun _ s3 h3 => ?_
  refine (ensures_guard hnode hexprs.right h3.inv).bind fun guardFailed s4 h => ?_
  obtain ⟨hguard, h4⟩ := h
  refine (does_sequence hnode ha.right).then (h3.append h4) fun ty s5 h5 => ?_
  refine does_closeScope.then h5 fun _ s6 h6 => ?_
  refine h6.jump .always .done rfl fun done s7 h7 => ?_
  refine (ensures_fallThrough h7).bind fun _ s8 h8 => ensures_pure ⟨done, rfl, ?_⟩
  rw [hguard, ← List.length_map (f := Binder.bound)] at h8
  rw [← each_map (binderScheme slot) Binder.bound] at h8
  exact (h8.choose (test.binders.map Binder.bound)).choose test.failed.isSome

/-- The arms come one after the other, then the default, and the jumps of all arms are aimed
behind it. -/
theorem does_matchBody (hnode : Obeys p node scheme) {subject : Expr}
    (h : AllOccur p (operands [subject] ++ arms.flatMap Arm.nodes ++ optionalBody otherwise))
    (hnames : Unshadowed p → ∀ a ∈ arms, "this" ∉ a.pattern.names) :
    Does p (compileMatchBody node subject arms otherwise span) fun _ =>
      matchScheme scheme subject arms otherwise := by
  intro s hs
  refine (hnode.value (h.left.left.operand (by simp))).first hs fun ty s1 h1 => ?_
  refine (does_declareLocal fun _ => by decide).then h1 fun slot s2 h2 => ?_
  refine Ensures.ofHeight ?_
  refine (ensures_branches (y := armScheme scheme slot _)
    (fun a ha join s hs => ensures_arm hnode (h.left.right.ofMem ha) (fun hp => hnames hp a ha) join hs)
    {} h2.inv).bind ?_
  rintro join s3 ⟨new, hnew, h3⟩
  have hstart := (h2.note (P := fun c => c.height = s2.frame.height) rfl).append h3
  refine (does_otherwise hnode h.right).then hstart fun ty s4 h4 => ?_
  refine h4.meet (by simp [hnew]) fun s5 h5 => ?_
  refine does_setHeight.then h5 fun _ s6 h6 => ?_
  exact ensures_pure ((h6.choose s2.frame.height).choose slot)

theorem does_match (hnode : Implements p node scheme) {st : Standing} {subject : Expr}
    (h : Occurs p st ⟨.patternMatch subject arms otherwise, span⟩) :
    Does p (compileMatch node subject arms otherwise span) fun _ =>
      calledScheme scheme (.patternMatch subject arms otherwise) := by
  refine does_calledUnit hnode ⟨st, span, h⟩ rfl rfl rfl (does_matchBody hnode.toObeys h.nodes ?_)
  exact fun hp a ha hthis => hp st _ h (List.mem_flatMap.mpr ⟨a, ha, hthis⟩)

end Strand.Codegen
