import Strand.Proofs.Translation.Values

/-!
# Variables, attributes and elements

What a name denotes decides which of the forms of a scheme is laid down.
-/

namespace Strand.Codegen

open Scheme (op found unfound pooled change)

variable {p : Program} {node : NodeCompiler} {scheme : NodeScheme} {s s' : State} {name : String}
  {target : Span} {index : Expr}

variable {span : Span} {object value : Expr} {isWeak : Bool}

section

variable {name : String}

/-- A name that is that of a local lays down nothing by being resolved. -/
theorem ran_found (hs : Inv p s) (hq : Quiet s s') {v : Var}
    (h : s.scene.findLocal? name = some v) : Ran p s (found name v) [] s' :=
  (Ran.requires hs h).quiet hq

theorem ran_unfound (hs : Inv p s) (hq : Quiet s s') (h : s.scene.findLocal? name = none) :
    Ran p s (unfound name) [] s' :=
  (Ran.requires hs h).quiet hq

end

/-! ## Reading -/

/-- Each meaning of a name has its form of the scheme. -/
theorem does_variable (hnode : Obeys p node scheme) :
    Does p (compileVariable node name span) fun _ => variableScheme p scheme name := by
  intro s hs
  refine (ensures_resolveName hs).bind fun m s1 h => ?_
  obtain ⟨hq, hm⟩ := h
  cases m with
  | none => exact ensures_refused_bind (by simp [Cause.kind])
  | some m =>
    cases m with
    | inline value =>
      have h1 : Ran p s (.requires fun _ => Expands p name value) [] s1 := (Ran.requires hs hm).quiet hq
      exact ((hnode.value hm.isMacro.occurs).last h1).imp fun _ _ h => .thisOne (h.choose value)
    | slot slot ty isConst =>
      obtain ⟨v, hfound, rfl⟩ := hm
      refine Does.then (does_emit rfl) (ran_found hs hq hfound) fun _ s2 h2 => ?_
      exact ensures_pure (.another (.thisOne (h2.choose v)))
    | captured c =>
      refine Does.then (does_emit rfl) (ran_unfound hs hq hm) fun _ s2 h2 => ?_
      exact ensures_pure (.another (.another (.thisOne (h2.choose c.index))))
    | global ty isConst =>
      refine Does.then (does_addData rfl) (ran_unfound hs hq hm) fun i s2 h2 => ?_
      refine Does.then (does_emit rfl) h2 fun _ s3 h3 => ?_
      exact ensures_pure (.another (.another (.another (.thisOne (h3.choose i)))))
    | ofReceiver ty =>
      have hreach : reachesReceiver s1.chain = true := hq.beside.reachesReceiver.trans hm.2
      refine ((ran_unfound hs hq hm.1).implicitReceiver hreach).bind fun _ s2 h2 => ?_
      refine Does.then (does_addData rfl) h2 fun i s3 h3 => ?_
      refine Does.then (does_emit rfl) h3 fun _ s4 h4 => ?_
      exact ensures_pure (.another (.another (.another (.another (.thisOne (h4.choose i))))))

/-- Without a receiver the node is refused. -/
theorem does_this : Does p (compileThis span) fun _ => Scheme.receiver := by
  intro s hs
  refine (ensures_emitReceiver hs).bind fun r s1 ⟨hsome, _⟩ => ?_
  cases r with
  | some ty => exact ensures_pure (hsome rfl)
  | none => exact ensures_refused_bind (by simp [Cause.kind])

/-- The type of the attribute is looked up in between, which lays down nothing. -/
theorem does_member (hnode : Obeys p node scheme) (h : AllOccur p (operands [object])) :
    Does p (compileMember node object name span) fun _ => memberScheme scheme object name := by
  intro s hs
  refine (hnode.value (h.operand (by simp))).first hs fun ty s1 h1 => ?_
  refine isQuiet_attributeType.then h1 fun _ s2 h2 => ?_
  refine Does.then (does_addData rfl) h2 fun i s3 h3 => ?_
  refine Does.then (does_emit rfl) h3 fun _ s4 h4 => ?_
  exact ensures_pure (h4.choose i)

theorem does_index (hnode : Obeys p node scheme)
    (h : AllOccur p (operands [object, index])) : Does p (compileIndex node object index) fun _ =>
      scheme.value object ++ scheme.value index ++ op .getIndex := by
  intro s hs
  refine (hnode.value (h.operand (by simp))).first hs fun ty s1 h1 => ?_
  refine (hnode.value (h.operand (by simp))).then h1 fun _ s2 h2 => ?_
  refine Does.then (does_emit rfl) h2 fun _ s3 h3 => ?_
  exact ensures_pure h3

/-! ## Assigning -/

/-- The meaning of the name decides the instruction. A weak assignment to an attribute evaluates
the value before the receiver, any other one after it. -/
theorem does_assignName (hnode : Obeys p node scheme) (hvalue : Occurs p .operand value) :
    Does p (compileAssignName node isWeak name target value span) fun _ =>
      assignNameScheme p scheme isWeak name value := by
  intro s hs
  have hconst {b : Bool} : IsQuiet (if b = true then report (.assignToConstant name) target
      else pure ()) := isQuiet_reportIf
  have hcheck {ty declared : Ty} : IsQuiet
      (if (!isWeak) = true then checkAssignable ty declared value.span else pure ()) :=
    isQuiet_checkAssignable.ite isQuiet_pure
  refine (ensures_resolveName hs).bind fun m s1 h => ?_
  obtain ⟨hq, hm⟩ := h
  dsimp only
  cases m with
  | none => exact ensures_refused_bind (by simp [Cause.kind])
  | some m =>
    cases m with
    | inline value => exact ensures_refused_bind (by simp [Cause.kind])
    | slot slot declared isConst =>
      obtain ⟨v, hfound, rfl⟩ := hm
      refine hconst.then (ran_found hs hq hfound) fun _ s2 h2 => ?_
      refine (hnode.value hvalue).then h2 fun _ s3 h3 => ?_
      refine hcheck.then h3 fun _ s4 h4 => ?_
      refine Does.then (does_emit rfl) h4 fun _ s5 h5 => ?_
      exact ensures_pure (.thisOne (h5.choose v))
    | captured c =>
      refine hconst.then (ran_unfound hs hq hm) fun _ s2 h2 => ?_
      refine (hnode.value hvalue).then h2 fun _ s3 h3 => ?_
      refine hcheck.then h3 fun _ s4 h4 => ?_
      refine Does.then (does_emit rfl) h4 fun _ s5 h5 => ?_
      exact ensures_pure (.another (.thisOne (h5.choose c.index)))
    | global declared isConst =>
      refine hconst.then (ran_unfound hs hq hm) fun _ s2 h2 => ?_
      refine (hnode.value hvalue).then h2 fun _ s3 h3 => ?_
      refine hcheck.then h3 fun _ s4 h4 => ?_
      refine Does.then (does_addData rfl) h4 fun i s5 h5 => ?_
      refine Does.then (does_emit rfl) h5 fun _ s6 h6 => ?_
      exact ensures_pure (.another (.another (.thisOne (h6.choose i))))
    | ofReceiver declared =>
      refine Does.then (does_addData rfl) (ran_unfound hs hq hm.1) fun i s2 h2 => ?_
      have hreach {x : Scheme} {s' : State} (h : Ran p s2 x [] s') :
          reachesReceiver s'.chain = true :=
        (h2.beside.trans h.beside).reachesReceiver.trans hm.2
      -- both orders of the operands end in the same instruction
      have hfinish {s3 : State} {ty : Ty}
          (h3 : Ran p s2 (attributeOperands scheme isWeak (.implicitReceiver p) value) [] s3) :
          Ensures s3 (do emit (.setAttr i) span.line; pure ty) fun _ s' =>
            Ran p s (assignNameScheme p scheme isWeak name value) [] s' :=
        Does.then (does_emit rfl) (h2.closed h3) fun _ s4 h4 =>
          ensures_pure (.another (.another (.another (.thisOne (h4.choose i)))))
      cases isWeak with
      | true =>
        refine (hnode.value hvalue).first h2.inv fun _ s3 h3 => ?_
        refine (h3.implicitReceiver (hreach h3)).bind fun _ s4 h4 => ?_
        refine Does.then (does_emit rfl) h4 fun _ s5 h5 => ?_
        exact hfinish h5
      | false =>
        have h0 : reachesReceiver s2.chain = true := hreach (Ran.refl h2.inv)
        refine (ensures_implicitReceiver h2.inv h0).bind fun _ s3 h3 => ?_
        refine (hnode.value hvalue).then h3 fun _ s4 h4 => ?_
        refine isQuiet_checkAssignable.then h4 fun _ s5 h5 => ?_
        exact hfinish h5

/-- The same order for an attribute of an object. -/
theorem does_assignMember (hnode : Obeys p node scheme) (hobject : Occurs p .operand object)
    (hvalue : Occurs p .operand value) :
    Does p (compileAssignMember node isWeak object name target value span) fun _ =>
      .choose fun i =>
        pooled (.str name) i ++ attributeOperands scheme isWeak (scheme.value object) value ++
          op (.setAttr i) := by
  intro s hs
  refine Does.first (does_addData rfl) hs fun i s1 h1 => ?_
  have hfinish {s2 : State} {ty : Ty}
      (h2 : Ran p s1 (attributeOperands scheme isWeak (scheme.value object) value) [] s2) :
      Ensures s2 (do emit (.setAttr i) span.line; pure ty) fun _ s' =>
        Ran p s (.choose fun i => pooled (.str name) i ++
          attributeOperands scheme isWeak (scheme.value object) value ++ op (.setAttr i)) [] s' :=
    Does.then (does_emit rfl) (h1.closed h2) fun _ s3 h3 => ensures_pure (h3.choose i)
  cases isWeak with
  | true =>
    refine (hnode.value hvalue).first h1.inv fun _ s2 h2 => ?_
    refine (hnode.value hobject).then h2 fun _ s3 h3 => ?_
    refine Does.then (does_emit rfl) h3 fun _ s4 h4 => ?_
    exact hfinish h4
  | false =>
    refine (hnode.value hobject).first h1.inv fun _ s2 h2 => ?_
    refine isQuiet_attributeType.then h2 fun _ s3 h3 => ?_
    refine (hnode.value hvalue).then h3 fun _ s4 h4 => ?_
    refine isQuiet_checkAssignable.then h4 fun _ s5 h5 => ?_
    exact hfinish h5

theorem does_assignIndex (hnode : Obeys p node scheme)
    (hobject : Occurs p .operand object) (hindex : Occurs p .operand index)
    (hvalue : Occurs p .operand value) : Does p (compileAssignIndex node object index value span) fun _ =>
      scheme.value object ++ scheme.value index ++ scheme.value value ++ op .setIndex := by
  intro s hs
  refine (hnode.value hobject).first hs fun _ s1 h1 => ?_
  refine (hnode.value hindex).then h1 fun _ s2 h2 => ?_
  refine (hnode.value hvalue).then h2 fun _ s3 h3 => ?_
  refine Does.then (does_emit rfl) h3 fun _ s4 h4 => ?_
  exact ensures_pure h4

/-- Other targets than names, attributes and items are refused. -/
theorem does_assign (hnode : Obeys p node scheme) {target : Expr}
    (h : AllOccur p (operands [target, value])) :
    Does p (compileAssign node isWeak target value span) fun _ =>
      assignScheme p scheme isWeak target value := by
  have htarget : AllOccur p target.kind.nodes := (h.operand (by simp)).nodes
  have hvalue : Occurs p .operand value := h.operand (by simp)
  obtain ⟨kind, targetSpan⟩ := target
  unfold compileAssign assignScheme
  dsimp only at htarget ⊢
  split
  · exact does_assignName hnode hvalue
  · exact does_assignMember hnode (htarget.operand (by simp)) hvalue
  · exact does_assignIndex hnode (htarget.operand (by simp)) (htarget.operand (by simp)) hvalue
  · intro s _
    exact ensures_refused_bind (by simp [Cause.kind])

/-! ## Dropping -/

/-- A local that is given up is no longer found, which is the only change of the scene here. -/
theorem does_dropName (hname : KeepsReceiver p → name ≠ "this") :
    Does p (compileDropName name target span) fun _ => dropNameScheme p name := by
  intro s hs
  refine (ensures_resolveName hs).bind fun m s1 h => ?_
  obtain ⟨hq, hm⟩ := h
  dsimp only
  cases m with
  | none => exact ensures_refused (by simp [Cause.kind])
  | some m =>
    cases m with
    | inline value =>
      exact (isQuiet_dropInline.last ((Ran.refl hs).quiet hq)).imp fun _ _ h =>
        .another (.another (.another (.another (.thisOne h))))
    | slot slot ty isConst =>
      obtain ⟨v, hfound, rfl⟩ := hm
      have hsame : s1.scene = s.scene := hq.frame.scene
      have h1 := ran_found hs hq hfound
      let s2 := s1.withFrame (s1.frame.emit (.dropLocal v.slot) span.line)
      have h2 : Ran p s (found name v ++ op (.dropLocal v.slot)) [] s2 :=
        h1.closed (ran_emit h1.inv rfl span.line)
      -- the instruction changes no names, so the local is still found when it is dropped
      have hstill : s2.scene.findLocal? name = some v := by
        rw [← hfound, ← hsame]
        rfl
      refine Ensures.bind (ensures_modifyFrame (Q := fun _ s' => s' = s2) rfl) ?_
      rintro _ _ rfl
      have h3 := h2.closed (ran_dropSlot h2.inv hstill hname)
      exact ensures_modifyFrame (.thisOne (h3.choose v))
    | captured c =>
      refine (Does.last (does_emit rfl) (ran_unfound hs hq hm)).imp fun _ s2 h2 => ?_
      exact .another (.thisOne (h2.choose c.index))
    | global ty isConst =>
      refine Does.then (does_addData rfl) (ran_unfound hs hq hm) fun i s2 h2 => ?_
      refine Does.then (does_emit rfl) h2 fun _ s3 h3 => ?_
      have hquiet : IsQuiet (modifyFrame fun f => { f with globals := f.globals.erase name }) :=
        isQuiet_modifyFrame fun f => ⟨rfl, rfl, rfl, rfl, rfl, rfl, fun _ h => h⟩
      exact (hquiet.last h3).imp fun _ s4 h4 => .another (.another (.thisOne (h4.choose i)))
    | ofReceiver ty =>
      have hreach : reachesReceiver s1.chain = true := hq.beside.reachesReceiver.trans hm.2
      refine ((ran_unfound hs hq hm.1).implicitReceiver hreach).bind fun _ s2 h2 => ?_
      refine Does.then (does_addData rfl) h2 fun i s3 h3 => ?_
      refine (Does.last (does_emit rfl) h3).imp fun _ s4 h4 => ?_
      exact .another (.another (.another (.thisOne (h4.choose i))))

/-- A receiver that a program keeps is not among the names that are given up. -/
theorem does_drop (hnode : Obeys p node scheme) {st : Standing} {target : Expr}
    {span' : Span} (h : Occurs p st ⟨.drop target, span'⟩) :
    Does p (compileDrop node target span) fun _ => dropScheme p scheme target := by
  have htarget : AllOccur p target.kind.nodes :=
    (h.nodes .operand target (.head _)).nodes
  have hkeep : KeepsReceiver p → target.kind ≠ .var "this" := fun hkeeps => hkeeps st target span' h
  obtain ⟨kind, targetSpan⟩ := target
  unfold compileDrop dropScheme
  dsimp only at htarget hkeep ⊢
  split
  · exact does_dropName fun hkeeps hname => hkeep hkeeps (by rw [hname])
  · intro s hs
    refine (hnode.value (htarget.operand (by simp))).first hs fun _ s1 h1 => ?_
    refine Does.then (does_addData rfl) h1 fun i s2 h2 => ?_
    exact (Does.last (does_emit rfl) h2).imp fun _ s3 h3 => h3.choose i
  · intro s _
    exact ensures_refused (by simp [Cause.kind])

end Strand.Codegen
