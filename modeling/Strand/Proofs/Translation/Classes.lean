import Strand.Proofs.ClassValues
import Strand.Proofs.Translation.Functions

/-!
# Classes and enums

The members of a class are entered one by one while it is being declared. What has to
survive this, and all code laid down for the members, is the signature of the
constructor: it is looked up again when the constructor is laid down.
-/

namespace Strand

variable {name : String} {decl : ClassDecl} {span : Span} {st : Standing}

/-! ## Entering members -/

namespace Declarations

variable {d d' : Declarations} {c : ClassRef} {sig : Signature}

theorem membersAt_modifyClass (d : Declarations) (c : ClassRef) (f : ClassMembers → ClassMembers)
    (id : Nat) :
    (d.modifyClass c f).membersAt id =
      if c.id = id ∧ id < d.classes.size then f (d.membersAt id) else d.membersAt id := by
  simp only [membersAt, modifyClass, Array.getElem?_modify]
  by_cases hid : c.id = id
  · by_cases hlt : id < d.classes.size
    · simp [hid, hlt]
    · simp [hid, hlt]
  · simp [hid]

/-- Entering anything but a constructor. -/
theorem keeps_modifyClass {f : ClassMembers → ClassMembers}
    (hf : ∀ m, (f m).constructor = m.constructor) : d.Keeps (d.modifyClass c f) where
  size := by simp [modifyClass]
  constructor := fun id _ => by
    rw [membersAt_modifyClass]
    split
    · exact hf _
    · rfl

theorem keeps_addField {ty : Ty} {isStatic isPrivate : Bool} :
    d.Keeps (d.addField c name ty isStatic isPrivate) := by
  refine keeps_modifyClass fun m => ?_
  dsimp only
  split <;> split <;> rfl

theorem keeps_addOperator {symbol : String} : d.Keeps (d.addOperator c symbol sig) :=
  keeps_modifyClass fun _ => rfl

/-- Entering a constructor changes no class that was there before this one. -/
theorem Keeps.setConstructor (h : d.Keeps d') (hnew : d.classes.size ≤ c.id) (sig : Signature) :
    d.Keeps (d'.setConstructor c sig) where
  size := by simpa [Declarations.setConstructor, modifyClass] using h.size
  constructor := fun id hid => by
    rw [Declarations.setConstructor, membersAt_modifyClass, if_neg (by omega)]
    exact h.constructor id hid

theorem constructor_setConstructor (hid : c.id < d.classes.size) (sig : Signature) :
    ((d.setConstructor c sig).membersAt c.id).constructor = some sig := by
  rw [setConstructor, membersAt_modifyClass, if_pos ⟨rfl, hid⟩]

theorem constructor?_of_own (h : (d.membersAt c.id).constructor = some sig) :
    d.constructor? c = some sig := by
  unfold constructor? findInChain ClassRef.chain
  simp only [List.findSome?_cons, h]

theorem keeps_declareClass (d : Declarations) (name : String) (parent : Option ClassRef)
    (generics : List String) : d.Keeps (d.declareClass name parent generics).2 where
  size := by simp [declareClass]
  constructor := fun id hid => by
    simp only [membersAt, declareClass]
    rw [Array.getElem?_push, if_neg (Nat.ne_of_lt hid)]

end Declarations

namespace Codegen

open Scheme (op each constant pooled counted)

variable {p : Program} {node : NodeCompiler} {scheme : NodeScheme} {s s' s0 : State} {c : ClassRef}
  {m : MemberDecl} {line : UInt64} {place : Place} {v : VariantDecl} {parent : Option ClassRef}

/-- A member together with what was found out about it. -/
inductive TypedAs : MemberDecl → TypedMember → Prop where
  | field (f : FieldDecl) : TypedAs (.field f) (.field f)
  | method (m : MethodDecl) (sig : Signature) (h : Covered m.function sig) :
      TypedAs (.method m) (.method m sig)

theorem finds_declareMember : Finds (declareMember c m) (TypedAs m) := by
  have hentered {g : Declarations → Declarations} (h : ∀ d : Declarations, d.Keeps (g d)) :
      Finds (modifyDecls g) fun _ => True := (isQuiet_modifyDecls h).finds
  cases m with
  | field f =>
    refine isQuiet_annotatedType.finds.bind fun ty _ => ?_
    refine (hentered fun d => Declarations.keeps_addField).bind fun _ _ => ?_
    exact finds_pure (.field f)
  | method m =>
    refine finds_methodSignature.bind fun sig hsig => ?_
    refine (hentered fun d => Declarations.keeps_addField).bind fun _ _ => ?_
    dsimp only
    split
    · refine (hentered fun d => Declarations.keeps_addOperator).bind fun _ _ => ?_
      exact finds_pure (.method m sig hsig)
    · exact finds_pure (.method m sig hsig)

/-- What is known when the members of a class declared after `s` have been entered. -/
structure MembersKnown (s : State) (decl : ClassDecl) (c : ClassRef) (members : List TypedMember)
    (s' : State) : Prop where
  quiet : Quiet s s'
  id : c.id < s'.decls.classes.size
  typed : List.Forall₂ TypedAs decl.members members
  constructor : ∀ ctor, decl.constructor = some ctor →
    ∃ sig, (s'.decls.membersAt c.id).constructor = some sig ∧ Covered ctor sig

/-- The members are known before the first of them is laid down. -/
theorem ensures_declareMembers (hq : Quiet s0 s)
    (hnew : s0.decls.classes.size ≤ c.id) (hid : c.id < s.decls.classes.size) :
    Ensures s (declareMembers decl c) fun members s' => MembersKnown s0 decl c members s' := by
  refine Ensures.bind (Q := fun members s1 =>
    Quiet s s1 ∧ List.Forall₂ TypedAs decl.members members)
    (fun _ => finds_mapM (fun m _ => finds_declareMember) s) ?_
  rintro members s1 ⟨hq1, htyped⟩
  have hid1 : c.id < s1.decls.classes.size := Nat.lt_of_lt_of_le hid hq1.decls.size
  dsimp only
  cases hctor : decl.constructor with
  | none => exact ensures_pure ⟨hq.trans hq1, hid1, htyped, by simp [hctor]⟩
  | some ctor =>
    refine Ensures.bind (Q := fun sig s2 => Quiet s1 s2 ∧ Covered ctor sig)
      (fun _ => finds_methodSignature s1) ?_
    rintro sig s2 ⟨hq2, hsig⟩
    have hq0 := (hq.trans hq1).trans hq2
    have hid2 : c.id < s2.decls.classes.size := Nat.lt_of_lt_of_le hid1 hq2.decls.size
    refine Ensures.bind (ensures_modify (Q := fun _ s3 => MembersKnown s0 decl c members s3) ?_)
      fun _ _ h => ensures_pure h
    refine ⟨⟨hq0.frame, hq0.outer, hq0.decls.setConstructor hnew _, hq0.refused, hq0.typeCheck⟩,
      ?_, htyped, ?_⟩
    · simpa [Declarations.setConstructor, Declarations.modifyClass] using hid2
    · intro ctor' h'
      rw [hctor] at h'
      cases h'
      exact ⟨_, Declarations.constructor_setConstructor hid2 _, hsig⟩

theorem isQuiet_resolveParent : IsQuiet (resolveParent name span) := by
  refine .ofGet fun s => ?_
  split
  · exact isQuiet_pure
  · exact isQuiet_report.bind fun _ => isQuiet_pure
  · exact isQuiet_report.bind fun _ => isQuiet_pure

/-! ## Classes -/

/-- Lists that correspond item by item. -/
theorem does_forM₂ {γ δ : Type} {f : δ → Build Unit} {y : γ → Scheme} {items : List γ}
    {others : List δ} (h : List.Forall₂ (fun a b => Does p (f b) fun _ => y a) items others) :
    Does p (others.forM f) fun _ => each y items := by
  induction h with
  | nil => exact isQuiet_pure.does
  | cons hab _ ih => exact fun _ hs => hab.first hs fun _ _ h1 => ih.last h1

theorem does_field (hnode : Obeys p node scheme) {f : FieldDecl}
    (h : AllOccur p (operands f.initializer.toList)) :
    Does p (compileField node c f) fun _ => memberValueScheme scheme (.field f) := by
  obtain ⟨name, typeExpr, initializer, isStatic, isPrivate, span⟩ := f
  cases initializer with
  | none => exact (does_emit rfl)
  | some e =>
    intro s hs
    refine (hnode.value (h.operand (.head _))).first hs fun ty s1 h1 => ?_
    cases typeExpr with
    | some tokens =>
      refine Ensures.ofGet ?_
      exact isQuiet_checkAssignable.last h1
    | none => exact (isQuiet_modifyDecls fun d => Declarations.keeps_addField).last h1

theorem does_memberValue (hnode : Implements p node scheme) {t : TypedMember}
    (hm : AllOccur p m.nodes) (hdecl : ∀ f ∈ m.functions, Declares p f.1 f.2) (ht : TypedAs m t) :
    Does p (compileMemberValue node c t) fun _ => memberValueScheme scheme m := by
  cases ht with
  | field f => exact does_field hnode.toObeys hm
  | method m sig hsig =>
    exact (does_emitFunction hnode (hdecl _ (.head _)) hsig).withPlaceholders

theorem does_members (hnode : Implements p node scheme) {members : List MemberDecl}
    {typed : List TypedMember} (hmembers : AllOccur p (members.flatMap MemberDecl.nodes))
    (hdecl : ∀ f ∈ members.flatMap MemberDecl.functions, Declares p f.1 f.2)
    (h : List.Forall₂ TypedAs members typed) :
    Does p (typed.reverse.forM (compileMemberValue node c)) fun _ =>
      each (memberValueScheme scheme) members.reverse := by
  have hall : List.Forall₂
      (fun m t => Does p (compileMemberValue node c t) fun _ => memberValueScheme scheme m)
      members typed := by
    induction h with
    | nil => exact .nil
    | cons hmt _ ih =>
      refine .cons (does_memberValue hnode hmembers.left (fun f hf => ?_) hmt)
        (ih hmembers.right fun f hf => ?_)
      · exact hdecl f (List.mem_append_left _ hf)
      · exact hdecl f (List.mem_append_right _ hf)
  exact does_forM₂ (List.forall₂_reverse_iff.mpr hall)

/-- The constructor, whose signature was entered with the members. -/
theorem ensures_constructor (hnode : Implements p node scheme) {ctor : Option FunctionDecl}
    (h : ∀ decl, ctor = some decl → Declares p decl .constructor) (hs : Inv p s)
    (hsig : ∀ decl, ctor = some decl →
      ∃ sig, (s.decls.membersAt c.id).constructor = some sig ∧ Covered decl sig) :
    Ensures s (compileConstructor node c ctor line) fun _ s' =>
      Ran p s (constructorScheme scheme ctor) [] s' := by
  refine Ensures.ofGet ?_
  cases ctor with
  | none => exact does_emit rfl s hs
  | some decl =>
    obtain ⟨sig, hown, hcovered⟩ := hsig decl rfl
    rw [Declarations.constructor?_of_own hown]
    exact does_emitFunction hnode (h decl rfl) hcovered s hs

/-- What follows when the parent of a class has been pushed. -/
theorem ensures_classParts (hnode : Implements p node scheme) {members : List TypedMember}
    (h : Occurs p st ⟨.classDecl decl, span⟩) {s1 : State} (hknown : MembersKnown s0 decl c members s)
    (h1 : Ran p s (parentScheme p scheme decl.parent) [] s1) : Ensures s1 (do
      members.reverse.forM (compileMemberValue node c)
      compileConstructor node c decl.constructor decl.span.line
      decl.generics.forM fun g => emitConstant (.str g) decl.span
      let index ← addConstant (.classType (classDescriptor decl)) decl.span
      let consumed ← countOperand (classDescriptor decl).stackInputs decl.span
      emit (.makeClass index consumed) decl.span.line) fun _ s' =>
        Ran p s (classValueScheme p scheme decl) [] s' := by
  have hmembers : ∀ f ∈ decl.members.flatMap MemberDecl.functions, Declares p f.1 f.2 :=
    fun f hf => ⟨_, _, h, List.mem_append_left _ hf⟩
  refine (does_members hnode h.nodes.left hmembers hknown.typed).then h1 fun _ s2 h2 => ?_
  -- the members lay down code but declare nothing, so the constructor is still known
  have hsig : ∀ ctor, decl.constructor = some ctor →
      ∃ sig, (s2.decls.membersAt c.id).constructor = some sig ∧ Covered ctor sig := by
    intro ctor hctor
    obtain ⟨sig, hown, hcovered⟩ := hknown.constructor ctor hctor
    exact ⟨sig, (h2.beside.decls.constructor c.id hknown.id).trans hown, hcovered⟩
  have hctor : ∀ ctor, decl.constructor = some ctor → Declares p ctor .constructor :=
    fun ctor hctor => ⟨_, _, h, by simp [ExprKind.functions, hctor]⟩
  refine (ensures_constructor hnode hctor h2.inv hsig).bind fun _ s3 h3 => ?_
  refine (does_forM (fun g => constant (.str g)) fun g _ => (does_emitConstant rfl)).then
    (h2.closed h3) fun _ s4 h4 => ?_
  refine Does.then (does_addData rfl) h4 fun i s5 h5 => ?_
  refine does_countOperand.first h5.inv fun n s6 h6 => ?_
  refine (Does.last (does_emit rfl) h6).imp fun _ s7 h7 => Ran.choose i (h5.closed (h7.imp ?_))
  rintro k t ⟨t1, c1, t2, ⟨rfl, rfl, hlt, rfl⟩, hop, rfl⟩
  exact ⟨_, _, _, ⟨rfl, rfl, hlt⟩, hop, rfl⟩

/-- The parent, the members and the constructor are laid down in this order. -/
theorem ensures_classValue (hnode : Implements p node scheme)
    (h : Occurs p st ⟨.classDecl decl, span⟩) (hs0 : Inv p s0) (hq : Quiet s0 s)
    (hnew : s0.decls.classes.size ≤ c.id) (hid : c.id < s.decls.classes.size) :
    Ensures s (compileClassValue node decl c) fun _ s' =>
      Ran p s0 (classValueScheme p scheme decl) [] s' := by
  rw [compileClassValue_eq]
  refine Ensures.ofGet ?_
  refine Ensures.bind (ensures_modifyFrame (Q := fun _ s1 => Quiet s0 s1 ∧ s1.decls = s.decls)
    ⟨hq.trans (.withFrame (like_placeholders _ _)), rfl⟩) ?_
  rintro _ s1 ⟨hq1, hdecls⟩
  rw [← hdecls] at hid
  rw [bind_assoc]
  refine (ensures_declareMembers hq1 hnew hid).bind fun members s2 hknown => ?_
  have hs2 := hs0.quiet hknown.quiet
  -- giving the generic parameters up again at the end changes no code
  have hrestore {s3 : State} (h3 : Ran p s2 (classValueScheme p scheme decl) [] s3)
      (mark : Nat) :
      Ensures s3 (do
        modifyFrame fun f => { f with placeholders := f.placeholders.take mark }
        pure ()) fun _ s' => Ran p s0 (classValueScheme p scheme decl) [] s' :=
    ((isQuiet_modifyFrame fun f => like_placeholders f _).bind fun _ => isQuiet_pure).last
      (h3.before hknown.quiet)
  cases hparent : decl.parent with
  | none =>
    have h3 : Ran p s2 (parentScheme p scheme decl.parent) [] s2 := by
      rw [hparent]
      exact .refl hs2
    exact (ensures_classParts hnode h hknown h3).bind fun _ _ h4 => hrestore h4 _
  | some name =>
    rw [bind_assoc]
    refine (does_variable hnode.toObeys).first hs2 fun _ s3 h3 => ?_
    have h3' : Ran p s2 (parentScheme p scheme decl.parent) [] s3 := by
      rw [hparent]
      exact h3
    exact (ensures_classParts hnode h hknown h3').bind fun _ _ h4 => hrestore h4 _

theorem like_types (f : Frame) (types : TypeNames) : f.Like { f with types } :=
  ⟨rfl, rfl, rfl, rfl, rfl, rfl, fun _ h => h⟩

/-- A class that was just declared comes after all that were there. -/
theorem ensures_enterClass : Ensures s (enterClass decl parent) fun c s' =>
      Quiet s s' ∧ s.decls.classes.size ≤ c.id ∧ c.id < s'.decls.classes.size := by
  have hkeeps := s.decls.keeps_declareClass decl.name parent decl.generics
  refine ensures_modifyGet ⟨⟨.refl _, .refl _, hkeeps, rfl, rfl⟩, Nat.le_refl _, ?_⟩
  simp [Declarations.declareClass]

/-- The rest of a class, when its parent is known. -/
theorem ensures_classRest (hnode : Implements p node scheme)
    (h : Occurs p st ⟨.classDecl decl, span⟩)
    (h1 : Ran p s (.reserve decl.name place) [] s') : Ensures s' (do
      let c ← enterClass decl parent
      modifyFrame fun f => { f with types := f.types.define decl.name (.classObject c) }
      place.retype decl.name (.classObject c)
      compileClassValue node decl c
      place.store decl.span.line) fun _ s'' => Ran p s (classScheme p scheme decl) [] s'' := by
  refine ensures_enterClass.bind fun c s1 ⟨hq1, hnew, hid1⟩ => ?_
  have htypes : IsQuiet (modifyFrame fun f =>
      { f with types := f.types.define decl.name (.classObject c) }) :=
    isQuiet_modifyFrame fun f => like_types f _
  refine Ensures.bind (Q := fun _ s2 => Quiet s1 s2) (fun _ => htypes s1) fun _ s2 hq2 => ?_
  refine Ensures.bind (Q := fun _ s3 => Quiet s2 s3) (fun _ => isQuiet_retype s2) fun _ s3 hq3 => ?_
  have hq := hq2.trans hq3
  have hid : c.id < s3.decls.classes.size := Nat.lt_of_lt_of_le hid1 hq.decls.size
  refine (ensures_classValue hnode h h1.inv (hq1.trans hq) hnew hid).bind fun _ s4 h4 => ?_
  exact (does_store.last (h1.closed h4)).imp fun _ _ h => h.choose place

theorem does_class (hnode : Implements p node scheme) (h : Occurs p st ⟨.classDecl decl, span⟩) :
    Does p (compileClass node decl) fun _ => classScheme p scheme decl := by
  intro s hs
  have hname := h.unshadowed (.head _)
  refine (does_reservePlace hname).first hs fun place s1 h1 => ?_
  dsimp only
  cases decl.parent with
  | none =>
    rw [pure_bind]
    exact ensures_classRest hnode h h1
  | some name =>
    exact isQuiet_resolveParent.then h1 fun parent s2 h2 => ensures_classRest hnode h h2

/-! ## Enums -/

theorem isQuiet_enterEnum : IsQuiet (enterEnum name) :=
  fun _ => ⟨.refl _, .refl _, ⟨Nat.le_refl _, fun _ _ => rfl⟩, rfl, rfl⟩

theorem isQuiet_declareVariant {e : EnumRef} {ordinal : Nat} :
    IsQuiet (declareVariant e v ordinal) := by
  have htypes : IsQuiet (v.fields.mapM fun f => resolveType f.typeExpr v.span) :=
    isQuiet_mapM fun _ _ => isQuiet_resolveType
  exact htypes.withPlaceholders.bind fun _ => isQuiet_modifyDecls fun d =>
    ⟨Nat.le_refl _, fun _ _ => rfl⟩

theorem does_publishVariant {e : EnumRef} :
    Does p (publishVariant e place line v) fun _ => publishScheme place v := by
  intro s hs
  refine does_load.first hs fun _ s1 h1 => ?_
  refine Does.then (does_addData rfl) h1 fun i s2 h2 => ?_
  refine Does.then (does_emit rfl) h2 fun _ s3 h3 => ?_
  refine Does.then (does_emit rfl) h3 fun _ s4 h4 => ?_
  refine Ensures.ofGet ?_
  exact (isQuiet_defineGlobal.last h4).imp fun _ _ h => h.choose i

/-- An enum is stored, and the variants of a public one are published. -/
theorem does_enum {decl : EnumDecl} (hname : Unshadowed p → decl.name ≠ "this") :
    Does p (compileEnum decl) fun _ => enumScheme decl := by
  intro s hs
  have hvariants {e : EnumRef} : IsQuiet (decl.variants.zipIdx.forM fun v =>
      declareVariant e v.1 v.2) := isQuiet_forM fun _ _ => isQuiet_declareVariant
  refine (does_reservePlace hname).first hs fun place s1 h1 => ?_
  refine isQuiet_enterEnum.then h1 fun e s2 h2 => ?_
  refine (isQuiet_modifyFrame fun f => like_types f _).then h2 fun _ s3 h3 => ?_
  refine isQuiet_retype.then h3 fun _ s4 h4 => ?_
  refine hvariants.then h4 fun _ s5 h5 => ?_
  refine Does.then (does_addData rfl) h5 fun i s6 h6 => ?_
  refine Does.then (does_emit rfl) h6 fun _ s7 h7 => ?_
  refine does_store.then h7 fun _ s8 h8 => ?_
  have hpublished : Ensures s8 (if decl.isPublic = true then
      decl.variants.forM (publishVariant e place decl.span.line) else pure ()) fun _ s' =>
      Ran p s8 (if decl.isPublic = true then each (publishScheme place) decl.variants else .skip)
        [] s' := by
    split
    · exact does_forM _ (fun _ _ => does_publishVariant) s8 h8.inv
    · exact ensures_pure (.refl h8.inv)
  exact hpublished.imp fun _ _ h => ((h8.closed h).choose i).choose place

end Codegen

end Strand
