import Strand.Proofs.FrameCondition.Visited

/-!
# Private members

Where a member of an object is read or assigned, two classes are looked for: the one whose
declaration gives the member its type, and the one that decides whether it is private. When
they are the same, a private member is used in the code of a class of that name only, and
any other use is reported.

This is checked where a member is read, and where it is assigned with its type. Weak
assignments, drops and patterns use members without a check, and so does a name that stands
for an attribute of the receiver. There it is known only that the class of the code inherits
from the one that has the attribute.
-/

namespace Strand

variable {className : String}

theorem Table.contains_eq_isSome {α : Type} (t : Table α) (name : String) :
    t.contains name = (t.find? name).isSome := by
  rw [Table.contains, Table.find?, Option.isSome_map, List.isSome_find?]

namespace Declarations

/-! ## Which class has a member -/

variable {owner : Nat × String}

/-- The first class of the chain whose members are such. -/
def nearest? (d : Declarations) (c : ClassRef) (has : ClassMembers → Bool) : Option (Nat × String) :=
  c.chain.find? fun e => has (d.membersAt e.1)

/-- The class whose declaration gives the member of an object its type. -/
def supplier? (d : Declarations) (object : Ty) (name : String) : Option (Nat × String) :=
  match object with
  | .inst c _ =>
    d.nearest? c (fun m => m.fields.contains name) <|> d.nearest? c fun m => m.statics.contains name
  | .classObject c => d.nearest? c fun m => m.statics.contains name
  | _ => none

/-- The class that decides whether the member of an object is private. -/
def decider? (d : Declarations) (object : Ty) (name : String) : Option (Nat × String) :=
  match object with
  | .inst c _ | .classObject c =>
    d.nearest? c fun m => m.fields.contains name || m.statics.contains name
  | _ => none

/-- The class keeps what it declares under the name private. -/
def isPrivateIn (d : Declarations) (owner : Nat × String) (name : String) : Bool :=
  (d.membersAt owner.1).privates.contains name

variable {d : Declarations} {c : ClassRef} {name : String}

/-- A type that is found in the chain is the one declared in the nearest class. -/
theorem findInChain_eq (d : Declarations) (c : ClassRef) (table : ClassMembers → Table Ty)
    (name : String) : d.findInChain c (fun m => (table m).find? name) =
      (d.nearest? c fun m => (table m).contains name).bind fun e =>
        (table (d.membersAt e.1)).find? name := by
  unfold findInChain nearest?
  induction c.chain with
  | nil => rfl
  | cons e rest ih =>
    rw [List.findSome?_cons, List.find?_cons]
    dsimp only
    rw [Table.contains_eq_isSome]
    cases h : (table (d.membersAt e.1)).find? name with
    | none => exact ih
    | some ty => exact h.symm

theorem findInChain_of_nearest (table : ClassMembers → Table Ty)
    (h : d.nearest? c (fun m => (table m).contains name) = some owner) :
    ∃ ty, d.findInChain c (fun m => (table m).find? name) = some ty ∧
      (table (d.membersAt owner.1)).find? name = some ty := by
  unfold nearest? at h
  have hhas := List.find?_some h
  dsimp only at hhas
  rw [Table.contains_eq_isSome] at hhas
  obtain ⟨ty, hty⟩ := Option.isSome_iff_exists.mp hhas
  refine ⟨ty, ?_, hty⟩
  rw [findInChain_eq, nearest?, h]
  exact hty

/-- The class declares the name, for instances or for itself, with the type. -/
def Declares (d : Declarations) (owner : Nat × String) (name : String) (ty : Ty) : Prop :=
  (d.membersAt owner.1).fields.find? name = some ty ∨
    (d.membersAt owner.1).statics.find? name = some ty

/-- The type of a member of an instance is the one its supplier declares. -/
theorem attribute_of_supplier {args : List Ty} (h : d.supplier? (.inst c args) name = some owner) :
    ∃ ty, (d.field? c name <|> d.staticField? c name) = some ty ∧ d.Declares owner name ty := by
  dsimp only [supplier?] at h
  cases hfields : d.nearest? c fun m => m.fields.contains name with
  | some found =>
    rw [hfields] at h
    cases h
    obtain ⟨ty, hfound, hty⟩ := findInChain_of_nearest ClassMembers.fields hfields
    refine ⟨ty, ?_, .inl hty⟩
    rw [field?, hfound]
    rfl
  | none =>
    rw [hfields] at h
    obtain ⟨ty, hfound, hty⟩ := findInChain_of_nearest ClassMembers.statics h
    refine ⟨ty, ?_, .inr hty⟩
    -- no class in the chain has such a field, so the statics are asked
    rw [field?, findInChain_eq, hfields]
    exact hfound

end Declarations

namespace Codegen

variable {s : State} {object : Ty} {c : ClassRef} {name : String} {span : Span} {owner : Nat × String}

/-! ## The check -/

/-- The code belongs to a class of this name. -/
def State.OfClass (s : State) (className : String) : Prop :=
  ∃ c, s.frame.owner = some c ∧ c.name = className

theorem State.ofClass_of_isInside (h : s.isInside className = true) : s.OfClass className := by
  unfold isInside at h
  cases hc : s.frame.owner with
  | none =>
    rw [hc] at h
    cases h
  | some c =>
    rw [hc] at h
    exact ⟨c, hc, eq_of_beq h⟩

/-- A private member is used in the code of its class, or that is reported. -/
theorem privateAttribute_of_checkPrivate (h : s.decls.privateOwner? c name = some className)
    (span : Span) : s.OfClass className ∨
      ⟨.privateAttribute c.name name, span⟩ ∈ (checkPrivate c name span s).reports := by
  rw [checkPrivate, get_bind_run, h]
  dsimp only
  cases hinside : s.isInside className with
  | true => exact .inl (State.ofClass_of_isInside hinside)
  | false =>
    refine .inr ?_
    cases htype : s.typeCheck <;> simp [report, htype, Cause.kind]

theorem privateOwner_of_decider (hdecider : s.decls.nearest? c
      (fun m => m.fields.contains name || m.statics.contains name) = some owner)
    (hprivate : s.decls.isPrivateIn owner name = true) :
    s.decls.privateOwner? c name = some owner.2 := by
  unfold Declarations.nearest? at hdecider
  unfold Declarations.isPrivateIn at hprivate
  rw [Declarations.privateOwner?, hdecider]
  dsimp only
  rw [if_pos hprivate]

/-- Where the type of a member is found, so is whether it is private, when the same class
has both to say. -/
theorem privateAttribute_of_attributeType (hsupplier : s.decls.supplier? object name = some owner)
    (hdecider : s.decls.decider? object name = some owner)
    (hprivate : s.decls.isPrivateIn owner name = true) (span : Span) : s.OfClass owner.2 ∨
      ∃ typeName, ⟨.privateAttribute typeName name, span⟩ ∈
        (attributeType object name span s).reports := by
  cases object with
  | inst c args =>
    have howner := privateOwner_of_decider hdecider hprivate
    obtain ⟨ty, hty, -⟩ := Declarations.attribute_of_supplier hsupplier
    refine (privateAttribute_of_checkPrivate howner span).imp id fun hmem => ⟨c.name, ?_⟩
    rw [attributeType, get_bind_run]
    dsimp only
    rw [hty]
    exact (reports_prefix_bind s).subset hmem
  | classObject c =>
    have howner := privateOwner_of_decider hdecider hprivate
    obtain ⟨ty, hty, -⟩ := Declarations.findInChain_of_nearest ClassMembers.statics hsupplier
    refine (privateAttribute_of_checkPrivate howner span).imp id fun hmem => ⟨c.name, ?_⟩
    rw [attributeType, get_bind_run]
    dsimp only
    rw [Declarations.staticField?, hty]
    exact (reports_prefix_bind s).subset hmem
  | _ => cases hsupplier

/-! ## Reading and assigning -/

/-- The member that a node reads, or assigns with its type: the object, the name, and the
state in which the object is compiled. -/
def memberAccess? (e : Expr) (s : State) : Option (Expr × String × State) :=
  match e.kind with
  | .member object name => some (object, name, s)
  | .assign false target _ =>
    match target.kind with
    | .member object name => some (object, name, (nameConstant name e.span s).answer.2)
    | _ => none
  | _ => none

variable {e objectExpr : Expr} {position : Position} {s' : State}

/-- Whatever is said about the member is reported with the node. -/
theorem attributeType_of_memberAccess (h : memberAccess? e s = some (objectExpr, name, s'))
    (node : NodeCompiler) (position : Position) : ∃ span,
      (attributeType (node objectExpr .value s').answer.1 name span
        (node objectExpr .value s').answer.2).reports ⊆ (compileEntered e position node s).reports := by
  obtain ⟨kind, span⟩ := e
  cases kind with
  | member object name =>
    cases h
    refine ⟨span, fun r hr => (reports_prefix_bind s).subset ?_⟩
    have hmember : r ∈ (compileMember node objectExpr name span s).reports :=
      (reports_suffix_bind s).subset ((reports_prefix_bind _).subset hr)
    exact (reports_map s).symm ▸ hmember
  | assign isWeak target value =>
    obtain ⟨targetKind, targetSpan⟩ := target
    cases isWeak with
    | true => cases h
    | false =>
      cases targetKind with
      | member object name =>
        cases h
        refine ⟨targetSpan, fun r hr => (reports_prefix_bind s).subset ?_⟩
        have hassign : r ∈ (compileAssignMember node false objectExpr name targetSpan value span
            s).reports := by
          refine (reports_suffix_bind s).subset ?_
          exact (reports_suffix_bind _).subset ((reports_prefix_bind _).subset hr)
        exact (reports_map s).symm ▸ hassign
      | _ => cases h
  | _ => cases h

/-- Up to where the object is compiled the unit is the same. -/
theorem progress_of_memberAccess (h : memberAccess? e s = some (objectExpr, name, s')) (hs : s.Proper .free) :
    s.Kept s' ∧ s'.Proper .free := by
  obtain ⟨kind, span⟩ := e
  cases kind with
  | member object name =>
    cases h
    exact ⟨.refl s, hs⟩
  | assign isWeak target value =>
    obtain ⟨targetKind, targetSpan⟩ := target
    cases isWeak with
    | true => cases h
    | false =>
      cases targetKind with
      | member object name =>
        cases h
        have hstate := state_addConstant s (.str name) span
        rw [nameConstant, hstate]
        exact ⟨.withFrame ((Frame.Kept.refl s.frame).addConstant _),
          hs.withFrame (hs.frame.addConstant _)⟩
      | _ => cases h
  | _ => cases h

theorem State.OfClass.of_kept (h : s'.OfClass className) (hkept : s.Kept s') : s.OfClass className := by
  obtain ⟨c, hc, hname⟩ := h
  exact ⟨c, hkept.frame.owner.symm.trans hc, hname⟩

/-! ## Attributes of the receiver -/

/-- A name stands for an attribute of the receiver only when it is one. -/
theorem receiverAttribute_of_resolveName {ty : Ty}
    (h : (resolveName name s).answer.1 = some (.ofReceiver ty)) :
    s.receiverAttribute? name = some ty := by
  rw [resolveName, get_bind_run] at h
  -- macros, locals, captures and globals come first, in this order
  cases hinline : findInline? name s.chain with
  | some value =>
    rw [hinline] at h
    cases h
  | none =>
    rw [hinline] at h
    dsimp only at h
    rw [get_bind_run] at h
    cases hlocal : s.frame.findLocal? name with
    | some l =>
      rw [hlocal] at h
      cases h
    | none =>
      rw [hlocal] at h
      dsimp only at h
      rw [answer_bind] at h
      cases hcaptured : capture? name s.frame s.outer with
      | some r =>
        have hanswer : (captureName name s).answer.1 = some r.1 := by
          rw [captureName, answer_modifyGet, hcaptured]
        rw [hanswer] at h
        cases h
      | none =>
        have hanswer : (captureName name s).answer = (none, s) := by
          rw [captureName, answer_modifyGet, hcaptured]
        rw [hanswer] at h
        dsimp only at h
        rw [get_bind_run] at h
        cases hglobal : s.frame.globals.find? name with
        | some g =>
          rw [hglobal] at h
          cases h
        | none =>
          rw [hglobal] at h
          dsimp only at h
          rw [get_bind_run] at h
          obtain ⟨ty', hty', heq⟩ := Option.map_eq_some_iff.mp h
          cases heq
          exact hty'

end Codegen

open Codegen

/-- **Private members are used in their class, or that is reported**, where a member is read
or assigned with its type, if the class that gives the member its type is the one that
decides whether it is private. A name that stands for an attribute of the receiver where a
node is compiled is used in the class that declares the attribute or in one that inherits
from it. -/
theorem compile_guardsMembers {p : Program} {o : Options} {n : Nat} {e : Expr}
    {position : Position} {s : State} (hv : Visited p o n e position s)
    (hn : n < o.maxNestingDepth.toNat) :
    (∀ object name s' owner, memberAccess? e s.enter = some (object, name, s') →
      let typed := (compilerAt o (n + 1) object .value s').answer
      typed.2.decls.supplier? typed.1 name = some owner →
      typed.2.decls.decider? typed.1 name = some owner →
      typed.2.decls.isPrivateIn owner name = true →
      s.OfClass owner.2 ∨ ∃ typeName span,
        ⟨.privateAttribute typeName name, span⟩ ∈ diagnosticsOf (compile p o)) ∧
    ∀ name ty, (resolveName name s.enter).answer.1 = some (.ofReceiver ty) →
      ∃ c owner, s.frame.owner = some c ∧ owner ∈ c.chain ∧ s.decls.Declares owner name ty := by
  constructor
  · intro object name s' owner haccess typed hsupplier hdecider hprivate
    -- the check is made after the object was compiled, in the same class as before
    obtain ⟨hkept, hs'⟩ := progress_of_memberAccess haccess hv.proper.enter
    have hobject : s'.Kept typed.2 := (answered_compileNode _ _ hs').kept.toKept
    obtain ⟨span, hreports⟩ := attributeType_of_memberAccess haccess (compilerAt o (n + 1)) position
    refine (privateAttribute_of_attributeType hsupplier hdecider hprivate span).imp
      (fun hclass => (hclass.of_kept (hkept.trans hobject) : s.enter.OfClass owner.2)) fun hmem => ?_
    obtain ⟨typeName, hmem⟩ := hmem
    refine ⟨typeName, span, ?_⟩
    rw [diagnosticsOf_compile]
    apply hv.reports
    rw [compilerAt_entered hv.nesting.1 hn]
    exact hreports hmem
  · intro name ty hresolved
    obtain ⟨c, hc, hrest⟩ := Option.bind_eq_some_iff.mp (receiverAttribute_of_resolveName hresolved)
    obtain ⟨ty', hfield, hreached⟩ := Option.bind_eq_some_iff.mp hrest
    have hty : ty' = ty := by
      split at hreached
      · exact Option.some.inj hreached
      · cases hreached
    rw [Declarations.field?, Declarations.findInChain_eq] at hfield
    obtain ⟨owner, howner, hdeclared⟩ := Option.bind_eq_some_iff.mp hfield
    exact ⟨c, owner, hc, List.mem_of_find?_eq_some howner, .inl (hty ▸ hdeclared)⟩

/-- A class with these members, and perhaps a parent. -/
def classNode (name : String) (parent : Option String) (members : List MemberDecl) : Expr :=
  ⟨.classDecl { name, generics := [], parent, members, constructor := none, span := .zero }, .zero⟩

/-- A field called `secret`. -/
def secretField (isStatic isPrivate : Bool) : MemberDecl :=
  .field
    { name := "secret", typeExpr := none, initializer := some ⟨.int 1, .zero⟩, isStatic, isPrivate
      span := .zero }

/-- A method without parameters. -/
def peekMethod (body : List Expr) : MemberDecl :=
  .method
    { isStatic := false, isPrivate := false, isOperator := false
      function :=
        { name := "peek", generics := [], params := [], varargs := none, kwargs := none
          returnType := none, isAsync := false, catchesResult := false, body, span := .zero } }

/-- An instance of a class with a private field. -/
def safeInstance : Expr :=
  ⟨.scope [classNode "Safe" none [secretField false true],
    ⟨.call ⟨.var "Safe", .zero⟩ [], .zero⟩], .zero⟩

/-- The private field is read outside of the class, and that is reported. -/
theorem compile_guardsMembers_safeInstance :
    let e : Expr := ⟨.member safeInstance "secret", .zero⟩
    Visited ⟨[e]⟩ {} 0 e .effect (hoistedState ⟨[e]⟩ {}) ∧
      ∃ typeName span, ⟨.privateAttribute typeName "secret", span⟩ ∈ diagnosticsOf (compile ⟨[e]⟩ {}) := by
  intro e
  have hvisited : Visited ⟨[e]⟩ {} 0 e .effect (hoistedState ⟨[e]⟩ {}) := visited_first rfl
  refine ⟨hvisited, ?_⟩
  have hguards := (compile_guardsMembers hvisited (by decide)).1 safeInstance "secret" _ (0, "Safe") rfl
    (by decide +kernel) (by decide +kernel) (by decide +kernel)
  refine hguards.resolve_left fun hclass => ?_
  obtain ⟨c, hc, -⟩ := hclass
  have hnone : (hoistedState ⟨[e]⟩ {}).frame.owner.isNone = true := by decide +kernel
  rw [hc] at hnone
  cases hnone

/-- A program with a private field that has code outside of the class. -/
def outsideSafe (rest : List Expr) : Program :=
  ⟨classNode "Safe" none [secretField false true] ::
    ⟨.letDecl "box" none (some ⟨.call ⟨.var "Safe", .zero⟩ [], .zero⟩) false, .zero⟩ :: rest⟩

/-- Uses of the private field that are not checked: a weak assignment, a drop, a pattern, a
name in a class that inherits the field, and a member of another class of the same name.
In the last program a class has a field of the name of a private static member that it
inherits. -/
def uncheckedUses : List Program :=
  let node (kind : ExprKind) : Expr := ⟨kind, .zero⟩
  let secret : Expr := node (.member (node (.var "box")) "secret")
  [outsideSafe [node (.assign true secret (node (.int 2)))],
    outsideSafe [node (.drop secret)],
    outsideSafe [node (.patternMatch (node (.var "box"))
      [⟨.destructure (node (.var "Safe")) ["secret"], none, [node (.var "secret")], .zero⟩] none)],
    outsideSafe [classNode "Open" (some "Safe") [peekMethod [node (.var "secret")]]],
    outsideSafe [node (.scope [classNode "Safe" none [peekMethod [secret]]])],
    ⟨[classNode "Safe" none [secretField true true],
      classNode "Open" (some "Safe") [secretField false false],
      node (.member (node (.var "Open")) "secret")]⟩]

/-- Reading the field and assigning to it are reported, these uses are not. -/
theorem compiles_uncheckedUses :
    let secret : Expr := ⟨.member ⟨.var "box", .zero⟩ "secret", .zero⟩
    diagnosticsOf (compile (outsideSafe [secret]) {}) = [⟨.privateAttribute "Safe" "secret", .zero⟩] ∧
    diagnosticsOf (compile (outsideSafe [⟨.assign false secret ⟨.int 2, .zero⟩, .zero⟩]) {}) =
      [⟨.privateAttribute "Safe" "secret", .zero⟩] ∧
    ∀ p ∈ uncheckedUses, ∃ m, compile p {} = .ok m := by
  intro secret
  refine ⟨by decide +kernel, by decide +kernel, fun p hp => ?_⟩
  have hall : ∀ p ∈ uncheckedUses, (compile p {}).toOption.isSome = true := by decide +kernel
  have hcompiles := hall p hp
  cases hm : compile p {} with
  | ok m => exact ⟨m, rfl⟩
  | error failure =>
    rw [hm] at hcompiles
    cases hcompiles

end Strand
