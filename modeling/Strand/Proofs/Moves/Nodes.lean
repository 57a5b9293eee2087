import Strand.Compile
import Strand.Proofs.ClassValues
import Strand.Proofs.Moves.Parts

/-!
# Every node makes moves

A part of the code generator that is made of others makes moves because they do. What is
left to see are the types that come out of it, and the parts that go on differently with
each thing they find: a name is read, assigned to or dropped where it lives, a unit is
begun and finished, and a variable becomes a global at the top of a module.
-/

namespace Strand.Codegen

open Typed (Sound)

variable {α β γ : Type} {K : Setting} {known : Known} {s s' : State} {name variableName : String}
  {receiver : Ty} {op : BinaryOp} {right index : Expr} {keywords : Nat} {b : Bindings}
  {f : FieldDecl} {cases : List SwitchCase} {step : Option Expr} {arms : List Arm}
  {act : NodeCompiler → Build Unit}

variable {body items : List Expr} {sig : Signature} {c : ClassRef} {e : EnumRef} {line : UInt64}
  {kind : UnitKind} {owner : Option ClassRef} {span : Span} {join : Join} {base : Nat}
  {otherwise : Option (List Expr)} {condition object subject target value : Expr} {slot : UInt16}
  {args : List Argument} {passed : List Passed} {isConst isWeak : Bool} {decl : FunctionDecl}
  {typeExpr : Option (List TypeExpr.Token)} {position : Position} {names : List String}

/-! ## Answers that hold types -/

instance [Typed α] [Typed β] : Typed (α × β) := ⟨fun x => Sound x.1 ∧ Sound x.2⟩

instance : Typed Join := ⟨fun j => Sound j.ty⟩

instance : Typed Binder := ⟨fun b => b.ty.WellFormed⟩

instance : Typed PatternTest := ⟨fun t => Sound t.binders⟩

/-- The type of the value, or of nothing. -/
def Left.ty : Left → Ty
  | .value ty | .nothing ty | .asWanted ty => ty

instance : Typed Left := ⟨fun left => left.ty.WellFormed⟩

/-- The signature of a member that is a method is well formed. -/
def TypedMember.WellFormed : TypedMember → Prop
  | .field _ => True
  | .method _ sig => sig.WellFormed

instance : Typed TypedMember := ⟨TypedMember.WellFormed⟩

section

variable {a b : Ty}

instance [ha : Entails known (Sound a)] [hb : Entails known (Sound b)] :
    Entails known (Sound (a.unify b)) := ⟨fun h => (ha.of h).unify (hb.of h)⟩

instance [Typed α] {o : Option α} {d : α} [ho : Entails known (Sound o)] [hd : Entails known (Sound d)] :
    Entails known (Sound (o.getD d)) where
  of h := by
    cases o with
    | none => exact hd.of h
    | some a => exact ho.of h a rfl

instance [ha : Entails known (Sound a)] : Entails known (Sound (Ty.ref a)) := ⟨ha.of⟩

instance {items : List Ty} [h : Entails known (Sound items)] : Entails known (Sound (Ty.tuple items)) :=
  ⟨fun hknown => Ty.allWellFormed_iff.mpr (h.of hknown)⟩

instance [h : Entails known (Sound sig)] : Entails known (Sound (Ty.fn sig)) :=
  ⟨h.of⟩

instance : Entails known (Sound (Ty.classObject c)) := ⟨fun _ => trivial⟩

instance : Entails known (Sound (Ty.enumObject e)) := ⟨fun _ => trivial⟩

instance [h : Entails known (Sound a)] : Entails known (Sound (Left.value a)) := ⟨h.of⟩

instance [h : Entails known (Sound a)] : Entails known (Sound (Left.nothing a)) := ⟨h.of⟩

instance [h : Entails known (Sound a)] : Entails known (Sound (Left.asWanted a)) := ⟨h.of⟩

theorem Join.wellFormed_withBranch {j : Join} (hj : Sound j) (ha : a.WellFormed) :
    (j.withBranch a).WellFormed := by
  unfold Join.withBranch
  split
  · rename_i acc hacc
    exact (hj acc hacc).unify ha
  · exact ha

end

/-! ## Bodies and branches -/

instance : Advances known K fun node => compileEffects node body := by
  unfold compileEffects
  infer_instance

instance : Advances known K fun node => compileSequence node line body := by
  induction body generalizing known with
  | nil =>
    unfold compileSequence
    infer_instance
  | cons e rest ih =>
    cases rest with
    | nil => exact inferInstanceAs (Advances known K fun node => node e .value)
    | cons e' rest => exact .bind inferInstance fun _ => ih

instance : Advances known K fun node => compileBlock node body line :=
  inferInstanceAs (Advances known K fun node => inScope true line (compileSequence node line body))

instance : Advances known K fun node => compileBlockEffects node body line := by
  simp only [compileBlockEffects_eq]
  infer_instance

theorem Frame.proper_start
    (h : receiver.WellFormed) : (Frame.start name kind owner receiver).Proper K where
  toWellTyped := Frame.wellTyped_start h
  admitted _ he := absurd he List.not_mem_nil
  settled l hl := by
    cases List.mem_singleton.mp hl
    exact Nat.le_refl _
  macros _ hm := absurd hm List.not_mem_nil
  pool _ := Nat.zero_le _

instance {body : NodeCompiler → Build Ty} [h : Advances known.apart K body] :
    Advances known K fun node => compileCalledUnit name span (body node) := by
  have hinside : Yields known.apart K (fun ty => .fact (Sound ty)) fun node =>
      (body node >>= fun ty => emit .ret span.line >>= fun _ => pure ty : Build Ty) := Advances.yields
  have hunit := Yields.inUnit (beginUnit name .block .any >>= fun _ => openScope) 0 span
    (fun _ s _ => ?_) hinside
  · have hwhole : Yields known K (fun ty => .fact (Sound ty)) _ :=
      hunit.bind (f := fun ty _ => emit (.call 0 0) span.line >>= fun _ => pure ty) fun ty => Advances.yields
    refine ⟨?_⟩
    simpa only [compileCalledUnit, inUnit, bind_assoc, pure_bind] using hwhole
  · refine ⟨(Frame.start name .block s.frame.owner .any).openScope, ⟨rfl, rfl⟩, ?_, rfl, rfl⟩
    have hstart : (Frame.start name .block s.frame.owner .any).Proper K := Frame.proper_start trivial
    exact ⟨⟨hstart.locals, hstart.globals, hstart.types, hstart.returnType⟩, hstart.admitted,
      fun l hl => Nat.le_succ_of_le (hstart.settled l hl),
      fun m hm => Nat.le_succ_of_le (hstart.macros m hm), hstart.pool⟩

instance : Advances known K fun node => compileScope node body span := by
  unfold compileScope
  infer_instance

instance {body : Option (List Expr)} : Advances known K fun node => compileOtherwise node body line := by
  cases body <;> unfold compileOtherwise <;> infer_instance

/-- Branches that meet further on. -/
def Known.meet (join : Join) : Known := (Known.fact (Sound join)).and (.jumps join.jumps)

variable {ty : Ty}

/-- One more branch jumps to where all of them meet. -/
theorem Known.meet_add {done : Nat} {s0 : State}
    (h : (Known.meet join).Holds s0 s) (hty : ty.WellFormed) (hdone : s0.frame.chunk.size ≤ done) :
    (Known.meet (join.add ty done)).Holds s0 s' := by
  refine ⟨?_, List.forall_mem_cons.mpr ⟨hdone, h.2⟩⟩
  rintro _ ⟨⟩
  exact Join.wellFormed_withBranch h.1 hty

instance : Implies (.meet join) (.jumps join.jumps) := ⟨And.right⟩

instance [h : Implies known (.meet join)] [hty : Entails known (Sound ty)] :
    Entails known (Sound (join.withBranch ty)) where
  of hknown := by
    have hmeet := h.of hknown
    exact Join.wellFormed_withBranch hmeet.1 (hty.of hknown)

/-- Behind the branches that go before, one more. -/
theorem Yields.branches {f : Join → γ → NodeCompiler → Build Join} {items : List γ}
    (hf : ∀ join a, Yields (known.and (.meet join)) K .meet (f join a)) :
    Learns known K (fun node => items.foldlM (fun join a => f join a node) {}) .meet :=
  ⟨.foldlM (fun _ _ _ => ⟨(fun _ h => by cases h), fun _ ho => absurd ho List.not_mem_nil⟩)
    fun join a _ => hf join a⟩

theorem yields_branch {branch : Branch} :
    Yields (known.and (.meet join)) K .meet fun node => compileBranch node base span join branch := by
  unfold compileBranch
  refine Yields.bind Advances.yields fun _ => Yields.bind Learns.yields fun skip =>
    Yields.bind Advances.yields fun _ => Yields.bind Advances.yields fun ty =>
    Yields.bind Learns.yields fun done => Yields.bind Advances.yields fun _ =>
    Yields.bind Advances.yields fun _ => Yields.bind Advances.yields fun _ => .pure fun s0 s h => ?_
  obtain ⟨⟨⟨⟨⟨hmeet, hty⟩, hdone⟩, -⟩, -⟩, -⟩ := h
  exact Known.meet_add hmeet.1.1.1.2 hty (hdone done (.head _))

instance {branches : List Branch} :
    Advances known K fun node => compileIf node branches otherwise span := by
  have hbranches {known' : Known} {base : Nat} : Learns known' K (fun node =>
    branches.foldlM (fun join a => compileBranch node base span join a) {}) .meet :=
      Yields.branches fun _ _ => yields_branch
  unfold compileIf
  infer_instance

instance {thenValue elseValue : Expr} :
    Advances known K fun node => compileTernary node condition thenValue elseValue span := by
  unfold compileTernary
  refine .bind inferInstance fun _ => .bind inferInstance fun _ => .next fun skip => ?_
  refine .bind inferInstance fun _ => .bind inferInstance fun _ => .next fun done => ?_
  refine .bind inferInstance fun _ => .bind inferInstance fun _ => .bind inferInstance fun _ => ?_
  infer_instance

/-- The jumps in the answers, one answer for each item. -/
theorem yields_mapM_jumps {f : γ → NodeCompiler → Build α} {jumps : α → List Nat} {items : List γ}
    (hf : ∀ a ∈ items, Yields known K (fun x => .jumps (jumps x)) (f a)) :
    Yields known K (fun xs => .jumps (xs.flatMap jumps)) fun node => items.mapM fun a => f a node := by
  induction items with
  | nil =>
    simp only [List.mapM_nil]
    exact .pure fun _ _ _ _ ho => absurd ho List.not_mem_nil
  | cons a items ih =>
    simp only [List.mapM_cons]
    have hrest := ih fun b hb => hf b (.tail _ hb)
    refine (hf a (.head _)).bind fun x => (hrest.of fun _ _ => And.left).bind fun xs =>
      .pure fun _ _ h o ho => ?_
    rw [List.flatMap_cons] at ho
    exact (List.mem_append.mp ho).elim (h.1.2 o) (h.2 o)

theorem yields_caseTests {values : List Expr} :
    Yields known K (fun jumps => .jumps (jumps.flatMap fun o => [o])) fun node =>
      compileCaseTests node slot values := by
  unfold compileCaseTests
  refine yields_mapM_jumps fun value _ => ?_
  refine Yields.bind Advances.yields fun _ => Yields.bind Advances.yields fun _ =>
    Yields.bind Advances.yields fun _ => Yields.bind Learns.yields fun jump =>
    Yields.bind Advances.yields fun _ => .pure fun _ _ h => h.1.2

theorem yields_caseBody {jumps : List Nat} [Implies known (.jumps jumps)] :
    Yields known K (fun o => .jumps [o]) fun node => compileCaseBody node base span body jumps := by
  unfold compileCaseBody
  exact Yields.bind Advances.yields fun _ => Yields.bind Advances.yields fun _ =>
    Yields.bind Advances.yields fun _ => Yields.bind Advances.yields fun _ => Learns.yields

instance : Advances known K fun node => compileSwitchBody node subject cases otherwise span := by
  unfold compileSwitchBody
  refine .bind inferInstance fun ty => .bind inferInstance fun slot => .bind inferInstance fun base => ?_
  have htests {known' : Known} : Learns known' K (fun node => cases.mapM fun c =>
      compileCaseTests node slot c.values) fun tests =>
        .jumps (tests.flatMap fun jumps => jumps.flatMap fun o => [o]) :=
    ⟨yields_mapM_jumps fun _ _ => yields_caseTests⟩
  refine .next fun tests => .next fun toDefault => ?_
  have hbodies {known' : Known} [hjumps : Implies known'
      (.jumps (tests.flatMap fun jumps => jumps.flatMap fun o => [o]))] :
      Learns known' K (fun node => (cases.zip tests).mapM fun x =>
        compileCaseBody node base span x.1.body x.2) fun ends => .jumps (ends.flatMap fun o => [o]) := by
    refine ⟨yields_mapM_jumps fun x hx => ?_⟩
    have hx' : Implies known' (.jumps x.2) :=
      ⟨fun h o ho => hjumps.of h o (List.mem_flatMap.mpr ⟨x.2, (List.of_mem_zip hx).2,
        List.mem_flatMap.mpr ⟨o, ho, .head _⟩⟩)⟩
    exact yields_caseBody
  refine .next fun ends => .bind inferInstance fun _ => .bind inferInstance fun _ => ?_
  simp only [List.flatMap_singleton']
  cases otherwise <;> infer_instance

instance : Advances known K fun node => compileSwitch node subject cases otherwise span := by
  unfold compileSwitch
  infer_instance

instance : Advances known K fun _ => checkReturned ty span := by
  refine .look (fun _ _ => rfl) fun s => ?_
  cases s.frame.returnType <;> infer_instance

instance {value : Option Expr} : Advances known K fun node => compileReturn node value span := by
  refine .bind inferInstance fun _ => .look (fun _ _ => rfl) fun s => ?_
  cases value <;> infer_instance

instance : Advances known K fun node => compileThrow node value span := by
  unfold compileThrow
  infer_instance

instance {message : Option Expr} :
    Advances known K fun node => compileAssert node condition message span := by
  cases message <;> unfold compileAssert <;> infer_instance

/-! ## Operators and calls -/

instance : Advances known K fun node => compileValues node items := by
  unfold compileValues
  infer_instance

instance {parts : List TextPart} : Advances known K fun node => compileInterpolated node parts span := by
  refine .bind (.forM fun part => ?_) fun _ => inferInstance
  cases part <;> infer_instance

instance : Advances known K fun node => compileArray node items span := by
  unfold compileArray
  infer_instance

instance {pairs : List (Expr × Expr)} : Advances known K fun node => compileMap node pairs span := by
  unfold compileMap
  infer_instance

instance : Advances known K fun node => compileTuple node items span := by
  unfold compileTuple
  infer_instance

instance {symbol : String} {left right : Ty} [hleft : Entails known (Sound left)] :
    Advances known K fun _ => operatorResult op symbol left right span := by
  refine .look (fun _ _ => rfl) fun s => ?_
  cases h : s.decls.binaryResult? op left right with
  | none =>
    dsimp only
    infer_instance
  | some ty =>
    refine advances_pure fun _ _ hs => ?_
    rintro _ ⟨⟩
    exact hs.2.1.decls.binaryResult (hleft.of hs.1) h

instance {left : Expr} : Advances known K fun node => compileBinary node left op right := by
  unfold compileBinary
  infer_instance

instance {left : Expr} {op : LogicalOp} :
    Advances known K fun node => compileLogical node left op right span := by
  cases op <;> unfold compileLogical <;> infer_instance

instance {op : UnaryOp} {operand : Expr} :
    Advances known K fun node => compileUnary node op operand span := by
  refine .bind inferInstance fun ty => .bind inferInstance fun _ => ?_
  cases h : ty.unaryResult? op with
  | none =>
    dsimp only
    infer_instance
  | some result => exact advances_pure fun _ _ hty => Ty.WellFormed.unaryResult hty.1.2 h

instance : Advances known K fun node => compileReference node target span := by
  unfold compileReference
  infer_instance

instance : Advances known K fun node => compileDeref node target span := by
  refine .bind inferInstance fun ty => .bind inferInstance fun _ => ?_
  cases ty with
  | ref inner => exact advances_pure fun _ _ hty => hty.1.2
  | _ => infer_instance

instance : Advances known K fun node => compilePositional node args := by
  refine .filterMapM fun arg => ?_
  cases arg with
  | positional e =>
    refine .bind inferInstance fun ty => advances_pure fun _ _ hty => ?_
    rintro _ ⟨⟩
    exact ⟨hty.2, trivial⟩
  | keyword _ _ => infer_instance

instance : Advances known K fun node => compileKeywords node args := by
  refine ⟨.foldlM (fun _ _ _ => trivial) fun count arg _ => ?_⟩
  cases arg <;> exact Advances.yields

instance {bindings : Bindings} {arg : Passed} {i : Nat} :
    Advances known K fun _ => checkArgument sig bindings arg i := by
  unfold checkArgument
  cases sig.paramFor? i <;> infer_instance

/-- The types found for generic parameters are types of arguments. -/
theorem wellFormed_inferBindings (h : Sound passed) : (inferBindings sig passed).WellFormed := by
  refine List.foldlRecOn (motive := Bindings.WellFormed) _ _ (fun _ he => absurd he List.not_mem_nil)
    fun b hb x hx => ?_
  have harg := (h x.1 (List.fst_mem_of_mem_zipIdx hx)).1
  dsimp only
  split
  · exact Ty.wellFormed_infer _ harg hb
  · exact hb

instance [hpassed : Entails known (Sound passed)] :
    Advances known K fun _ => checkCall sig passed keywords span := by
  have hbindings : Entails known (Sound (inferBindings sig passed)) :=
    ⟨fun h e he => ⟨trivial, wellFormed_inferBindings (hpassed.of h) e he⟩⟩
  unfold checkCall
  dsimp only
  infer_instance

instance {count got : Nat} : Advances known K fun _ => checkCount count got span := by
  unfold checkCount
  infer_instance

/-- An instance has one argument for each generic parameter, known or not. -/
theorem wellFormed_instance (c : ClassRef) (hb : b.WellFormed) :
    (Ty.inst c (c.generics.map fun g => (b.find? g).getD .any)).WellFormed := by
  refine ⟨List.length_map .., Ty.allWellFormed_iff.mpr fun t ht => ?_⟩
  obtain ⟨g, -, rfl⟩ := List.mem_map.mp ht
  cases hfind : b.find? g with
  | none => trivial
  | some ty => exact hb.find? hfind

theorem wellFormed_bindings (h : Sound b) : b.WellFormed := fun e he => (h e he).2

instance {callee : Ty}
    [hcallee : Entails known (Sound callee)] [hpassed : Entails known (Sound passed)] :
    Advances known K fun _ => callResult callee passed keywords span := by
  cases callee with
  | fn sig =>
    refine .bind inferInstance fun b => advances_pure fun _ _ h => ?_
    have hsig : sig.WellFormed := hcallee.of h.1
    exact Ty.WellFormed.substitute (wellFormed_bindings h.2) (Signature.wellFormed_iff.mp hsig).1
  | classObject c =>
    refine .look (fun _ _ => rfl) fun s => ?_
    cases s.decls.constructor? c with
    | some sig =>
      refine .bind inferInstance fun b => advances_pure fun _ _ h => ?_
      exact wellFormed_instance c (wellFormed_bindings h.2)
    | none =>
      refine .bind inferInstance fun _ => advances_pure fun _ _ _ => ?_
      exact wellFormed_instance c fun _ he => absurd he List.not_mem_nil
  | variant v =>
    refine .bind inferInstance fun _ => .bind inferInstance fun _ => advances_pure fun _ _ h => ?_
    exact hcallee.of h.1.1
  | _ =>
    unfold callResult
    infer_instance

instance {callee : Expr} : Advances known K fun node => compileCall node callee args span := by
  unfold compileCall
  infer_instance

/-! ## Variables and attributes -/

instance : Advances known K fun _ => compileThis span := by
  refine .bind inferInstance fun ty => ?_
  cases ty <;> dsimp only <;> infer_instance

instance : Advances known K fun _ => checkPrivate c name span := by
  refine .look (fun _ _ => rfl) fun s => ?_
  cases s.decls.privateOwner? c name <;> infer_instance

instance {object : Ty} [hobject : Entails known (Sound object)] :
    Advances known K fun _ => attributeType object name span := by
  refine .look (fun _ _ => rfl) fun s => ?_
  cases object with
  | inst c args =>
    dsimp only
    split
    · rename_i ty hty
      refine .bind inferInstance fun _ => advances_pure fun _ _ h => ?_
      have hmember : ty.WellFormed := by
        rw [Option.orElse_eq_orElse, Option.orElse_eq_or] at hty
        rcases Option.or_eq_some_iff.mp hty with hfield | ⟨-, hstatic⟩
        · exact h.1.2.1.decls.field hfield
        · exact h.1.2.1.decls.staticField hstatic
      have hargs : Ty.AllWellFormed args := (hobject.of h.1.1).2
      exact hmember.substitute (ClassRef.wellFormed_bindGenerics hargs)
    · infer_instance
  | classObject c =>
    dsimp only
    split
    · rename_i ty hty
      exact .bind inferInstance fun _ => advances_pure fun _ _ h => h.1.2.1.decls.staticField hty
    · infer_instance
  | enumObject e =>
    dsimp only
    split
    · rename_i v hv
      exact advances_pure fun _ _ h => h.2.1.decls.variant hv
    · infer_instance
  | variant v =>
    dsimp only
    split
    · rename_i ty hty
      refine advances_pure fun _ _ h => ?_
      have hv : v.WellFormed := hobject.of h.1
      exact hv.find hty
    · infer_instance
  | _ => infer_instance

instance : Advances known K fun node => compileMember node object name span := by
  unfold compileMember
  infer_instance

instance {object : Ty} {index : ExprKind} [h : Entails known (Sound object)] :
    Entails known (Sound (elementType object index)) where
  of hknown := by
    have hobject := h.of hknown
    unfold elementType
    split
    · trivial
    · trivial
    · rename_i items i
      split
      · cases hitem : items[i.toInt.toNat]? with
        | none => trivial
        | some ty => exact Ty.allWellFormed_iff.mp hobject ty (List.mem_of_getElem? hitem)
      · trivial
    · trivial

instance : Advances known K fun node => compileIndex node object index := by
  unfold compileIndex
  infer_instance

instance : Advances known K fun node => compileVariable node name span := by
  refine .next fun m => ?_
  rcases m with _ | m
  · infer_instance
  · cases m <;> dsimp only <;> infer_instance

/-- What may be assigned to is no constant, if nothing is reported. -/
instance : Learns known K
    (fun _ => if isConst = true then report (.assignToConstant name) span else pure ()) fun _ =>
      .fact (K.clean → isConst = false) := by
  cases isConst with
  | false => exact ⟨.pure fun _ _ _ _ => rfl⟩
  | true =>
    refine ⟨.step fun _ s _ _ hs hclean => ⟨.refl hs, fun hc => ?_, .refl s⟩⟩
    have hreports := hclean hc
    simp [report, Cause.kind] at hreports

instance : Entails ((known.and (.meaning K name (some (.global ty isConst)))).and
      (.fact (K.clean → isConst = false))) (K.clean → K.assignable name) :=
  ⟨fun h hclean => h.1.2.2 (h.2 hclean)⟩

instance {target : Span} :
    Advances known K fun node => compileAssignName node isWeak name target value span := by
  refine .next fun m => ?_
  rcases m with _ | m
  · infer_instance
  · cases m with
    | captured c | global ty isConst =>
      exact .next fun _ => .bind inferInstance fun ty => .bind inferInstance fun _ => inferInstance
    | ofReceiver ty =>
      refine .next fun index => ?_
      split <;> infer_instance
    | _ =>
      dsimp only
      infer_instance

instance {target : Span} :
    Advances known K fun node => compileAssignMember node isWeak object name target value span := by
  refine .next fun index => ?_
  split
  · infer_instance
  · exact .bind inferInstance fun _ => .bind inferInstance fun _ => inferInstance

instance : Advances known K fun node => compileAssignIndex node object index value span := by
  unfold compileAssignIndex
  infer_instance

instance : Advances known K fun node => compileAssign node isWeak target value span := by
  unfold compileAssign
  split <;> infer_instance

instance {target : Span} [Entails known (K.droppable name)] :
    Advances known K fun _ => compileDropName name target span := by
  refine .next fun m => ?_
  rcases m with _ | m
  · infer_instance
  · cases m <;> dsimp only <;> infer_instance

/-- Giving a name up is allowed if the setting says so. -/
theorem advances_drop
    (hdrops : ∀ name, target.kind = .var name → Entails known (K.droppable name)) :
    Advances known K fun node => compileDrop node target span := by
  unfold compileDrop
  split
  · rename_i name hname
    have hdrops := hdrops name hname
    infer_instance
  · infer_instance
  · infer_instance

/-! ## Functions -/

instance {tokens : Option (List TypeExpr.Token)} :
    Advances known K fun _ => annotatedType tokens span := by
  unfold annotatedType
  infer_instance

/-- The parameters that may be left out are among those that are not the rest parameter. -/
theorem wellFormed_signature {params : List Ty} {result : Ty} (hparams : ∀ t ∈ params, t.WellFormed)
    (hlength : params.length = (decl.params ++ decl.varargs.toList).length)
    (hresult : result.WellFormed) : Signature.WellFormed
      { result, params, generics := decl.generics, hasVarargs := decl.varargs.isSome
        defaultCount := (decl.params.filter fun p => p.default.isSome).length } := by
  have hdefaults := List.length_filter_le (fun p : Param => p.default.isSome) decl.params
  rw [List.length_append] at hlength
  refine Signature.wellFormed_iff.mpr ⟨hresult, hparams, fun hrest => ?_, ?_⟩
  · obtain ⟨p, hp⟩ := Option.isSome_iff_exists.mp hrest
    rw [hp, Option.toList_some, List.length_singleton] at hlength
    show 0 < params.length
    omega
  · show _ ≤ params.length - decl.varargs.isSome.toNat
    cases hvarargs : decl.varargs with
    | none =>
      rw [hvarargs] at hlength
      exact Nat.le_trans hdefaults (Nat.le_of_eq hlength.symm)
    | some p =>
      rw [hvarargs, Option.toList_some, List.length_singleton] at hlength
      show (decl.params.filter fun p => p.default.isSome).length ≤ params.length - 1
      omega

instance : Advances known K fun _ => functionSignature decl := by
  refine ⟨(yields_mapM fun _ => inferInstance).bind fun params =>
    Yields.bind Advances.yields fun result => .pure fun _ _ h => ?_⟩
  exact wellFormed_signature h.1.2.1 h.1.2.2 h.2

instance {params : List Param} : Advances known K fun _ => checkDefaultsLast params := by
  unfold checkDefaultsLast
  infer_instance

instance [Entails known (Sound ty)] : Advances known K fun _ => declareParam name ty span := by
  unfold declareParam
  infer_instance

instance [hsig : Entails known (Sound sig)] : Advances known K fun _ => declareParams decl sig := by
  refine .bind (.forM fun x => ?_) fun _ => inferInstance
  obtain ⟨p, ty⟩ := x
  have hty : Entails (known.and (.fact ((p, ty) ∈ decl.params.zip sig.params))) (Sound ty) :=
    ⟨fun h => (Signature.wellFormed_iff.mp (hsig.of h.1)).2.1 ty (List.of_mem_zip h.2).2⟩
  dsimp only
  infer_instance

instance {p : Param} : Advances known K fun node => compileDefault node p ty := by
  unfold compileDefault
  cases p.default <;> infer_instance

instance : Advances known K fun node => compileDefaults node decl sig := by
  unfold compileDefaults
  infer_instance

instance : Advances known K fun node => compileFunctionBody node body kind span := by
  unfold compileFunctionBody
  dsimp only
  split
  · infer_instance
  · refine .look (fun _ _ => rfl) fun s => ?_
    split
    · infer_instance
    · refine .bind inferInstance fun ty => ?_
      cases s.frame.returnType <;> infer_instance

theorem wellFormed_receiverType (owner : Option ClassRef) (kind : UnitKind) :
    (receiverType owner kind).WellFormed := by
  unfold receiverType
  split
  · split
    · exact ClassRef.wellFormed_selfInstance _
    · trivial
  · trivial

/-- The frame that a function is laid down in. -/
theorem proper_functionFrame {owner' : Option ClassRef}
    {header : UnitHeader} {declared : Option Ty} (hreceiver : receiver.WellFormed)
    (hdeclared : Sound declared) : Frame.Proper K { Frame.start name kind owner receiver with
      header, owner := owner', returnType := declared } := by
  have hstart : (Frame.start name kind owner receiver).Proper K := Frame.proper_start hreceiver
  exact ⟨⟨hstart.locals, hstart.globals, hstart.types, hdeclared⟩, hstart.admitted, hstart.settled,
    hstart.macros, hstart.pool⟩

instance [hsig : Entails known (Sound sig)] :
    Advances known K fun node => emitFunction node decl kind sig owner := by
  have hinside : Yields known.apart K (fun a => .fact (Sound a)) fun node =>
    declareParams decl sig >>= fun _ => compileFunctionBody node decl.body kind decl.span := Advances.yields
  have hunit := Yields.inUnit (beginUnit decl.name kind (receiverType owner kind) >>= fun _ =>
      modifyFrame fun f =>
        { f with header := functionHeader decl kind, owner := owner <|> f.owner
                 returnType := if decl.returnType.isSome && kind != .constructor then
                   some sig.result else none })
    (functionHeader decl kind).defaultCount decl.span (fun _ s hknown => ?_) hinside
  · have hwhole : Advances known K fun node => checkDefaultsLast decl.params >>= fun _ =>
        compileDefaults node decl sig >>= fun _ => inUnit _ _ _ _ :=
      .bind inferInstance fun _ => .bind inferInstance fun _ => ⟨hunit.of fun _ _ h => h.1.1⟩
    simpa only [emitFunction, inUnit, bind_assoc, bind_pure_unit] using hwhole
  · refine ⟨_, ⟨rfl, rfl⟩, proper_functionFrame (wellFormed_receiverType owner kind) ?_, rfl, rfl⟩
    intro ty hty
    split at hty
    · cases hty
      exact (Signature.wellFormed_iff.mp (hsig.of hknown)).1
    · cases hty

instance : Advances known K fun node => compileLambda node decl := by
  unfold compileLambda
  infer_instance

instance : Advances known K fun node => compileFunctionDecl node decl := by
  unfold compileFunctionDecl
  infer_instance

instance {decorator decorated : Ty} :
    Advances known K fun _ => checkDecorator decorator decorated name span := by
  unfold checkDecorator
  split <;> infer_instance

instance {decorator : Expr} :
    Advances known K fun node => compileDecorated node decorator target span := by
  unfold compileDecorated
  split <;> infer_instance

/-! ## Variables that are declared -/

/-- Whether a variable declared here may become a global that can be assigned to. -/
def Setting.Declares (K : Setting) (name : String) (isConst : Bool) (s : State) : Prop :=
  s.frame.isModuleLevel = true → isConst = false → K.assignable name

theorem Frame.Kept.isModuleLevel {f g : Frame} (h : f.Kept g) : g.isModuleLevel = f.isModuleLevel := by
  rw [Frame.isModuleLevel, h.kind, h.depth]
  rfl

/-- A variable takes its place after its value was built. -/
theorem advances_declare [hty : Entails known (Sound ty)]
    [h : Implies known (.start (K.Declares name isConst))] : Advances known K fun _ => (do
      if (← get).frame.isModuleLevel then
        let index ← nameConstant name span
        emit (.defineGlobal index) span.line
        defineGlobal name ty isConst
      else
        let _ ← declareLocal name ty isConst span) := by
  refine .look (fun _ _ => rfl) fun s => ?_
  split
  · rename_i hlevel
    have hdeclares (s0 s' : State)
        (hknown : (known.and (.start fun s0 => s.Proper K ∧ s0.Kept s)).Holds s0 s') :
        isConst = false → K.assignable name := by
      have hthere := h.of hknown.1
      exact hthere (hknown.2.2.frame.isModuleLevel ▸ hlevel)
    exact .next fun _ => .bind inferInstance fun _ => advances_defineGlobal
      (fun _ _ hknown => hty.of hknown.1.1.1) fun s0 s' hknown => hdeclares s0 s' hknown.1.1
  · infer_instance

instance {value : Option Expr} [Implies known (.start (K.Declares name isConst))] :
    Advances known K fun node => compileLet node name typeExpr value isConst span := by
  refine .bind inferInstance fun declared => ?_
  cases value with
  | none =>
    refine .bind inferInstance fun _ => ?_
    simp only [pure_bind]
    exact advances_declare
  | some e =>
    refine .bind inferInstance fun ty => ?_
    cases declared with
    | none =>
      simp only [pure_bind]
      exact advances_declare
    | some expected =>
      simp only [pure_bind]
      exact .bind inferInstance fun _ => advances_declare

/-! ## Classes and enums -/

instance : Advances known K fun _ => methodSignature decl := by
  unfold methodSignature
  infer_instance

instance {isStatic isPrivate : Bool} [hty : Entails known (Sound ty)] :
    Advances known K fun _ => modifyDecls fun d => d.addField c name ty isStatic isPrivate :=
  advances_modifyDecls fun _ _ hknown hd => hd.addField (hty.of hknown) isStatic isPrivate

instance [hsig : Entails known (Sound sig)] :
    Advances known K fun _ => modifyDecls fun d => d.addOperator c name sig :=
  advances_modifyDecls fun _ _ hknown hd => hd.addOperator (hsig.of hknown) name

instance [hsig : Entails known (Sound sig)] : Advances known K fun _ => modifyDecls fun d =>
      d.setConstructor c { sig with result := c.selfInstance } := by
  refine advances_modifyDecls fun _ _ hknown hd => hd.setConstructor ?_
  obtain ⟨-, hparams, hrest, hdefaults⟩ := Signature.wellFormed_iff.mp (hsig.of hknown)
  exact Signature.wellFormed_iff.mpr ⟨c.wellFormed_selfInstance, hparams, hrest, hdefaults⟩

instance : Entails known (Sound (TypedMember.field f)) := ⟨fun _ => trivial⟩

instance {m : MethodDecl} [h : Entails known (Sound sig)] :
    Entails known (Sound (TypedMember.method m sig)) := ⟨h.of⟩

instance {m : MemberDecl} : Advances known K fun _ => declareMember c m := by
  cases m <;> unfold declareMember <;> infer_instance

instance {decl : ClassDecl} : Advances known K fun _ => declareMembers decl c := by
  unfold declareMembers
  cases decl.constructor <;> infer_instance

instance : Advances known K fun _ => resolveParent name span := by
  refine .look (fun _ _ => rfl) fun s => ?_
  split <;> infer_instance

instance : Advances known K fun node => compileField node c f := by
  unfold compileField
  cases f.initializer with
  | none => infer_instance
  | some e =>
    refine .bind inferInstance fun ty => ?_
    cases f.typeExpr with
    | some tokens => exact .look (fun _ _ => rfl) fun _ => inferInstance
    | none => infer_instance

instance {m : TypedMember} [h : Entails known (Sound m)] :
    Advances known K fun node => compileMemberValue node c m := by
  cases m with
  | field f => exact inferInstanceAs (Advances known K fun node => compileField node c f)
  | method m sig =>
    have hsig : Entails known (Sound sig) := ⟨h.of⟩
    unfold compileMemberValue
    infer_instance

instance {ctor : Option FunctionDecl} :
    Advances known K fun node => compileConstructor node c ctor line := by
  refine .look (fun _ _ => rfl) fun s => ?_
  split
  · rename_i sig hsig
    have hctor : Entails (known.and (.start fun s0 => s.Proper K ∧ s0.Kept s)) (Sound sig) :=
      ⟨fun h => h.2.1.decls.constructor hsig⟩
    infer_instance
  · infer_instance

instance {decl : ClassDecl} : Advances known K fun node => compileClassValue node decl c := by
  have hmembers {known' : Known} (members : List TypedMember) [h : Entails known' (Sound members)] :
      Advances known' K fun node => members.reverse.forM (compileMemberValue node c) := by
    refine .forM fun m => ?_
    have hm : Entails (known'.and (.fact (m ∈ members.reverse))) (Sound m) :=
      ⟨fun hknown => h.of hknown.1 m (List.mem_reverse.mp hknown.2)⟩
    infer_instance
  simp only [compileClassValue_eq]
  cases decl.parent <;> infer_instance

instance {decl : ClassDecl} {parent : Option ClassRef} : Advances known K fun _ => enterClass decl parent :=
  ⟨.step fun _ s _ _ hs _ => by
    have hdecls : (s.decls.declareClass decl.name parent decl.generics).2.WellFormed :=
      hs.decls.declareClass parent decl.generics
    exact ⟨⟨fun _ => .refl, ⟨hs.frames, hdecls, hs.entered⟩⟩, trivial, .same rfl rfl rfl⟩⟩

instance {decl : ClassDecl} : Advances known K fun node => compileClass node decl := by
  refine .next fun place => ?_
  have hrest {known' : Known} (parent : Option ClassRef) [Implies known' (.denotes K place.operand?)] :
      Advances known' K fun node => (do
        let c ← enterClass decl parent
        modifyFrame fun f => { f with types := f.types.define decl.name (.classObject c) }
        place.retype decl.name (.classObject c)
        compileClassValue node decl c
        place.store decl.span.line : Build Unit) :=
    .bind inferInstance fun _ => .bind inferInstance fun _ => .bind inferInstance fun _ => inferInstance
  cases decl.parent with
  | none => exact .bind inferInstance fun parent => hrest parent
  | some name => exact .bind inferInstance fun parent => hrest parent

instance : Advances known K fun _ => enterEnum name :=
  ⟨.step fun _ s _ _ hs _ => by
    have hdecls : (s.decls.declareEnum name).2.WellFormed := hs.decls.declareEnum
    exact ⟨⟨fun _ => .refl, ⟨hs.frames, hdecls, hs.entered⟩⟩, trivial, .same rfl rfl rfl⟩⟩

instance {decl : VariantDecl} {ordinal : Nat} :
    Advances known K fun _ => declareVariant e decl ordinal := by
  refine ⟨((yields_mapM fun _ => inferInstance).withPlaceholders).bind fun fieldTypes =>
    (advances_modifyDecls fun _ _ hknown hd => hd.addVariant ?_).yields⟩
  refine Variant.wellFormed_iff.mpr ⟨?_, hknown.2.1⟩
  exact hknown.2.2.trans (List.length_map ..).symm

instance {place : Place} {v : VariantDecl} [Implies known (.denotes K place.operand?)] :
    Advances known K fun _ => publishVariant e place line v := by
  unfold publishVariant
  refine .bind inferInstance fun _ => .next fun i => .bind inferInstance fun _ =>
    .bind inferInstance fun _ => .look (fun _ _ => rfl) fun s =>
      advances_defineGlobal (fun _ _ h => ?_) fun _ _ _ hconst => by cases hconst
  split
  · rename_i variant hvariant
    exact h.2.1.decls.variant hvariant
  · trivial

instance {decl : EnumDecl} : Advances known K fun _ => compileEnum decl := by
  refine .next fun place => .bind inferInstance fun e => .bind inferInstance fun _ => ?_
  refine .bind inferInstance fun _ => .bind inferInstance fun _ => .next fun index => ?_
  infer_instance

/-! ## Headers -/

instance {g : Manifest → Manifest} : Advances known K fun _ => modifyManifest g := by
  unfold modifyManifest
  infer_instance

instance {decl : UseDecl} : Advances known K fun _ => compileHeader decl := by
  unfold compileHeader
  split <;> infer_instance

instance {decl : UseDecl} : Advances known K fun _ => compileUse decl :=
  .look (fun _ _ => rfl) fun _ => inferInstance

instance {tokens : List TypeExpr.Token} :
    Advances known K fun _ => compileTypedef name tokens span := by
  refine .look (fun _ _ => rfl) fun s => ?_
  cases h : TypeExpr.parse s.findType? tokens with
  | error fault =>
    dsimp only
    infer_instance
  | ok ty =>
    have hty : Entails (known.and (.start fun s0 => s.Proper K ∧ s0.Kept s)) (Sound ty) :=
      ⟨fun hs => TypeExpr.wellFormed_parse hs.2.1.wellTyped.knows h⟩
    dsimp only
    infer_instance

/-! ## Loops -/

instance : Advances known K fun _ => openAccumulator position line := by
  cases position <;> unfold openAccumulator <;> infer_instance

instance : Advances known K fun _ => closeAccumulator position line := by
  cases position <;> unfold closeAccumulator <;> infer_instance

instance : Advances known K fun _ => finishIteration position line := by
  cases position <;> unfold finishIteration <;> infer_instance

theorem Advances.inAccumulator (h : Advances (known.and (.fact (Sound ()))).inside K act) :
    Advances known K fun node => inAccumulator position line (act node) :=
  .bind inferInstance fun _ => .bind inferInstance fun _ => inferInstance

instance : Advances known K fun node => compileWhile node condition body position span := by
  simp only [compileWhile_eq]
  refine .inAccumulator (.bind inferInstance fun base => .inLoop fun start => ?_)
  refine .bind inferInstance fun _ => .next fun exit => ?_
  infer_instance

instance : Advances known K fun node => compileDoWhile node body condition position span := by
  simp only [compileDoWhile_eq]
  refine .inAccumulator (.bind inferInstance fun base => .inLoop fun start => ?_)
  refine .bind inferInstance fun _ => .bind inferInstance fun _ => .bind inferInstance fun _ => ?_
  refine .bind inferInstance fun _ => .next fun exit => ?_
  infer_instance

instance {counter last : UInt16} :
    Advances known K fun node => compileStep node step counter last line := by
  cases step <;> unfold compileStep <;> infer_instance

instance {firstTy stepTy : Ty} {first : Span} [Entails known (Sound firstTy)] :
    Advances known K fun _ => rangeVariableType typeExpr firstTy stepTy first span := by
  cases typeExpr <;> unfold rangeVariableType <;> infer_instance

instance {first last : Expr} : Advances known K fun node =>
      compileRangeFor node variableName typeExpr first last step body position span := by
  simp only [compileRangeFor_eq]
  refine .inAccumulator ?_
  refine .bind inferInstance fun firstTy => .bind inferInstance fun counter => ?_
  refine .bind inferInstance fun lastTy => .bind inferInstance fun lastSlot => ?_
  refine .bind inferInstance fun stepTy => .bind inferInstance fun stepSlot => ?_
  refine .bind inferInstance fun _ => .bind inferInstance fun variableTy => ?_
  refine .bind inferInstance fun base => .inLoop fun start => ?_
  refine .bind inferInstance fun _ => .next fun exit => .bind inferInstance fun _ => ?_
  refine .bind inferInstance fun _ => .bind inferInstance fun _ => .bind inferInstance fun _ => ?_
  iterate 5 refine .bind inferInstance fun _ => ?_
  infer_instance

instance {iterable : Ty} [h : Entails known (Sound iterable)] :
    Entails known (Sound (itemType iterable)) where
  of hknown := by
    have hiterable := h.of hknown
    unfold itemType
    split
    · trivial
    · trivial
    · split
      · exact hiterable.1
      · trivial
    · trivial

instance {iterable : Expr} :
    Advances known K fun node => compileForEach node variableName iterable body position span := by
  simp only [compileForEach_eq]
  refine .inAccumulator (.bind inferInstance fun iterableTy => .bind inferInstance fun _ => ?_)
  refine .bind inferInstance fun _ => .bind inferInstance fun base => .inLoop fun start => ?_
  refine .next fun exit => .bind inferInstance fun _ => ?_
  infer_instance

/-! ## Matches -/

instance : Advances known K fun _ => classBinder c span name := by
  refine .look (fun _ _ => rfl) fun s => ?_
  cases h : s.decls.field? c name with
  | none => exact .bind inferInstance fun _ => advances_pure fun _ _ _ => trivial
  | some ty => exact advances_pure fun _ _ hs => hs.2.1.decls.field h

instance : Advances known K fun _ => classBinders c names span := by
  unfold classBinders
  infer_instance

instance {v : Variant} [hv : Entails known (Sound (Ty.variant v))] :
    Advances known K fun _ => variantBinders v names span := by
  have hbinders {known' : Known} [hv : Entails known' (Sound (Ty.variant v))] :
      Advances known' K fun _ => pure (names.zipIdx.map fun x =>
        (⟨x.1, some (v.fieldNames[x.2]?.getD x.1), v.fieldTypes[x.2]?.getD .any⟩ : Binder)) := by
    refine advances_pure fun _ _ h b hb => ?_
    obtain ⟨x, -, rfl⟩ := List.mem_map.mp hb
    have hvariant : v.WellFormed := hv.of h
    exact hvariant.fieldType x.2
  unfold variantBinders
  dsimp only
  split
  · exact .bind inferInstance fun _ => hbinders
  · exact hbinders

instance {target : Ty} [h : Entails known (Sound target)] :
    Advances known K fun _ => destructureBinders target names span := by
  have hnames : Entails known (Sound (names.map fun name =>
      ({ name, member := some name, ty := .any } : Binder))) := by
    refine ⟨fun _ b hb => ?_⟩
    obtain ⟨name, -, rfl⟩ := List.mem_map.mp hb
    trivial
  unfold destructureBinders
  split <;> infer_instance

instance {e : Expr} : Advances known K fun _ => patternBinder? e := by
  unfold patternBinder?
  split
  · refine .next fun m => ?_
    cases m <;> infer_instance
  · infer_instance

/-- A test of which the names have well-formed types, and a jump that is still to be aimed. -/
def Known.tested (test : PatternTest) : Known := (Known.fact (Sound test)).and (.jumps test.failed.toList)

theorem yields_pattern {pattern : Pattern} {subject : Ty} [hsubject : Entails known (Sound subject)] :
    Yields known K .tested fun node => compilePattern node pattern slot subject span := by
  cases pattern with
  | wildcard =>
    refine .pure fun _ _ _ => ⟨fun _ hb => absurd hb List.not_mem_nil, fun _ ho => ?_⟩
    exact absurd ho List.not_mem_nil
  | value e =>
    refine Yields.bind Advances.yields fun name => ?_
    cases name with
    | some name =>
      refine .pure fun _ _ h => ⟨fun b hb => ?_, fun _ ho => absurd ho List.not_mem_nil⟩
      cases List.mem_singleton.mp hb
      exact hsubject.of h.1
    | none =>
      refine Yields.bind Advances.yields fun _ => Yields.bind Advances.yields fun _ =>
        Yields.bind Advances.yields fun _ => Yields.bind Learns.yields fun failed =>
        Yields.bind Advances.yields fun _ => .pure fun _ _ h => ⟨fun _ hb => ?_, h.1.2⟩
      exact absurd hb List.not_mem_nil
  | destructure target names =>
    exact Yields.bind Advances.yields fun _ => Yields.bind Advances.yields fun _ =>
      Yields.bind Advances.yields fun _ => Yields.bind Learns.yields fun failed =>
      Yields.bind Advances.yields fun _ => Yields.bind Advances.yields fun binders =>
      .pure fun _ _ h => ⟨h.2, h.1.1.2⟩

instance {b : Binder} [h : Entails known (Sound b)] :
    Advances known K fun _ => declareBinder slot span b := by
  have hty : Entails known (Sound b.ty) := ⟨h.of⟩
  unfold declareBinder
  cases b.member <;> infer_instance

theorem yields_guard {guard : Option Expr} :
    Yields known K (fun failed => .jumps failed.toList) fun node => compileGuard node guard := by
  cases guard with
  | none => exact .pure fun _ _ _ _ ho => absurd ho List.not_mem_nil
  | some e =>
    exact Yields.bind Advances.yields fun _ => Yields.bind Learns.yields fun failed =>
      Yields.bind Advances.yields fun _ => .pure fun _ _ h => h.1.2

/-- What an arm has found out when its block is closed. -/
def Known.matched (r : PatternTest × Option Nat × Ty) : Known :=
  ((Known.fact (Sound r.2.2)).and (.jumps r.1.failed.toList)).and (.jumps r.2.1.toList)

theorem yields_matched {subject : Ty} {arm : Arm} [Entails known (Sound subject)] :
    Yields known K .matched fun node => compileMatched node slot subject arm := by
  refine yields_pattern.bind fun test => ?_
  have hbinders : Advances (known.and (.tested test)) K fun _ =>
      test.binders.forM (declareBinder slot arm.span) := by
    refine .forM fun b => ?_
    have hb : Entails ((known.and (.tested test)).and (.fact (b ∈ test.binders))) (Sound b) :=
      ⟨fun hknown => hknown.1.2.1 b hknown.2⟩
    infer_instance
  exact hbinders.yields.bind fun _ => yields_guard.bind fun failed =>
    Yields.bind Advances.yields fun ty => .pure fun _ _ h => ⟨⟨h.2, h.1.1.1.2.2⟩, h.1.2⟩

/-- The jumps of the pattern and the guard are aimed behind the arm. -/
theorem advances_fallThrough {count : Nat} {guardFailed failed : Option Nat}
    [hguard : Implies known (.jumps guardFailed.toList)] [hfailed : Implies known (.jumps failed.toList)] :
    Advances known K fun _ => fallThrough base count guardFailed failed span := by
  cases guardFailed with
  | none =>
    cases failed with
    | none => exact inferInstanceAs (Advances known K fun _ => setHeight base)
    | some jump =>
      have hjump : Implies known (.jumps [jump]) := hfailed
      simp only [fallThrough, pure_bind]
      infer_instance
  | some toNext =>
    have hnext : Implies known (.jumps [toNext]) := hguard
    cases failed with
    | none =>
      simp only [fallThrough, pure_bind]
      infer_instance
    | some jump =>
      have hjump : Implies known (.jumps [jump]) := hfailed
      simp only [fallThrough, map_eq_pure_bind, bind_assoc, pure_bind]
      refine .bind inferInstance fun _ => .bind inferInstance fun _ => .bind inferInstance fun _ => ?_
      refine .next fun skip => .bind inferInstance fun _ => .bind inferInstance fun _ => ?_
      infer_instance

theorem yields_arm {subject : Ty} {arm : Arm} [Entails known (Sound subject)] :
    Yields (known.and (.meet join)) K .meet fun node => compileArm node slot subject base join arm := by
  simp only [compileArm_eq]
  have hmatched : Yields (known.and (.meet join)) K .matched fun node =>
      inScope true arm.span.line (compileMatched node slot subject arm) := by
    refine yields_matched.inScope fun r s0 s1 s hle h => ⟨⟨h.1.1, fun o ho => ?_⟩, fun o ho => ?_⟩
    · exact Nat.le_trans hle (h.1.2 o ho)
    · exact Nat.le_trans hle (h.2 o ho)
  refine hmatched.bind fun r => Yields.bind Learns.yields fun done => ?_
  have hfailed : Implies (.matched r) (.jumps r.1.failed.toList) := ⟨fun h => h.1.2⟩
  have hguard : Implies (.matched r) (.jumps r.2.1.toList) := ⟨And.right⟩
  refine Yields.bind advances_fallThrough.yields fun _ => .pure fun s0 s h => ?_
  exact Known.meet_add h.1.1.1.2 h.1.1.2.1.1 (h.1.2 done (.head _))

instance : Advances known K fun node => compileMatchBody node subject arms otherwise span := by
  refine .bind inferInstance fun subjectTy => .bind inferInstance fun slot => ?_
  have harms {known' : Known} {base : Nat} [Entails known' (Sound subjectTy)] : Learns known' K
      (fun node => arms.foldlM (fun join a => compileArm node slot subjectTy base join a) {}) .meet :=
    Yields.branches fun _ _ => yields_arm
  infer_instance

instance : Advances known K fun node => compileMatch node subject arms otherwise span := by
  unfold compileMatch
  infer_instance

/-! ## Nodes and programs -/

instance [h : Advances known K act] : Advances known K fun node => leaveNothing (act node) :=
  h.bind fun _ => inferInstance

instance {left : Left} [h : Entails known (Sound left)] :
    Advances known K fun _ => settle left position line := by
  cases left with
  | value ty | nothing ty | asWanted ty =>
    have hty : Entails known (Sound ty) := ⟨h.of⟩
    cases position <;> unfold settle <;> infer_instance

instance {k : Constant} [Same k.isLiteral true] [Entails known (Sound ty)] :
    Advances known K fun _ => compileLiteral k ty span := by
  unfold compileLiteral
  infer_instance

instance {i : Instr} [Same i.isPlain true]
    [Implies known (.denotes K i.operand?)] [Entails known (Sound ty)] :
    Advances known K fun _ => compileFixed i ty line := by
  unfold compileFixed
  infer_instance

instance : Entails known (Sound Ty.float) := ⟨fun _ => trivial⟩

instance : Entails known (Sound Ty.bool) := ⟨fun _ => trivial⟩

/-- Whether a node may declare the global or drop the macro that it does. -/
structure Setting.Allows (K : Setting) (kind : ExprKind) (s : State) : Prop where
  declares : ∀ name typeExpr value isConst, kind = .letDecl name typeExpr value isConst →
    K.Declares name isConst s
  drops : ∀ target name, kind = .drop target → target.kind = .var name → K.droppable name

/-- One case for each kind of node. The setting has to allow what the node does. -/
theorem advances_kind {kind : ExprKind} [h : Implies known (.start (K.Allows kind))] :
    Advances known K fun node => compileKind node kind position span := by
  -- only a declaration and a drop need something of the setting
  cases kind with
  | letDecl name typeExpr value isConst =>
    have hdeclares : Implies known (.start (K.Declares name isConst)) := by
      refine ⟨fun hknown => ?_⟩
      have hallowed := h.of hknown
      exact hallowed.declares name typeExpr value isConst rfl
    unfold compileKind
    infer_instance
  | drop target =>
    have hdrop : Advances known K fun node => compileDrop node target span := by
      refine advances_drop fun name hname => ⟨fun hknown => ?_⟩
      have hallowed := h.of hknown
      exact hallowed.drops target name rfl hname
    unfold compileKind
    infer_instance
  | _ =>
    unfold compileKind
    infer_instance

end Strand.Codegen
