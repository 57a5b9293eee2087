import Strand.Codegen.Header
import Strand.Proofs.Moves

/-!
# Small parts make moves

The parts of the code generator that ask for no nodes: code, constants, scopes, names and
units. A name that is captured is resolved to an index that leads to where the name lives,
and stays so while more code is laid down; this is the reason for the instruction that
uses the index.
-/

namespace Strand.Codegen

open Typed (Sound)

variable {α β γ : Type} {K : Setting} {known : Known} {f g h : Frame} {outer : List Frame}
  {s s' : State} {name text : String} {span : Span} {ty : Ty} {i : Instr} {c : Capture}
  {isConst : Bool} {offset : Nat} {d : EnumDescriptor} {directive : Directive} {slot : UInt16}
  {u : Loop → Loop} {kind : UInt32 → Instr} {texts names : List String} {p : α → Prop}
  {act : NodeCompiler → Build α}

variable {line : UInt64} {k : Constant} {carry : Bool} {place : Place}

/-! ## Frames -/

/-- A change to the current frame that is made of moves, keeps what was there and leaves
everything in order. -/
structure Frame.Change (K : Setting) (outer : List Frame) (f g : Frame) : Prop where
  moves : K.clean → Moved K (f :: outer) (g :: outer)
  kept : f.Kept g
  macros : f.Macros K.droppable g
  typed : g.WellTyped
  admitted : ∀ e ∈ g.globals.entries, K.Admits e
  pool : K.clean → g.chunk.constants.size ≤ Chunk.poolLimit

theorem Frame.Change.proper (h : f.Change K outer g) (hf : f.Proper K) : g.Proper K :=
  ⟨h.typed, h.admitted, h.kept.settled hf.settled, h.macros.settled hf.macros, h.pool⟩

theorem Frame.Change.refl (hf : f.Proper K) : f.Change K outer f :=
  ⟨fun _ => .refl, .refl f, .same rfl rfl, hf.toWellTyped, hf.admitted, hf.pool⟩

theorem Frame.Change.trans (hfg : f.Change K outer g) (hgh : g.Change K outer h) :
    f.Change K outer h :=
  ⟨fun hc => (hfg.moves hc).trans (hgh.moves hc), hfg.kept.trans hgh.kept, hfg.macros.trans hgh.macros,
    hgh.typed, hgh.admitted, hgh.pool⟩

theorem State.Kept.withFrame (h : s.frame.Kept f) : s.Kept (s.withFrame f) :=
  ⟨h, allSuspended_refl _, rfl, rfl⟩

theorem State.Held.withFrame (h : s.frame.Kept f) (hmacros : s.frame.Macros K.droppable f) :
    s.Held K (s.withFrame f) :=
  ⟨.withFrame h, .same hmacros rfl⟩

theorem Frame.Change.progress (hs : s.Proper K) (h : s.frame.Change K s.outer f) :
    Progress K s (s.withFrame f) :=
  ⟨h.moves, hs.withFrame (h.proper hs.frame)⟩

theorem advances_modifyFrame {g : Frame → Frame} (h : ∀ s0 s, known.Holds s0 s →
    s.frame.Proper K → s.frame.Change K s.outer (g s.frame)) :
    Advances known K fun _ => modifyFrame g :=
  ⟨.step fun s0 s hknown _ hs _ => by
    have hchange := h s0 s hknown hs.frame
    exact ⟨hchange.progress hs, trivial, .withFrame hchange.kept hchange.macros⟩⟩

theorem moves_alike (h : f.Alike g) : Moved K (f :: outer) (g :: outer) :=
  .single (.quiet (.cons h (allAlike_refl outer)))

/-- What a frame is made of apart from the height of the stack and what the module declares. -/
@[reducible] def Frame.outline (f : Frame) : Frame := { f with manifest := {}, height := 0 }

theorem Frame.Change.ofOutline (hf : f.Proper K) (h : g.outline = f.outline) : f.Change K outer g := by
  obtain ⟨manifest, height, rfl⟩ : ∃ manifest height, g = { f with manifest, height } :=
    ⟨g.manifest, g.height,
      congrArg (fun x : Frame => { x with manifest := g.manifest, height := g.height }) h⟩
  exact
    { moves := fun _ => moves_alike ⟨rfl, rfl, rfl⟩
      kept := (Frame.Kept.refl f).of_core rfl
      macros := .same rfl rfl
      typed := ⟨hf.locals, hf.globals, hf.types, hf.returnType⟩
      admitted := hf.admitted
      pool := hf.pool }

/-- A change that concerns neither names nor the unit. -/
instance {g : Frame → Frame} [h : ∀ f : Frame, Same (g f).outline f.outline] :
    Advances known K fun _ => modifyFrame g :=
  advances_modifyFrame fun _ s _ hf => .ofOutline hf (h s.frame).eq

theorem advances_modifyDecls {g : Declarations → Declarations}
    (h : ∀ s0 s, known.Holds s0 s → s.decls.WellFormed → (g s.decls).WellFormed) :
    Advances known K fun _ => modifyDecls g :=
  ⟨.step fun s0 s hknown _ hs _ => ⟨⟨fun _ => .refl, ⟨hs.frames, h s0 s hknown hs.decls, hs.entered⟩⟩,
    trivial, .same rfl rfl rfl⟩⟩

instance {cause : Cause} [Same cause.isNesting false] :
    Advances known K fun _ => report cause span :=
  ⟨.step fun _ s _ _ hs _ => ⟨.refl hs, trivial, .refl s⟩⟩

instance {found expected : Ty} : Advances known K fun _ => checkAssignable found expected span := by
  unfold checkAssignable
  infer_instance

instance : Advances known K fun _ => height := by
  unfold height
  infer_instance

instance : Advances known K fun _ => here := by
  unfold here
  infer_instance

instance {n : Nat} : Advances known K fun _ => setHeight n := by
  unfold setHeight
  infer_instance

/-! ## Code -/

theorem Frame.Change.emit (hf : f.Proper K)
    (hmove : K.clean → Move K (f :: outer) (f.emit i line :: outer)) :
    f.Change K outer (f.emit i line) where
  moves hc := .single (hmove hc)
  kept := (Frame.Kept.refl f).emit i line
  macros := .same rfl rfl
  typed := ⟨hf.locals, hf.globals, hf.types, hf.returnType⟩
  admitted := hf.admitted
  pool := hf.pool

instance : Implies known (.denotes K none) := ⟨fun _ _ _ hx => by cases hx⟩

instance {c : Prop} [Decidable c] {j : Instr} [Implies known (.denotes K i.operand?)]
    [Implies known (.denotes K j.operand?)] :
    Implies known (.denotes K (if c then i else j).operand?) := by
  split <;> infer_instance

instance {o : Option Operand} [h : Implies known (.denotes K o)] :
    Implies known.inside (.denotes K o) where
  of hknown := by
    obtain ⟨_, hknown⟩ := hknown
    have ho := h.of hknown
    exact ho

instance [hi : Same i.isPlain true]
    [ho : Implies known (.denotes K i.operand?)] : Advances known K fun _ => emit i line :=
  advances_modifyFrame fun _ _ hknown hf => .emit hf fun hc => .emit hi.eq (ho.of hknown hc)

instance {c : Prop} [Decidable c] {j : Instr} [Same i.isPlain true] [Same j.isPlain true] :
    Same (if c then i else j).isPlain true := by
  split <;> infer_instance

theorem Frame.Change.emitTimes (hi : i.isPlain = true)
    (ho : i.operand? = none) : ∀ (n : Nat) {f : Frame}, f.Proper K →
      f.Change K outer (f.emitTimes i line n)
  | 0, _, hf => .refl hf
  | n + 1, f, hf => by
    have hfirst : f.Change K outer (f.emit i line) :=
      .emit hf fun _ => .emit hi fun o h => by rw [ho] at h; cases h
    exact hfirst.trans (emitTimes hi ho n (hfirst.proper hf))

instance {n : Frame → Nat} [hi : Same i.isPlain true] [ho : Same i.operand? none] :
    Advances known K fun _ => modifyFrame fun f => f.emitTimes i line (n f) :=
  advances_modifyFrame fun _ _ _ hf => .emitTimes hi.eq ho.eq _ hf

instance : Steady (emitJump kind line) :=
  { unchecked _ := rfl, marks _ := rfl, silent _ := rfl }

/-- Where a jump is laid down there was no code before. -/
instance [hi : ∀ n, Same (kind n).isPlain true] [ho : ∀ n, Same (kind n).operand? none] :
    Learns known K (fun _ => emitJump kind line) fun o => .jumps [o] :=
  ⟨.step fun s0 s _ hkept hs _ => by
    have hemit : s.frame.Change K s.outer (s.frame.emit (kind Instr.unpatched) line) :=
      .emit hs.frame fun _ => .emit (hi _).eq fun o h => by rw [(ho _).eq] at h; cases h
    refine ⟨hemit.progress hs, fun o h => ?_, .withFrame hemit.kept hemit.macros⟩
    rw [List.mem_singleton.mp h]
    exact hkept.frame.size_le⟩

theorem advances_aim [h : Implies known (.jumps [offset])] :
    Advances known K fun _ => modifyFrame fun f => { f with chunk := f.chunk.aimJump offset } :=
  ⟨.plain fun s0 s hknown hkept hs _ => by
    have hbehind := h.of hknown offset (.head _)
    refine ⟨⟨fun _ => .single .aim, hs.withFrame ?_⟩, trivial,
      ⟨⟨hkept.frame.aim hbehind, hkept.outer, hkept.nesting, hkept.typeCheck⟩,
        hkept.macros.trans (.same (.same rfl rfl) rfl)⟩, ?_⟩
    · exact { hs.frame with pool := hs.frame.pool }
    · exact ⟨List.prefix_rfl, List.prefix_rfl, allSuspended_refl _⟩⟩

instance [Implies known (.jumps [offset])] : Advances known K fun _ => patchJump offset span := by
  refine .look (fun _ _ => rfl) fun s => ?_
  cases s.frame.chunk.patchFault? offset with
  | none => exact advances_aim
  | some fault =>
    dsimp only
    infer_instance

instance {offsets : List Nat} [h : Implies known (.jumps offsets)] :
    Advances known K fun _ => patchJumps offsets span := by
  refine .forM fun o => ?_
  have ho : Implies (known.and (.fact (o ∈ offsets))) (.jumps [o]) := by
    refine ⟨fun hknown o' ho' => ?_⟩
    rw [List.mem_singleton.mp ho']
    exact h.of hknown.1 o hknown.2
  infer_instance

instance {start : Nat} : Advances known K fun _ => emitLoop start span := by
  unfold emitLoop
  infer_instance

/-! ## The pool -/

theorem addConstant_of_some {i : UInt16}
    (h : (s.frame.chunk.addConstant k).1 = some i) : addConstant k span s =
      ⟨(i, s.withFrame (s.frame.withChunk (s.frame.chunk.addConstant k).2)), []⟩ := by
  simp only [addConstant, bind, StateT.bind, modifyGet, MonadStateOf.modifyGet, StateT.modifyGet,
    pure, h]
  rfl

theorem addConstant_of_none (h : (s.frame.chunk.addConstant k).1 = none) : addConstant k span s =
      ⟨(0, s.withFrame (s.frame.withChunk (s.frame.chunk.addConstant k).2)),
        [⟨.tooManyConstants, span⟩]⟩ := by
  simp only [addConstant, bind, StateT.bind, modifyGet, MonadStateOf.modifyGet, StateT.modifyGet,
    pure, h, report, Cause.kind]
  rw [if_pos (by simp)]
  rfl

theorem state_addConstant (s : State) (k : Constant) (span : Span) :
    (addConstant k span s).answer.2 =
      s.withFrame (s.frame.withChunk (s.frame.chunk.addConstant k).2) := by
  cases h : (s.frame.chunk.addConstant k).1 with
  | some i => rw [addConstant_of_some h]
  | none => rw [addConstant_of_none h]

/-- If nothing is reported there was room. -/
theorem index_addConstant (hreports : (addConstant k span s).reports = []) :
    (s.frame.chunk.addConstant k).1 = some (addConstant k span s).answer.1 := by
  cases h : (s.frame.chunk.addConstant k).1 with
  | some i => rw [addConstant_of_some h]
  | none =>
    rw [addConstant_of_none h] at hreports
    cases hreports

theorem Frame.Proper.addConstant (hf : f.Proper K) (k : Constant) :
    (f.withChunk (f.chunk.addConstant k).2).Proper K :=
  ⟨⟨hf.locals, hf.globals, hf.types, hf.returnType⟩, hf.admitted, hf.settled, hf.macros,
    fun hc => (f.chunk.adds_addConstant k).size_le (hf.pool hc)⟩

/-- A constant that is no unit, and where to find it. -/
theorem learns_addConstant (hk : isUnit k = false) :
    Learns known K (fun _ => addConstant k span) fun i => .pooled K i k :=
  ⟨.step fun s0 s _ _ hs hclean => by
    rw [state_addConstant]
    refine ⟨⟨fun _ => .single (.pool hk), hs.withFrame (hs.frame.addConstant k)⟩, fun hc => ?_,
      .withFrame ((Frame.Kept.refl s.frame).addConstant k) (.same rfl rfl)⟩
    exact (Chunk.addConstant_holds (hs.frame.pool hc) (index_addConstant (hclean hc))).found⟩

instance : Learns known K (fun _ => nameConstant name span) fun i =>
    .pooled K i (.str name) := learns_addConstant rfl

instance :
    Learns known K (fun _ => addConstant (.enumType d) span) fun i => .pooled K i (.enumType d) :=
  learns_addConstant rfl

instance {d : ClassDescriptor} :
    Learns known K (fun _ => addConstant (.classType d) span) fun i => .pooled K i (.classType d) :=
  learns_addConstant rfl

section

variable {i : UInt16}

instance : Implies (.pooled K i (.str text)) (.denotes K (some (.name i))) where
  of h hc x hx := by
    cases hx
    exact ⟨text, h hc⟩

instance : Implies (.pooled K i (.names texts)) (.denotes K (some (.names i))) where
  of h hc x hx := by
    cases hx
    exact ⟨texts, h hc⟩

instance : Implies (.pooled K i (.enumType d)) (.denotes K (some (.enumType i))) where
  of h hc x hx := by
    cases hx
    exact ⟨d, h hc⟩

instance [hk : Same k.isLiteral true] : Implies (.pooled K i k) (.denotes K (some (.literal i))) where
  of h hc x hx := by
    cases hx
    exact ⟨k, h hc, hk.eq⟩

instance {d : ClassDescriptor} {n : UInt16} :
    Implies ((known.and (.pooled K i (.classType d))).and (.fact (K.clean → n.toNat = d.stackInputs)))
      (.denotes K (some (.classType i n))) where
  of h hc x hx := by
    cases hx
    exact ⟨d, h.1.2 hc, (h.2 hc).symm⟩

end

instance [hk : Same k.isLiteral true] : Advances known K fun _ => emitConstant k span := by
  have hdata : isUnit k = false := by
    cases k
    case function u => cases hk.eq
    all_goals rfl
  have hpooled : Learns known K (fun _ => addConstant k span) fun i => .pooled K i k :=
    learns_addConstant hdata
  unfold emitConstant
  infer_instance

/-- The operand says how many, unless they are too many. -/
instance {count : Nat} :
    Learns known K (fun _ => countOperand count span) fun n => .fact (K.clean → n.toNat = count) := by
  unfold countOperand
  split
  · rename_i hlt
    exact ⟨.pure fun _ _ _ _ => UInt16.toNat_ofNat_of_lt' hlt⟩
  · refine ⟨.step fun _ s _ _ hs hclean => ⟨.refl hs, fun hc => ?_, .refl s⟩⟩
    have hreports : (if s.typeCheck || true then [Diagnostic.mk .tooManyLocals span] else []) ++ [] = [] :=
      hclean hc
    rw [Bool.or_true] at hreports
    cases hreports

theorem advances_emitDirective (hk : isUnit k = false)
    (ho : ∀ i, Implies (.pooled K i k) (.denotes K (Instr.directive directive i).operand?)) :
    Advances known K fun _ => emitDirective directive k span := by
  have hpooled : Learns known K (fun _ => addConstant k span) fun i => .pooled K i k :=
    learns_addConstant hk
  unfold emitDirective
  infer_instance

instance
    [ho : ∀ i, Implies (.pooled K i (.str text)) (.denotes K (Instr.directive directive i).operand?)] :
    Advances known K fun _ => emitDirective directive (.str text) span :=
  advances_emitDirective rfl ho

instance : Advances known K fun _ => emitDirective .exports (.names texts) span :=
  advances_emitDirective rfl inferInstance

/-! ## Scopes and declarations -/

theorem State.Proper.opened (hs : s.Proper K) : s.opened.Proper K :=
  hs.withFrame ⟨⟨hs.frame.locals, hs.frame.globals, hs.frame.types, hs.frame.returnType⟩,
    hs.frame.admitted, fun l hl => Nat.le_succ_of_le (hs.frame.settled l hl),
    fun m hm => Nat.le_succ_of_le (hs.frame.macros m hm), hs.frame.pool⟩

instance : Steady openScope := inferInstanceAs (Steady (modifyFrame _))

instance : Steady (closeScope carry line) :=
  inferInstanceAs (Steady (modifyFrame _))

theorem triple_openScope {P : State → Prop} :
    Triple K P (fun _ => openScope) fun s _ s' => s.Proper K ∧ s' = s.opened :=
  .plain fun _ _ hs _ => ⟨⟨fun _ => moves_alike ⟨rfl, rfl, rfl⟩, hs.opened⟩, hs, rfl⟩

/-- Where a block is closed, `s'` being the state before. -/
theorem progress_closeScope (hs : s.Proper K) (hs' : s'.Proper K) (hkept : s.opened.Kept s')
    (carry : Bool) (line : UInt64) :
    Progress K s' (s'.withFrame (s'.frame.closeScope carry line)) := by
  have hplain : (if carry then Instr.popUnder else .pop).isPlain = true := by cases carry <;> rfl
  have hnone : (if carry then Instr.popUnder else .pop).operand? = none := by cases carry <;> rfl
  obtain ⟨hmoves, -, -, htyped, hadmitted, hpool⟩ : s'.frame.Change K s'.outer
      (s'.frame.emitTimes (if carry then .popUnder else .pop) line
        (s'.frame.locals.takeWhile fun l => decide (s'.frame.depth - 1 < l.depth)).length) :=
    .emitTimes hplain hnone _ hs'.frame
  refine ⟨fun hc => (hmoves hc).trans (moves_alike ⟨rfl, rfl, rfl⟩), hs'.withFrame ⟨⟨fun l hl => ?_,
    htyped.globals, htyped.types, htyped.returnType⟩, hadmitted, ?_, fun m hm => ?_, hpool⟩⟩
  · exact htyped.locals l (List.mem_of_mem_drop hl)
  · exact (hkept.closed hs.frame.settled carry line).frame.settled hs.frame.settled
  · exact of_decide_eq_true (List.mem_filter.mp hm).2

theorem State.Held.closed (h : s.opened.Held K s') (hf : s.frame.Proper K) (carry : Bool) (line : UInt64) :
    s.Held K (s'.withFrame (s'.frame.closeScope carry line)) :=
  have hkept := h.toKept.closed hf.settled carry line
  ⟨hkept, .of_chain hkept.frame.depth (h.macros.closed hf.macros carry line)⟩

/-- A part in a block of its own. What it finds out must not be about code of the block. -/
theorem Yields.inScope {found : α → Known} (h : Yields known.inside K found act)
    (hwide : ∀ a s0 s1 s, s0.frame.chunk.size ≤ s1.frame.chunk.size →
      (found a).Holds s1 s → (found a).Holds s0 s) :
    Yields known K found fun node => inScope carry line (act node) := by
  intro s0
  refine triple_openScope.bind fun s _ => ?_
  refine (h.fresh fun s' hs' => ?_).bind fun s' a => ?_
  · obtain ⟨⟨hknown, -⟩, -, rfl⟩ := hs'
    exact ⟨s0, known.mono hknown ⟨List.prefix_rfl, List.prefix_rfl, allSuspended_refl _⟩⟩
  · refine .plain fun s'' hp hs'' _ => ?_
    obtain ⟨⟨⟨-, hkept⟩, hs, rfl⟩, hfound, hinside⟩ := hp
    have hclosed := hinside.closed hs.frame carry line
    refine ⟨progress_closeScope hs hs'' hinside.toKept carry line, ?_, hkept.trans hclosed, hclosed.grown⟩
    have hpopped := (Frame.Kept.refl s''.frame).emitTimes (if carry then .popUnder else .pop) line
      (s''.frame.locals.takeWhile fun l => decide (s''.frame.depth - 1 < l.depth)).length
    exact (found a).mono (hwide a s0 s.opened s'' hkept.frame.size_le hfound)
      ⟨hpopped.pool, hpopped.captures, allSuspended_refl _⟩

instance [Typed α] [h : Advances known.inside K act] :
    Advances known K fun node => inScope carry line (act node) :=
  ⟨h.yields.inScope fun _ _ _ _ _ hfound => hfound⟩

instance : Advances known K fun _ => topSlot span := by
  unfold topSlot
  infer_instance

/-- A change to names and types only. -/
theorem Frame.Change.quiet (hf : f.Proper K) (halike : f.Alike g) (hkept : f.Kept g)
    (hmacros : f.Macros K.droppable g) (htyped : g.WellTyped)
    (hadmitted : ∀ e ∈ g.globals.entries, K.Admits e) : f.Change K outer g :=
  ⟨fun _ => moves_alike halike, hkept, hmacros, htyped, hadmitted, halike.chunk ▸ hf.pool⟩

instance [hty : Entails known (Sound ty)] : Advances known K fun _ => modifyFrame fun f =>
      { f with locals := { name, ty, depth := f.depth, slot, isConst } :: f.locals } :=
  advances_modifyFrame fun _ s hknown hf => .quiet hf ⟨rfl, rfl, rfl⟩
    ((Frame.Kept.refl s.frame).declare rfl) (.same rfl rfl)
    ⟨List.forall_mem_cons.mpr ⟨hty.of hknown, hf.locals⟩, hf.globals, hf.types, hf.returnType⟩
    hf.admitted

instance [Entails known (Sound ty)] :
    Advances known K fun _ => declareLocal name ty isConst span := by
  unfold declareLocal
  infer_instance

theorem advances_defineGlobal (hty : ∀ s0 s, known.Holds s0 s → ty.WellFormed)
    (hassignable : ∀ s0 s, known.Holds s0 s → isConst = false → K.assignable name) :
    Advances known K fun _ => defineGlobal name ty isConst :=
  advances_modifyFrame fun s0 s hknown hf => .quiet hf ⟨rfl, rfl, rfl⟩
    ((Frame.Kept.refl s.frame).of_core rfl) (.same rfl rfl)
    { hf.toWellTyped with globals := Table.forall_insert hf.globals (hty s0 s hknown) }
    (Table.forall_insert hf.admitted (hassignable s0 s hknown))

instance [hty : Entails known (Sound ty)] : Advances known K fun _ => defineGlobal name ty true :=
  advances_defineGlobal (fun _ _ => hty.of) fun _ _ _ h => by cases h

/-- What the instructions that use a place refer to. -/
@[reducible] def Place.operand? : Place → Option Operand
  | .global i => some (.name i)
  | .onStack _ => none

instance [Entails known (Sound ty)] :
    Learns known K (fun _ => reservePlace name ty true span) fun place => .denotes K place.operand? := by
  refine ⟨.look (fun _ _ => rfl) fun s => ?_⟩
  split
  · refine Yields.bind Advances.yields fun _ => Yields.bind Learns.yields fun i => .pure fun s0 s h => ?_
    have hname : Implies (.pooled K i (.str name)) (.denotes K (some (.name i))) := inferInstance
    exact hname.of h.2
  · refine Yields.bind Advances.yields fun _ => Yields.bind Advances.yields fun _ => .pure fun _ _ _ => ?_
    exact fun _ _ hx => by cases hx

instance [h : Implies known (.denotes K place.operand?)] :
    Advances known K fun _ => place.store line := by
  cases place <;> unfold Place.store <;> infer_instance

instance [h : Implies known (.denotes K place.operand?)] : Advances known K fun _ => place.load line := by
  cases place <;> unfold Place.load <;> infer_instance

theorem forall_updateFirst {P : Local → Prop} {p : Local → Bool} {u : Local → Local}
    (hu : ∀ l, P l → P (u l)) : ∀ {ls : List Local}, (∀ l ∈ ls, P l) →
      ∀ l ∈ Frame.updateFirst p u ls, P l
  | [], _ => fun _ hl => absurd hl List.not_mem_nil
  | l :: rest, h => by
    obtain ⟨hl, hrest⟩ := List.forall_mem_cons.mp h
    unfold Frame.updateFirst
    split
    · exact List.forall_mem_cons.mpr ⟨hu l hl, hrest⟩
    · exact List.forall_mem_cons.mpr ⟨hl, forall_updateFirst hu hrest⟩

instance [hty : Entails known (Sound ty)] : Advances known K fun _ => place.retype name ty := by
  cases place with
  | global i =>
    exact advances_modifyFrame fun _ s hknown hf => .quiet hf ⟨rfl, rfl, rfl⟩
      ((Frame.Kept.refl s.frame).of_core rfl) (.same rfl rfl)
      { hf.toWellTyped with globals := Table.forall_modify hf.globals fun _ _ => hty.of hknown }
      (Table.forall_modify hf.admitted fun _ h => h)
  | onStack slot =>
    exact advances_modifyFrame fun _ s hknown hf => .quiet hf ⟨rfl, rfl, rfl⟩
      ((Frame.Kept.refl s.frame).updateFirst fun _ => ⟨rfl, rfl, rfl, rfl⟩) (.same rfl rfl)
      { hf.toWellTyped with locals := forall_updateFirst (fun _ _ => hty.of hknown) hf.locals }
      hf.admitted

instance : Advances known K fun _ => modifyFrame fun f => f.dropSlot slot := by
  refine advances_modifyFrame fun _ s _ hf => .quiet hf ⟨rfl, rfl, rfl⟩
    ((Frame.Kept.refl s.frame).updateFirst fun _ => ⟨rfl, rfl, rfl, rfl⟩) (.same rfl rfl)
    { hf.toWellTyped with locals := ?_ } hf.admitted
  refine forall_updateFirst (fun _ h => ?_) hf.locals
  exact h

instance : Advances known K fun _ => modifyFrame fun f =>
    { f with globals := f.globals.erase name } :=
  advances_modifyFrame fun _ s _ hf => .quiet hf ⟨rfl, rfl, rfl⟩
    ((Frame.Kept.refl s.frame).of_core rfl) (.same rfl rfl)
    { hf.toWellTyped with globals := Table.forall_erase hf.globals } (Table.forall_erase hf.admitted)

instance [hty : Entails known (Sound ty)] :
    Advances known K fun _ => modifyFrame fun f => { f with types := f.types.define name ty } :=
  advances_modifyFrame fun _ s hknown hf => .quiet hf ⟨rfl, rfl, rfl⟩
    ((Frame.Kept.refl s.frame).of_core rfl) (.same rfl rfl)
    { hf.toWellTyped with types := List.forall_mem_cons.mpr ⟨hty.of hknown, hf.types⟩ } hf.admitted

instance {value : Expr} : Advances known K fun _ => declareInline name value :=
  advances_modifyFrame fun _ s _ hf => .quiet hf ⟨rfl, rfl, rfl⟩
    ((Frame.Kept.refl s.frame).of_core rfl)
    ⟨rfl, [_], _, rfl, List.forall_mem_singleton.mpr rfl, .none _⟩ { hf.toWellTyped with } hf.admitted

/-! ## Names -/

/-- The capture leads to where the name lives, and if it may be assigned to so may the
global that it leads to. -/
structure Resolves (K : Setting) (name : String) (c : Capture) (s : State) (home : Home) : Prop where
  lives : home? name s.outer = some home
  leads : LeadsHome (capturesOf s.chain) c.index home
  lt : c.index.toNat < s.frame.captures.sources.size
  assignable : c.isConst = false → ∀ n, home.source = .global n → K.assignable n

theorem State.Grown.moreCaptures (h : s.Grown s') :
    List.Forall₂ List.IsPrefix (capturesOf s.chain) (capturesOf s'.chain) :=
  List.forall₂_map_left_iff.mpr (List.forall₂_map_right_iff.mpr
    (.cons h.captures (h.outer.imp fun _ _ hfg => hfg.captures)))

/-- It still does after more code was laid down. -/
theorem Resolves.grown {home : Home} (h : Resolves K name c s home)
    (hgrown : s.Grown s') : Resolves K name c s' home :=
  ⟨(home?_suspended hgrown.outer).trans h.lives, h.leads.of_longer hgrown.moreCaptures,
    Nat.lt_of_lt_of_le h.lt hgrown.captures.length_le, h.assignable⟩

/-- What is known about what a name means. -/
def Denoted (K : Setting) (name : String) (m : Option Meaning) (s : State) : Prop :=
  match m with
  | some (.slot _ ty _) => ty.WellFormed
  | some (.captured c) => (∃ home, Resolves K name c s home) ∧ c.ty.WellFormed
  | some (.global ty isConst) => ty.WellFormed ∧ (isConst = false → K.assignable name)
  | some (.ofReceiver ty) => ty.WellFormed
  | _ => True

theorem Denoted.grown {m : Option Meaning} (h : Denoted K name m s) (hgrown : s.Grown s') :
    Denoted K name m s' := by
  rcases m with _ | m
  · trivial
  · cases m with
    | captured c => exact ⟨h.1.imp fun _ h => h.grown hgrown, h.2⟩
    | _ => exact h

/-- The name means this. -/
def Known.meaning (K : Setting) (name : String) (m : Option Meaning) : Known :=
  ⟨fun _ s => Denoted K name m s, fun h hgrown => h.grown hgrown⟩

/-- The capture is one of a name. -/
def Known.leads (K : Setting) (c : Capture) : Known where
  Holds _ s := ∃ name home, Resolves K name c s home
  mono h hgrown := h.imp fun _ h => h.imp fun _ h => h.grown hgrown

section

variable {c : Capture} {slot : UInt16} {ty : Ty} {isConst : Bool}

instance : Entails (.meaning K name (some (.slot slot ty isConst))) (Sound ty) := ⟨id⟩

instance : Entails (.meaning K name (some (.captured c))) (Sound c.ty) := ⟨And.right⟩

instance : Entails (.meaning K name (some (.global ty isConst))) (Sound ty) := ⟨And.left⟩

instance : Entails (.meaning K name (some (.ofReceiver ty))) (Sound ty) := ⟨id⟩

instance : Implies (.meaning K name (some (.captured c))) (.leads K c) := ⟨fun h => ⟨name, h.1⟩⟩

end

/-- An instruction about a captured variable. -/
theorem advances_access (kind : Access) [hc : Implies known (.leads K c)]
    (hconst : ∀ s0 s, known.Holds s0 s → K.clean → kind = .assign → c.isConst = false) :
    Advances known K fun _ => emit (kind.instr c.index) line :=
  advances_modifyFrame fun s0 s hknown hf => .emit hf fun hclean => by
    obtain ⟨name, home, h⟩ := hc.of hknown
    exact .access h.lives h.lt h.leads fun hkind => h.assignable (hconst s0 s hknown hclean hkind)

instance [Implies known (.leads K c)] : Advances known K fun _ => emit (.getUpvalue c.index) line :=
  advances_access .read fun _ _ _ _ h => by cases h

instance [Implies known (.leads K c)] :
    Advances known K fun _ => emit (.dropUpvalue c.index) line :=
  advances_access .drop fun _ _ _ _ h => by cases h

instance [Implies known (.leads K c)] [h : Entails known (K.clean → c.isConst = false)] :
    Advances known K fun _ => emit (.setUpvalue c.index) line :=
  advances_access .assign fun _ _ hknown hclean _ => h.of hknown hclean

/-- A global that may be assigned to. -/
instance {i : UInt16} [h : Entails known (K.clean → K.assignable name)] :
    Advances (known.and (.pooled K i (.str name))) K fun _ => emit (.setGlobal i) line :=
  advances_modifyFrame fun _ _ hknown hf => .emit hf fun hclean =>
    .assign (hknown.2 hclean) (h.of hknown.1 hclean)

theorem Frame.Proper.suspended (hf : f.Proper K) (h : f.Suspended g) : g.Proper K := by
  rw [h.rest]
  exact ⟨⟨hf.locals, hf.globals, hf.types, hf.returnType⟩, hf.admitted, hf.settled,
    fun m hm => hf.macros m (h.inlines.subset hm), hf.pool⟩

theorem forall_suspended {fs gs : List Frame} (h : List.Forall₂ Frame.Suspended fs gs)
    (hfs : ∀ f ∈ fs, f.Proper K) : ∀ g ∈ gs, g.Proper K := by
  induction h with
  | nil => exact hfs
  | cons hfg _ ih =>
    obtain ⟨hf, hrest⟩ := List.forall_mem_cons.mp hfs
    exact List.forall_mem_cons.mpr ⟨hf.suspended hfg, ih hrest⟩

/-- Units that differ in captures and macros only. -/
theorem Progress.suspended {outer' : List Frame} (hs : s.Proper K)
    (h : List.Forall₂ Frame.Suspended s.chain (f :: outer'))
    (hmoves : K.clean → Moved K s.chain (f :: outer')) :
    Progress K s { s with frame := f, outer := outer' } :=
  ⟨hmoves, forall_suspended h hs.frames, hs.decls, hs.entered⟩

/-- The answer, if there is one, is a capture that leads to where the name lives. -/
instance : Learns known K (fun _ => captureName name) fun c => .meaning K name (c.map .captured) :=
  ⟨.step fun s0 s _ _ hs _ => by
    cases hc : capture? name s.frame s.outer with
    | none =>
      rw [captureName_of_none hc]
      exact ⟨.refl hs, trivial, .refl s⟩
    | some r =>
      obtain ⟨c, f, outer⟩ := r
      rw [captureName_of_some hc]
      obtain ⟨home, hhome, hconst, hty, hleads⟩ := capture?_leads hc
      have hsuspended := capture?_suspended hc
      refine ⟨.suspended hs hsuspended fun _ => .single (.capture hc), ⟨⟨home, ?_⟩, ?_⟩,
        State.kept_of_suspended hsuspended rfl rfl, .of_chain ?_ ?_⟩
      · refine ⟨(home?_suspended (List.forall₂_cons.mp hsuspended).2).trans hhome, hleads,
          capture?_lt hc, fun hvar n hn => ?_⟩
        obtain ⟨g, hg, binding, hfound, hsame⟩ := home?_global hhome hn
        exact (hs.outer g hg).admitted _ (Table.mem_of_find? hfound) (hsame.trans (hconst.trans hvar))
      · rw [← hty]
        exact wellFormed_home (fun g hg => (hs.outer g hg).toWellTyped) hhome
      · exact (List.forall₂_cons.mp hsuspended).1.kept.depth
      · refine (capture?_extends hc).imp fun g g' hg => ?_
        rw [hg.rest]
        exact .none _⟩

theorem State.WellTyped.receiverAttribute (h : s.WellTyped)
    (hty : s.receiverAttribute? name = some ty) : ty.WellFormed := by
  unfold State.receiverAttribute? at hty
  obtain ⟨c, -, hty⟩ := Option.bind_eq_some_iff.mp hty
  obtain ⟨t, ht, hty⟩ := Option.bind_eq_some_iff.mp hty
  split at hty
  · cases hty
    exact h.decls.field ht
  · cases hty

instance : Learns known K (fun _ => resolveName name) fun m => .meaning K name m := by
  refine ⟨.look (fun _ _ => rfl) fun s => ?_⟩
  cases findInline? name s.chain with
  | some value => exact .pure fun _ _ _ => trivial
  | none =>
    refine .look (fun _ _ => rfl) fun s => ?_
    cases hlocal : s.frame.findLocal? name with
    | some l => exact .pure fun _ _ h => h.2.1.frame.findLocal hlocal
    | none =>
      refine Yields.bind Learns.yields fun c => ?_
      cases c with
      | some c => exact .pure fun _ _ h => h.2
      | none =>
        refine .look (fun _ _ => rfl) fun s => ?_
        cases hglobal : s.frame.globals.find? name with
        | some g =>
          refine .pure fun _ _ h => ⟨h.2.1.frame.findGlobal hglobal, ?_⟩
          exact h.2.1.frame.admitted _ (Table.mem_of_find? hglobal)
        | none =>
          refine .look (fun _ _ => rfl) fun s => .pure fun _ _ h => ?_
          cases hreceiver : s.receiverAttribute? name with
          | none => trivial
          | some ty => exact h.2.1.wellTyped.receiverAttribute hreceiver

instance : Advances known K fun _ => emitReceiver line := by
  refine .look (fun _ _ => rfl) fun s => ?_
  cases hlocal : s.frame.findLocal? "this" with
  | some l =>
    refine .bind inferInstance fun _ => advances_pure fun _ _ h => ?_
    rintro _ ⟨⟩
    exact h.1.2.1.frame.findLocal hlocal
  | none =>
    refine .look (fun _ _ => rfl) fun s => ?_
    split
    · refine ⟨Yields.bind Learns.yields fun c => ?_⟩
      cases c with
      | none => exact Advances.yields
      | some c =>
        dsimp only [Option.map]
        exact Advances.yields
    · infer_instance

instance [hname : Entails known (K.droppable name)] : Advances known K fun _ => dropInline name :=
  ⟨.step fun _ s hknown _ hs _ => by
    have halike := eraseInline_alike name s.chain
    have hsuspended := eraseInline_suspended name s.chain
    have hdropped := eraseInline_droppedBy (hname.of hknown) s.chain
    cases h : eraseInline name s.chain with
    | nil =>
      rw [h] at hsuspended
      cases hsuspended
    | cons f outer =>
      rw [h] at halike hsuspended hdropped
      have hstate : (dropInline name s).answer.2 = { s with frame := f, outer } := by
        simp only [dropInline, modify, modifyGet, MonadStateOf.modifyGet, StateT.modifyGet, pure, h]
      rw [hstate]
      exact ⟨.suspended hs hsuspended fun _ => .single (.quiet halike), trivial,
        State.kept_of_suspended hsuspended rfl rfl,
        .of_chain (List.forall₂_cons.mp hsuspended).1.kept.depth hdropped⟩⟩

/-! ## Types -/

instance : Entails known (Sound Ty.any) := ⟨fun _ => trivial⟩

instance : Entails known (Sound Ty.void) := ⟨fun _ => trivial⟩

instance : Entails known (Sound Ty.int) := ⟨fun _ => trivial⟩

instance : Entails known (Sound Ty.str) := ⟨fun _ => trivial⟩

instance : Entails known (Sound Ty.list) := ⟨fun _ => trivial⟩

instance : Entails known (Sound Ty.map) := ⟨fun _ => trivial⟩

instance {tokens : List TypeExpr.Token} : Advances known K fun _ => resolveType tokens span := by
  refine .look (fun _ _ => rfl) fun s => ?_
  cases h : TypeExpr.parse s.findType? tokens with
  | error fault =>
    dsimp only
    infer_instance
  | ok ty => exact advances_pure fun _ _ hs => TypeExpr.wellFormed_parse hs.2.1.wellTyped.knows h

instance {tokens : Option (List TypeExpr.Token)} :
    Advances known K fun _ => resolveType? tokens span := by
  unfold resolveType?
  cases tokens <;> infer_instance

/-- The state in which some generic parameters are in scope. -/
def State.withGenerics (s : State) (names : List String) : State :=
  s.withFrame { s.frame with placeholders := s.frame.placeholders ++ names }

theorem Frame.Proper.withPlaceholders (hf : f.Proper K) (placeholders : List String) :
    Frame.Proper K { f with placeholders } :=
  ⟨⟨hf.locals, hf.globals, hf.types, hf.returnType⟩, hf.admitted, hf.settled, hf.macros, hf.pool⟩

theorem Progress.withPlaceholders (hs : s.Proper K) (placeholders : List String) :
    Progress K s (s.withFrame { s.frame with placeholders }) :=
  ⟨fun _ => moves_alike ⟨rfl, rfl, rfl⟩, hs.withFrame (hs.frame.withPlaceholders placeholders)⟩

/-- A part with some generic parameters in scope. -/
theorem Yields.withPlaceholders (h : Yields known.inside K (fun a => .fact (p a)) act) :
    Yields known K (fun a => .fact (p a)) fun node => withPlaceholders names (act node) := by
  refine fun s0 => .look (fun _ _ => rfl) fun s => ?_
  have hopen : Triple K (fun s' => s' = s ∧ (known.Holds s0 s' ∧ s0.Held K s') ∧ s'.Proper K)
      (fun _ => modifyFrame fun f => { f with placeholders := f.placeholders ++ names })
      fun s _ s' => s' = s.withGenerics names :=
    .plain fun s _ hs _ => ⟨.withPlaceholders hs _, rfl⟩
  refine hopen.bind fun s1 _ => (h.fresh fun s' hs' => ?_).bind fun s' a => .plain fun s'' hp hs'' _ => ?_
  · obtain ⟨⟨-, ⟨hknown, -⟩, -⟩, rfl⟩ := hs'
    exact ⟨s0, known.mono hknown ⟨List.prefix_rfl, List.prefix_rfl, allSuspended_refl _⟩⟩
  · obtain ⟨⟨⟨rfl, ⟨-, hkept⟩, -⟩, rfl⟩, hp, hinside⟩ := hp
    -- those that were pushed are behind the mark, as the part left the list as it was
    have hback : s''.frame.placeholders.take s1.frame.placeholders.length = s1.frame.placeholders := by
      rw [hinside.frame.placeholders]
      exact List.take_left
    have hclosed : s1.Held K (s''.withFrame { s''.frame with
        placeholders := s''.frame.placeholders.take s1.frame.placeholders.length }) :=
      ⟨⟨{ hinside.frame with placeholders := hback }, hinside.outer, hinside.nesting, hinside.typeCheck⟩,
        ⟨hinside.macros.frame.depth, hinside.macros.frame.inlines⟩, hinside.macros.outer⟩
    exact ⟨.withPlaceholders hs'' _, hp, hkept.trans hclosed, hclosed.grown⟩

instance [Typed α] [h : Advances known.inside K act] :
    Advances known K fun node => withPlaceholders names (act node) :=
  ⟨h.yields.withPlaceholders⟩

/-! ## Units -/

theorem Frame.wellTyped_start {kind : UnitKind} {owner : Option ClassRef} {receiver : Ty}
    (h : receiver.WellFormed) : (Frame.start name kind owner receiver).WellTyped where
  locals l hl := by
    cases List.mem_singleton.mp hl
    exact h
  globals _ he := absurd he List.not_mem_nil
  types _ he := absurd he List.not_mem_nil
  returnType _ hty := by cases hty

section

variable {unit : CodeUnit} {defaults : UInt8} {span : Span}

instance : Steady (emitClosure unit defaults span) :=
  inferInstanceAs (Steady (addConstant _ _ >>= fun _ => modifyFrame _))

theorem state_emitClosure (s : State) (unit : CodeUnit) (defaults : UInt8) (span : Span) :
    (emitClosure unit defaults span s).answer.2 =
    (emit (.closure (addConstant (.function unit) span s).answer.1 defaults) span.line
      (s.withFrame (s.frame.withChunk (s.frame.chunk.addConstant (.function unit)).2))).answer.2 := by
  rw [← state_addConstant s (.function unit) span]
  rfl

/-- If nothing is reported, there is room for the unit and it goes to the end of the pool. -/
theorem emitClosure_eq (h : (emitClosure unit defaults span s).reports = []) :
    s.frame.chunk.constants.size < Chunk.poolLimit ∧ (emitClosure unit defaults span s).answer.2 =
      s.withFrame (s.frame.closing unit defaults span.line) := by
  have hi := index_addConstant (List.append_eq_nil_iff.mp h).1
  obtain ⟨hroom, hindex, hpool⟩ := Chunk.addConstant_unit hi
  refine ⟨hroom, ?_⟩
  rw [state_emitClosure, hindex, hpool]
  rfl

theorem State.Proper.emitClosure (hs : s.Proper K) :
    (emitClosure unit defaults span s).answer.2.Proper K := by
  rw [state_emitClosure]
  have hf := hs.frame.addConstant (.function unit)
  exact (hs.withFrame hf).withFrame
    ⟨⟨hf.locals, hf.globals, hf.types, hf.returnType⟩, hf.admitted, hf.settled, hf.macros, hf.pool⟩

theorem State.Held.emitClosure : s.Held K (emitClosure unit defaults span s).answer.2 := by
  rw [state_emitClosure]
  exact .withFrame (((Frame.Kept.refl s.frame).addConstant _).emit _ _) (.same rfl rfl)

/-- A unit of its own, that is closed over where it stands. -/
def inUnit (setup : Build Unit) (defaults : UInt8) (span : Span) (act : Build α) : Build α := do
  setup
  let a ← act
  let unit ← endUnit
  emitClosure unit defaults span
  pure a

/-- What a part finds out in a unit of its own may not be about states. -/
theorem Yields.inUnit (setup : Build Unit) [Steady setup] (defaults : UInt8) (span : Span)
    (hsetup : ∀ s0 s, known.Holds s0 s → ∃ f : Frame, f.Blank ∧ f.Proper K ∧
      f.header.defaultCount = defaults ∧ (setup s).answer.2 = s.nested f)
    (h : Yields known.apart K (fun a => .fact (p a)) act) :
    Yields known K (fun a => .fact (p a)) fun node => inUnit setup defaults span (act node) := by
  intro s0
  have hbegin : Triple K (fun s => known.Holds s0 s ∧ s0.Held K s) (fun _ => setup) fun s _ s' =>
      ∃ f : Frame, f.header.defaultCount = defaults ∧ s' = s.nested f :=
    .plain fun s hp hs _ => by
      obtain ⟨f, hblank, hf, hdefaults, hstate⟩ := hsetup s0 s hp.1
      rw [hstate]
      exact ⟨⟨fun _ => .single (.start hblank),
        ⟨List.forall_mem_cons.mpr ⟨hf, hs.frames⟩, hs.decls, hs.entered⟩⟩, f, hdefaults, rfl⟩
  refine hbegin.bind fun s _ => (h.fresh fun s' hs' => ⟨s0, s, hs'.1.1⟩).bind fun s' a =>
    .plain fun s'' hp hs'' hclean => ?_
  obtain ⟨⟨⟨-, hkept⟩, f, hdefaults, rfl⟩, hfound, hinside⟩ := hp
  obtain ⟨frame, outer, decls, nesting, refused, typeCheck⟩ := s''
  obtain ⟨g, rest, hframe, hrest, rfl⟩ := List.forall₂_cons_left_iff.mp hinside.outer
  -- the unit around is taken up again
  have hended : State.Proper K ⟨g, rest, decls, nesting, refused, typeCheck⟩ :=
    ⟨hs''.outer, hs''.decls, hs''.entered⟩
  have hback : s.Held K ⟨g, rest, decls, nesting, refused, typeCheck⟩ := by
    obtain ⟨hdropped, hdropped'⟩ := List.forall₂_cons.mp hinside.macros.outer
    refine ⟨⟨hframe.kept, hrest, hinside.nesting, hinside.typeCheck⟩,
      ⟨?_, [], g.inlines, rfl, ?_, hdropped⟩, hdropped'⟩
    · exact hframe.kept.depth
    · exact fun _ hm => absurd hm List.not_mem_nil
  have hclosed : s.Held K (emitClosure frame.toUnit defaults span
    ⟨g, rest, decls, nesting, refused, typeCheck⟩).answer.2 := hback.trans .emitClosure
  refine ⟨⟨fun hc => ?_, hended.emitClosure⟩, hfound, hkept.trans hclosed, hclosed.grown⟩
  have hreports := (List.append_eq_nil_iff.mp (hclean hc)).2
  obtain ⟨hroom, hstate⟩ := emitClosure_eq (List.append_eq_nil_iff.mp hreports).1
  have hcount : frame.header.defaultCount = defaults := by
    rw [← hdefaults]
    exact congrArg UnitHeader.defaultCount hinside.frame.header
  have hmove : Move K (frame :: g :: rest) (g.closing frame.toUnit defaults span.line :: rest) :=
    hcount ▸ .close hroom
  exact Relation.ReflTransGen.single (congrArg State.chain hstate ▸ hmove)

end

/-! ## Loops -/

theorem Frame.Proper.withLoops (hf : f.Proper K) (loops : List Loop) : Frame.Proper K { f with loops } :=
  ⟨⟨hf.locals, hf.globals, hf.types, hf.returnType⟩, hf.admitted, hf.settled, hf.macros, hf.pool⟩

theorem Progress.withLoops (hs : s.Proper K) (loops : List Loop) :
    Progress K s (s.withFrame { s.frame with loops }) :=
  ⟨fun _ => moves_alike ⟨rfl, rfl, rfl⟩, hs.withFrame (hs.frame.withLoops loops)⟩

theorem State.grown_withLoops (s : State) (loops : List Loop) :
    s.Grown (s.withFrame { s.frame with loops }) :=
  ⟨List.prefix_rfl, List.prefix_rfl, allSuspended_refl _⟩

instance : Steady (modifyLoop u) := inferInstanceAs (Steady (modifyFrame _))

instance {c : Bool} : Steady (beginLoop c) := { unchecked _ := rfl, marks _ := rfl, silent _ := rfl }

/-- Jumps that stand behind what is kept may be noted with the innermost loop. -/
theorem advances_modifyLoop (h : ∀ s0 s, known.Holds s0 s →
    ∀ l : Loop, l.Kept s0.frame.chunk.size (u l)) : Advances known K fun _ => modifyLoop u :=
  ⟨.plain fun s0 s hknown hkept hs _ => by
    refine ⟨.withLoops hs _, trivial, ⟨⟨?_, hkept.outer, hkept.nesting, hkept.typeCheck⟩,
      hkept.macros.of_frames rfl rfl rfl⟩, s.grown_withLoops _⟩
    cases hloops : s.frame.loops with
    | nil =>
      have hsame : (modifyLoop u s).answer.2.frame = { s.frame with loops := [] } := by
        simp only [modifyLoop, modifyFrame, modify, modifyGet, MonadStateOf.modifyGet,
          StateT.modifyGet, pure, hloops]
      rw [hsame, ← hloops]
      exact hkept.frame
    | cons l rest =>
      have hnoted : (modifyLoop u s).answer.2.frame = { s.frame with loops := u l :: rest } := by
        simp only [modifyLoop, modifyFrame, modify, modifyGet, MonadStateOf.modifyGet,
          StateT.modifyGet, pure, hloops]
      rw [hnoted]
      exact hkept.frame.noted hloops (h s0 s hknown l)⟩

section

variable {span : Span}

instance {base : Nat} : Advances known K fun _ => popTo base line := by
  unfold popTo
  infer_instance

instance {o : Nat} [ho : Implies known (.jumps [o])] :
    Advances known K fun _ => modifyLoop fun l => { l with breakJumps := o :: l.breakJumps } := by
  refine advances_modifyLoop fun s0 s hknown l => { Loop.Kept.refl _ l with breaks := fun o' ho' => ?_ }
  rcases List.mem_cons.mp ho' with rfl | ho'
  · exact .inr (ho.of hknown _ (.head _))
  · exact .inl ho'

instance {o : Nat} [ho : Implies known (.jumps [o])] :
    Advances known K fun _ => modifyLoop fun l => { l with continueJumps := o :: l.continueJumps } := by
  refine advances_modifyLoop fun s0 s hknown l => { Loop.Kept.refl _ l with continues := fun o' ho' => ?_ }
  rcases List.mem_cons.mp ho' with rfl | ho'
  · exact .inr (ho.of hknown _ (.head _))
  · exact .inl ho'

instance : Advances known K fun _ => compileBreak span := by
  refine .look (fun _ _ => rfl) fun s => ?_
  cases s.frame.loops.head? <;> dsimp only <;> infer_instance

instance : Advances known K fun _ => compileContinue span := by
  refine .look (fun _ _ => rfl) fun s => ?_
  cases s.frame.loops.head? with
  | none =>
    dsimp only
    infer_instance
  | some l =>
    refine .bind inferInstance fun _ => .bind inferInstance fun _ => ?_
    cases l.continueTarget <;> dsimp only <;> infer_instance

/-- In a loop that was opened at the start, the jumps noted so far are those of `continue`
statements laid down since. -/
instance [hfresh : Implies known (.start State.FreshLoop)] : Advances known K fun _ => patchContinues span := by
  refine ⟨fun s0 => .look (fun _ _ => rfl) fun s => ?_⟩
  cases hloops : s.frame.loops with
  | nil => exact .plain fun s' hp hs _ => ⟨.refl hs, trivial, hp.2.1.2, (State.Kept.refl s').grown⟩
  | cons l rest =>
    have hforget : Triple K (fun s' => s' = s ∧ (known.Holds s0 s' ∧ s0.Held K s') ∧ s'.Proper K)
        (fun _ => modifyFrame fun f => { f with loops := { l with continueJumps := [] } :: rest })
        fun s' _ s'' => ((Known.jumps l.continueJumps.reverse).Holds s0 s'' ∧ s0.Held K s'') ∧
          s'.Grown s'' := by
      refine .plain fun s' hp hs _ => ⟨.withLoops hs _, ?_⟩
      obtain ⟨rfl, ⟨hknown, hkept⟩, -⟩ := hp
      obtain ⟨l', rest', heq, hcontinues, -⟩ := (hfresh.of hknown).head hkept.toKept
      cases hloops.symm.trans heq
      refine ⟨⟨fun o ho => hcontinues o (List.mem_reverse.mp ho),
        ⟨⟨?_, hkept.outer, hkept.nesting, hkept.typeCheck⟩, hkept.macros.of_frames rfl rfl rfl⟩⟩,
        s'.grown_withLoops _⟩
      exact hkept.frame.noted hloops
        { Loop.Kept.refl _ l with continues := fun o ho => absurd ho List.not_mem_nil }
    have hpatch : Advances (.jumps l.continueJumps.reverse) K fun _ =>
      patchJumps l.continueJumps.reverse span := inferInstance
    refine hforget.bind fun s' _ => (hpatch.yields s0).imp (fun _ hs => hs.2.1) fun _ _ _ hs hq => ?_
    exact ⟨trivial, hq.2.1, hs.2.2.trans hq.2.2⟩

/-- The loop is left, and its jumps land behind it. -/
theorem triple_endLoop {c : Bool} (s : State) :
    Triple K (fun s' => (s.entered c).Held K s') (fun _ => endLoop span)
      fun s' _ s'' => s.Held K s'' ∧ s'.Grown s'' := by
  refine .look (fun _ _ => rfl) fun s1 => ?_
  cases hloops : s1.frame.loops with
  | nil =>
    refine .plain fun s' hp hs _ => ?_
    obtain ⟨rfl, hkept, -⟩ := hp
    obtain ⟨l, rest, heq, -⟩ := (s.freshLoop_entered c).head hkept.toKept
    cases hloops.symm.trans heq
  | cons l rest =>
    have hleave : Triple K (fun s' => s' = s1 ∧ (s.entered c).Held K s' ∧ s'.Proper K)
        (fun _ => modifyFrame fun f => { f with loops := rest }) fun s' _ s'' =>
          ((Known.jumps (l.continueJumps.reverse ++ l.breakJumps.reverse)).Holds s s'' ∧ s.Held K s'') ∧
            s'.Grown s'' := by
      refine .plain fun s' hp hs _ => ⟨.withLoops hs _, ?_⟩
      obtain ⟨rfl, hkept, -⟩ := hp
      obtain ⟨l', rest', heq, hcontinues, hbreaks⟩ := (s.freshLoop_entered c).head hkept.toKept
      cases hloops.symm.trans heq
      refine ⟨⟨fun o ho => ?_, hkept.left hloops,
        ⟨hkept.macros.frame.depth, hkept.macros.frame.inlines⟩, hkept.macros.outer⟩, s'.grown_withLoops _⟩
      rcases List.mem_append.mp ho with ho | ho
      · exact hcontinues o (List.mem_reverse.mp ho)
      · exact hbreaks o (List.mem_reverse.mp ho)
    have hland : Advances (.jumps (l.continueJumps.reverse ++ l.breakJumps.reverse)) K fun _ =>
      patchJumps (l.continueJumps.reverse ++ l.breakJumps.reverse) span >>= fun _ =>
        setHeight l.baseHeight := inferInstance
    refine hleave.bind fun s' _ => (hland.yields s).imp (fun _ hs => hs.2.1) fun _ _ _ hs hq => ?_
    exact ⟨hq.2.1, hs.2.2.trans hq.2.2⟩

/-- A part in a loop of its own. -/
theorem Advances.inLoop {c : Bool} {act : Nat → NodeCompiler → Build Unit}
    (h : ∀ start, Advances (known.inside.and (.start State.FreshLoop)) K (act start)) :
    Advances known K fun node => inLoop c span fun start => act start node := by
  refine ⟨fun s0 => ?_⟩
  have hbegin : Triple K (fun s => known.Holds s0 s ∧ s0.Held K s) (fun _ => beginLoop c)
      fun s _ s' => s' = s.entered c :=
    .plain fun s _ hs _ => ⟨.withLoops hs _, rfl⟩
  refine hbegin.bind fun s start => ((h start).yields.fresh fun s' hs' => ?_).bind fun s' _ => ?_
  · obtain ⟨⟨hknown, -⟩, rfl⟩ := hs'
    exact ⟨⟨s0, known.mono hknown (s.grown_withLoops _)⟩, s.freshLoop_entered c⟩
  · refine (triple_endLoop (c := c) s).imp (fun s'' hp => ?_) fun s'' _ s3 hp hq => ?_
    · obtain ⟨⟨-, rfl⟩, -, hinside⟩ := hp
      exact hinside
    · obtain ⟨⟨⟨-, hkept⟩, rfl⟩, -, -⟩ := hp
      exact ⟨trivial, hkept.trans hq.1, hq.1.grown⟩

end

end Strand.Codegen
