import Strand.Codegen.Node
import Strand.Proofs.Growth

/-!
# What compiling a node leaves as it was

The many parts of the code generator share one state, and each of them relies on the others
to put back what they change: blocks are closed, loops left, units finished, generic
parameters forgotten, and of the code that was there before not one instruction is touched.
`State.Kept s s'` says all this of two states at once.

Between its start and its end a part need not keep anything. It is compared with the state
that it was started in all the way, and jumps that were laid down in between may be aimed, as
they stand behind the code of that state.
-/

namespace Strand.Codegen

/-! ## States -/

variable {name : String}

/-- The local as it was, apart from its type and from whether it is still found. -/
structure Local.Kept (l l' : Local) : Prop where
  name : l'.name = l.name
  depth : l'.depth = l.depth
  slot : l'.slot = l.slot
  isConst : l'.isConst = l.isConst

/-- The loop as it was, but for jumps noted in it that stand behind the first `size`
instructions. -/
structure Loop.Kept (size : Nat) (l l' : Loop) : Prop where
  start : l'.start = l.start
  baseHeight : l'.baseHeight = l.baseHeight
  continueTarget : l'.continueTarget = l.continueTarget
  continues : ∀ o ∈ l'.continueJumps, o ∈ l.continueJumps ∨ size ≤ o
  breaks : ∀ o ∈ l'.breakJumps, o ∈ l.breakJumps ∨ size ≤ o

/-- `g` is `f` after some code was laid down in it. -/
structure Frame.Kept (f g : Frame) : Prop where
  kind : g.kind = f.kind
  header : g.header = f.header
  depth : g.depth = f.depth
  placeholders : g.placeholders = f.placeholders
  owner : g.owner = f.owner
  returnType : g.returnType = f.returnType
  loops : List.Forall₂ (Loop.Kept f.chunk.size) f.loops g.loops
  /-- Locals may have been added in the block that is open. -/
  locals : ∃ new old, g.locals = new ++ old ∧ (∀ l ∈ new, l.depth = f.depth) ∧
    List.Forall₂ Local.Kept f.locals old
  code : f.chunk.code.toList <+: g.chunk.code.toList
  pool : f.chunk.constants.toList <+: g.chunk.constants.toList
  captures : f.captures.sources.toList <+: g.captures.sources.toList

/-- What is left of some macros when some were dropped by name, each time the innermost, and each
of them had a name that may be dropped. -/
inductive DroppedBy (droppable : String → Prop) : List InlineDef → List InlineDef → Prop where
  | none (inlines : List InlineDef) : DroppedBy droppable inlines inlines
  | next {inlines left : List InlineDef} (h : DroppedBy droppable inlines left) {name : String}
      (hname : droppable name) : DroppedBy droppable inlines (left.eraseP fun m => m.name == name)

/-- `g` is `f` after some code was laid down in units inside it. -/
structure Frame.Suspended (f g : Frame) : Prop where
  captures : f.captures.sources.toList <+: g.captures.sources.toList
  inlines : DroppedBy (fun _ => True) f.inlines g.inlines
  rest : g = { f with captures := g.captures, inlines := g.inlines }

/-- Macros may have been dropped, and some added in the block that is open. -/
structure Frame.Macros (droppable : String → Prop) (f g : Frame) : Prop where
  depth : g.depth = f.depth
  inlines : ∃ new left, g.inlines = new ++ left ∧ (∀ m ∈ new, m.depth = f.depth) ∧
    DroppedBy droppable f.inlines left

/-- In the unit that is worked on macros may have been added, and in all units dropped. -/
structure State.Macros (droppable : String → Prop) (s s' : State) : Prop where
  frame : s.frame.Macros droppable s'.frame
  outer : List.Forall₂ (fun f g => DroppedBy droppable f.inlines g.inlines) s.outer s'.outer

/-- The same unit is worked on as in `s`, in the same surroundings and on the same level of
nesting, with perhaps more code. -/
structure State.Kept (s s' : State) : Prop where
  frame : s.frame.Kept s'.frame
  outer : List.Forall₂ Frame.Suspended s.outer s'.outer
  nesting : s'.nesting = s.nesting
  typeCheck : s'.typeCheck = s.typeCheck

/-- What is in the pool and what is captured stays there, and units around change by captures
only. -/
structure State.Grown (s s' : State) : Prop where
  pool : s.frame.chunk.constants.toList <+: s'.frame.chunk.constants.toList
  captures : s.frame.captures.sources.toList <+: s'.frame.captures.sources.toList
  outer : List.Forall₂ Frame.Suspended s.outer s'.outer

/-! ## Keeping what was kept -/

section

variable {f g g' : Frame} {s s' s'' : State} {n m : Nat} {u : Local → Local} {p : Local → Bool}

theorem Local.Kept.refl (l : Local) : l.Kept l := ⟨rfl, rfl, rfl, rfl⟩

theorem Local.Kept.trans {a b c : Local} (h : a.Kept b) (h' : b.Kept c) : a.Kept c :=
  ⟨h'.name.trans h.name, h'.depth.trans h.depth, h'.slot.trans h.slot, h'.isConst.trans h.isConst⟩

theorem Loop.Kept.refl (n : Nat) (l : Loop) : l.Kept n l :=
  ⟨rfl, rfl, rfl, fun _ ho => .inl ho, fun _ ho => .inl ho⟩

theorem Loop.Kept.trans {a b c : Loop} (h : a.Kept n b) (h' : b.Kept m c) (hle : n ≤ m) :
    a.Kept n c where
  start := h'.start.trans h.start
  baseHeight := h'.baseHeight.trans h.baseHeight
  continueTarget := h'.continueTarget.trans h.continueTarget
  continues o ho := (h'.continues o ho).elim (h.continues o) fun hle' => .inr (Nat.le_trans hle hle')
  breaks o ho := (h'.breaks o ho).elim (h.breaks o) fun hle' => .inr (Nat.le_trans hle hle')

/-- Two steps, item by item. -/
theorem forall₂_trans {α : Type} {R S T : α → α → Prop} (htrans : ∀ a b c, R a b → S b c → T a c) :
    ∀ {xs ys zs : List α}, List.Forall₂ R xs ys → List.Forall₂ S ys zs → List.Forall₂ T xs zs
  | _, _, _, .nil, .nil => .nil
  | _, _, _, .cons hab hrest, .cons hbc hrest' =>
    .cons (htrans _ _ _ hab hbc) (forall₂_trans htrans hrest hrest')

theorem Frame.Kept.size_le (h : f.Kept g) : f.chunk.size ≤ g.chunk.size := h.code.length_le

theorem Frame.Kept.refl (f : Frame) : f.Kept f where
  kind := rfl
  header := rfl
  depth := rfl
  placeholders := rfl
  owner := rfl
  returnType := rfl
  loops := List.forall₂_same.mpr fun l _ => .refl _ l
  locals := ⟨[], f.locals, rfl, fun _ hl => absurd hl List.not_mem_nil,
    List.forall₂_same.mpr fun l _ => .refl l⟩
  code := List.prefix_rfl
  pool := List.prefix_rfl
  captures := List.prefix_rfl

/-- The locals that are new after the first of two stretches are old in the second. -/
theorem Frame.Kept.locals_trans (hfg : f.Kept g) (hgh : g.Kept g') :
    ∃ new old, g'.locals = new ++ old ∧ (∀ l ∈ new, l.depth = f.depth) ∧
      List.Forall₂ Local.Kept f.locals old := by
  obtain ⟨new, old, hlocals, hnew, hold⟩ := hfg.locals
  obtain ⟨new', old', hlocals', hnew', hold'⟩ := hgh.locals
  -- what was old in the second stretch is split at what was new in the first
  rw [hlocals] at hold'
  have hmiddle := List.forall₂_take new.length hold'
  have hrest := List.forall₂_drop new.length hold'
  rw [List.take_left] at hmiddle
  rw [List.drop_left] at hrest
  refine ⟨new' ++ old'.take new.length, old'.drop new.length, ?_, fun l hl => ?_,
    forall₂_trans (fun _ _ _ hab hbc => hab.trans hbc) hold hrest⟩
  · rw [hlocals', List.append_assoc, List.take_append_drop]
  · rcases List.mem_append.mp hl with hl | hl
    · rw [hnew' l hl, hfg.depth]
    · obtain ⟨l0, hl0, hkept⟩ : ∃ l0 ∈ new, Local.Kept l0 l := by
        obtain ⟨i, hi, rfl⟩ := List.mem_iff_getElem.mp hl
        have hlength := hmiddle.length_eq
        exact ⟨new[i], List.getElem_mem _, hmiddle.get (by omega) hi⟩
      rw [hkept.depth, hnew l0 hl0]

theorem Frame.Kept.trans (hfg : f.Kept g) (hgh : g.Kept g') : f.Kept g' where
  kind := hgh.kind.trans hfg.kind
  header := hgh.header.trans hfg.header
  depth := hgh.depth.trans hfg.depth
  placeholders := hgh.placeholders.trans hfg.placeholders
  owner := hgh.owner.trans hfg.owner
  returnType := hgh.returnType.trans hfg.returnType
  loops := forall₂_trans (fun _ _ _ hab hbc => hab.trans hbc hfg.size_le) hfg.loops hgh.loops
  locals := hfg.locals_trans hgh
  code := hfg.code.trans hgh.code
  pool := hfg.pool.trans hgh.pool
  captures := hfg.captures.trans hgh.captures

namespace DroppedBy

variable {droppable : String → Prop} {xs ys zs : List InlineDef}

theorem trans (h : DroppedBy droppable xs ys) (h' : DroppedBy droppable ys zs) :
    DroppedBy droppable xs zs := by
  induction h' with
  | none => exact h
  | next _ hname ih => exact .next ih hname

theorem subset (h : DroppedBy droppable xs ys) : ys ⊆ xs := by
  induction h with
  | none => exact fun _ hm => hm
  | next _ _ ih => exact fun _ hm => ih (List.mem_of_mem_eraseP hm)

/-- Some are dropped in front, and some behind. -/
theorem append (h : DroppedBy droppable (xs ++ ys) zs) :
    ∃ front back, zs = front ++ back ∧ front ⊆ xs ∧ DroppedBy droppable ys back := by
  induction h with
  | none => exact ⟨xs, ys, rfl, fun _ hm => hm, .none ys⟩
  | @next left _ name hname ih =>
    obtain ⟨front, back, rfl, hfront, hback⟩ := ih
    rw [List.eraseP_append]
    split
    · exact ⟨_, back, rfl, fun _ hm => hfront (List.mem_of_mem_eraseP hm), hback⟩
    · exact ⟨front, _, rfl, hfront, hback.next hname⟩

end DroppedBy

section

variable {droppable : String → Prop}

theorem Frame.Macros.same (hdepth : g.depth = f.depth) (hinlines : g.inlines = f.inlines) :
    f.Macros droppable g :=
  ⟨hdepth, [], f.inlines, hinlines, fun _ hm => absurd hm List.not_mem_nil, .none _⟩

theorem Frame.Macros.trans (h : f.Macros droppable g) (h' : g.Macros droppable g') :
    f.Macros droppable g' := by
  obtain ⟨new, left, hinlines, hnew, hleft⟩ := h.inlines
  obtain ⟨new', left', hinlines', hnew', hleft'⟩ := h'.inlines
  rw [hinlines] at hleft'
  obtain ⟨front, back, rfl, hfront, hback⟩ := hleft'.append
  refine ⟨h'.depth.trans h.depth, new' ++ front, back, ?_, fun m hm => ?_, hleft.trans hback⟩
  · rw [hinlines', List.append_assoc]
  · rcases List.mem_append.mp hm with hm | hm
    · rw [hnew' m hm, h.depth]
    · exact hnew m (hfront hm)

/-- No macro belongs to a block that has been closed, if none did before. -/
theorem Frame.Macros.settled (h : f.Macros droppable g) (hf : ∀ m ∈ f.inlines, m.depth ≤ f.depth) :
    ∀ m ∈ g.inlines, m.depth ≤ g.depth := by
  intro m hm
  obtain ⟨new, left, hinlines, hnew, hleft⟩ := h.inlines
  rw [hinlines] at hm
  rw [h.depth]
  rcases List.mem_append.mp hm with hm | hm
  · exact Nat.le_of_eq (hnew m hm)
  · exact hf m (hleft.subset hm)

theorem State.Macros.same (hframe : s.frame.Macros droppable s'.frame) (houter : s'.outer = s.outer) :
    s.Macros droppable s' :=
  ⟨hframe, houter ▸ List.forall₂_same.mpr fun _ _ => .none _⟩

/-- Macros were dropped and none added. -/
theorem State.Macros.of_chain (hdepth : s'.frame.depth = s.frame.depth)
    (h : List.Forall₂ (fun f g => DroppedBy droppable f.inlines g.inlines) s.chain s'.chain) :
    s.Macros droppable s' := by
  obtain ⟨hframe, houter⟩ := List.forall₂_cons.mp h
  exact ⟨⟨hdepth, [], _, rfl, fun _ hm => absurd hm List.not_mem_nil, hframe⟩, houter⟩

/-- Only the macros and the depth of the units matter. -/
theorem State.Macros.of_frames {t : State} (h : s.Macros droppable s')
    (hdepth : t.frame.depth = s'.frame.depth) (hinlines : t.frame.inlines = s'.frame.inlines)
    (houter : t.outer = s'.outer) : s.Macros droppable t :=
  ⟨h.frame.trans (.same hdepth hinlines), houter ▸ h.outer⟩

theorem State.Macros.refl (s : State) : s.Macros droppable s := .same (.same rfl rfl) rfl

theorem State.Macros.trans (h : s.Macros droppable s') (h' : s'.Macros droppable s'') :
    s.Macros droppable s'' :=
  ⟨h.frame.trans h'.frame, forall₂_trans (fun _ _ _ hab hbc => hab.trans hbc) h.outer h'.outer⟩

end

theorem Frame.Suspended.refl (f : Frame) : f.Suspended f := ⟨List.prefix_rfl, .none _, rfl⟩

theorem allSuspended_refl (fs : List Frame) : List.Forall₂ Frame.Suspended fs fs :=
  List.forall₂_same.mpr fun f _ => .refl f

theorem Frame.Suspended.trans (hfg : f.Suspended g) (hgh : g.Suspended g') : f.Suspended g' where
  captures := hfg.captures.trans hgh.captures
  inlines := hfg.inlines.trans hgh.inlines
  rest := by
    have hrest := hgh.rest
    rw [hfg.rest] at hrest
    exact hrest

theorem Frame.Extends.suspended (h : f.Extends g) : f.Suspended g := by
  have hinlines : g.inlines = f.inlines := by rw [h.rest]
  refine ⟨h.captures, ?_, ?_⟩
  · rw [hinlines]
    exact .none _
  · rw [hinlines]
    exact h.rest

/-- A unit that was suspended is taken up again. -/
theorem Frame.Suspended.kept (h : f.Suspended g) : f.Kept g := by
  have hkept := Frame.Kept.refl f
  rw [h.rest]
  exact { hkept with captures := h.captures }

theorem State.Kept.refl (s : State) : s.Kept s :=
  ⟨.refl _, allSuspended_refl _, rfl, rfl⟩

theorem State.Kept.trans (h : s.Kept s') (h' : s'.Kept s'') : s.Kept s'' where
  frame := h.frame.trans h'.frame
  outer := forall₂_trans (fun _ _ _ hab hbc => hab.trans hbc) h.outer h'.outer
  nesting := h'.nesting.trans h.nesting
  typeCheck := h'.typeCheck.trans h.typeCheck

theorem State.Kept.grown (h : s.Kept s') : s.Grown s' := ⟨h.frame.pool, h.frame.captures, h.outer⟩

theorem State.Grown.trans (h : s.Grown s') (h' : s'.Grown s'') : s.Grown s'' :=
  ⟨h.pool.trans h'.pool, h.captures.trans h'.captures,
    forall₂_trans (fun _ _ _ hab hbc => hab.trans hbc) h.outer h'.outer⟩

/-- No local belongs to a block that has been closed, if none did before. -/
theorem Frame.Kept.settled (h : f.Kept g) (hf : ∀ l ∈ f.locals, l.depth ≤ f.depth) :
    ∀ l ∈ g.locals, l.depth ≤ g.depth := by
  intro l hl
  obtain ⟨new, old, hlocals, hnew, hold⟩ := h.locals
  rw [hlocals] at hl
  rw [h.depth]
  rcases List.mem_append.mp hl with hl | hl
  · exact Nat.le_of_eq (hnew l hl)
  · obtain ⟨i, hi, rfl⟩ := List.mem_iff_getElem.mp hl
    have hi' : i < f.locals.length := Nat.lt_of_lt_of_eq hi hold.length_eq.symm
    have hkept : Local.Kept f.locals[i] old[i] := hold.get hi' hi
    rw [hkept.depth]
    exact hf _ (List.getElem_mem _)

/-- Only the frames around and what they hold of macros and captures may differ. -/
theorem State.kept_of_suspended (h : List.Forall₂ Frame.Suspended s.chain s'.chain)
    (hnesting : s'.nesting = s.nesting) (htype : s'.typeCheck = s.typeCheck) : s.Kept s' := by
  obtain ⟨hframe, houter⟩ := List.forall₂_cons.mp h
  exact ⟨hframe.kept, houter, hnesting, htype⟩

/-! ## Frames that differ in something else -/

/-- What a frame is made of apart from names, types and the height of the stack. -/
@[reducible] def Frame.core (f : Frame) : Frame :=
  { f with manifest := {}, globals := ∅, types := {}, inlines := [], height := 0 }

theorem Frame.Kept.of_core (hf : f.Kept g) (h : g'.core = g.core) : f.Kept g' := by
  have hlocals := congrArg Frame.locals h
  have hloops := congrArg Frame.loops h
  have hchunk := congrArg Frame.chunk h
  have hcaptures := congrArg Frame.captures h
  dsimp only at hlocals hloops hchunk hcaptures
  exact
    { kind := (congrArg Frame.kind h).trans hf.kind
      header := (congrArg Frame.header h).trans hf.header
      depth := (congrArg Frame.depth h).trans hf.depth
      placeholders := (congrArg Frame.placeholders h).trans hf.placeholders
      owner := (congrArg Frame.owner h).trans hf.owner
      returnType := (congrArg Frame.returnType h).trans hf.returnType
      loops := by
        rw [hloops]
        exact hf.loops
      locals := by
        rw [hlocals]
        exact hf.locals
      code := by
        rw [hchunk]
        exact hf.code
      pool := by
        rw [hchunk]
        exact hf.pool
      captures := by
        rw [hcaptures]
        exact hf.captures }

theorem Frame.Kept.emit (hf : f.Kept g) (i : Instr) (line : UInt64) : f.Kept (g.emit i line) where
  __ := hf
  code := by
    refine hf.code.trans ?_
    show _ <+: (g.chunk.code.push i).toList
    rw [Array.toList_push]
    exact List.prefix_append ..

theorem Frame.Kept.emitTimes (i : Instr) (line : UInt64) : ∀ (n : Nat) {g : Frame}, f.Kept g →
    f.Kept (g.emitTimes i line n)
  | 0, _, hf => hf
  | n + 1, _, hf => emitTimes i line n (hf.emit i line)

/-- Code behind the first `n` instructions may change. -/
theorem Chunk.prefix_aimJump {code : List Instr} {c : Chunk} {o : Nat}
    (h : code <+: c.code.toList) (hle : code.length ≤ o) :
    code <+: (c.aimJump o).code.toList := by
  rw [List.prefix_iff_getElem?] at h ⊢
  intro i hi
  -- only the instruction at `o` is changed
  have hne : o ≠ i := by omega
  rw [← h i hi, Array.getElem?_toList, Array.getElem?_toList]
  show (c.code.modify o _)[i]? = _
  rw [Array.getElem?_modify, if_neg hne]

theorem Frame.Kept.aim (hf : f.Kept g) {o : Nat} (hle : f.chunk.size ≤ o) :
    f.Kept { g with chunk := g.chunk.aimJump o } where
  __ := hf
  code := Chunk.prefix_aimJump hf.code hle

theorem Frame.Kept.addConstant (hf : f.Kept g) (k : Constant) :
    f.Kept { g with chunk := (g.chunk.addConstant k).2 } := by
  rcases (g.chunk.adds_addConstant k).grows with hsame | hpush
  · rw [hsame]
    exact hf
  · rw [hpush]
    refine { hf with pool := hf.pool.trans ?_ }
    rw [Array.toList_push]
    exact List.prefix_append ..

theorem Frame.Kept.declare (hf : f.Kept g) {l : Local} (hl : l.depth = g.depth) :
    f.Kept { g with locals := l :: g.locals } where
  __ := hf
  locals := by
    obtain ⟨new, old, hlocals, hnew, hold⟩ := hf.locals
    refine ⟨l :: new, old, by rw [hlocals, List.cons_append], fun x hx => ?_, hold⟩
    rcases List.mem_cons.mp hx with rfl | hx
    · rw [hl, hf.depth]
    · exact hnew x hx

theorem forall₂_updateFirst (hu : ∀ l : Local, l.Kept (u l)) :
    ∀ ls : List Local, List.Forall₂ Local.Kept ls (Frame.updateFirst p u ls)
  | [] => .nil
  | l :: rest => by
    unfold Frame.updateFirst
    split
    · exact .cons (hu l) (List.forall₂_same.mpr fun l _ => .refl l)
    · exact .cons (.refl l) (forall₂_updateFirst hu rest)

/-- Changing the type of a local, or hiding it, keeps the locals. -/
theorem Frame.Kept.updateFirst (hf : f.Kept g)
    (hu : ∀ l : Local, l.Kept (u l)) : f.Kept { g with locals := Frame.updateFirst p u g.locals } := by
  have hupdated : g.Kept { g with locals := Frame.updateFirst p u g.locals } :=
    { Frame.Kept.refl g with
      locals := ⟨[], _, rfl, fun _ hl => absurd hl List.not_mem_nil, forall₂_updateFirst hu g.locals⟩ }
  exact hf.trans hupdated

end

/-! ## Captures and macros -/

theorem capture?_extends : ∀ {outer : List Frame} {f f' : Frame} {c : Capture}
    {outer' : List Frame}, capture? name f outer = some (c, f', outer') →
      List.Forall₂ Frame.Extends (f :: outer) (f' :: outer')
  | [], _, _, _, _, h => by cases h
  | parent :: outer, f, f', c, outer', h => by
    have hsame : List.Forall₂ Frame.Extends (parent :: outer) (parent :: outer) :=
      List.forall₂_same.mpr fun f _ => .refl f
    unfold capture? at h
    split at h
    · cases h
      exact .cons (f.extends_addCapture _) hsame
    · split at h
      · rename_i hinner
        cases h
        exact .cons (f.extends_addCapture _) (capture?_extends hinner)
      · split at h
        · cases h
          exact .cons (f.extends_addCapture _) hsame
        · cases h

theorem capture?_suspended {outer outer' : List Frame} {f f' : Frame} {c : Capture}
    (h : capture? name f outer = some (c, f', outer')) :
    List.Forall₂ Frame.Suspended (f :: outer) (f' :: outer') :=
  (capture?_extends h).imp fun _ _ hfg => hfg.suspended

theorem eraseInline_suspended (name : String) : ∀ frames : List Frame,
    List.Forall₂ Frame.Suspended frames (eraseInline name frames)
  | [] => .nil
  | f :: rest => by
    unfold eraseInline
    split
    · exact .cons ⟨List.prefix_rfl, .next (.none _) trivial, rfl⟩ (allSuspended_refl rest)
    · exact .cons (.refl f) (eraseInline_suspended name rest)

theorem eraseInline_droppedBy {droppable : String → Prop} (hname : droppable name) :
    ∀ frames : List Frame, List.Forall₂ (fun f g => DroppedBy droppable f.inlines g.inlines) frames
      (eraseInline name frames)
  | [] => .nil
  | f :: rest => by
    unfold eraseInline
    split
    · exact .cons (.next (.none _) hname) (List.forall₂_same.mpr fun _ _ => .none _)
    · exact .cons (.none _) (eraseInline_droppedBy hname rest)

end Strand.Codegen
