import Strand.Proofs.ConstantPool
import Strand.Proofs.Emission

/-!
# Constants, locals and units

The rules for what a unit holds besides its code: its pool, which only grows, its
locals, whose slots follow from the height of the stack, and the units that are laid
down while it is suspended.
-/

namespace Strand.Codegen

open Scheme (op pooled declare change)

variable {p : Program} {α β γ : Type} {s s' s0 : State} {x : Scheme} {π : List (Label × Nat)}
  {line : UInt64} {node : NodeCompiler} {act : Build α}

variable {c : Scene} {k : Constant} {span : Span} {name : String} {ty : Ty} {isConst : Bool}
  {f : Frame} {place : Place} {kind : UnitKind} {scheme : NodeScheme} {source : Source}

/-! ## The pool -/

/-- A constant that was added stands where the answer says, and nothing moved. -/
structure Chunk.Holds (c c' : Chunk) (k : Constant) (i : UInt16) : Prop where
  code : c'.code = c.code
  pool : c.constants.toList <+: c'.constants.toList
  found : c'.constants.toList[i.toNat]? = some k
  size : c'.constants.size ≤ Chunk.poolLimit
  only : ∀ k' ∈ c'.constants, k' ∈ c.constants ∨ k' = k

theorem Chunk.addConstant_holds {c : Chunk} (hpool : c.constants.size ≤ Chunk.poolLimit)
    {i : UInt16} (h : (c.addConstant k).1 = some i) : Chunk.Holds c (c.addConstant k).2 k i := by
  have hadds := c.adds_addConstant k
  refine ⟨?_, hadds.isPrefix, ?_, hadds.size_le hpool, fun k' hk' => ?_⟩
  · rcases hadds.grows with hsame | hpushed
    · rw [hsame]
    · rw [hpushed]
  · rw [Array.getElem?_toList]
    exact hadds.found hpool h
  · rcases hadds.grows with hsame | hpushed
    · rw [hsame] at hk'
      exact .inl hk'
    · rw [hpushed] at hk'
      exact Array.mem_push.mp hk'

/-- A constant goes into the pool; if it is a unit, it has to be a translated one. -/
theorem does_addConstant (hk : ∀ u, k = .function u → ∀ v ∈ u.units, Translated p v) :
    Does p (addConstant k span) fun i => pooled k i := by
  intro s hs
  refine Ensures.bind (ensures_modifyGet (Q := fun i s' => i = (s.frame.chunk.addConstant k).1 ∧
    s' = s.withFrame { s.frame with chunk := (s.frame.chunk.addConstant k).2 }) ⟨rfl, rfl⟩) ?_
  rintro _ _ ⟨rfl, rfl⟩
  cases hi : (s.frame.chunk.addConstant k).1 with
  | none => exact ensures_refused_bind (by simp [Cause.kind])
  | some i =>
    have hholds := Chunk.addConstant_holds hs.frame.pool hi
    refine ensures_pure ⟨.nil, ?_, fun k' hk' => ⟨rfl, rfl, ?_⟩, ?_, hs.withFrame ?_⟩
    · refine ⟨?_, fun o _ => ?_, trivial, .nothing _, by simp [Tree.uses]⟩
      · exact congrArg Array.size hholds.code
      · exact congrArg (·[o]?) hholds.code
    · obtain ⟨rest, hrest⟩ := hk'
      rw [← hrest]
      exact List.getElem?_append_left (List.getElem?_eq_some_iff.mp hholds.found).1 ▸ hholds.found
    · exact ⟨rfl, rfl, rfl, rfl, .refl _, .refl _, hholds.pool, rfl⟩
    · refine ⟨hs.frame.macros, fun u hu v hv => ?_, hs.frame.receiver, hs.frame.named, fun l hl => ?_, hholds.size⟩
      · rcases hholds.only _ hu with hold | hnew
        · exact hs.frame.units u hold v hv
        · exact hk u hnew.symm v hv
      · have hsize : (s.frame.chunk.addConstant k).2.size = s.frame.chunk.size :=
          congrArg Array.size hholds.code
        rw [hsize]
        exact hs.frame.loops l hl

/-- The constant is a compiled unit. -/
def isUnit : Constant → Bool
  | .function _ => true
  | _ => false

theorem does_addData (hk : isUnit k = false) : Does p (addConstant k span) fun i => pooled k i := by
  refine does_addConstant fun u hu => ?_
  rw [hu] at hk
  cases hk

theorem does_emitConstant (hk : isUnit k = false) :
    Does p (emitConstant k span) fun _ => Scheme.constant k := by
  intro s hs
  refine (does_addData hk).first hs fun i s1 h1 => ?_
  exact (Does.last (does_emit rfl) h1).imp fun _ _ h => h.choose i

theorem does_countOperand {n : Nat} : Does p (countOperand n span) fun i =>
      .requires fun _ => n < 65536 ∧ i = UInt16.ofNat n := by
  intro s hs
  unfold countOperand
  split
  · rename_i hlt
    exact ensures_pure (Ran.requires hs ⟨hlt, rfl⟩)
  · exact ensures_refused_bind (by simp [Cause.kind])

/-! ## Locals -/

theorem Scene.HoldsReceiver.declare (h : c.HoldsReceiver) (name : String)
    (slot : UInt16) : (c.declare name slot).HoldsReceiver := by
  obtain ⟨v, hlast, hv⟩ := h
  refine ⟨v, ?_, hv⟩
  unfold Scene.declare
  rw [List.getLast?_cons, hlast]
  rfl

theorem Scene.NamesReceiver.declare (h : c.NamesReceiver)
    (hname : name ≠ "this") (slot : UInt16) : (c.declare name slot).NamesReceiver :=
  List.forall_mem_cons.mpr ⟨fun heq => absurd heq hname, h⟩

theorem ensures_topSlot :
    Ensures s (topSlot span) fun slot s' => slot.toNat = s.frame.height - 1 ∧ s' = s := by
  refine Ensures.ofHeight ?_
  dsimp only
  split
  · rename_i hlt
    exact ensures_pure ⟨UInt16.toNat_ofNat_of_lt' hlt, rfl⟩
  · exact ensures_refused_bind (by simp [Cause.kind])

/-- The value on top of the stack becomes a local. -/
theorem does_declareLocal (hname : Unshadowed p → name ≠ "this") :
    Does p (declareLocal name ty isConst span) fun slot => declare name slot := by
  intro s hs
  refine Ensures.ofGet ?_
  dsimp only
  split
  · exact ensures_refused_bind (by simp [Cause.kind])
  · refine ensures_topSlot.bind ?_
    rintro slot s ⟨hslot, rfl⟩
    let f : Frame :=
      { s.frame with locals :=
          { name, ty, depth := s.frame.depth, slot, isConst } :: s.frame.locals }
    have hran : Ran p s (change fun c => c.declare name slot) [] (s.withFrame f) :=
      ran_change hs (hs.frame.of_scene rfl rfl (fun _ h => h) rfl (fun h => h.declare name slot)
        fun hnames h => h.declare (hname hnames) slot) rfl rfl rfl rfl rfl rfl rfl
    refine Ensures.bind (ensures_modifyFrame (Q := fun _ s' => s' = s.withFrame f) rfl) ?_
    rintro _ _ rfl
    exact ensures_pure (hran.imp fun _ _ h => ⟨h.1, hslot, h.2⟩)

theorem does_declared (hname : Unshadowed p → name ≠ "this") :
    Does p (declareLocal name ty isConst span) fun _ => Scheme.declared name :=
  fun s hs => (does_declareLocal hname s hs).imp fun slot _ h => h.choose slot

theorem updateFirst_append {q : γ → Bool} {g : γ → γ} {ys : List γ} :
    ∀ {xs : List γ}, (∃ a ∈ xs, q a = true) →
      Frame.updateFirst q g (xs ++ ys) = Frame.updateFirst q g xs ++ ys
  | [], h => by
    obtain ⟨a, ha, _⟩ := h
    cases ha
  | b :: rest, h => by
    rw [List.cons_append, Frame.updateFirst, Frame.updateFirst]
    split
    · rfl
    · rename_i hb
      obtain ⟨a, ha, hqa⟩ := h
      rcases List.mem_cons.mp ha with rfl | ha
      · exact absurd hqa hb
      · rw [updateFirst_append ⟨a, ha, hqa⟩, List.cons_append]

/-- Giving up another local does not give up the receiver, which is below all others. -/
theorem Scene.HoldsReceiver.dropSlot (h : c.HoldsReceiver) {v : Var}
    (hfound : c.findLocal? name = some v) (hname : name ≠ "this") :
    (c.dropSlot v.slot).HoldsReceiver := by
  obtain ⟨r, hlast, hr⟩ := h
  obtain ⟨init, hinit⟩ := List.getLast?_eq_some_iff.mp hlast
  unfold Scene.findLocal? at hfound
  split at hfound
  · cases hfound
  · have hv := List.find?_some hfound
    have hmem := List.mem_of_find?_eq_some hfound
    rw [Bool.and_eq_true, beq_iff_eq] at hv
    have hin : v ∈ init := by
      rw [hinit] at hmem
      rcases List.mem_append.mp hmem with hmem | hmem
      · exact hmem
      · rw [List.mem_singleton.mp hmem, hr.1] at hv
        exact absurd hv.2.symm hname
    refine ⟨r, ?_, hr⟩
    simp only [Scene.dropSlot]
    rw [hinit, updateFirst_append ⟨v, hin, by simp [hv.1]⟩, List.getLast?_append]
    rfl

theorem Scene.NamesReceiver.dropSlot (h : c.NamesReceiver) (slot : UInt16) :
    (c.dropSlot slot).NamesReceiver := by
  intro v hv hname
  obtain ⟨w, hw, hsame⟩ := Frame.exists_of_mem_updateFirst hv
  rcases hsame with rfl | rfl
  · exact h v hw hname
  · exact h w hw hname

/-! ## Steps that are not code -/

theorem isQuiet_pure {a : α} : IsQuiet (pure a) := fun s => Quiet.refl s

theorem IsQuiet.bind {f : α → Build β} (h : IsQuiet act)
    (hf : ∀ a, IsQuiet (f a)) : IsQuiet (act >>= f) :=
  fun s => (h s).trans (hf _ _)

theorem IsQuiet.map {g : α → β} (h : IsQuiet act) : IsQuiet (g <$> act) := by
  rw [map_eq_pure_bind]
  exact h.bind fun _ => isQuiet_pure

theorem isQuiet_get : IsQuiet (get : Build State) := fun s => Quiet.refl s

theorem isQuiet_report {cause : Cause} : IsQuiet (report cause span) :=
  fun s => Quiet.refl s

theorem isQuiet_modifyFrame {g : Frame → Frame} (h : ∀ f : Frame, f.Like (g f)) :
    IsQuiet (modifyFrame g) :=
  fun s => Quiet.withFrame (h s.frame)

theorem isQuiet_modifyDecls {g : Declarations → Declarations} (h : ∀ d : Declarations, d.Keeps (g d)) :
    IsQuiet (modifyDecls g) :=
  fun s => ⟨.refl _, .refl _, h s.decls, rfl, rfl⟩

theorem isQuiet_forM {f : γ → Build Unit} :
    ∀ {items : List γ}, (∀ a ∈ items, IsQuiet (f a)) → IsQuiet (items.forM f)
  | [], _ => isQuiet_pure
  | a :: _, h =>
    (h a (.head _)).bind fun _ =>
      isQuiet_forM fun b hb => h b (.tail _ hb)

theorem isQuiet_mapM {f : γ → Build α} :
    ∀ {items : List γ}, (∀ a ∈ items, IsQuiet (f a)) → IsQuiet (items.mapM f)
  | [], _ => by
    rw [List.mapM_nil]
    exact isQuiet_pure
  | a :: _, h => by
    rw [List.mapM_cons]
    exact (h a (.head _)).bind fun _ =>
      (isQuiet_mapM fun b hb => h b (.tail _ hb)).bind fun _ => isQuiet_pure

theorem isQuiet_defineGlobal : IsQuiet (defineGlobal name ty isConst) :=
  isQuiet_modifyFrame fun _ => ⟨rfl, rfl, rfl, rfl, rfl, rfl, fun _ h => h⟩

/-! ## Places -/

/-- A declaration reserves a global or a slot, and says which. -/
theorem does_reservePlace (hname : Unshadowed p → name ≠ "this") :
    Does p (reservePlace name ty isConst span) fun place => Scheme.reserve name place := by
  intro s hs
  refine Ensures.ofGet ?_
  split
  · rename_i hmodule
    have h0 : Ran p s (.requires fun c => c.isModuleLevel = true) [] s := .requires hs hmodule
    refine isQuiet_defineGlobal.then h0 fun _ s1 h1 => ?_
    refine Does.then (does_addData rfl) h1 fun i s2 h2 => ?_
    exact ensures_pure h2
  · rename_i hlocal
    have h0 : Ran p s (.requires fun c => c.isModuleLevel = false) [] s :=
      .requires hs (Bool.eq_false_iff.mpr hlocal)
    refine Does.then (does_emit rfl) h0 fun _ s1 h1 => ?_
    refine (does_declareLocal hname).then h1 fun slot s2 h2 => ?_
    exact ensures_pure h2

theorem does_store : Does p (place.store line) fun _ => Scheme.store place := by
  intro s hs
  cases place with
  | global i => exact does_emit rfl s hs
  | onStack slot =>
    refine Does.first (does_emit rfl) hs fun _ s1 h1 => ?_
    exact Does.last (does_emit rfl) h1

theorem does_load : Does p (place.load line) fun _ => Scheme.load place := by
  intro s hs
  cases place with
  | global i => exact does_emit rfl s hs
  | onStack slot => exact does_emit rfl s hs

theorem isQuiet_retype : IsQuiet (place.retype name ty) := by
  refine isQuiet_modifyFrame fun f => ?_
  cases place with
  | global i => exact ⟨rfl, rfl, rfl, rfl, rfl, rfl, fun _ h => h⟩
  | onStack slot =>
    exact ⟨rfl, Frame.scene_retypeSlot f slot ty, rfl, rfl, rfl, rfl, fun _ h => h⟩

/-- Giving up a local. It has to be another one than the receiver, if that is kept. -/
theorem ran_dropSlot (hs : Inv p s) {v : Var}
    (hfound : s.scene.findLocal? name = some v) (hname : KeepsReceiver p → name ≠ "this") :
    Ran p s (change fun c => c.dropSlot v.slot) [] (s.withFrame (s.frame.dropSlot v.slot)) := by
  have hscene : (s.frame.dropSlot v.slot).scene = s.scene.dropSlot v.slot :=
    Frame.scene_dropSlot ..
  have hsound : (s.frame.dropSlot v.slot).Sound p :=
    { macros := hs.frame.macros
      units := hs.frame.units
      receiver := fun hkeeps hrec => by
        rw [hscene]
        exact (hs.frame.receiver hkeeps hrec).dropSlot hfound (hname hkeeps)
      named := fun hnames => by
        rw [hscene]
        exact (hs.frame.named hnames).dropSlot v.slot
      loops := hs.frame.loops
      pool := hs.frame.pool }
  exact ran_change hs hsound rfl rfl hscene rfl rfl rfl rfl

/-! ## Units -/

/-- The state in which a unit inside the current one is laid down. -/
def State.nested (s : State) (f : Frame) : State :=
  { s with frame := f, outer := s.frame :: s.outer }

/-- Nothing has been laid down yet. -/
structure Frame.Fresh (f : Frame) (kind : UnitKind) : Prop where
  scene : f.scene = Scene.start kind
  chunk : f.chunk = {}
  inlines : f.inlines = []
  loops : f.loops = []

theorem Scene.holdsReceiver_start (h : kind.hasReceiver = true) : (Scene.start kind).HoldsReceiver :=
  ⟨_, rfl, if_pos h, rfl, rfl⟩

theorem Scene.namesReceiver_start (kind : UnitKind) : (Scene.start kind).NamesReceiver := by
  intro v hv hname
  cases List.mem_singleton.mp hv
  exact ⟨rfl, by simpa [Scene.start] using hname⟩

theorem Frame.Fresh.sound (h : f.Fresh kind) : f.Sound p where
  macros := by simp [h.inlines]
  units := by simp [h.chunk]
  receiver := fun _ hrec => by
    have hkind : f.kind = kind := congrArg Scene.kind h.scene
    rw [h.scene]
    exact Scene.holdsReceiver_start (by rw [← hkind]; exact hrec)
  named := fun _ => h.scene ▸ Scene.namesReceiver_start kind
  loops := by simp [h.loops]
  pool := by simp [h.chunk]

theorem Inv.nested (hs : Inv p s) (hf : f.Fresh kind) : Inv p (s.nested f) := by
  refine ⟨hs.refused, hf.sound, fun g hg => ?_⟩
  rcases List.mem_cons.mp hg with rfl | hg
  · exact hs.frame
  · exact hs.outer g hg

theorem sitesOf_nil : sitesOf [] = Sites.none := by
  funext l
  unfold sitesOf Sites.none
  split <;> rfl

/-- The code laid down in a fresh frame is the code of a unit. -/
theorem Ran.encloses (hf : f.Fresh kind) (h0 : s0.frame = f) (h : Ran p s0 x [] s') :
    Encloses s'.frame.toUnit (Scene.start kind) x := by
  obtain ⟨t, hlaid, hx, _, _⟩ := h
  have hempty : s0.frame.chunk.size = 0 := by
    rw [h0, hf.chunk]
    rfl
  have hloops : s0.frame.loops = [] := by rw [h0, hf.loops]
  have hscene : s0.scene = Scene.start kind := by
    rw [State.scene, h0, hf.scene]
  have hnoted := hlaid.loops
  have hat := hlaid.code
  rw [hloops, hempty] at hnoted hat
  rw [sitesOf_nil] at hat
  have hsize := hlaid.size
  rw [hempty, Nat.zero_add] at hsize
  refine ⟨t, s'.scene, by rw [← hscene]; exact hx _ List.prefix_rfl, hat, hsize.symm, fun l => ?_⟩
  -- in a unit without loops nothing can be noted, and nothing is pending
  by_cases hl : l.ofLoop = true
  · cases l <;> first | exact hnoted.of_nil.1 | exact hnoted.of_nil.2.1 | cases hl
  · refine List.eq_nil_iff_forall_not_mem.mpr fun o ho => ?_
    rw [← hempty] at ho
    exact absurd ((hlaid.pending l (by simpa using hl) o).mp ho) List.not_mem_nil

/-- A compiler of nodes lays down what a scheme says of each node of the program. -/
structure Obeys (p : Program) (node : NodeCompiler) (scheme : NodeScheme) : Prop where
  does : ∀ {st e}, Occurs p st e → ∀ position, Does p (node e position) fun _ => scheme st e position

/-- Besides, the scheme is one that units of the program are translated by. -/
structure Implements (p : Program) (node : NodeCompiler) (scheme : NodeScheme) : Prop
    extends Obeys p node scheme where
  translated : ∀ {source u}, source.DeclaredIn p → CodeOf scheme source u → Translated p u

/-- What was laid down for a source in a fresh frame is a unit of the program. -/
theorem Ran.codeOf (hnode : Implements p node scheme)
    (hsource : source.DeclaredIn p) (hfresh : s0.frame.Fresh source.kind)
    (hheader : s0.frame.header = source.header) (h : Ran p s0 (source.scheme scheme) [] s') :
    CodeOf scheme source s'.frame.toUnit ∧ ∀ v ∈ s'.frame.toUnit.units, Translated p v := by
  have hcode : CodeOf scheme source s'.frame.toUnit :=
    ⟨h.beside.header.trans hheader, h.encloses hfresh rfl⟩
  refine ⟨hcode, fun v hv => ?_⟩
  rw [CodeUnit.units_eq] at hv
  rcases List.mem_cons.mp hv with rfl | hv
  · exact hnode.translated hsource hcode
  · obtain ⟨u, hu, hv⟩ := CodeUnit.mem_unitsBackwards.mp hv
    exact h.inv.frame.units u (Array.mem_toList_iff.mp hu) v hv

/-- The end of a unit that was begun at `s`. -/
theorem ensures_endUnit (hnode : Implements p node scheme) (hsource : source.DeclaredIn p)
    (hf : f.Fresh source.kind) (hheader : f.header = source.header) (hs : Inv p s)
    (h : Ran p (s.nested f) (source.scheme scheme) [] s') : Ensures s' endUnit fun u s'' =>
      Quiet s s'' ∧ CodeOf scheme source u ∧ ∀ v ∈ u.units, Translated p v := by
  refine ensures_modifyGet ⟨?_, h.codeOf hnode hsource hf hheader⟩
  have houter : AllLike (s.frame :: s.outer) s'.outer := h.beside.outer
  cases hout : s'.outer with
  | nil =>
    rw [hout] at houter
    cases houter
  | cons g rest =>
    rw [hout] at houter
    cases houter with
    | cons hg hrest =>
      exact ⟨hg, hrest, h.beside.decls, h.inv.refused.trans hs.refused.symm,
        h.beside.typeCheck⟩

/-- A closure needs a unit that was translated, with all units inside of it. -/
theorem does_emitClosure {u : CodeUnit}
    (hcode : CodeOf scheme source u) (hunits : ∀ v ∈ u.units, Translated p v) {defaults : UInt8} :
    Does p (emitClosure u defaults span) fun _ => closureScheme scheme source defaults := by
  intro s hs
  have h0 : Ran p s (.requires fun _ => CodeOf scheme source u) [] s := .requires hs hcode
  have hconst : ∀ w, Constant.function u = .function w → ∀ v ∈ w.units, Translated p v := by
    intro w hw
    cases hw
    exact hunits
  refine (does_addConstant hconst).then h0 fun i s1 h1 => ?_
  exact (Does.last (does_emit rfl) h1).imp fun _ _ h => (h.choose i).choose u

end Strand.Codegen
