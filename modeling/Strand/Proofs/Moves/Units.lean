import Strand.Proofs.Declared
import Strand.Proofs.Moves.Visited

/-!
# What units under construction end as

A unit is found in a module by where it is closed over in the unit around it. Nothing is laid
down in the units around one that is being built, so each of them will be closed over at the
place where its surroundings stop now: the state of a compilation tells where in the module
the unit is that is being built. Moves lead on from there to the finished module, and by
induction from its end, all that has been laid down and captured is found in that unit.
-/

namespace Strand

variable {us : List CodeUnit} {u v : CodeUnit}

/-! ## Units inside each other -/

namespace CodeUnit

variable {main : CodeUnit} {offset : Nat}

/-- The unit that is closed over at an offset. -/
def closedAt? (u : CodeUnit) (offset : Nat) : Option CodeUnit := do
  let i ← u.code[offset]?
  let index ← i.closes?
  match u.constants[index]? with
  | some (.function v) => some v
  | _ => none

/-- The unit at an address, followed by those around it. An address says where the unit is
closed over in the one around it, where that is closed over, and so on. -/
def unitsAt? (main : CodeUnit) : List Nat → Option (List CodeUnit)
  | [] => some [main]
  | offset :: around =>
    match main.unitsAt? around with
    | some (u :: us) => (u.closedAt? offset).map fun v => v :: u :: us
    | _ => none

/-- Units that lie one inside the other, the outermost of them `main`. -/
inductive Within (main : CodeUnit) : List CodeUnit → Prop where
  | main : Within main [main]
  | inside {u v : CodeUnit} {us : List CodeUnit} (h : Within main (u :: us))
      (hv : .function v ∈ u.constants) : Within main (v :: u :: us)

theorem Within.mem_units (h : Within main us) : ∀ u ∈ us, u ∈ main.units := by
  induction h with
  | main => exact List.forall_mem_singleton.mpr main.mem_units_self
  | inside _ hv ih =>
    exact List.forall_mem_cons.mpr ⟨mem_units_of_pool (ih _ (.head _)) hv, ih⟩

theorem mem_constants_of_closedAt? (h : u.closedAt? offset = some v) :
    .function v ∈ u.constants := by
  obtain ⟨i, -, h⟩ := Option.bind_eq_some_iff.mp h
  obtain ⟨index, -, h⟩ := Option.bind_eq_some_iff.mp h
  split at h
  · rename_i hfound
    cases h
    exact List.mem_of_getElem? hfound
  · cases h

theorem unitsAt?_cons {around : List Nat} (h : main.unitsAt? (offset :: around) = some us) :
    ∃ v u us', us = v :: u :: us' ∧ main.unitsAt? around = some (u :: us') ∧ u.closedAt? offset = some v := by
  rw [unitsAt?] at h
  split at h
  · rename_i u us' haround
    obtain ⟨v, hv, rfl⟩ := Option.map_eq_some_iff.mp h
    exact ⟨v, u, us', rfl, haround, hv⟩
  · cases h

theorem within_of_unitsAt? : ∀ {address : List Nat} {us : List CodeUnit},
    main.unitsAt? address = some us → main.Within us
  | [], _, h => by
    cases h
    exact .main
  | offset :: around, _, h => by
    obtain ⟨v, u, us', rfl, haround, hv⟩ := unitsAt?_cons h
    exact .inside (within_of_unitsAt? haround) (mem_constants_of_closedAt? hv)

/-- `v` is `u` with perhaps more in it. Jumps may be aimed elsewhere. -/
structure Grows (u v : CodeUnit) : Prop where
  captures : u.captures <+: v.captures
  pool : u.constants <+: v.constants
  code (offset : Nat) (i : Instr) (hi : u.code[offset]? = some i) (hjump : i.forwardDistance? = none) :
    v.code[offset]? = some i

theorem Grows.refl (u : CodeUnit) : u.Grows u :=
  ⟨List.prefix_rfl, List.prefix_rfl, fun _ _ h _ => h⟩

theorem Grows.trans {w : CodeUnit} (h : u.Grows v) (h' : v.Grows w) : u.Grows w :=
  ⟨h.captures.trans h'.captures, h.pool.trans h'.pool,
    fun offset i hi hjump => h'.code offset i (h.code offset i hi hjump) hjump⟩

end CodeUnit

namespace Codegen

variable {K : Setting} {f g : Frame} {fs gs outer : List Frame}

/-! ## What a move adds to -/

/-- Frame by frame, there is perhaps more in the unit. -/
abbrev AllGrow : List Frame → List Frame → Prop :=
  List.Forall₂ fun f g => (Frame.toUnit f).Grows (Frame.toUnit g)

theorem allGrow_refl (fs : List Frame) : AllGrow fs fs :=
  List.forall₂_same.mpr fun f _ => .refl f.toUnit

theorem Frame.grows_emit (f : Frame) (i : Instr) (line : UInt64) :
    f.toUnit.Grows (f.emit i line).toUnit where
  captures := List.prefix_rfl
  pool := List.prefix_rfl
  code offset j hj _ := by
    have hj' : f.chunk.code[offset]? = some j := hj
    obtain ⟨hlt, rfl⟩ := Array.getElem?_eq_some_iff.mp hj'
    exact Array.getElem?_push_lt hlt

theorem Frame.grows_aim (f : Frame) (offset : Nat) :
    f.toUnit.Grows (f.withChunk (f.chunk.aimJump offset)).toUnit where
  captures := List.prefix_rfl
  pool := List.prefix_rfl
  code o i hi hjump := by
    have hsame (distance : UInt32) : (i.aim? distance).getD i = i := by
      cases i <;> first | rfl | cases hjump
    show (f.chunk.code.modify offset _)[o]? = some i
    rw [Array.getElem?_modify]
    split
    · rw [show f.chunk.code[o]? = some i from hi, Option.map_some, hsame]
    · exact hi

theorem Frame.grows_pool {c : Array Constant} (h : f.chunk.constants.toList <+: c.toList) :
    f.toUnit.Grows (f.withChunk { f.chunk with constants := c }).toUnit :=
  ⟨List.prefix_rfl, h, fun _ _ hi _ => hi⟩

theorem Frame.grows_addConstant (f : Frame) (k : Constant) :
    f.toUnit.Grows (f.withChunk (f.chunk.addConstant k).2).toUnit := by
  rcases (f.chunk.adds_addConstant k).grows with h | h
  · rw [h]
    exact .refl _
  · rw [h]
    refine Frame.grows_pool ?_
    rw [Array.toList_push]
    exact List.prefix_append ..

theorem Frame.grows_closing (f : Frame) (u : CodeUnit) (defaults : UInt8) (line : UInt64) :
    f.toUnit.Grows (f.closing u defaults line).toUnit := by
  refine .trans (Frame.grows_pool ?_) (Frame.grows_emit _ _ _)
  rw [Array.toList_push]
  exact List.prefix_append ..

theorem Frame.Alike.grows (h : f.Alike g) : f.toUnit.Grows g.toUnit := by
  refine ⟨?_, ?_, fun offset i hi _ => ?_⟩
  · show _ <+: g.captures.sources.toList
    rw [h.captures]
    exact List.prefix_rfl
  · show _ <+: g.chunk.constants.toList
    rw [h.chunk]
    exact List.prefix_rfl
  · show g.chunk.code[offset]? = _
    rw [h.chunk]
    exact hi

theorem Frame.Suspended.chunk_eq (h : f.Suspended g) : g.chunk = f.chunk := by
  rw [h.rest]

theorem Frame.Suspended.grows (h : f.Suspended g) : f.toUnit.Grows g.toUnit := by
  refine ⟨h.captures, ?_, fun offset i hi _ => ?_⟩
  · show _ <+: g.chunk.constants.toList
    rw [h.chunk_eq]
    exact List.prefix_rfl
  · show g.chunk.code[offset]? = _
    rw [h.chunk_eq]
    exact hi

/-- Where the current unit is going to be closed over, where the one around it is, and so on. -/
def addressOf (outer : List Frame) : List Nat := outer.map fun f => f.chunk.size

theorem addressOf_congr (h : List.Forall₂ (fun f g => Frame.chunk g = Frame.chunk f) fs gs) :
    addressOf gs = addressOf fs := by
  induction h with
  | nil => rfl
  | cons heq _ ih => exact congrArg₂ List.cons (congrArg Chunk.size heq) ih

/-- What a move can do to units: there is more in them, and nothing more in those around the
current one than captures; or a unit is begun; or it is finished. -/
theorem Move.cases (h : Move K fs gs) :
    (AllGrow fs gs ∧ addressOf gs.tail = addressOf fs.tail) ∨
      (∃ f g outer, fs = g :: outer ∧ gs = f :: g :: outer) ∨
      ∃ f g outer defaults line, fs = f :: g :: outer ∧
        g.chunk.constants.size < Chunk.poolLimit ∧
        gs = g.closing f.toUnit defaults line :: outer := by
  cases h with
  | quiet h =>
    refine .inl ⟨h.imp fun _ _ halike => halike.grows, ?_⟩
    cases h with
    | nil => rfl
    | cons _ hrest => exact addressOf_congr (hrest.imp fun _ _ halike => halike.chunk)
  | emit _ _ => exact .inl ⟨.cons (Frame.grows_emit _ _ _) (allGrow_refl _), rfl⟩
  | access _ _ _ _ => exact .inl ⟨.cons (Frame.grows_emit _ _ _) (allGrow_refl _), rfl⟩
  | assign _ _ => exact .inl ⟨.cons (Frame.grows_emit _ _ _) (allGrow_refl _), rfl⟩
  | aim => exact .inl ⟨.cons (Frame.grows_aim _ _) (allGrow_refl _), rfl⟩
  | pool _ => exact .inl ⟨.cons (Frame.grows_addConstant _ _) (allGrow_refl _), rfl⟩
  | capture h =>
    have hsuspended := capture?_suspended h
    refine .inl ⟨hsuspended.imp fun _ _ hfg => hfg.grows, ?_⟩
    exact addressOf_congr ((List.forall₂_cons.mp hsuspended).2.imp fun _ _ hfg => hfg.chunk_eq)
  | start _ => exact .inr (.inl ⟨_, _, _, rfl, rfl⟩)
  | close hroom => exact .inr (.inr ⟨_, _, _, _, _, rfl, hroom, rfl⟩)

/-! ## The units of a finished module -/

/-- What has been laid down is in the unit, which captures nothing twice. -/
structure Frame.EndsAs (f : Frame) (u : CodeUnit) : Prop where
  grows : f.toUnit.Grows u
  distinct : u.captures.Nodup

theorem distinct_of_endsAs (h : List.Forall₂ Frame.EndsAs fs us) : ∀ u ∈ us, u.captures.Nodup := by
  induction h with
  | nil => exact fun _ hu => absurd hu List.not_mem_nil
  | cons hfu _ ih => exact List.forall_mem_cons.mpr ⟨hfu.distinct, ih⟩

theorem capturesOf_endsAs (h : List.Forall₂ Frame.EndsAs fs us) :
    List.Forall₂ List.IsPrefix (capturesOf fs) (us.map CodeUnit.captures) :=
  List.forall₂_map_left_iff.mpr (List.forall₂_map_right_iff.mpr (h.imp fun _ _ hfu => hfu.grows.captures))

/-- The units under construction end as units of the module that has this main unit, each of
them closed over where the one around it stops now. -/
def EndsIn (main : CodeUnit) (fs : List Frame) : Prop :=
  ∃ us, main.unitsAt? (addressOf fs.tail) = some us ∧ List.Forall₂ Frame.EndsAs fs us

variable {main : CodeUnit}

/-- A unit that has been closed over is found there. -/
theorem closedAt?_closing {defaults : UInt8} {line : UInt64}
    (h : (g.closing v defaults line).toUnit.Grows u)
    (hroom : g.chunk.constants.size < Chunk.poolLimit) : u.closedAt? g.chunk.size = some v := by
  have hcode : u.code[g.chunk.size]? = some (.closure (UInt16.ofNat g.chunk.constants.size) defaults) :=
    h.code _ _ Array.getElem?_push_size rfl
  have hpool : u.constants[g.chunk.constants.size]? = some (.function v) := by
    refine getElem?_of_longer h.pool ?_
    show (g.chunk.constants.push (.function v)).toList[g.chunk.constants.size]? = _
    rw [Array.getElem?_toList]
    exact Array.getElem?_push_size
  have hindex : (UInt16.ofNat g.chunk.constants.size).toNat = g.chunk.constants.size :=
    UInt16.toNat_ofNat_of_lt' hroom
  simp only [CodeUnit.closedAt?, hcode, bind, Option.bind_some, Instr.closes?, hindex, hpool]

/-- Units only grow, so an earlier state ends in the same unit. -/
theorem EndsIn.of_move (h : Move K fs gs) (hends : EndsIn main gs) : EndsIn main fs := by
  obtain ⟨us, hat, hus⟩ := hends
  -- a move makes the frames grow, starts a unit or closes one
  rcases h.cases with ⟨hgrow, haddress⟩ | ⟨f, g, outer, rfl, rfl⟩ | ⟨f, g, outer, _, _, rfl, hroom, rfl⟩
  · refine ⟨us, haddress ▸ hat, ?_⟩
    clear hat haddress h
    induction hgrow generalizing us with
    | nil => exact hus
    | cons hfg _ ih =>
      cases hus with
      | cons hgu hrest => exact .cons ⟨hfg.trans hgu.grows, hgu.distinct⟩ (ih _ hrest)
  · obtain ⟨v, u, us', rfl, haround, -⟩ := CodeUnit.unitsAt?_cons hat
    exact ⟨u :: us', haround, (List.forall₂_cons.mp hus).2⟩
  · cases hus with
    | @cons _ u _ us' hgu hrest =>
      -- the unit that is closed is found again at the instruction that makes its closure
      have hclosed := closedAt?_closing hgu.grows hroom
      refine ⟨f.toUnit :: u :: us', ?_, .cons ⟨.refl _, f.captures.distinct⟩
        (.cons ⟨(g.grows_closing _ _ _).trans hgu.grows, hgu.distinct⟩ hrest)⟩
      have haround : main.unitsAt? (addressOf outer) = some (u :: us') := hat
      show main.unitsAt? (g.chunk.size :: addressOf outer) = _
      simp only [CodeUnit.unitsAt?, haround, hclosed, Option.map_some]

/-- All that is on the way to the finished main unit ends in the module. -/
theorem EndsIn.of_moved {last : Frame} (h : Moved K fs [last]) : EndsIn last.toUnit fs := by
  induction h using Relation.ReflTransGen.head_induction_on with
  | refl => exact ⟨[last.toUnit], rfl, .cons ⟨.refl _, last.captures.distinct⟩ .nil⟩
  | head hstep _ ih => exact ih.of_move hstep

theorem Progress.ends {s s' : State} (h : Progress K s s') (hclean : K.clean) (hlast : s'.outer = []) :
    EndsIn s'.frame.toUnit s.chain := by
  have hchain : s'.chain = [s'.frame] := by rw [State.chain, hlast]
  exact .of_moved (hchain ▸ h.moves hclean)

/-- If no unit of a module captures too much, those around a place in it do not. -/
theorem captures_of_unitsAt? {address : List Nat} {k : Nat}
    (hat : main.unitsAt? address = some (u :: us)) (h : ∀ u ∈ main.units, u.captures.length ≤ k) :
    ∀ c ∈ (u :: us).map CodeUnit.captures, c.length ≤ k := by
  intro c hc
  obtain ⟨v, hv, rfl⟩ := List.mem_map.mp hc
  exact h v ((CodeUnit.within_of_unitsAt? hat).mem_units v hv)

/-- A node that is reached on the way to a module is entered without a report, and what is laid
down until it is left ends in the unit that is found in the module where it was reached. -/
theorem endsAs_of_visited {p : Program} {o : Options} {m : Module} {n : Nat} {e : Expr}
    {position : Position} {s : State} (h : compile p o = .ok m) (hv : Visited p o n e position s) :
    compilerAt o n e position s = (compileEntered e position (compilerAt o (n + 1)) s.enter).leaving ∧
      s.Proper .silent ∧
      (compilerAt o n e position s).reports = [] ∧
      Answered .silent s (compilerAt o n e position s).answer ∧
      ∃ u us, m.main.unitsAt? (addressOf s.outer) = some (u :: us) ∧
        List.Forall₂ Frame.EndsAs (compilerAt o n e position s).answer.2.chain (u :: us) := by
  rcases compile_cases p o with ⟨hreports, hok⟩ | ⟨-, herror⟩
  · cases h.symm.trans hok
    have hallows : ∀ {n e position s}, Visited p o n e position s → Setting.silent.Allows e.kind s :=
      fun _ => Setting.silent_allows _ _
    have hstart : (startState o).Proper .silent := proper_startState fun _ _ => trivial
    obtain ⟨hto, hanswered, hfrom⟩ := progress_of_visited hallows (fun _ => hreports) hstart hv
    obtain ⟨-, ⟨hunit, hlast⟩, -⟩ := progress_layProgram hallows (fun _ => hreports) hstart
    have hn := hv.entered hto.proper trivial hreports
    refine ⟨compilerAt_entered hv.nesting.1 hn e position, hto.proper, List.subset_nil.mp (hreports ▸ hv.reports),
      hanswered, ?_⟩
    obtain ⟨us, hat, hus⟩ := hunit ▸ hfrom.ends trivial hlast
    rw [State.chain, List.tail_cons,
      addressOf_congr (hanswered.kept.outer.imp fun _ _ hfg => hfg.chunk_eq)] at hat
    cases hus with
    | cons hfu hrest => exact ⟨_, _, hat, .cons hfu hrest⟩
  · cases h.symm.trans herror

end Codegen

end Strand
