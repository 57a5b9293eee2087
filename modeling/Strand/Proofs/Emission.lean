import Strand.Proofs.Laying

/-!
# The steps that lay down code

One rule for each primitive step of code generation. Aiming jumps is where the flat
code and the tree part ways for a moment: the instructions are already there and only
their distances change, which closes a block around everything laid down since the
start.
-/

namespace Strand.Codegen

open Scheme (op atHeight block looped back pooled change)

variable {p : Program} {α β : Type} {s s' : State} {x : Scheme} {π : List (Label × Nat)}
  {span : Span} {f : Frame}

variable {i : Instr} {line : UInt64} {l : Label} {code : Array Instr} {os : List Nat} {t : Tree}
  {b : Bool}

/-! ## Instructions -/

theorem Frame.Sound.emit (h : f.Sound p) (i : Instr) (line : UInt64) : (f.emit i line).Sound p where
  macros := h.macros
  units := h.units
  receiver := h.receiver
  named := h.named
  loops := fun l hl => by
    have hsize : (f.emit i line).chunk.size = f.chunk.size + 1 := Array.size_push ..
    exact (h.loops l hl).mono (by omega)
  pool := h.pool

theorem Inv.withFrame (h : Inv p s) (hf : f.Sound p) : Inv p (s.withFrame f) :=
  ⟨h.refused, hf, h.outer⟩

theorem beside_emit (s : State) (i : Instr) (line : UInt64) :
    Beside s (s.withFrame (s.frame.emit i line)) :=
  ⟨rfl, rfl, rfl, rfl, .refl _, .refl _, List.prefix_rfl, rfl⟩

theorem ran_emit (hs : Inv p s) (hi : i.isJump = false) (line : UInt64) :
    Ran p s (op i) [] (s.withFrame (s.frame.emit i line)) :=
  ⟨.op i, .emit s hi line, fun _ _ => ⟨rfl, rfl⟩, beside_emit s i line,
    hs.withFrame (hs.frame.emit i line)⟩

theorem does_emit (hi : i.isJump = false) : Does p (emit i line) fun _ => op i :=
  fun _ hs => ensures_modifyFrame (ran_emit hs hi line)

theorem ran_emitTimes (hi : i.isJump = false) (line : UInt64) : ∀ (n : Nat) {s : State}, Inv p s →
      Ran p s (Scheme.times i n) [] (s.withFrame (s.frame.emitTimes i line n))
  | 0, _, hs => Ran.refl hs
  | n + 1, s, hs =>
    (ran_emit hs hi line).append
      (ran_emitTimes hi line n (s := s.withFrame (s.frame.emit i line)) (ran_emit hs hi line).inv)

/-- A change of the frame that is not code. -/
theorem ran_change (hs : Inv p s) {g : Scene → Scene} (hf : f.Sound p)
    (hchunk : f.chunk = s.frame.chunk) (hloops : f.loops = s.frame.loops)
    (hscene : f.scene = g s.frame.scene) (hkind : f.kind = s.frame.kind)
    (hheader : f.header = s.frame.header) (howner : f.owner = s.frame.owner)
    (hreturn : f.returnType = s.frame.returnType) : Ran p s (change g) [] (s.withFrame f) :=
  ⟨.nil, .nothing hchunk hloops, fun _ _ => ⟨rfl, hscene⟩,
    ⟨hkind, hheader, howner, hreturn, .refl _, .refl _, by
      have hpool : (s.withFrame f).pool = s.pool := congrArg (·.constants.toList) hchunk
      exact hpool ▸ List.prefix_rfl, rfl⟩,
    hs.withFrame hf⟩

theorem does_emitTimes {n : Nat} (hi : i.isJump = false) :
    Does p (modifyFrame fun f => f.emitTimes i line n) fun _ => Scheme.times i n :=
  fun _ hs => ensures_modifyFrame (ran_emitTimes hi line n hs)

theorem does_setHeight {n : Nat} : Does p (setHeight n) fun _ => atHeight n := fun _ hs =>
  ensures_modifyFrame <|
    ran_change hs ⟨hs.frame.macros, hs.frame.units, hs.frame.receiver, hs.frame.named, hs.frame.loops, hs.frame.pool⟩
      rfl rfl rfl rfl rfl rfl rfl

theorem does_openScope : Does p openScope fun _ => change Scene.openScope := fun _ hs =>
  ensures_modifyFrame <|
    ran_change hs ⟨hs.frame.macros, hs.frame.units, hs.frame.receiver, hs.frame.named, hs.frame.loops, hs.frame.pool⟩
      rfl rfl rfl rfl rfl rfl rfl

/-! ## The end of a block -/

theorem length_takeWhile_append_le {q : Var → Bool} {v : Var} (hv : q v = false) :
    ∀ init : List Var, ((init ++ [v]).takeWhile q).length ≤ init.length
  | [] => by simp [hv]
  | a :: rest => by
    have hrest := length_takeWhile_append_le hv rest
    rw [List.cons_append, List.takeWhile_cons]
    split
    · simp only [List.length_cons]
      omega
    · exact Nat.zero_le _

/-- The receiver was declared outside of all blocks, so closing one does not lose it. -/
theorem Scene.HoldsReceiver.leave {c : Scene} (h : c.HoldsReceiver) : c.leave.HoldsReceiver := by
  obtain ⟨v, hlast, hname, hdropped, hdepth⟩ := h
  obtain ⟨init, hinit⟩ := List.getLast?_eq_some_iff.mp hlast
  have hcount : c.closeCount ≤ init.length := by
    unfold Scene.closeCount
    rw [hinit]
    exact length_takeWhile_append_le (by simp [hdepth]) init
  refine ⟨v, ?_, hname, hdropped, hdepth⟩
  unfold Scene.leave
  rw [List.getLast?_drop, if_neg (by rw [hinit, List.length_append, List.length_singleton]; omega),
    hlast]

/-- Only the receiver depends on the locals. -/
theorem Frame.Sound.of_scene {g : Frame} (h : f.Sound p) (hchunk : g.chunk = f.chunk)
    (hloops : g.loops = f.loops) (hinlines : ∀ m ∈ g.inlines, m ∈ f.inlines)
    (hkind : g.kind = f.kind) (hscene : f.scene.HoldsReceiver → g.scene.HoldsReceiver)
    (hnamed : Unshadowed p → f.scene.NamesReceiver → g.scene.NamesReceiver) : g.Sound p where
  macros := fun m hm => h.macros m (hinlines m hm)
  units := by
    rw [hchunk]
    exact h.units
  receiver := fun hkeeps hrec => hscene (h.receiver hkeeps (by rw [← hkind]; exact hrec))
  named := fun hnames => hnamed hnames (h.named hnames)
  loops := by
    rw [hloops, hchunk]
    exact h.loops
  pool := by
    rw [hchunk]
    exact h.pool

theorem does_closeScope {carry : Bool} : Does p (closeScope carry line) fun _ => Scheme.leave carry := by
  intro s hs
  refine ensures_modifyFrame (Ran.reading ?_)
  have hpop : (if carry then Instr.popUnder else Instr.pop).isJump = false := by
    cases carry <;> rfl
  have htimes := ran_emitTimes hpop line s.scene.closeCount hs
  have hcount : s.scene.closeCount =
      (s.frame.locals.takeWhile fun l => s.frame.depth - 1 < l.depth).length :=
    Frame.closeCount_scene s.frame
  have hscene : (s.frame.closeScope carry line).scene = _ := Frame.scene_closeScope ..
  rw [← Frame.scene_emitTimes _ line] at hscene
  -- what is left to do is to forget the block, which is no code
  refine htimes.closed (ran_change htimes.inv ?_ ?_ ?_ hscene ?_ ?_ ?_ ?_)
  · refine htimes.inv.frame.of_scene ?_ ?_ ?_ ?_ (fun h => by rw [hscene]; exact h.leave) fun _ h => ?_
    · rw [hcount]; rfl
    · rw [hcount]; rfl
    · intro m hm
      rw [hcount]
      exact (List.mem_filter.mp hm).1
    · rw [hcount]; rfl
    · rw [hscene]
      exact fun v hv => h v (List.mem_of_mem_drop hv)
  all_goals
    rw [hcount]
    rfl

/-! ## Jumps -/

section

variable {f : Nat → Build β} {Q : β → State → Prop}

theorem ran_jump (hs : Inv p s) (kind : JumpKind) (hl : l.isLocal = true) (line : UInt64) :
    Ran p s (.jump kind l) [(l, s.frame.chunk.size)]
      (s.withFrame (s.frame.emit (kind.instr Instr.unpatched) line)) :=
  ⟨.jump kind l, .jump s kind (Label.ofLoop_of_isLocal hl) (Label.ne_start hl) line,
    fun _ _ => ⟨rfl, rfl⟩, beside_emit s _ line, hs.withFrame (hs.frame.emit _ line)⟩

/-- A jump that comes last. -/
theorem Ran.jumpLast (h : Ran p s x π s') (kind : JumpKind) (l : Label) (hl : l.isLocal = true) :
    Ensures s' (emitJump kind.instr line) fun o s'' =>
      Ran p s (x ++ .jump kind l) (π ++ [(l, o)]) s'' :=
  fun _ => h.append (ran_jump h.inv kind hl line)

/-- A jump that is to be aimed later. -/
theorem Ran.jump (h : Ran p s x π s') (kind : JumpKind) (l : Label) (hl : l.isLocal = true)
    (hf : ∀ o s'', Ran p s (x ++ .jump kind l) (π ++ [(l, o)]) s'' → Ensures s'' (f o) Q) :
    Ensures s' (emitJump kind.instr line >>= f) Q :=
  (h.jumpLast kind l hl).bind hf

/-- A jump that comes first. -/
theorem Ran.jumpFirst (hs : Inv p s) (kind : JumpKind) (l : Label) (hl : l.isLocal = true)
    (hf : ∀ o s', Ran p s (.jump kind l) [(l, o)] s' → Ensures s' (f o) Q) :
    Ensures s (emitJump kind.instr line >>= f) Q :=
  Ensures.bind (Q := fun o s' => Ran p s (.jump kind l) [(l, o)] s')
    (fun _ => ran_jump hs kind hl line) hf

end

/-! ## Aiming -/

/-- The same state with other code of the same size. -/
def State.withCode (s : State) (code : Array Instr) : State :=
  s.withFrame { s.frame with chunk := { s.frame.chunk with code } }

/-- Aiming one jump: what is reported otherwise is of consequence. -/
theorem ensures_patchJump {o : Nat} : Ensures s (patchJump o span) fun _ s' =>
      ∃ code, s' = s.withCode code ∧ code.size = s.frame.chunk.size ∧
        Tree.Aimed s.frame.chunk.code code [o] s.frame.chunk.size := by
  refine Ensures.ofGet ?_
  cases hfault : s.frame.chunk.patchFault? o with
  | some fault => exact ensures_refused (by simp [Cause.kind])
  | none =>
    refine ensures_modifyFrame ⟨(s.frame.chunk.aimJump o).code, rfl, Array.size_modify .., ?_⟩
    unfold Chunk.patchFault? at hfault
    split at hfault
    · rename_i hdistance
      have ho : o < s.frame.chunk.size := by
        cases hcode : s.frame.chunk.code[o]? with
        | none => simp [hcode] at hfault
        | some i => exact (Array.getElem?_eq_some_iff.mp hcode).1
      -- the largest distance stands for a jump that is not aimed yet, so it is refused as well
      have hbound : s.frame.chunk.distanceFrom o < 4294967295 := hdistance
      have hnat : (UInt32.ofNat (s.frame.chunk.distanceFrom o)).toNat =
          s.frame.chunk.distanceFrom o :=
        UInt32.toNat_ofNat_of_lt' (Nat.lt_trans hbound (by decide))
      refine ⟨fun o' ho' => ?_, fun o' ho' => ?_⟩
      · rw [List.mem_singleton.mp ho']
        refine ⟨UInt32.ofNat (s.frame.chunk.distanceFrom o), fun h => ?_, ?_, ?_⟩
        · rw [h] at hnat
          exact Nat.ne_of_lt hbound hnat.symm
        · rw [hnat]
          unfold Chunk.distanceFrom
          unfold Chunk.size at ho ⊢
          omega
        · exact (Array.getElem?_modify ..).trans (if_pos rfl)
      · have hne : o ≠ o' := fun h => ho' (by rw [h]; exact .head _)
        exact (Array.getElem?_modify ..).trans (if_neg hne)
    · cases hfault

theorem Tree.Aimed.trans {code' code'' : Array Instr} {os' : List Nat} {target : Nat}
    (h : Tree.Aimed code code' os target) (h' : Tree.Aimed code' code'' os' target) :
    Tree.Aimed code code'' (os ++ os') target where
  aimed := fun o ho => by
    by_cases hin : o ∈ os'
    · obtain ⟨d, hd, htarget, hcode⟩ := h'.aimed o hin
      refine ⟨d, hd, htarget, ?_⟩
      by_cases hin' : o ∈ os
      · -- aimed twice, at the same place
        obtain ⟨d', _, htarget', hcode'⟩ := h.aimed o hin'
        have hsame : d' = d := UInt32.toNat_inj.mp (by omega)
        rw [hcode, hcode', hsame]
        cases code[o]? with
        | none => rfl
        | some i => cases i <;> rfl
      · rw [hcode, h.others o hin']
    · obtain ⟨d, hd, htarget, hcode⟩ := h.aimed o ((List.mem_append.mp ho).resolve_right hin)
      exact ⟨d, hd, htarget, by rw [h'.others o hin, hcode]⟩
  others := fun o ho => by
    rw [h'.others o fun hin => ho (List.mem_append_right _ hin),
      h.others o fun hin => ho (List.mem_append_left _ hin)]

theorem ensures_patchJumps : ∀ (os : List Nat) {s : State},
    Ensures s (patchJumps os span) fun _ s' =>
      ∃ code, s' = s.withCode code ∧ code.size = s.frame.chunk.size ∧
        Tree.Aimed s.frame.chunk.code code os s.frame.chunk.size
  | [], s =>
    ensures_pure ⟨s.frame.chunk.code, rfl, rfl, ⟨nofun, fun _ _ => rfl⟩⟩
  | o :: rest, s => by
    refine Ensures.bind ensures_patchJump ?_
    rintro _ s' ⟨code, rfl, hsize, haimed⟩
    refine (ensures_patchJumps rest).imp ?_
    rintro _ s'' ⟨code', rfl, hsize', haimed'⟩
    have hsame : (s.withCode code).frame.chunk.size = s.frame.chunk.size := hsize
    rw [hsame] at haimed' hsize'
    exact ⟨code', rfl, hsize', haimed.trans haimed'⟩

/-- Aiming exactly the jumps that use a label closes a block. -/
theorem Laid.close (h : Laid s t π s')
    (hadmits : (sitesOf s.frame.loops).Admits l) {s'' : State} {ρ : List (Label × Nat)}
    (hos : ∀ o, o ∈ os ↔ o ∈ t.uses l s.frame.chunk.size)
    (hsize : s''.frame.chunk.size = s'.frame.chunk.size)
    (haimed : Tree.Aimed s'.frame.chunk.code s''.frame.chunk.code os s'.frame.chunk.size)
    (hloops : Noted ((Tree.block l t).uses .exit s.frame.chunk.size)
      ((Tree.block l t).uses .again s.frame.chunk.size) s.frame.loops s''.frame.loops)
    (hpending : ∀ m, m.ofLoop = false →
      ∀ o, o ∈ (Tree.block l t).uses m s.frame.chunk.size ↔ (m, o) ∈ ρ) : Laid s (.block l t) ρ s'' := by
  refine ⟨hsize.trans h.size, fun o ho => ?_, ?_, hloops, hpending⟩
  · have hout : o ∉ os := fun hin => by
      have := (Tree.mem_uses ((hos o).mp hin)).1
      omega
    rw [haimed.others o hout, h.before o ho]
  · have hsite : sitesOf s.frame.loops l = none := if_neg hadmits.ne_start
    have hcode := h.code.aim hadmits.ne_start haimed hsite fun o _ _ => hos o
    rw [h.size] at hcode
    exact ⟨hadmits, hcode⟩

theorem Laid.aim (h : Laid s t π s') (hl : l.ofLoop = false)
    (hstart : l ≠ .start) (hos : ∀ o, o ∈ os ↔ (l, o) ∈ π) (hsize : code.size = s'.frame.chunk.size)
    (haimed : Tree.Aimed s'.frame.chunk.code code os s'.frame.chunk.size) :
    Laid s (.block l t) (π.filter fun e => e.1 ≠ l) (s'.withCode code) := by
  have hexit : l ≠ .exit := by rintro rfl; cases hl
  have hagain : l ≠ .again := by rintro rfl; cases hl
  refine h.close (Sites.admits_of_ofLoop hl hstart _) (fun o => by rw [hos, ← h.pending l hl]) hsize
    haimed ?_ fun m hm o => ?_
  · rw [Tree.uses, Tree.uses, if_neg hexit, if_neg hagain]
    exact h.loops
  · rw [Tree.uses, List.mem_filter]
    by_cases hlm : l = m
    · simp [hlm]
    · rw [if_neg hlm, h.pending m hm o]
      simp [Ne.symm hlm]

theorem Inv.withCode (h : Inv p s) (hsize : code.size = s.frame.chunk.size) : Inv p (s.withCode code) :=
  h.withFrame
    { macros := h.frame.macros
      units := h.frame.units
      receiver := h.frame.receiver
      named := h.frame.named
      loops := fun l hl => by
        have hsame : ({ s.frame.chunk with code } : Chunk).size = s.frame.chunk.size := hsize
        rw [hsame]
        exact h.frame.loops l hl
      pool := h.frame.pool }

theorem beside_withCode (s : State) (code : Array Instr) : Beside s (s.withCode code) :=
  ⟨rfl, rfl, rfl, rfl, .refl _, .refl _, List.prefix_rfl, rfl⟩

theorem Ran.aim (h : Ran p s x π s') (hl : l.isLocal = true) (hos : ∀ o, o ∈ os ↔ (l, o) ∈ π)
    (hsize : code.size = s'.frame.chunk.size)
    (haimed : Tree.Aimed s'.frame.chunk.code code os s'.frame.chunk.size) :
    Ran p s (block l x) (π.filter fun e => e.1 ≠ l) (s'.withCode code) := by
  obtain ⟨t, hlaid, hx, hbeside, hinv⟩ := h
  exact ⟨.block l t, hlaid.aim (Label.ofLoop_of_isLocal hl) (Label.ne_start hl) hos hsize haimed,
    fun k hk => ⟨t, hx k hk, rfl⟩, hbeside.trans (beside_withCode s' code), hinv.withCode hsize⟩

section

variable {f : Unit → Build β} {Q : β → State → Prop} {span : Span}

/-- The end of a block that several jumps may be sent to. -/
theorem Ran.patchAll (h : Ran p s x π s') (l : Label) (hl : l.isLocal = true)
    (hos : ∀ o, o ∈ os ↔ (l, o) ∈ π)
    (hf : ∀ s'', Ran p s (block l x) (π.filter fun e => e.1 ≠ l) s'' → Ensures s'' (f ()) Q) :
    Ensures s' (patchJumps os span >>= f) Q := by
  refine (ensures_patchJumps os).bind ?_
  rintro _ s'' ⟨code, rfl, hsize, haimed⟩
  exact hf _ (h.aim hl hos hsize haimed)

/-- The end of a block that one jump is sent to. -/
theorem Ran.patch (h : Ran p s x π s') (l : Label) {o : Nat}
    (hl : l.isLocal = true)
    (hos : ∀ o', o' = o ↔ (l, o') ∈ π)
    (hf : ∀ s'', Ran p s (block l x) (π.filter fun e => e.1 ≠ l) s'' → Ensures s'' (f ()) Q) :
    Ensures s' (patchJump o span >>= f) Q := by
  refine ensures_patchJump.bind ?_
  rintro _ s'' ⟨code, rfl, hsize, haimed⟩
  exact hf _ (h.aim hl (fun o' => by rw [List.mem_singleton, hos]) hsize haimed)

end

/-! ## Loops -/

/-- A loop that starts here. -/
def State.loopHere (s : State) (continuesBack : Bool) : Loop :=
  let start := s.frame.chunk.size
  { start, baseHeight := s.frame.height
    continueTarget := if continuesBack then some start else none }

/-- The same state with other loops. -/
def State.withLoops (s : State) (loops : List Loop) : State :=
  s.withFrame { s.frame with loops }

/-- The state in which the body of a loop that starts here is laid down. -/
def State.entered (s : State) (continuesBack : Bool) : State :=
  s.withLoops (s.loopHere continuesBack :: s.frame.loops)

theorem Inv.entered (h : Inv p s) (b : Bool) : Inv p (s.entered b) :=
  h.withFrame
    { macros := h.frame.macros
      units := h.frame.units
      receiver := h.frame.receiver
      named := h.frame.named
      loops := fun l hl => by
        rcases List.mem_cons.mp hl with rfl | hl
        · refine ⟨Nat.le_refl _, fun t ht => ?_⟩
          cases b <;> cases ht
          rfl
        · exact h.frame.loops l hl
      pool := h.frame.pool }

theorem scene_entered (s : State) (b : Bool) :
    (s.entered b).scene = { s.scene with loop := some ⟨s.scene.height, b⟩ } := by
  cases b <;> rfl

theorem sites_entered (s : State) (b : Bool) :
    sitesOf (s.entered b).frame.loops = (sitesOf s.frame.loops).set .start s.frame.chunk.size := by
  funext l
  by_cases hl : l = .start
  · rw [hl, Sites.set_self]
    rfl
  · rw [Sites.set_of_ne hl, sitesOf, sitesOf, if_neg hl, if_neg hl]

theorem ensures_beginLoop {Q : Nat → State → Prop}
    (h : Q s.frame.chunk.size (s.entered b)) : Ensures s (beginLoop b) Q :=
  fun _ => h

/-- The loops of a state inside a loop: the jumps noted with the innermost one are those
laid down since it was entered. -/
theorem Laid.loops_entered (h : Laid (s.entered b) t π s') : s'.frame.loops =
      { s.loopHere b with
        breakJumps := (t.uses .exit s.frame.chunk.size).reverse
        continueJumps := (t.uses .again s.frame.chunk.size).reverse } :: s.frame.loops := by
  have hloops := h.loops.of_cons
  simp only [State.loopHere, List.append_nil] at hloops
  exact hloops

/-- Aiming the jumps of `continue` that were laid down since the loop was entered. -/
theorem Laid.closeAgain (h : Laid (s.entered b) t π s') (hsize : code.size = s'.frame.chunk.size)
    (haimed : Tree.Aimed s'.frame.chunk.code code (t.uses .again s.frame.chunk.size)
      s'.frame.chunk.size) : Laid (s.entered b) (.block .again t) π
      ((s'.withLoops ({ s.loopHere b with
        breakJumps := (t.uses .exit s.frame.chunk.size).reverse } :: s.frame.loops)).withCode
        code) := by
  have hadmits : (sitesOf (s.entered b).frame.loops).Admits .again :=
    ⟨by decide, by decide, fun _ => by
      rw [sites_entered, Sites.set_self]
      exact Option.some_ne_none _⟩
  refine h.close hadmits (fun o => Iff.rfl) hsize haimed ?_ fun m hm o => ?_
  · have hnoted := Noted.inside (t.uses .exit s.frame.chunk.size) [] (s.loopHere b) s.frame.loops
    simp only [State.loopHere, List.append_nil, List.reverse_nil] at hnoted
    exact hnoted
  · have hm' : Label.again ≠ m := by rintro rfl; cases hm
    rw [Tree.uses, if_neg hm', h.pending m hm]

/-- Leaving a loop: the jumps of `continue` and `break` that were laid down since it was
entered are aimed at its end. -/
theorem Laid.leaveLoop (h : Laid (s.entered b) t [] s') {s'' : State}
    (hsize : s''.frame.chunk.size = s'.frame.chunk.size)
    (hagain : Tree.Aimed s'.frame.chunk.code code (t.uses .again s.frame.chunk.size)
      s'.frame.chunk.size) (hexit : Tree.Aimed code s''.frame.chunk.code (t.uses .exit s.frame.chunk.size)
      s'.frame.chunk.size) (hloops : s''.frame.loops = s.frame.loops) : Laid s (.loop t) [] s'' where
  size := hsize.trans h.size
  before := fun o ho => by
    have hout (l : Label) : o ∉ t.uses l s.frame.chunk.size := fun hin => by
      have := (Tree.mem_uses hin).1
      omega
    rw [hexit.others o (hout .exit), hagain.others o (hout .again)]
    exact h.before o ho
  code := by
    have hcode := h.code
    rw [sites_entered] at hcode
    have hfirst := hcode.aim (by decide) hagain rfl fun o _ _ => Iff.rfl
    have hboth := hfirst.aim (by decide) hexit rfl fun o _ _ => Iff.rfl
    rw [h.size] at hboth
    exact hboth
  loops := by
    rw [hloops]
    exact .nothing _
  pending := fun l hl o => by
    rw [Tree.uses, if_neg (by rw [hl]; exact Bool.false_ne_true)]
    exact h.pending l hl o

theorem scene_withLoops {l l' : Loop} {rest : List Loop} (h : s.frame.loops = l :: rest)
    (hscene : l'.scene = l.scene) (rest' : List Loop) :
    (s.withLoops (l' :: rest')).scene = s.scene := by
  unfold State.scene Frame.scene
  rw [h]
  simp only [State.withLoops, State.withFrame, List.head?_cons, Option.map_some, hscene]

theorem beside_withLoops (s : State) (loops : List Loop) : Beside s (s.withLoops loops) :=
  ⟨rfl, rfl, rfl, rfl, .refl _, .refl _, List.prefix_rfl, rfl⟩

theorem Inv.withLoops (h : Inv p s) {loops : List Loop}
    (hplaced : ∀ l ∈ loops, l.Placed s.frame.chunk.size) : Inv p (s.withLoops loops) :=
  h.withFrame ⟨h.frame.macros, h.frame.units, h.frame.receiver, h.frame.named, hplaced, h.frame.pool⟩

/-- Where the jumps of `continue` land that were laid down since the loop was entered. -/
theorem Ran.patchContinues (h : Ran p (s.entered b) x π s') {f : Unit → Build β}
    {Q : β → State → Prop}
    (hf : ∀ s'', Ran p (s.entered b) (block .again x) π s'' → Ensures s'' (f ()) Q) :
    Ensures s' (Codegen.patchContinues span >>= f) Q := by
  obtain ⟨t, hlaid, hx, hbeside, hinv⟩ := h
  have hloops := hlaid.loops_entered
  refine Ensures.bind (Ensures.ofGet ?_) fun _ => hf
  rw [hloops]
  refine Ensures.bind (ensures_modifyFrame (Q := fun _ s'' => s'' = _) rfl) ?_
  rintro _ _ rfl
  refine (ensures_patchJumps _).imp ?_
  rintro _ _ ⟨code, rfl, hsize, haimed⟩
  rw [List.reverse_reverse] at haimed
  have hplaced : ∀ l ∈ s'.frame.loops, l.Placed s'.frame.chunk.size := hinv.frame.loops
  rw [hloops] at hplaced
  refine ⟨.block .again t, hlaid.closeAgain hsize haimed, fun k hk => ⟨t, ?_, rfl⟩, ?_, ?_⟩
  · have hscene := hx k hk
    rw [← scene_withLoops hloops rfl s.frame.loops] at hscene
    exact hscene
  · exact hbeside.trans ((beside_withLoops _ _).trans (beside_withCode _ _))
  · refine Inv.withCode (hinv.withLoops fun l hl => ?_) hsize
    rcases List.mem_cons.mp hl with rfl | hl
    · have hfirst := hplaced _ (.head _)
      exact ⟨hfirst.start_le, hfirst.target⟩
    · exact hplaced l (.tail _ hl)

theorem patchJumps_append (os os' : List Nat) (span : Span) :
    patchJumps (os ++ os') span = (patchJumps os span >>= fun _ => patchJumps os' span) := by
  simp only [patchJumps, List.forM_eq_forM, List.forM_append]

/-- A loop that was entered at `s` is closed. -/
theorem ensures_endLoop (hs : Inv p s) (h : Ran p (s.entered b) x [] s') :
    Ensures s' (endLoop span) fun _ s'' => Ran p s (looped b x) [] s'' := by
  obtain ⟨t, hlaid, hx, hbeside, hinv⟩ := h
  have hloops := hlaid.loops_entered
  refine Ensures.ofGet ?_
  rw [hloops]
  refine Ensures.bind (ensures_modifyFrame (Q := fun _ s'' => s'' = s'.withLoops s.frame.loops) rfl)
    ?_
  rintro _ _ rfl
  rw [List.reverse_reverse, List.reverse_reverse, patchJumps_append, bind_assoc]
  -- jumps that continue the loop are aimed first, then those that leave it, all to its end
  refine Ensures.bind (ensures_patchJumps _) ?_
  rintro _ _ ⟨code, rfl, hsize, haimed⟩
  refine Ensures.bind (ensures_patchJumps _) ?_
  rintro _ _ ⟨code', rfl, hsize', haimed'⟩
  refine ensures_modifyFrame ?_
  have hends : ((s'.withLoops s.frame.loops).withCode code).frame.chunk.size = s'.frame.chunk.size :=
    hsize
  rw [hends] at haimed'
  refine ⟨_, hlaid.leaveLoop (hsize'.trans hsize) haimed haimed' rfl, fun k hk => ⟨t, s'.scene, ?_, rfl, ?_⟩, ?_, ?_⟩
  · have hscene := hx k hk
    rw [scene_entered] at hscene
    exact hscene
  · rfl
  · exact ⟨hbeside.kind, hbeside.header, hbeside.owner, hbeside.returnType, hbeside.outer,
      hbeside.decls, hbeside.pool, hbeside.typeCheck⟩
  · have hle : s.frame.chunk.size ≤ code'.size := by
      have : code'.size = s'.frame.chunk.size := hsize'.trans hsize
      rw [this, hlaid.size]
      exact Nat.le_add_right ..
    exact ⟨hinv.refused, ⟨hinv.frame.macros, hinv.frame.units, hinv.frame.receiver, hinv.frame.named,
      fun l hl => (hs.frame.loops l hl).mono hle, hinv.frame.pool⟩, hinv.outer⟩

/-- Going back to the start of the innermost loop. -/
theorem ensures_emitLoop (hs : Inv p s) {start : Nat}
    (hsite : sitesOf s.frame.loops .start = some start) :
    Ensures s (emitLoop start span) fun _ s' => Ran p s back [] s' := by
  have hle : start ≤ s.frame.chunk.size := by
    obtain ⟨l, hl, rfl⟩ := Option.map_eq_some_iff.mp hsite
    exact (hs.frame.loops l (List.mem_of_mem_head? hl)).start_le
  refine Ensures.bind (ensures_here (Q := fun n s' => n = s.frame.chunk.size ∧ s' = s) ⟨rfl, rfl⟩) ?_
  rintro _ _ ⟨rfl, rfl⟩
  simp only
  split
  · rename_i s' hdistance
    refine ensures_modifyFrame ⟨.back, ?_, fun _ _ => ⟨rfl, ?_⟩, beside_emit s' _ _,
      hs.withFrame (hs.frame.emit _ _)⟩
    · refine ⟨Array.size_push .., fun o ho => Laid.code_push ho, ?_, .nothing _, by simp [Tree.uses]⟩
      refine ⟨start, _, hsite, Array.getElem?_push_size, ?_, hle⟩
      rw [UInt32.toNat_ofNat_of_lt' hdistance]
      omega
    · simp [State.scene, State.withFrame, Frame.scene_emit, Scene.emit, Instr.stackEffect]
  · exact ensures_refused_bind (by simp [Cause.kind])

end Strand.Codegen
