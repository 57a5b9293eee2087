import Strand.Proofs.Moves.Units
import Strand.Proofs.VisitedSearch

/-!
# The indices of captured variables

A node that reads, assigns to or drops a captured variable lays down an instruction with an
index. In the finished unit the index leads, from capture to capture, to the very place where
the name lives, and no other index leads there: two variables that live in different places
are never given the same index.

This holds as long as the captures of a unit can be told apart by an index at all. A unit may
capture more than that, which is not reported, and then all new captures share the last index.
-/

namespace Strand.Codegen

variable {s s' : State} {name : String} {home : Home} {kind : Access} {node : NodeCompiler}
  {e : Expr} {position : Position}

/-! ## Instructions for a name -/

/-- The node reads, assigns to or drops what a name denotes that is no macro. -/
inductive Mentions (s : State) : ExprKind → Access → String → Prop where
  | read {name : String} (h : findInline? name s.chain = none) : Mentions s (.var name) .read name
  | assign {isWeak : Bool} {target value : Expr} {name : String} (ht : target.kind = .var name)
      (h : findInline? name s.chain = none) : Mentions s (.assign isWeak target value) .assign name
  | drop {target : Expr} {name : String} (ht : target.kind = .var name)
      (h : findInline? name s.chain = none) : Mentions s (.drop target) .drop name
  | receiver (h : reachesReceiver s.chain = true) : Mentions s .this .read "this"

theorem Mentions.enter {ekind : ExprKind} (h : Mentions s ekind kind name) :
    Mentions s.enter ekind kind name := by
  cases h with
  | read h => exact .read h
  | assign ht h => exact .assign ht h
  | drop ht h => exact .drop ht h
  | receiver h => exact .receiver h

/-- On the way from `s` to `s'` an instruction was laid down, and its index leads to the home
of a variable. -/
def LaysAccess (kind : Access) (home : Home) (s s' : State) : Prop :=
  ∃ i offset, s.frame.chunk.size ≤ offset ∧ s'.frame.chunk.code[offset]? = some (kind.instr i) ∧
    LeadsHome (capturesOf s'.chain) i home

theorem laysAccess_emit {s1 : State} {i : UInt16} {line : UInt64}
    (hsize : s.frame.chunk.size ≤ s1.frame.chunk.size)
    (hleads : LeadsHome (capturesOf s1.chain) i home) :
    LaysAccess kind home s (s1.withFrame (s1.frame.emit (kind.instr i) line)) :=
  ⟨i, s1.frame.chunk.size, hsize, Array.getElem?_push_size, hleads⟩

theorem LaysAccess.emit (h : LaysAccess kind home s s') (j : Instr) (line : UInt64) :
    LaysAccess kind home s (s'.withFrame (s'.frame.emit j line)) := by
  obtain ⟨i, offset, hsize, hcode, hleads⟩ := h
  obtain ⟨hlt, hi⟩ := Array.getElem?_eq_some_iff.mp hcode
  exact ⟨i, offset, hsize, (Array.getElem?_push_lt hlt).trans (congrArg some hi), hleads⟩

theorem LaysAccess.settle (h : LaysAccess kind home s s') (left : Left) (line : UInt64) :
    LaysAccess kind home s (settle left position line s').answer.2 := by
  cases left with
  | value ty =>
    cases position with
    | value => exact h
    | effect => exact h.emit .pop line
  | nothing ty =>
    cases position with
    | value => exact h.emit .pushNull line
    | effect => exact h
  | asWanted ty => exact h

section

variable {c : Capture} {f : Frame} {outer : List Frame}

theorem resolveName_of_capture (hinline : findInline? name s.chain = none)
    (hlocal : s.frame.findLocal? name = none) (hc : capture? name s.frame s.outer = some (c, f, outer)) :
    resolveName name s = ⟨(some (.captured c), { s with frame := f, outer }), []⟩ := by
  simp only [resolveName, bind, StateT.bind, get, getThe, MonadStateOf.get, StateT.get, pure,
    hinline, hlocal, captureName_of_some hc]
  rfl

theorem answer_checkAssignable (found expected : Ty) (span : Span) (s : State) :
    (checkAssignable found expected span s).answer = ((), s) := by
  unfold checkAssignable
  split <;> rfl

theorem answer_compileAssignName (isWeak : Bool) (target span : Span) (value : Expr)
    (h : resolveName name s = ⟨(some (.captured c), s'), []⟩) :
    (compileAssignName node isWeak name target value span s).answer =
      ((node value .value s').answer.1, (node value .value s').answer.2.withFrame
        ((node value .value s').answer.2.frame.emit (.setUpvalue c.index) span.line)) := by
  simp only [compileAssignName, bind, StateT.bind, h]
  cases c.isConst <;> cases isWeak
  all_goals simp only [Bool.not_true, Bool.not_false, if_true, if_false, Bool.false_eq_true, pure,
    answer_checkAssignable]
  all_goals rfl

/-- The instruction of a node that names a captured variable, when the capture is `c`. -/
theorem laysAccess_of_capture (hnode : ∀ e position (s : State), s.Proper .free →
    s.Kept (node e position s).answer.2) (hs : s.Proper .free) (hm : Mentions s e.kind kind name)
    (hlocal : s.frame.findLocal? name = none) (hc : capture? name s.frame s.outer = some (c, f, outer))
    (hleads : LeadsHome (capturesOf (f :: outer)) c.index home) :
    LaysAccess kind home s (compileEntered e position node s).answer.2 := by
  obtain ⟨hf, -⟩ := List.forall₂_cons.mp (capture?_suspended hc)
  have hchunk : f.chunk = s.frame.chunk := by rw [hf.rest]
  have hsize : s.frame.chunk.size ≤ f.chunk.size := Nat.le_of_eq (congrArg Chunk.size hchunk.symm)
  obtain ⟨ekind, span⟩ := e
  -- what is left to do once the state before the node's own instruction is known
  have hdone (s1 : State) (left : Left) (hsize : s.frame.chunk.size ≤ s1.frame.chunk.size)
      (hleads : LeadsHome (capturesOf s1.chain) c.index home)
      (heq : (compileKind node ekind position span s).answer =
        (left, s1.withFrame (s1.frame.emit (kind.instr c.index) span.line))) :
      LaysAccess kind home s (compileEntered ⟨ekind, span⟩ position node s).answer.2 := by
    show LaysAccess kind home s (settle (compileKind node ekind position span s).answer.1 position
      span.line (compileKind node ekind position span s).answer.2).answer.2
    rw [heq]
    exact (laysAccess_emit hsize hleads).settle left span.line
  cases hm with
  | read hinline =>
    refine hdone { s with frame := f, outer } (.value c.ty) hsize hleads ?_
    have hkind : compileKind node (.var name) position span =
      compileVariable node name span >>= fun ty => pure (.value ty) := rfl
    simp only [hkind, compileVariable, bind, StateT.bind, resolveName_of_capture hinline hlocal hc]
    rfl
  | @assign isWeak target value _ ht hinline =>
    have hkept := hnode value .value { s with frame := f, outer }
      ⟨forall_suspended (capture?_suspended hc) hs.frames, hs.decls, hs.entered⟩
    refine hdone (node value .value { s with frame := f, outer }).answer.2
      (.value (node value .value { s with frame := f, outer }).answer.1)
      (Nat.le_trans hsize hkept.frame.code.length_le) (hleads.of_longer hkept.grown.moreCaptures) ?_
    have hkind : compileKind node (.assign isWeak target value) position span =
      compileAssign node isWeak target value span >>= fun ty => pure (.value ty) := rfl
    have hresolved := resolveName_of_capture hinline hlocal hc
    simp only [hkind, compileAssign, ht, bind, StateT.bind,
      answer_compileAssignName isWeak target.span span value hresolved]
    rfl
  | @drop target _ ht hinline =>
    refine hdone { s with frame := f, outer } (.nothing .void) hsize hleads ?_
    have hkind : compileKind node (.drop target) position span =
      compileDrop node target span >>= fun _ => pure (.nothing .void) := rfl
    simp only [hkind, compileDrop, ht, compileDropName, bind, StateT.bind,
      resolveName_of_capture hinline hlocal hc]
    rfl
  | receiver hreach =>
    refine hdone { s with frame := f, outer } (.value c.ty) hsize hleads ?_
    have hkind : compileKind node .this position span =
      compileThis span >>= fun ty => pure (.value ty) := rfl
    simp only [hkind, compileThis, emitReceiver, bind, StateT.bind, get, getThe, MonadStateOf.get,
      StateT.get, pure, hlocal, hreach, if_true, captureName_of_some hc]
    rfl

/-- A name that lives in a unit around is captured, and the instruction for it leads there. -/
theorem laysAccess_of_mentions (hnode : ∀ e position (s : State), s.Proper .free →
    s.Kept (node e position s).answer.2) (hs : s.Proper .free) (hm : Mentions s e.kind kind name)
    (hlocal : s.frame.findLocal? name = none) (hhome : home? name s.outer = some home) :
    LaysAccess kind home s (compileEntered e position node s).answer.2 := by
  obtain ⟨r, hc⟩ := Option.ne_none_iff_exists'.mp (capture?_ne_none (f := s.frame) hhome)
  obtain ⟨c, f, outer⟩ := r
  obtain ⟨home', hhome', -, -, hleads⟩ := capture?_leads hc
  cases hhome.symm.trans hhome'
  exact laysAccess_of_capture hnode hs hm hlocal hc hleads

end

/-! ## Instructions in a finished module -/

variable {p : Program} {o : Options} {m : Module} {n : Nat}

/-- In the unit of the module that is under construction in `s` stands an instruction that was
not there yet in `s`. Its index, and no other, leads to the given place. -/
def StandsFor (m : Module) (s : State) (kind : Access) (i : UInt16) (place : Nat × CaptureSource) :
    Prop :=
  ∃ u us offset, m.main.unitsAt? (addressOf s.outer) = some (u :: us) ∧ s.frame.chunk.size ≤ offset ∧
    u.code[offset]? = some (kind.instr i) ∧
    ∀ j, leadsTo? ((u :: us).map CodeUnit.captures) j = some place ↔ j = i.toNat

theorem StandsFor.unique {kind' : Access} {i : UInt16} {place place' : Nat × CaptureSource}
    (haddress : addressOf s.outer = addressOf s'.outer) (h : StandsFor m s kind i place)
    (h' : StandsFor m s' kind' i place') : place = place' := by
  obtain ⟨u, us, -, hat, -, -, hleads⟩ := h
  obtain ⟨u', us', -, hat', -, -, hleads'⟩ := h'
  rw [← haddress, hat] at hat'
  cases hat'
  exact Option.some.inj (((hleads _).mpr rfl).symm.trans ((hleads' _).mpr rfl))

/-- What was laid down on the way to a state whose units end as units of the module stands there. -/
theorem LaysAccess.standsFor {main u : CodeUnit} {us : List CodeUnit} {sourceName : String}
    (h : LaysAccess kind home s s') (hat : main.unitsAt? (addressOf s.outer) = some (u :: us))
    (hus : List.Forall₂ Frame.EndsAs s'.chain (u :: us))
    (hfits : ∀ u ∈ main.units, u.captures.length ≤ 65536) :
    ∃ i, StandsFor ⟨sourceName, main⟩ s kind i (home.level, home.source) := by
  obtain ⟨i, offset, hsize, hcode, hleads⟩ := h
  obtain ⟨hfu, -⟩ := List.forall₂_cons.mp hus
  have hdistinct : ∀ c ∈ (u :: us).map CodeUnit.captures, c.Nodup := by
    intro c hc
    obtain ⟨v, hv, rfl⟩ := List.mem_map.mp hc
    exact distinct_of_endsAs hus v hv
  have hleads' := hleads.of_longer (capturesOf_endsAs hus) (captures_of_unitsAt? hat hfits)
  have hinstr : (kind.instr i).forwardDistance? = none := by cases kind <;> rfl
  refine ⟨i, u, us, offset, hat, hsize, hfu.grows.code _ _ hcode hinstr, fun j => ?_⟩
  constructor
  · exact fun hj => leadsTo?_inj hdistinct hj hleads'
  · rintro rfl
    exact hleads'

/-- **Capture indices do not alias.** In a module whose units capture no more than can be told
apart by an index, each node that reads, assigns to or drops a captured variable has its
instruction, and the index of that leads, as the only one of the unit, to where the name lives.
Instructions of one unit with the same index are for variables that live in the same place. -/
theorem capture_indices (h : compile p o = .ok m) (hfits : ∀ u ∈ m.units, u.captures.length ≤ 65536) :
    (∀ n e position s, Visited p o n e position s → ∀ kind name home, Mentions s e.kind kind name →
      s.frame.findLocal? name = none → home? name s.outer = some home →
      ∃ i, StandsFor m s kind i (home.level, home.source)) ∧
    ∀ s s' kind kind' i place place', addressOf s.outer = addressOf s'.outer →
      StandsFor m s kind i place → StandsFor m s' kind' i place' → place = place' := by
  refine ⟨fun n e position s hv kind name home hm hlocal hhome => ?_,
    fun s s' kind kind' i place place' haddress hs hs' => hs.unique haddress hs'⟩
  obtain ⟨hentered, -, -, -, u, us, hat, hus⟩ := endsAs_of_visited h hv
  rw [Module.units_eq] at hfits
  have hlaid : LaysAccess kind home s (compilerAt o n e position s).answer.2 := by
    rw [hentered]
    -- between entering the node and leaving it, it is the code that counts
    have hinside : LaysAccess kind home s.enter
        (compileEntered e position (compilerAt o (n + 1)) s.enter).answer.2 :=
      laysAccess_of_mentions (fun _ _ _ hs => (answered_compileNode _ _ hs).kept.toKept) hv.proper.enter
        hm.enter hlocal hhome
    exact hinside
  exact hlaid.standsFor hat hus hfits

/-- A function without types or parameters. -/
def plainFunction (name : String) (params : List String) (body : List Expr) : FunctionDecl :=
  { name, generics := [], params := params.map fun x => ⟨x, none, none, .zero⟩
    varargs := none, kwargs := none, returnType := none
    isAsync := false, catchesResult := false, body, span := .zero }

/-- A function in a function that assigns to a global of the host what the outer one is given. -/
def assignedInside : Program :=
  let node (kind : ExprKind) : Expr := ⟨kind, .zero⟩
  ⟨[node (.functionDecl (plainFunction "outer" ["x"]
    [node (.lambda (plainFunction "" [] [node (.assign false (node (.var "print")) (node (.var "x")))]))]))]⟩

/-- The node assigns to the global of that name, through the captures of so many units. -/
def assignsGlobal (name : String) (level : Nat) (e : Expr) (s : State) : Bool :=
  match e.kind with
  | .assign _ target _ =>
    match target.kind with
    | .var n => n == name && (findInline? n s.chain).isNone && (s.frame.findLocal? n).isNone &&
        (home? n s.outer).any fun home => home.level == level && home.source == .global n
    | _ => false
  | _ => false

theorem capture_indices_assignedInside : ∃ m, compile assignedInside {} = .ok m ∧
    (∀ u ∈ m.units, u.captures.length ≤ 65536) ∧ ∃ n e position s i,
      Visited assignedInside {} n e position s ∧ Mentions s e.kind .assign "print" ∧
      StandsFor m s .assign i (1, .global "print") := by
  have hreports : (layProgram assignedInside {}).reports = [] := by decide +kernel
  have hfits : ∀ u ∈ (⟨"<main>", (layProgram assignedInside {}).answer.1⟩ : Module).units,
      u.captures.length ≤ 65536 := by decide +kernel
  have hfinds : finds (assignsGlobal "print" 1) assignedInside {} = true := by decide +kernel
  obtain ⟨n, e, position, s, hv, hlook⟩ := (finds_iff hreports).mp hfinds
  refine ⟨_, compile_eq_ok hreports, hfits, n, e, position, s, ?_⟩
  obtain ⟨kind, span⟩ := e
  unfold assignsGlobal at hlook
  split at hlook
  · rename_i isWeak target value hkind
    split at hlook
    · rename_i x hname
      simp only [Bool.and_eq_true, beq_iff_eq, Option.isNone_iff_eq_none, Option.any_eq_true] at hlook
      obtain ⟨⟨⟨rfl, hinline⟩, hlocal⟩, home, hhome, hlevel, hsource⟩ := hlook
      cases hkind
      have hm : Mentions s (.assign isWeak target value) .assign "print" := .assign hname hinline
      obtain ⟨i, hi⟩ := (capture_indices (compile_eq_ok hreports) hfits).1 n _ position s hv .assign
        "print" home hm hlocal hhome
      rw [hlevel, hsource] at hi
      exact ⟨i, hv, hm, hi⟩
    · cases hlook
  · cases hlook

/-! ## Where indices are shared -/

theorem capture?_addCapture {c : Capture} {f f' : Frame} {outer outer' : List Frame}
    (h : capture? name f outer = some (c, f', outer')) :
    ∃ source, f.addCapture source = (c.index, f') := by
  cases outer with
  | nil => cases h
  | cons parent outer =>
    unfold capture? at h
    split at h
    · cases h
      exact ⟨_, rfl⟩
    · split at h
      · cases h
        exact ⟨_, rfl⟩
      · split at h
        · cases h
          exact ⟨_, rfl⟩
        · cases h

/-- Whatever a unit captures when all indices but the last are taken is given the last one, and
nothing is reported: from then on indices are shared. -/
theorem index_captureName_of_full {c : Capture} (h : (captureName name s).answer.1 = some c)
    (hfull : 65535 ≤ s.frame.captures.sources.size)
    (hnew : s.frame.captures.sources.size < (captureName name s).answer.2.frame.captures.sources.size) :
    c.index = 65535 ∧ (captureName name s).reports = [] := by
  cases hc : capture? name s.frame s.outer with
  | none =>
    rw [captureName_of_none hc] at h
    cases h
  | some r =>
    obtain ⟨c', f, outer⟩ := r
    rw [captureName_of_some hc] at h hnew ⊢
    cases h
    obtain ⟨source, hadd⟩ := capture?_addCapture hc
    have hindex : (s.frame.captures.add source).1 = c.index := congrArg Prod.fst hadd
    have hcaptures : (s.frame.captures.add source).2 = f.captures := congrArg (·.2.captures) hadd
    refine ⟨?_, rfl⟩
    rw [← hcaptures] at hnew
    rw [← hindex]
    unfold Captures.add at hnew ⊢
    split at hnew
    · exact absurd hnew (Nat.lt_irrefl _)
    · rename_i hmem
      rw [dif_neg hmem, Nat.min_eq_right hfull]
      rfl

/-- A function that declares a variable in each branch of a choice between two values, and a
function inside it that reads both. -/
def declaredInBranches : Program :=
  let node (kind : ExprKind) : Expr := ⟨kind, .zero⟩
  let declared (name : String) (value : Int64) : Expr :=
    node (.letDecl name none (some (node (.int value))) false)
  ⟨[node (.functionDecl (plainFunction "pick" []
    [node (.ternary (node (.bool true)) (declared "a" 1) (declared "b" 2)),
      node (.lambda (plainFunction "" [] [node (.var "a"), node (.var "b")]))]))]⟩

/-- Both variables are read from the same index. -/
theorem shared_index_declaredInBranches : ∃ m u, compile declaredInBranches {} = .ok m ∧
    u ∈ m.units ∧ u.captures = [.slot 1] ∧
    u.code = #[.getUpvalue 0, .pop, .getUpvalue 0, .ret] := by
  have hcode : (compile declaredInBranches {}).toOption.map (fun m =>
      m.units[2]?.map fun u => (u.captures, u.code)) =
        some (some ([.slot 1], #[.getUpvalue 0, .pop, .getUpvalue 0, .ret])) := by decide +kernel
  cases hm : compile declaredInBranches {} with
  | error e =>
    rw [hm] at hcode
    cases hcode
  | ok m =>
    rw [hm] at hcode
    obtain ⟨u, hu, hunit⟩ := Option.map_eq_some_iff.mp (Option.some.inj hcode)
    obtain ⟨hcaptures, hcode⟩ := Prod.mk.inj hunit
    exact ⟨m, u, rfl, List.mem_of_getElem? hu, hcaptures, hcode⟩

end Strand.Codegen
