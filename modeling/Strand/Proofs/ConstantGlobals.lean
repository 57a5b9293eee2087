import Strand.Proofs.Moves.Units
import Strand.Proofs.VisitedSearch

/-!
# Constant globals are not assigned to

Whether a variable may be assigned to is looked up when the assignment is laid down, and what
is looked up may change later. So the argument is about all the moves of a compilation: an
instruction that assigns to a variable is laid down only with a reason, namely that the
captures it uses lead to a variable that is not a constant global; the reason is kept when
more is captured, and when a unit is finished and becomes part of another.

A name that the host supplies, or that the module declares once as a variable, is not constant
from the start, and a later declaration does not take back what was allowed before.
-/

namespace Strand

open Codegen

variable {K : Setting} {u v : CodeUnit} {us : List CodeUnit} {cs cs' : List (List CaptureSource)}
  {pool pool' : List Constant} {i : Instr}

/-! ## Reasons -/

/-- The instruction stands in a unit with this pool, where units that capture `cs` lie inside
each other. If it assigns to a global, then to one that may be assigned to. -/
structure Reason (K : Setting) (cs : List (List CaptureSource)) (pool : List Constant) (i : Instr) :
    Prop where
  captured (n : UInt16) (h : i = .setUpvalue n) (hfits : ∀ c ∈ cs, c.length ≤ 65536) :
    ∃ r, leadsTo? cs n.toNat = some r ∧ ∀ name, r.2 = .global name → K.assignable name
  global (n : UInt16) (h : i = .setGlobal n) :
    ∃ name, pool[n.toNat]? = some (.str name) ∧ K.assignable name

theorem Reason.mono (h : Reason K cs pool i) (hcs : List.Forall₂ List.IsPrefix cs cs')
    (hpool : pool <+: pool') : Reason K cs' pool' i where
  captured n hi hfits := by
    have hshorter : ∀ c ∈ cs, c.length ≤ 65536 := lengths_of_longer hcs hfits
    obtain ⟨r, hr, hassignable⟩ := h.captured n hi hshorter
    exact ⟨r, leadsTo?_of_longer hcs hr, hassignable⟩
  global n hi := (h.global n hi).imp fun _ hname => ⟨getElem?_of_longer hpool hname.1, hname.2⟩

theorem reason_of_isPlain (h : i.isPlain = true) : Reason K cs pool i where
  captured _ hi := by
    rw [hi] at h
    cases h
  global _ hi := by
    rw [hi] at h
    cases h

/-- All instructions of a unit and of the units inside it have a reason. -/
def Justified (K : Setting) (cs : List (List CaptureSource)) (u : CodeUnit) : Prop :=
  ∀ v us, u.Within (v :: us) →
    ∀ i ∈ v.code, Reason K ((v :: us).map CodeUnit.captures ++ cs) v.constants i

theorem CodeUnit.Within.outward (hv : .function v ∈ u.constants) (h : v.Within us) :
    u.Within (us ++ [u]) := by
  induction h with
  | main => exact .inside .main hv
  | inside _ hw ih => exact .inside ih hw

theorem CodeUnit.Within.inward (h : u.Within us) :
    us = [u] ∨ ∃ v us', .function v ∈ u.constants ∧ v.Within us' ∧ us = us' ++ [u] := by
  induction h with
  | main => exact .inl rfl
  | @inside w w' us _ hw ih =>
    right
    obtain hself | ⟨v, us', hv, hus', heq⟩ := ih
    · cases hself
      exact ⟨w', [w'], hw, .main, rfl⟩
    · cases us' with
      | nil => cases hus'
      | cons x us' =>
        cases heq
        exact ⟨v, w' :: w :: us', hv, .inside hus' hw, rfl⟩

/-- A unit, and then those in its pool. -/
theorem justified_iff : Justified K cs u ↔
    (∀ i ∈ u.code, Reason K (u.captures :: cs) u.constants i) ∧
      ∀ v, .function v ∈ u.constants → Justified K (u.captures :: cs) v := by
  constructor
  · intro h
    refine ⟨h u [] .main, fun v hv w us hw i hi => ?_⟩
    have hreason := h w (us ++ [u]) (hw.outward hv) i hi
    rwa [← List.cons_append, List.map_append, List.append_assoc] at hreason
  · rintro ⟨hself, hpool⟩ w us hw i hi
    obtain heq | ⟨v, us', hv, hus', heq⟩ := hw.inward
    · cases heq
      exact hself i hi
    · cases us' with
      | nil => cases hus'
      | cons x us' =>
        rw [List.cons_append] at heq
        obtain ⟨rfl, rfl⟩ := List.cons.inj heq
        have hreason := hpool v hv w us' hus' i hi
        rwa [← List.cons_append, List.map_append, List.append_assoc]

theorem Justified.mono (h : Justified K cs u) (hcs : List.Forall₂ List.IsPrefix cs cs') :
    Justified K cs' u := by
  intro v us hv i hi
  refine (h v us hv i hi).mono (List.rel_append ?_ hcs) List.prefix_rfl
  exact List.forall₂_same.mpr fun _ _ => List.prefix_rfl

/-- A unit that grows, in surroundings that capture more, and only by what has a reason. -/
theorem Justified.grow (h : Justified K cs u) (hcs : List.Forall₂ List.IsPrefix cs cs')
    (hcaptures : u.captures <+: v.captures) (hpool : u.constants <+: v.constants)
    (hcode : ∀ i ∈ v.code, i ∈ u.code ∨ Reason K (v.captures :: cs') v.constants i)
    (hunits : ∀ w, .function w ∈ v.constants →
      .function w ∈ u.constants ∨ Justified K (v.captures :: cs') w) : Justified K cs' v := by
  obtain ⟨hself, hinside⟩ := justified_iff.mp h
  have hall : List.Forall₂ List.IsPrefix (u.captures :: cs) (v.captures :: cs') := .cons hcaptures hcs
  refine justified_iff.mpr ⟨fun i hi => ?_, fun w hw => ?_⟩
  · rcases hcode i hi with hold | hnew
    · exact (hself i hold).mono hall hpool
    · exact hnew
  · rcases hunits w hw with hold | hnew
    · exact (hinside w hold).mono hall
    · exact hnew

namespace Codegen

/-! ## Units under construction -/

variable {f g : Frame} {fs gs outer : List Frame}

/-- All instructions that have been laid down have a reason. -/
def AllJustified (K : Setting) : List Frame → Prop
  | [] => True
  | f :: outer => Justified K (capturesOf outer) f.toUnit ∧ AllJustified K outer

theorem prefix_refl (cs : List (List CaptureSource)) : List.Forall₂ List.IsPrefix cs cs :=
  List.forall₂_same.mpr fun _ _ => List.prefix_rfl

/-- Nothing has been laid down yet. -/
theorem justified_of_blank (h : f.Blank) : Justified K cs f.toUnit := by
  have hcode : f.toUnit.code = #[] := congrArg Chunk.code h.chunk
  have hpool : f.toUnit.constants = [] := congrArg (fun c : Chunk => c.constants.toList) h.chunk
  refine justified_iff.mpr ⟨fun i hi => ?_, fun w hw => ?_⟩
  · rw [hcode] at hi
    exact absurd hi (Array.not_mem_empty i)
  · rw [hpool] at hw
    exact absurd hw List.not_mem_nil

/-- Nothing but captures is added. -/
theorem AllJustified.capture (h : AllJustified K fs) (hall : List.Forall₂ (fun f g =>
      Frame.chunk g = Frame.chunk f ∧
        (Frame.captures f).sources.toList <+: (Frame.captures g).sources.toList) fs gs) :
    AllJustified K gs := by
  induction hall with
  | nil => trivial
  | @cons f g fs gs hfg hrest ih =>
    obtain ⟨hf, hfs⟩ := h
    obtain ⟨hchunk, hcaptures⟩ := hfg
    have hcode : g.toUnit.code = f.toUnit.code := congrArg Chunk.code hchunk
    have hpool : g.toUnit.constants = f.toUnit.constants :=
      congrArg (fun c : Chunk => c.constants.toList) hchunk
    refine ⟨hf.grow ?_ hcaptures (hpool ▸ List.prefix_rfl) (fun i hi => .inl (hcode ▸ hi))
      fun w hw => .inl (hpool ▸ hw), ih hfs⟩
    exact List.forall₂_map_left_iff.mpr (List.forall₂_map_right_iff.mpr
      (hrest.imp fun _ _ hfg => hfg.2))

/-- An instruction is laid down. -/
theorem AllJustified.emit (h : AllJustified K (f :: outer)) (line : UInt64)
    (hi : Reason K (capturesOf (f :: outer)) f.chunk.constants.toList i) :
    AllJustified K (f.emit i line :: outer) := by
  refine ⟨h.1.grow (prefix_refl _) List.prefix_rfl List.prefix_rfl (fun j hj => ?_)
    fun w hw => .inl hw, h.2⟩
  rcases Array.mem_push.mp hj with hold | rfl
  · exact .inl hold
  · exact .inr hi

theorem AllJustified.aim (h : AllJustified K (f :: outer)) (offset : Nat) :
    AllJustified K (f.withChunk (f.chunk.aimJump offset) :: outer) := by
  refine ⟨h.1.grow (prefix_refl _) List.prefix_rfl List.prefix_rfl (fun i hi => ?_)
    fun w hw => .inl hw, h.2⟩
  obtain ⟨o, ho⟩ := Array.mem_iff_getElem?.mp hi
  have ho' : (f.chunk.code.modify offset fun i =>
    (i.aim? (UInt32.ofNat (f.chunk.distanceFrom offset))).getD i)[o]? = some i := ho
  rw [Array.getElem?_modify] at ho'
  split at ho'
  · obtain ⟨j, hj, rfl⟩ := Option.map_eq_some_iff.mp ho'
    -- a jump is plain, and anything else stays as it was
    cases j
    case jump | jumpIfFalse | jumpIfTrue | forIter => exact .inr (reason_of_isPlain rfl)
    all_goals exact .inl (Array.mem_of_getElem? hj)
  · exact .inl (Array.mem_of_getElem? ho')

/-- A constant is added that is no unit, or one that is in order. -/
theorem AllJustified.push (h : AllJustified K (f :: outer)) {k : Constant}
    (hk : ∀ u, k = .function u → Justified K (capturesOf (f :: outer)) u) :
    AllJustified K (f.withChunk { f.chunk with constants := f.chunk.constants.push k } :: outer) := by
  have hpool : (f.chunk.constants.push k).toList = f.chunk.constants.toList ++ [k] := Array.toList_push
  refine ⟨h.1.grow (prefix_refl _) List.prefix_rfl ?_ (fun j hj => .inl hj) fun w hw => ?_, h.2⟩
  · show _ <+: (f.chunk.constants.push k).toList
    rw [hpool]
    exact List.prefix_append ..
  · have hw' : .function w ∈ (f.chunk.constants.push k).toList := hw
    rw [hpool] at hw'
    rcases List.mem_append.mp hw' with hold | hnew
    · exact .inl hold
    · exact .inr (hk w (List.mem_singleton.mp hnew).symm)

/-- What has been laid down keeps its reason, and what is laid down has one. -/
theorem AllJustified.move (h : AllJustified K fs) (hmove : Move K fs gs) : AllJustified K gs := by
  cases hmove with
  | quiet halike =>
    exact h.capture (halike.imp fun _ _ hfg => ⟨hfg.chunk, hfg.captures ▸ List.prefix_rfl⟩)
  | emit hi _ => exact h.emit _ (reason_of_isPlain hi)
  | @access f outer kind i line name home hhome _ hleads hassign =>
    refine h.emit _ ⟨fun n hn hfits => ?_, fun n hn => by cases kind <;> cases hn⟩
    cases kind
    case assign =>
      cases hn
      exact ⟨_, hleads hfits, hassign rfl⟩
    all_goals cases hn
  | assign hname hassign =>
    refine h.emit _ ⟨(fun n hn => by cases hn), fun n hn => ?_⟩
    cases hn
    exact ⟨_, hname, hassign⟩
  | aim => exact h.aim _
  | @pool f outer k hk =>
    rcases (f.chunk.adds_addConstant k).grows with hsame | hpush
    · rw [hsame]
      exact h
    · rw [hpush]
      refine h.push fun u hu => ?_
      rw [hu] at hk
      cases hk
  | capture hc =>
    exact h.capture ((capture?_suspended hc).imp fun _ _ hfg => ⟨hfg.chunk_eq, hfg.captures⟩)
  | start hf => exact ⟨justified_of_blank hf, h⟩
  -- the unit that ends is a constant of the one around it, with all that was shown for it
  | @close f g outer line hroom =>
    obtain ⟨hf, hrest⟩ := h
    have hpushed := hrest.push (k := .function f.toUnit) fun u hu => by
      cases hu
      exact hf
    exact hpushed.emit line ⟨(fun n hn => by cases hn), (fun n hn => by cases hn)⟩

theorem AllJustified.moved (h : AllJustified K fs) (hmoved : Moved K fs gs) : AllJustified K gs := by
  induction hmoved with
  | refl => exact h
  | tail _ hmove ih => exact ih.move hmove

/-! ## Programs -/

/-- **Constant globals are not assigned to.** Let a name be one that the host does not supply
and that no declaration of the module makes a variable. If the module has a global of that name
it is constant. In a module whose units capture no more than can be told apart by an index, no
unit assigns to it, neither by name nor through captures that lead to it. -/
theorem constant_globals {p : Program} {o : Options} {m : Module} (h : compile p o = .ok m)
    (hfits : ∀ u ∈ m.units, u.captures.length ≤ 65536) {name : String} (hhost : name ∉ o.hostGlobals)
    (hconst : ∀ n e position s, Visited p o n e position s → s.frame.isModuleLevel = true →
      ∀ typeExpr value, e.kind ≠ .letDecl name typeExpr value false) :
    (∀ g, m.main.manifest.globals.find? name = some g → g.isConst = true) ∧
    ∀ u us, m.main.Within (u :: us) →
      (∀ i, .setGlobal i ∈ u.code → u.constants[i.toNat]? ≠ some (.str name)) ∧
      ∀ i, .setUpvalue i ∈ u.code → ∀ level,
        leadsTo? ((u :: us).map CodeUnit.captures) i.toNat ≠ some (level, .global name) := by
  rcases compile_cases p o with ⟨hreports, hok⟩ | ⟨-, herror⟩
  · cases h.symm.trans hok
    -- in this setting every global may be assigned to except those of the name
    let K : Setting := ⟨True, fun n => n ≠ name, fun _ => True⟩
    have hallows : ∀ {n e position s}, Visited p o n e position s → K.Allows e.kind s := by
      intro n e position s hv
      refine ⟨fun x typeExpr value isConst hkind hlevel => ?_, fun _ _ _ _ => trivial⟩
      rintro rfl rfl
      exact hconst n e position s hv hlevel typeExpr value hkind
    have hstart : (startState o).Proper K := proper_startState fun x hx heq => hhost (heq ▸ hx)
    obtain ⟨hprogress, ⟨hunit, hlast⟩, htable⟩ := progress_layProgram hallows (fun _ => hreports) hstart
    have hjustified : Justified K [] (layProgram p o).answer.1 := by
      have hempty : AllJustified K (startState o).chain := ⟨justified_of_blank ⟨rfl, rfl⟩, trivial⟩
      have hall := hempty.moved (hprogress.moves trivial)
      rw [State.chain, hlast] at hall
      rw [hunit]
      exact hall.1
    refine ⟨fun g hg => ?_, fun u us hu => ⟨?_, ?_⟩⟩
    · rw [htable] at hg
      obtain ⟨entry, hentry, heq⟩ := List.mem_map.mp (Table.mem_of_find? hg)
      cases heq
      by_contra hvariable
      exact hprogress.proper.frame.admitted entry (List.mem_filter.mp hentry).1
        (Bool.eq_false_iff.mpr hvariable) rfl
    · intro i hi hname
      obtain ⟨x, hx, hassignable⟩ := (hjustified u us hu _ hi).global i rfl
      rw [hname] at hx
      cases hx
      exact hassignable rfl
    · intro i hi level hleads
      have hfits' : ∀ c ∈ (u :: us).map CodeUnit.captures ++ [], c.length ≤ 65536 := by
        intro c hc
        rw [List.append_nil] at hc
        obtain ⟨v, hv, rfl⟩ := List.mem_map.mp hc
        exact hfits v (Module.units_eq _ ▸ hu.mem_units v hv)
      obtain ⟨r, hr, hassignable⟩ := (hjustified u us hu _ hi).captured i rfl hfits'
      rw [List.append_nil, hleads] at hr
      cases hr
      exact hassignable name rfl rfl
  · cases h.symm.trans herror

/-- A module that declares a constant and a variable before and after a function that reads the
one and assigns to the other. -/
def countedUp : Program :=
  let node (kind : ExprKind) : Expr := ⟨kind, .zero⟩
  let count : FunctionDecl :=
    { name := "count", generics := [], params := [], varargs := none, kwargs := none
      returnType := none, isAsync := false, catchesResult := false, span := .zero
      body := [node (.letDecl "limit" none (some (node (.var "step"))) false),
        node (.assign false (node (.var "limit")) (node (.int 3))),
        node (.assign false (node (.var "total")) (node (.var "step")))] }
  ⟨[node (.letDecl "step" none (some (node (.int 1))) true),
    node (.letDecl "total" none (some (node (.int 0))) false),
    node (.functionDecl count),
    node (.letDecl "limit" none (some (node (.int 9))) true)]⟩

/-- The node makes the name a variable of the module. -/
def declaresVariable (name : String) (e : Expr) (s : State) : Bool :=
  match e.kind with
  | .letDecl n _ _ isConst => n == name && !isConst && s.frame.isModuleLevel
  | _ => false

theorem constant_globals_countedUp : ∃ m, compile countedUp {} = .ok m ∧
    (∀ u ∈ m.units, u.captures.length ≤ 65536) ∧
    (m.main.manifest.globals.find? "limit").map GlobalInfo.isConst = some true ∧
    (∃ u ∈ m.units, u.captures = [.global "step", .global "total"]) ∧
    ∀ u us, m.main.Within (u :: us) →
      (∀ i, .setGlobal i ∈ u.code → u.constants[i.toNat]? ≠ some (.str "limit")) ∧
      ∀ i, .setUpvalue i ∈ u.code → ∀ level,
        leadsTo? ((u :: us).map CodeUnit.captures) i.toNat ≠ some (level, .global "limit") := by
  have hreports : (layProgram countedUp {}).reports = [] := by decide +kernel
  have hfits : ∀ u ∈ (⟨"<main>", (layProgram countedUp {}).answer.1⟩ : Module).units,
      u.captures.length ≤ 65536 := by decide +kernel
  have hfinds : finds (declaresVariable "limit") countedUp {} = false := by decide +kernel
  refine ⟨_, compile_eq_ok hreports, hfits, by decide +kernel, by decide +kernel, ?_⟩
  refine (constant_globals (compile_eq_ok hreports) hfits (by decide) ?_).2
  intro n e position s hv hlevel typeExpr value hkind
  refine Bool.eq_false_iff.mp hfinds ((finds_iff hreports).mpr ⟨n, e, position, s, hv, ?_⟩)
  rw [declaresVariable, hkind]
  exact hlevel

/-- A function that assigns to a name of the host, and a function of that name after it. -/
def hostNameAssigned : Program :=
  let node (kind : ExprKind) : Expr := ⟨kind, .zero⟩
  let function (name : String) (body : List Expr) : Expr := node (.functionDecl
    { name, generics := [], params := [], varargs := none, kwargs := none
      returnType := none, isAsync := false, catchesResult := false, body, span := .zero })
  ⟨[function "g" [node (.assign false (node (.var "print")) (node (.int 1)))], function "print" []]⟩

/-- The module says that the name is constant, and one of its units assigns to it. -/
theorem constant_assigned_hostNameAssigned : ∃ m u, compile hostNameAssigned {} = .ok m ∧
    (m.main.manifest.globals.find? "print").map GlobalInfo.isConst = some true ∧
    m.main.Within [u, m.main] ∧ u.captures = [.global "print"] ∧
    u.code = #[.constant 0, .setUpvalue 0, .ret] := by
  have hcode : (compile hostNameAssigned {}).toOption.map (fun m =>
      ((m.main.manifest.globals.find? "print").map GlobalInfo.isConst,
        m.main.nested[0]?.map fun u => (u.captures, u.code))) =
      some (some true, some ([.global "print"], #[.constant 0, .setUpvalue 0, .ret])) := by
    decide +kernel
  cases hm : compile hostNameAssigned {} with
  | error e =>
    rw [hm] at hcode
    cases hcode
  | ok m =>
    rw [hm] at hcode
    obtain ⟨hconst, hunit⟩ := Prod.mk.inj (Option.some.inj hcode)
    obtain ⟨u, hu, hunit⟩ := Option.map_eq_some_iff.mp hunit
    obtain ⟨hcaptures, hcode⟩ := Prod.mk.inj hunit
    refine ⟨m, u, rfl, hconst, .inside .main ?_, hcaptures, hcode⟩
    obtain ⟨k, hk, hfound⟩ := List.mem_filterMap.mp (List.mem_of_getElem? hu)
    split at hfound
    · cases hfound
      exact hk
    · cases hfound

end Codegen

end Strand
