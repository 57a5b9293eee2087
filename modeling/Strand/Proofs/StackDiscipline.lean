import Strand.Proofs.Balance.Nodes
import Strand.Proofs.Translation.Program

/-!
# Stack discipline

Every unit of a compiled module keeps its operand stack in order: each offset has one
height on all paths to it, and each instruction finds there what it takes and the slots
that it names. The conditions on the program are needed. A declaration that stands as an
operand leaves its local below values that the code around it addresses by their distance
from the top; a method whose receiver was dropped pushes nothing for it; and a header
cannot tell more than 255 parameters.
-/

namespace Strand

variable {source : Source} {decl : FunctionDecl} {kind : UnitKind} {levels : Levels} {u : CodeUnit}
  {x : Scheme}

namespace Codegen

open Scheme

/-! ## What a unit starts with -/

namespace Source

/-- The arguments of a unit. -/
def params : Source → List String
  | .function decl _ => decl.slotNames
  | _ => []

/-- The name in a slot when the unit is entered: first the callee or the receiver, then the
arguments. -/
def nameIn (source : Source) : Nat → Option String
  | 0 => some (if source.kind.hasReceiver then "this" else "")
  | i + 1 => source.params[i]?

/-- The names that the code of a unit declares outside of all nodes. -/
def binds : Source → List String
  | .switch _ _ _ => ["$switch"]
  | .patternMatch _ arms _ => "$match" :: arms.flatMap fun a => a.pattern.names
  | _ => []

/-- The operands of a unit that must leave nothing but their value. -/
def later : Source → List Expr
  | .switch subject cases otherwise => (ExprKind.switch subject cases otherwise).later
  | .patternMatch subject arms otherwise => (ExprKind.patternMatch subject arms otherwise).later
  | _ => []

theorem later_plain {p : Program} {plain : Expr → Prop} (hplain : PlainOperands p plain)
    (h : source.DeclaredIn p) : ∀ e ∈ source.later, plain e := by
  cases source with
  | switch subject cases otherwise =>
    obtain ⟨st, span, he⟩ := h
    exact hplain.later he
  | patternMatch subject arms otherwise =>
    obtain ⟨st, span, he⟩ := h
    exact hplain.later he
  | main _ | function _ _ | scope _ => exact fun _ he => absurd he List.not_mem_nil

end Source

/-- The variables in `c'` that are not in `c` have these names, in slots from the height of `c`
on. -/
def Scene.Gains (c : Scene) (names : List String) (c' : Scene) : Prop :=
  ∀ r ∈ c'.view.scope, r ∈ c.view.scope ∨
    ∃ i, names[i]? = some r.name ∧ r.slot.toNat = c.height + i

theorem Scene.Gains.append {c c1 c2 : Scene} {names names' : List String}
    (h : c.Gains names c1) (h' : c1.Gains names' c2) (hheight : c1.height = c.height + names.length) :
    c.Gains (names ++ names') c2 := by
  intro r hr
  rcases h' r hr with hr | ⟨i, hi, hslot⟩
  · refine (h r hr).imp_right fun ⟨i, hi, hslot⟩ => ⟨i, ?_, hslot⟩
    rw [List.getElem?_append_left (List.getElem?_eq_some_iff.mp hi).1]
    exact hi
  · refine .inr ⟨names.length + i, ?_, by omega⟩
    rw [List.getElem?_append_right (Nat.le_add_right ..), Nat.add_sub_cancel_left]
    exact hi

section

variable {p : Program} {node : NodeScheme} {plain : Expr → Prop} {k : List Constant} {t : Tree}
  {c c' c0 : Scene}

theorem ready_start (p : Program) (binds : List String) (kind : UnitKind) :
    Ready p (.outer binds (LeavesWanted p)) (Scene.start kind) := by
  refine ⟨⟨Nat.one_pos, fun e he => ?_, List.nodup_singleton _, fun e he => ?_, nofun⟩, nofun, id⟩
  · cases List.mem_singleton.mp he
    exact Nat.one_pos
  · cases List.mem_singleton.mp he
    exact Nat.le_refl 0

/-- Arguments are on the stack already, so no code is laid down for them. -/
theorem eachParam_adds : ∀ {names : List String} {n : Nat} {c : Scene} {t : Tree},
    each paramScheme names k c t c' → c0.Adds n 0 c →
      t.size = 0 ∧ (∀ a, t.marks a = []) ∧ c.Gains names c' ∧ c0.Adds (n + names.length) 0 c'
  | [], _, _, _, h, hc => by
    obtain ⟨rfl, rfl⟩ := h
    exact ⟨rfl, fun _ => rfl, fun r hr => .inl hr, hc⟩
  | name :: rest, n, c, _, h, hc => by
    obtain ⟨_, c1, t2, ⟨_, _, _, ⟨rfl, rfl⟩, ⟨slot, rfl, hslot, rfl⟩, rfl⟩, hrest, rfl⟩ := h
    have hheight := hc.height
    -- the argument counts as pushed and is declared where it lies
    have hpushed : c0.Adds n 1 (c.setHeight (c.height + 1)) :=
      ⟨hc.locals.setHeight _, by rw [hheight]; rfl⟩
    have hslot' : slot.toNat = c0.height + n := by
      rw [hslot]
      exact hheight
    obtain ⟨hsize, hmarks, hgains, hadds⟩ := eachParam_adds hrest (hpushed.declare hslot')
    have hone : c.Gains [name] ((c.setHeight (c.height + 1)).declare name slot) := by
      intro r hr
      rcases List.mem_cons.mp hr with rfl | hr
      · exact .inr ⟨0, rfl, by dsimp only; omega⟩
      · exact .inl hr
    rw [List.length_cons, Nat.add_comm rest.length, ← Nat.add_assoc]
    exact ⟨by simp only [Tree.size, hsize],
      fun a => by simp only [Tree.marks, List.nil_append, hmarks], hone.append hgains rfl, hadds⟩

theorem params_adds (h : paramsScheme decl k c t c') :
    t.size = 0 ∧ (∀ a, t.marks a = []) ∧ c.Gains decl.slotNames c' ∧
      c.Adds decl.slotNames.length 0 c' := by
  obtain ⟨_, c2, t3, ⟨t1, c1, t2, h1, h2, rfl⟩, h3, rfl⟩ := h
  obtain ⟨hs1, hm1, hg1, ha1⟩ := eachParam_adds h1 (Scene.Pushes.refl c).adds
  obtain ⟨hs2, hm2, hg2, ha2⟩ := eachParam_adds h2 ha1
  obtain ⟨hs3, hm3, hg3, ha3⟩ := eachParam_adds h3 ha2
  have hheight1 := ha1.height
  have hheight2 := ha2.height
  rw [Nat.zero_add] at ha3
  refine ⟨by simp only [Tree.size, hs1, hs2, hs3],
    fun a => by simp only [Tree.marks, hm1, hm2, hm3, List.append_nil], ?_, ?_⟩
  · refine (hg1.append hg2 (by omega)).append hg3 ?_
    rw [List.length_append]
    omega
  · simp only [FunctionDecl.slotNames, List.length_append]
    exact ha3

theorem toNat_totalArity (hfew : decl.slotNames.length ≤ 255) :
    (functionHeader decl kind).totalArity.toNat = decl.slotNames.length := by
  have hcount : decl.params.length + decl.varargs.isSome.toNat + decl.kwargs.isSome.toNat =
      decl.slotNames.length := by
    simp only [FunctionDecl.slotNames, List.length_append, List.length_map]
    cases decl.varargs <;> cases decl.kwargs <;> rfl
  refine (toNat_headerCount ?_).trans hcount
  rw [hcount]
  exact hfew

/-! ## Units -/

/-- Views by which the code of a unit keeps its stack and its variables in order, as its
layout has them. -/
structure Follows (p : Program) (u : CodeUnit) (source : Source) (layout : Tree) (entry : List Resident)
    (view : Nat → View) : Prop where
  entered : ∀ r ∈ entry, source.nameIn r.slot.toNat = some r.name
  chart : Charted u (layout.declares source.binds 0) entry view
  names : Tree.NamesKept view (layout.ops (.outer source.binds) 0)
  nodes : Tree.NodesKept (LeavesWanted p) view (layout.marks 0)

/-- Where a value is on top of the locals, a unit may return. -/
theorem carries_ret (hc : Ready p levels c) (h : c.Grows 1 c') : c'.view.Carries .ret := by
  obtain ⟨n, hadds⟩ := h
  obtain ⟨d, hd, hpush⟩ := hadds.base
  have hadmits : c'.view.Admits levels .ret :=
    hpush.admits (hc.grows ⟨n, hd⟩).tidy (Nat.le_refl 1) trivial (.ofSlotless rfl)
  exact hadmits.toCarries

/-- Code that leaves a value, and a return, have a chart. -/
theorem charted_of_leads {binds : List String} (hheight : c.height = 1 + u.header.totalArity.toNat)
    {expects : Expr → Tree → Nat → Nat → Prop}
    (hx : Leads (.outer binds expects) c x fun c' => c'.view.Carries .ret) (h : (x ++ op .ret) k c t c')
    (hat : t.At u.code .none 0) (hclosed : ∀ l, t.uses l 0 = [])
    (declared : List (Nat × String)) (hdeclared : ∀ d ∈ t.declares binds 0, d ∈ declared) :
    ∃ view, Charted u declared c.view.scope view ∧
      Tree.NamesKept view (t.ops (.outer binds) 0) ∧ Tree.NodesKept expects view (t.marks 0) := by
  obtain ⟨tx, cx, _, hcode, ⟨rfl, rfl⟩, rfl⟩ := h
  obtain ⟨hbal, hend⟩ := hx k tx cx hcode
  obtain ⟨hat, hret, -⟩ := hat
  rw [Nat.zero_add] at hret
  obtain ⟨view, hchart, hops, hmarks⟩ := charted_of_balanced hbal hheight hat
    (fun l => (List.append_eq_nil_iff.mp (hclosed l)).1)
    (fun d hd => hdeclared d (List.mem_append_left _ hd)) hret hend
  refine ⟨view, hchart, fun d hd => ?_, fun d hd => ?_⟩
  · rcases List.mem_append.mp hd with hd | hd
    · exact hops d hd
    · cases List.mem_singleton.mp hd
      exact .ofSlotless rfl
  · rw [Tree.marks, Tree.marks, List.append_nil] at hd
    exact hmarks d hd

/-- The same for a unit without arguments. -/
theorem follows_of_leads (source : Source) (harity : u.header.totalArity = 0)
    (hx : Leads (.outer source.binds (LeavesWanted p)) (Scene.start source.kind) x
      fun c' => c'.view.Carries .ret)
    (h : (x ++ op .ret) k (Scene.start source.kind) t c') (hat : t.At u.code .none 0)
    (hclosed : ∀ l, t.uses l 0 = []) : ∃ entry view, Follows p u source t entry view := by
  obtain ⟨view, hchart, hops, hmarks⟩ := charted_of_leads (by rw [harity]; rfl) hx h hat hclosed _
    fun _ hd => hd
  refine ⟨_, view, fun r hr => ?_, hchart, hops, hmarks⟩
  cases List.mem_singleton.mp hr
  rfl

theorem leads_functionBody (hnode : node.Balances p plain) (hc : Ready p levels c)
    (hreads : levels.reads = none) : Leads levels c (functionBodyScheme node decl kind) (c.Grows 1) := by
  have hvalue {i : Instr} (hpush : ∀ d, Ready p levels d → Moves levels d 0 1 (op i)) :
      Leads levels c (effectsScheme node decl.body ++ op i) (c.Grows 1) :=
    (leads_effects hnode hc).then fun d hd =>
      (hpush d (hc.grows hd)).leads.imp fun _ h => hd.trans h.grows
  unfold functionBodyScheme
  split
  · exact hvalue fun d hd => .getHidden hd.tidy hreads hd.tidy.pos
  · refine .oneOf fun x hx => ?_
    simp only [List.mem_cons, List.not_mem_nil, or_false] at hx
    rcases hx with rfl | rfl
    · exact leads_sequence hnode hc
    · refine .assoc (Leads.then (P := fun d => d = c) (leads_requires fun _ => rfl) ?_)
      rintro _ rfl
      exact hvalue fun d hd => .op hd.tidy rfl (by grind)

/-- A block is opened before anything else, in the units that are called where they
stand. -/
theorem leads_opened (hc : Ready p levels c) (hx : Leads levels c.openScope x (c.openScope.Grows 1)) :
    Leads levels c (change Scene.openScope ++ x) fun c' => c'.view.Carries .ret := by
  refine Leads.then (P := fun d => d = c.openScope) (leads_change rfl rfl) ?_
  rintro _ rfl
  exact hx.imp fun _ h => carries_ret hc.openScope h

theorem follows_function (hnode : node.Balances p plain)
    (hfew : decl.slotNames.length ≤ 255) (hheader : u.header = functionHeader decl kind)
    (h : (Source.function decl kind).scheme node k (Scene.start kind) t c')
    (hat : t.At u.code .none 0) (hclosed : ∀ l, t.uses l 0 = []) :
    ∃ entry view, Follows p u (.function decl kind) t entry view := by
  obtain ⟨t1, c1, t2, hparameters, hbody, rfl⟩ := h
  obtain ⟨hsize, hunmarked, hgains, hadds⟩ := params_adds hparameters
  have hc1 := (ready_start p [] kind).grows ⟨_, hadds⟩
  have hheight : c1.height = 1 + u.header.totalArity.toNat := by
    rw [hadds.height, hheader]
    exact congrArg (1 + ·) (toNat_totalArity hfew).symm
  have hclosed2 : ∀ l, t2.uses l 0 = [] := fun l => by
    have huses := hclosed l
    rw [Tree.uses, hsize] at huses
    exact (List.append_eq_nil_iff.mp huses).2
  have hat2 := hat.2
  rw [hsize] at hat2
  have hleads : Leads (.outer [] (LeavesWanted p)) c1 (functionBodyScheme node decl kind)
      fun c' => c'.view.Carries .ret :=
    (leads_functionBody hnode hc1 rfl).imp fun _ h => carries_ret hc1 h
  obtain ⟨view, hchart, hops, hmarks⟩ := charted_of_leads hheight hleads hbody hat2 hclosed2
    ((t1.seq t2).declares [] 0) fun d hd => by
      rw [Tree.declares, hsize]
      exact List.mem_append_right _ hd
  refine ⟨_, view, fun r hr => ?_, hchart, fun d hd => ?_, fun d hd => ?_⟩
  · rcases hgains r hr with hr | ⟨i, hname, hslot⟩
    · cases List.mem_singleton.mp hr
      rfl
    · have hslot' : r.slot.toNat = i + 1 := by
        rw [hslot, Nat.add_comm i]
        rfl
      rw [hslot']
      exact hname
  · -- nothing was laid down for the arguments
    rcases List.mem_append.mp hd with hd | hd
    · have := Tree.mem_ops hd
      omega
    · rw [hsize] at hd
      exact hops d hd
  · rw [Tree.marks, hunmarked, hsize] at hd
    exact hmarks d hd

/-- The code of a source goes by views, whatever it is the source of. -/
theorem follows_of_scheme (hnode : node.Balances p plain) (hparams : FewParameters p)
    (hsource : source.DeclaredIn p) (hlater : ∀ e ∈ source.later, plain e)
    (hheader : u.header = source.header)
    (h : source.scheme node k (Scene.start source.kind) t c') (hat : t.At u.code .none 0)
    (hclosed : ∀ l, t.uses l 0 = []) : ∃ entry view, Follows p u source t entry view := by
  have hstart := ready_start p source.binds source.kind
  cases source with
  | function decl kind =>
    exact follows_function hnode (hparams decl kind hsource) hheader h hat hclosed
  | main body =>
    refine follows_of_leads (.main body) (by rw [hheader]; rfl) ?_ h hat hclosed
    refine (leads_effects hnode hstart).then fun d hd => ?_
    exact (Moves.op (hstart.grows hd).tidy rfl (by grind)).leads.imp fun _ h =>
      carries_ret hstart (hd.trans h.grows)
  | scope body =>
    refine follows_of_leads (.scope body) (by rw [hheader]; rfl) ?_ h hat hclosed
    exact leads_opened hstart (leads_sequence hnode hstart.openScope)
  | switch subject cases otherwise =>
    refine follows_of_leads (.switch subject cases otherwise) (by rw [hheader]; rfl) ?_ h
      hat hclosed
    exact leads_opened hstart (leads_switch hnode hstart.openScope rfl (.head _) hlater)
  | patternMatch subject arms otherwise =>
    refine follows_of_leads (.patternMatch subject arms otherwise) (by rw [hheader]; rfl)
      ?_ h hat hclosed
    refine leads_opened hstart (leads_match hnode hstart.openScope rfl (.head _)
      (hlater _ (.head _)) fun a ha => ⟨fun e he => ?_, fun name hname => ?_⟩)
    · exact hlater e (.tail _ (List.mem_flatMap.mpr ⟨a, ha, he⟩))
    · exact .tail _ (List.mem_flatMap.mpr ⟨a, ha, hname⟩)

theorem stackDisciplined_of_codeOf (hnode : node.Balances p fun _ => True) (hparams : FewParameters p)
    (hsource : source.DeclaredIn p) (h : CodeOf node source u) : u.StackDisciplined := by
  obtain ⟨hheader, t, c', hcode, hat, -, hclosed⟩ := h
  obtain ⟨entry, view, hfollows⟩ :=
    follows_of_scheme hnode hparams hsource (fun _ _ => trivial) hheader hcode hat hclosed
  exact hfollows.chart.stackDisciplined

end

end Codegen

open Codegen

/-- In every unit of a compiled module all paths agree on the height of the stack at each
offset, and every instruction finds the values and the slots that it uses. -/
theorem compile_stackDisciplined {p : Program} {o : Options} {m : Module}
    (h : compile p o = .ok m) (hbodies : DeclaresInBodies p) (hreceiver : KeepsReceiver p)
    (hparams : FewParameters p) : ∀ u ∈ m.units, u.StackDisciplined := by
  intro u hu
  obtain ⟨budget, source, hsource, hcode⟩ := (compile_translated h).2 u hu
  have hnode := balances_nodeScheme hbodies hreceiver hparams budget
  exact stackDisciplined_of_codeOf hnode hparams hsource hcode

/-- A loop that is left from inside an array, with the array half built, and a match
whose guard may fail. -/
def leavingArray : Program :=
  let node (kind : ExprKind) : Expr := ⟨kind, .zero⟩
  let leave := node (.cond [⟨node (.var "i"), [node .breakLoop]⟩] none)
  let seen := node (.letDecl "seen" none (some (node (.array [node (.var "i"), leave]))) false)
  let arm : Arm := ⟨.value (node (.var "n")), some (node (.var "n")), [node (.var "n")], .zero⟩
  ⟨[node (.functionDecl
    { name := "pick", generics := [], params := [⟨"limit", none, none, .zero⟩]
      varargs := some ⟨"rest", none, none, .zero⟩, kwargs := none, returnType := none
      isAsync := false, catchesResult := false, span := .zero
      body :=
        [node (.rangeFor "i" none (node (.int 0)) (node (.var "limit")) none [seen]),
          node (.patternMatch (node (.var "limit")) [arm] none)] })]⟩

theorem compile_stackDisciplined_leavingArray : ∃ m, compile leavingArray {} = .ok m ∧
    DeclaresInBodies leavingArray ∧ KeepsReceiver leavingArray ∧ FewParameters leavingArray ∧
    m.units.length = 3 ∧ ∀ u ∈ m.units, u.StackDisciplined := by
  have hend : (leavingArray.nodesAt 7).isEmpty = true := by decide +kernel
  have hbodies : DeclaresInBodies leavingArray := fun _ _ he => forall_occurs hend
    (P := fun x => x.2.kind.isDeclaration = true → x.1 = .element ∨ x.1 = .decorated)
    (by decide +kernel) he
  have hkeeps : KeepsReceiver leavingArray := keepsReceiver_of_nodesAt hend (by decide +kernel)
  have hparams : FewParameters leavingArray := fewParameters_of_nodesAt hend (by decide +kernel)
  have hcount : (compile leavingArray {}).toOption.map (fun m => m.units.length) = some 3 := by
    decide +kernel
  cases hm : compile leavingArray {} with
  | error e =>
    rw [hm] at hcount
    cases hcount
  | ok m =>
    rw [hm] at hcount
    exact ⟨m, rfl, hbodies, hkeeps, hparams, Option.some.inj hcount,
      compile_stackDisciplined hm hbodies hkeeps hparams⟩

end Strand
