import Strand.Proofs.Balance.Loops
import Strand.Proofs.Balance.Matches

/-!
# Nodes are balanced

Functions and declarations, and then all kinds of nodes together: by induction on the
budget, the code of every node of a program leaves what it should, if declarations stand
where their locals are taken off again.
-/

namespace Strand

variable {value : Option Expr} {name : String}

/-- No function has more parameters than a header can tell. -/
def FewParameters (p : Program) : Prop :=
  ∀ decl kind, Declares p decl kind → decl.slotNames.length ≤ 255

theorem fewParameters_of_nodesAt {p : Program} {n : Nat} (hend : (p.nodesAt n).isEmpty = true)
    (h : ∀ d < n, ∀ x ∈ p.nodesAt d, ∀ f ∈ x.2.kind.functions, f.1.slotNames.length ≤ 255) :
    FewParameters p := by
  intro decl kind hdecl
  obtain ⟨st, e, he, hmem⟩ := hdecl
  exact forall_occurs hend h he _ hmem

namespace Codegen

open Scheme

variable {place : Place}

section

variable {p : Program} {node : NodeScheme} {plain : Expr → Prop} {levels : Levels} {c : Scene}
  {n : Nat} {kind : UnitKind} {source : Source} {decl : FunctionDecl}

/-! ## Leaving and checking -/

theorem moves_returned (hnode : node.Balances p plain) (hc : Ready p levels c)
    (hreads : levels.reads = none)
    (hvalue : ∀ e ∈ value, plain e) : Moves levels c 0 1 (returnedScheme node kind value) := by
  have hreceiver : Moves levels c 0 1 (op (.getLocal 0)) := .getHidden hc.tidy hreads hc.tidy.pos
  unfold returnedScheme
  split
  · cases value with
    | none => exact Moves.skip.seq hreceiver
    | some e =>
      refine Moves.seq (m := 0) (.ofLeads (m := 0) fun _ h1 => ?_) hreceiver
      exact (hnode.operand (hc.pushes h1) e .effect).imp fun _ h => h.pushes (hvalue e rfl)
  · cases value with
    | none => exact .op hc.tidy rfl (by grind)
    | some e => exact moves_value hnode hc (hvalue e rfl)

/-- What follows a return is never reached, so any height will do. -/
theorem moves_return (hnode : node.Balances p plain) (hc : Ready p levels c)
    (hreads : levels.reads = none) (hvalue : ∀ e ∈ value, plain e) :
    Moves levels c n n (returnScheme node value) := by
  refine Moves.ofLeads (m := 0) fun c1 h1 => .reading ?_
  replace hc := hc.pushes h1
  have hret : Halts levels c1 1 (op .ret) := .op hc.tidy rfl rfl (Nat.le_refl 1)
  exact (Halts.resume (m := 0) ((moves_returned hnode hc hreads hvalue).halts hret)).leads

theorem moves_throw (hnode : node.Balances p plain) (hc : Ready p levels c) {value : Expr}
    (hvalue : plain value) : Moves levels c n n (throwScheme node value) := by
  refine Moves.ofLeads (m := 0) fun c1 h1 => .reading ?_
  replace hc := hc.pushes h1
  have hthrow : Halts levels c1 1 (op .throw) := .op hc.tidy rfl rfl (Nat.le_refl 1)
  exact (Halts.resume (m := 0) (Moves.halts (moves_value hnode hc hvalue) hthrow)).leads

theorem leads_assert (hnode : node.Balances p plain) (hc : Ready p levels c) {condition : Expr}
    {message : Option Expr} (hmessage : ∀ e ∈ message, plain e) :
    Leads levels c (assertScheme node condition message)
      (c.Yields (∀ e ∈ some condition, plain e) 0) := by
  refine .assoc (leads_first hnode hc fun d hd => ?_)
  refine Moves.seq (m := 2) ?_ (.op hd.tidy rfl (by grind))
  cases message with
  | none => exact .op hd.tidy rfl (by grind)
  | some e => exact moves_value hnode hd (hmessage e rfl)

/-! ## Functions -/

/-- Each default that there is pushes one value. -/
theorem moves_defaults (hnode : node.Balances p plain) (hc : Ready p levels c) :
    ∀ {params : List Param} {n : Nat}, (∀ e ∈ params.filterMap Param.default, plain e) →
      Moves levels c n (n + (params.filter fun p => p.default.isSome).length)
        (each (paramDefaultScheme node) params)
  | [], _, _ => .skip
  | param :: rest, n, hplain => by
    obtain ⟨name, typeExpr, default, span⟩ := param
    cases default with
    | none => exact Moves.skip.seq (moves_defaults hnode hc hplain)
    | some e =>
      rw [List.filter_cons_of_pos rfl, List.length_cons, Nat.add_comm _ 1, ← Nat.add_assoc]
      exact Moves.seq (moves_value hnode hc (hplain e (.head _)))
        (moves_defaults hnode hc fun e he => hplain e (.tail _ he))

/-- A closure takes the defaults off the stack. -/
theorem moves_closure (hc : c.Tidy) {defaults : UInt8} :
    Moves levels c (n + defaults.toNat) (n + 1) (closureScheme node source defaults) := by
  exact .choose fun _ => .choose fun _ => (Moves.required.seq .pooled).seq (.op hc rfl (by grind))

theorem moves_called (hc : c.Tidy) : Moves levels c n (n + 1) (calledScheme node source) := by
  have hclosure : Moves levels c (n + (0 : UInt8).toNat) (n + 1) (closureScheme node source 0) :=
    moves_closure hc
  exact hclosure.seq (.op hc rfl (by grind))

/-- A header counts the defaults right as long as there are few parameters. -/
theorem moves_function (hnode : node.Balances p plain) (hc : Ready p levels c)
    (hfew : decl.slotNames.length ≤ 255) (hplain : ∀ e ∈ decl.defaults, plain e) :
    Moves levels c n (n + 1) (functionScheme node decl kind) := by
  have hcount : (functionHeader decl kind).defaultCount.toNat =
      (decl.params.filter fun p => p.default.isSome).length := by
    have hfilter := List.length_filter_le (fun p : Param => p.default.isSome) decl.params
    simp only [FunctionDecl.slotNames, List.length_append, List.length_map] at hfew
    exact (congrArg UInt8.toNat (countDefaults_eq _)).trans (toNat_headerCount (by omega))
  refine Moves.seq (moves_defaults hnode hc hplain) ?_
  rw [← hcount]
  exact moves_closure hc.tidy

/-! ## Declarations -/

/-- A place on the stack is the slot of a variable in scope. -/
def Place.Holds (name : String) (c : Scene) : Place → Prop
  | .global _ => True
  | .onStack slot => ⟨name, slot⟩ ∈ c.view.scope

theorem Place.Holds.grows {d : Scene} (h : place.Holds name c)
    (hd : c.Grows n d) : place.Holds name d := by
  cases place with
  | global i => trivial
  | onStack slot => exact hd.mem_scope h

theorem moves_store (hc : c.Tidy) (h : place.Holds name c)
    (hname : name ∈ levels.writes) : Moves levels c 1 0 (store place) := by
  cases place with
  | global i => exact .op hc rfl (by grind)
  | onStack slot => exact (Moves.setLocal hc h hname Nat.one_pos).seq (.op hc rfl (by grind))

theorem moves_load (hc : c.Tidy) (hreads : levels.reads = none)
    (h : place.Holds name c) : Moves levels c 0 1 (load place) := by
  cases place with
  | global i => exact .op hc rfl (by grind)
  | onStack slot => exact .getHidden hc hreads (hc.scope h)

/-- A place that was reserved may be used for what follows. -/
theorem leads_placed (hc : Ready p levels c) (hname : name ∈ levels.binds) {x : Scheme}
    (hx : ∀ d, Ready p levels d → place.Holds name d → Leads levels d x (d.Grows 0)) :
    Leads levels c (reserve name place ++ x) (c.Grows 0) := by
  refine Leads.then (P := fun d => c.Grows 0 d ∧ place.Holds name d) ?_ fun d ⟨hd, hplace⟩ =>
    (hx d (hc.grows hd) hplace).imp fun _ h => hd.trans h
  cases place with
  | global i =>
    exact (Moves.seq (m := 0) .required .pooled).leads.imp fun _ h => ⟨h.grows, trivial⟩
  | onStack slot =>
    have hpush : Moves levels c 0 1 (op .pushNull) := .op hc.tidy rfl (by grind)
    refine (Moves.required.seq hpush).leads.then fun c1 h1 =>
      (leads_declare hname h1.adds).imp fun d hd => ⟨⟨1, hd.2.2⟩, ?_⟩
    change ⟨name, slot⟩ ∈ d.view.scope
    rw [hd.2.1]
    exact .head _

/-- The value of a variable may leave locals below it. -/
theorem leads_let (hnode : node.Balances p plain) (hc : Ready p levels c) (hname : name ∈ levels.binds) :
    Leads levels c (letScheme node name value) (c.Grows 0) := by
  refine Leads.then (P := c.Yields False 1) ?_ fun c1 h1 => .oneOf fun x hx => ?_
  · cases value with
    | none => exact (Moves.op hc.tidy rfl (by grind)).leads.imp fun _ h => .ofPushes h
    | some e => exact (hnode.operand hc e .value).imp fun _ h => ⟨h.grows, False.elim⟩
  · simp only [List.mem_cons, List.not_mem_nil, or_false] at hx
    rcases hx with rfl | rfl
    · refine Leads.imp (P := c.Yields False 0) (.choose fun _ => ?_) fun _ h => h.grows
      exact h1.onward hc fun d hd => (Moves.required.seq .pooled).seq (.op hd.tidy rfl (by grind))
    · refine (h1.onward hc fun d hd => Moves.required).then fun _ h2 => ?_
      obtain ⟨k, hadds⟩ := h2.grows
      exact (leads_declared hname hadds).imp fun _ h => ⟨k + 1, h⟩

theorem leads_functionDecl (hnode : node.Balances p plain) (hc : Ready p levels c)
    (hbinds : decl.name ∈ levels.binds) (hwrites : decl.name ∈ levels.writes)
    (hfew : decl.slotNames.length ≤ 255) (hplain : ∀ e ∈ decl.defaults, plain e) :
    Leads levels c (functionDeclScheme node decl) (c.Grows 0) :=
  .choose fun _ => .assoc <| leads_placed hc hbinds fun _ hd hplace =>
    ((moves_function hnode hd hfew hplain).seq (moves_store hd.tidy hplace hwrites)).leads.imp
      fun _ h => h.grows

theorem leads_decorated (hnode : node.Balances p plain) (hc : Ready p levels c)
    {decorator target : Expr}
    (hbinds : ∀ name ∈ (ExprKind.decorated decorator target).binds, name ∈ levels.binds)
    (hwrites : ∀ name ∈ (ExprKind.decorated decorator target).writes, name ∈ levels.writes)
    (hdecorator : plain decorator)
    (htarget : ∀ decl, target.kind = .functionDecl decl →
      decl.slotNames.length ≤ 255 ∧ ∀ e ∈ decl.defaults, plain e) :
    Leads levels c (decoratedScheme node decorator target) (c.Grows 0) := by
  obtain ⟨kind, span⟩ := target
  cases kind with
  | functionDecl decl =>
    obtain ⟨hfew, hplain⟩ := htarget decl rfl
    refine .choose fun _ => .assoc (.assoc (.assoc ?_))
    refine leads_placed hc (hbinds _ (.head _)) fun d hd hplace => ?_
    have hcall : Moves levels d 2 1 (op (.call 1 0)) := .op hd.tidy rfl (by grind)
    have hstore := moves_store hd.tidy hplace (hwrites _ (.head _))
    exact ((moves_value hnode hd hdecorator).seq
      ((moves_function hnode hd hfew hplain).seq (hcall.seq hstore))).leads.imp fun _ h => h.grows
  | _ => exact leads_impossible

/-! ## Classes and enums -/

theorem leads_parent (hp : KeepsReceiver p) (hnode : node.Balances p plain) (hc : Ready p levels c)
    (hreads : levels.reads = none) {parent : Option String} :
    Leads levels c (parentScheme p node parent) (c.Yields False parent.isSome.toNat) := by
  cases parent with
  | none => exact leads_skip (.ofPushes (.refl c))
  | some name =>
    refine (leads_variable hp hnode hc fun other hother => ?_).imp
      fun _ h => ⟨h.grows, False.elim⟩
    rw [hreads] at hother
    cases hother

theorem moves_memberValue (hnode : node.Balances p plain) (hc : Ready p levels c) {m : MemberDecl}
    (hfew : ∀ f ∈ m.functions, f.1.slotNames.length ≤ 255) (hplain : ∀ e ∈ m.operands, plain e) :
    Moves levels c n (n + 1) (memberValueScheme node m) := by
  cases m with
  | field f =>
    obtain ⟨name, typeExpr, initializer, isStatic, isPrivate, span⟩ := f
    cases initializer with
    | none => exact .op hc.tidy rfl (by grind)
    | some e => exact moves_value hnode hc (hplain e (.head _))
  | method m => exact moves_function hnode hc (hfew _ (.head _)) hplain

theorem moves_constructor (hnode : node.Balances p plain) (hc : Ready p levels c)
    {ctor : Option FunctionDecl} (hfew : ∀ f ∈ ctor, f.slotNames.length ≤ 255)
    (hplain : ∀ f ∈ ctor, ∀ e ∈ f.defaults, plain e) :
    Moves levels c n (n + 1) (constructorScheme node ctor) := by
  cases ctor with
  | none => exact .op hc.tidy rfl (by grind)
  | some decl => exact moves_function hnode hc (hfew decl rfl) (hplain decl rfl)

/-- The parent of a class comes first, and may be a macro. -/
theorem leads_classValue (hp : KeepsReceiver p) (hnode : node.Balances p plain)
    (hc : Ready p levels c) (hreads : levels.reads = none) {decl : ClassDecl}
    (hfew : ∀ f ∈ (ExprKind.classDecl decl).functions, f.1.slotNames.length ≤ 255)
    (hlater : ∀ e ∈ (ExprKind.classDecl decl).later, plain e) :
    Leads levels c (classValueScheme p node decl) (c.Yields False 1) := by
  refine .choose fun i => .assoc (.assoc (.assoc (.assoc ?_)))
  refine (leads_parent hp hnode hc hreads).then fun _ h1 => h1.onward hc fun d hd => ?_
  have hmembers {n : Nat} : Moves levels d n (n + decl.members.reverse.length * 1)
      (each (memberValueScheme node) decl.members.reverse) :=
    .each fun m hm _ => moves_memberValue hnode hd
      (fun f hf => hfew f (List.mem_append_left _
        (List.mem_flatMap.mpr ⟨m, List.mem_reverse.mp hm, hf⟩)))
      fun e he => hlater e (List.mem_append_left _
        (List.mem_flatMap.mpr ⟨m, List.mem_reverse.mp hm, he⟩))
  have hctor {n : Nat} : Moves levels d n (n + 1) (constructorScheme node decl.constructor) :=
    moves_constructor hnode hd
      (fun f hf => hfew (f, .constructor)
        (List.mem_append_right _ (List.mem_map.mpr ⟨f, Option.mem_toList.mpr hf, rfl⟩)))
      fun f hf e he => hlater e
        (List.mem_append_right _ (List.mem_flatMap.mpr ⟨f, Option.mem_toList.mpr hf, he⟩))
  have hgenerics {n : Nat} : Moves levels d n (n + decl.generics.length * 1)
      (each (fun g => constant (.str g)) decl.generics) :=
    .each fun _ _ _ => moves_constant hd.tidy
  have hmake : Moves levels d (0 + (classDescriptor decl).stackInputs * 1) (0 + 1)
      (counted (.makeClass i) (classDescriptor decl).stackInputs) :=
    moves_counted hd.tidy (fun _ => (Nat.mul_one _).symm) (fun _ => by simp [Instr.stackEffect])
      fun _ => rfl
  have hinputs : decl.parent.isSome.toNat + decl.members.reverse.length * 1 + 1 +
      decl.generics.length * 1 = 0 + (classDescriptor decl).stackInputs * 1 := by
    simp only [classDescriptor, ClassDescriptor.stackInputs, List.length_reverse, List.length_map]
    omega
  rw [← hinputs] at hmake
  exact hmembers.seq (hctor.seq (hgenerics.seq (Moves.pooled.seq hmake)))

theorem leads_class (hp : KeepsReceiver p) (hnode : node.Balances p plain) (hc : Ready p levels c)
    (hreads : levels.reads = none) {decl : ClassDecl} (hbinds : decl.name ∈ levels.binds)
    (hwrites : decl.name ∈ levels.writes)
    (hfew : ∀ f ∈ (ExprKind.classDecl decl).functions, f.1.slotNames.length ≤ 255)
    (hlater : ∀ e ∈ (ExprKind.classDecl decl).later, plain e) :
    Leads levels c (classScheme p node decl) (c.Grows 0) := by
  refine .choose fun place => .assoc (leads_placed hc hbinds fun d hd hplace => ?_)
  refine Leads.imp (P := d.Yields False 0) ?_ fun _ h => h.grows
  exact (leads_classValue hp hnode hd hreads hfew hlater).then fun _ h1 => h1.onwardFrom
    fun d' hd' => moves_store (hd.grows hd').tidy (hplace.grows hd') hwrites

theorem leads_enum (hc : Ready p levels c) (hreads : levels.reads = none) {decl : EnumDecl}
    (hbinds : decl.name ∈ levels.binds) (hwrites : decl.name ∈ levels.writes) :
    Leads levels c (enumScheme decl) (c.Grows 0) := by
  refine .choose fun place => .choose fun i => .assoc (.assoc (.assoc ?_))
  refine leads_placed hc hbinds fun d hd hplace =>
    Leads.imp (P := d.Pushes 0) ?_ fun _ h => h.grows
  have hmake : Moves levels d 0 1 (op (.makeEnum i)) := .op hd.tidy rfl (by grind)
  refine Moves.leads (Moves.pooled.seq (hmake.seq ((moves_store hd.tidy hplace hwrites).seq ?_)))
  split
  · refine .eachSame fun v _ => .choose fun i => ?_
    exact (((moves_load hd.tidy hreads hplace).seq .pooled).seq (.op hd.tidy rfl (by grind))).seq
      (Moves.op (n := 1) hd.tidy rfl (by grind))
  · exact .skip

theorem moves_use (hc : c.Tidy) : Moves levels c n n useScheme :=
  .either (.op hc rfl (by grind))
    (.either (.choose fun _ => .choose fun _ => .choose fun _ =>
      Moves.pooled.seq (.op hc rfl (by grind))) .none)

/-! ## Nodes -/

/-- How many values the code of a node leaves before the position is looked at. -/
def Leaving.pushed (position : Position) : Leaving → Nat
  | .value => 1
  | .nothing => 0
  | .asWanted => position.pushed

/-- What a node leaves is made up for by what its position wants. -/
theorem moves_settle (hc : c.Tidy) {left : Leaving} {position : Position} :
    Moves levels c (left.pushed position) position.pushed (settleScheme left position) := by
  cases left <;> cases position
  case value.effect => exact Moves.op (n := 1) (m := 0) hc rfl (by grind)
  case nothing.value => exact Moves.op (n := 0) (m := 1) hc rfl (by grind)
  all_goals exact .skip

/-- The code of a node that declares nothing starts with plain code, so it leaves no local. -/
structure StartsPlain (p : Program) (plain : Expr → Prop) (kind : ExprKind) : Prop where
  first : ∀ e ∈ kind.first, plain e
  macros : ∀ name value, kind = .var name → Expands p name value → plain value

theorem startsPlain_of_not_leavesLocal (hplain : PlainOperands p plain) {e : Expr}
    (h : ¬ LeavesLocal p e) : e.kind.isDeclaration = false ∧ StartsPlain p plain e.kind where
  left := Bool.eq_false_iff.mpr fun hdecl => h (.declares hdecl)
  right := {
    first := fun _ hf => hplain.leaves fun hleaves => h (.starts hf hleaves)
    macros := fun _ _ hkind hvalue => hplain.leaves fun hleaves => h (.expands hkind hvalue hleaves) }

/-- What the code of a node may rely on. -/
structure NodeReady (p : Program) (plain : Expr → Prop) (levels : Levels) (c : Scene)
    (kind : ExprKind) : Prop extends Ready p levels c where
  names : levels.toNames = kind.names
  later : ∀ e ∈ kind.later, plain e
  few : ∀ f ∈ kind.functions, f.1.slotNames.length ≤ 255

namespace NodeReady

variable {kind : ExprKind}

theorem reads (h : NodeReady p plain levels c kind) : levels.reads = kind.reads :=
  congrArg Names.reads h.names

theorem mem_binds (h : NodeReady p plain levels c kind) (hname : name ∈ kind.binds) :
    name ∈ levels.binds := by
  rw [h.names]
  exact hname

theorem mem_writes (h : NodeReady p plain levels c kind)
    (hname : name ∈ kind.writes) : name ∈ levels.writes := by
  rw [h.names]
  exact hname

end NodeReady

/-- One case for each kind of node that declares nothing. -/
theorem leads_kind (hp : KeepsReceiver p) (hnode : node.Balances p plain) {kind : ExprKind}
    (hk : NodeReady p plain levels c kind) (hkind : kind.isDeclaration = false)
    (position : Position) :
    Leads levels c (kindScheme p node position kind)
      (c.Yields (StartsPlain p plain kind) ((leaving kind).pushed position)) := by
  have hc := hk.toReady
  have hlater := hk.later
  have hmoves {m : Nat} {x : Scheme} (h : Moves levels c 0 m x) :
      Leads levels c x (c.Yields (StartsPlain p plain kind) m) :=
    h.leads.imp fun _ h => .ofPushes h
  have hone {x : Scheme} (h : Moves levels c 0 1 x) :
      Leads levels c x (c.Yields (StartsPlain p plain kind) (Leaving.value.pushed position)) :=
    hmoves h
  have hfirst {m : Nat} {x : Scheme} (h : Leads levels c x (c.Yields (∀ e ∈ kind.first, plain e) m)) :
      Leads levels c x (c.Yields (StartsPlain p plain kind) m) :=
    h.imp fun _ h => ⟨h.grows, fun hstarts => h.pushes hstarts.first⟩
  have hvalue {x : Scheme} (h : Leads levels c x (c.Yields (∀ e ∈ kind.first, plain e) 1)) :
      Leads levels c x (c.Yields (StartsPlain p plain kind) (Leaving.value.pushed position)) :=
    hfirst h
  have hwanted {x : Scheme} (h : Moves levels c 0 (0 + position.pushed) x) :
      Moves levels c 0 (Leaving.asWanted.pushed position) x := by
    rw [Nat.zero_add] at h
    exact h
  cases kind with
  | int n | float bits | str text => exact hmoves (moves_constant hc.tidy)
  | bool b =>
    have hpush : Moves levels c 0 1 (op (if b then .pushTrue else .pushFalse)) := by
      cases b <;> exact .op hc.tidy rfl (by grind)
    exact hone hpush
  | null => exact hone (.op hc.tidy rfl (by grind))
  | interpolated parts => exact hfirst (leads_interpolated hnode hc hlater)
  | array items =>
    exact hfirst (leads_values hnode hc hlater (fun _ => rfl) (fun _ => rfl) fun _ => rfl)
  | tuple items =>
    exact hfirst (leads_values hnode hc hlater (fun _ => rfl) (fun _ => rfl) fun _ => rfl)
  | map pairs => exact hfirst (leads_map hnode hc hlater)
  | var name =>
    refine (leads_variable hp hnode hc fun other hother => ?_).imp fun _ h =>
      ⟨h.grows, fun hstarts => h.pushes fun value => hstarts.macros name value rfl⟩
    exact Option.some.inj (hother.symm.trans hk.reads)
  | assign isWeak target value =>
    exact hfirst (leads_assign hp hnode hc (fun _ => hk.mem_writes) hlater)
  | member object name =>
    exact hvalue (.choose fun _ => .assoc (leads_first hnode hc fun d hd =>
      Moves.pooled.seq (.op hd.tidy rfl (by grind))))
  | index object i =>
    exact hvalue (.assoc (leads_first hnode hc fun d hd =>
      (moves_value hnode hd (hlater i (.head _))).seq
        (.op hd.tidy rfl (by grind))))
  | this => exact hmoves (moves_receiver hc.tidy)
  | drop target => exact hfirst (leads_drop hp hnode hc)
  | binary left b right =>
    exact hvalue (.assoc (leads_first hnode hc fun d hd =>
      (moves_value hnode hd (hlater right (.head _))).seq
        (.op hd.tidy rfl (by grind))))
  | logical left b right =>
    exact hvalue (leads_logical hnode hc (hlater right (.head _)))
  | unary u operand =>
    exact hvalue (leads_first hnode hc fun d hd => .op hd.tidy rfl (by grind))
  | reference target | deref target =>
    exact hvalue (leads_first hnode hc fun d hd => .op hd.tidy rfl (by grind))
  | call callee args => exact hfirst (leads_call hnode hc hlater)
  | lambda decl =>
    exact hmoves (moves_function hnode hc (hk.few _ (.head _)) hlater)
  | cond branches otherwise => exact hmoves (moves_if hnode hc hlater)
  | ternary a b d => exact hmoves (moves_ternary hnode hc hlater)
  | whileLoop condition body =>
    exact hmoves (hwanted (moves_while hnode hc (hlater _ (.head _))))
  | doWhile body condition =>
    exact hmoves (hwanted (moves_doWhile hnode hc (hlater _ (.head _))))
  | rangeFor name typeExpr first last step body =>
    exact hmoves (hwanted (moves_rangeFor hnode hc hk.reads (fun _ => hk.mem_binds)
      (hk.mem_writes (.head _)) hlater))
  | forEach name iterable body =>
    exact hmoves (hwanted (moves_forEach hnode hc fun _ => hk.mem_binds))
  | breakLoop => exact hmoves (moves_break hc)
  | continueLoop => exact hmoves (moves_continue hc)
  | ret value =>
    exact hmoves (moves_return hnode hc hk.reads fun e he =>
      hlater e (Option.mem_toList.mpr he))
  | switch subject cases otherwise => exact hmoves (moves_called hc.tidy)
  | patternMatch subject arms otherwise => exact hmoves (moves_called hc.tidy)
  | scope body => exact hmoves (moves_called hc.tidy)
  | inlineDecl name value => exact hmoves .skip
  | typedef name tokens => exact hmoves .skip
  | use decl => exact hmoves (moves_use hc.tidy)
  | throw value => exact hmoves (moves_throw hnode hc (hlater _ (.head _)))
  | assert condition message =>
    exact hfirst (leads_assert hnode hc fun e he => hlater e (Option.mem_toList.mpr he))
  | letDecl _ _ _ _ | functionDecl _ | decorated _ _ | classDecl _ | enumDecl _ => cases hkind

/-- Declarations may leave a local on the stack, in a slot that is known. -/
theorem leads_declaration (hp : KeepsReceiver p) (hplain : PlainOperands p plain)
    (hparams : FewParameters p) (hnode : node.Balances p plain) {st : Standing} {kind : ExprKind}
    {span : Span} (he : Occurs p st ⟨kind, span⟩) (hk : NodeReady p plain levels c kind)
    (hkind : kind.isDeclaration = true) (position : Position) :
    leaving kind = .nothing ∧ Leads levels c (kindScheme p node position kind) (c.Grows 0) := by
  have hc := hk.toReady
  cases kind with
  | letDecl name typeExpr value isConst =>
    exact ⟨rfl, leads_let hnode hc (hk.mem_binds (.head _))⟩
  | functionDecl decl =>
    exact ⟨rfl, leads_functionDecl hnode hc (hk.mem_binds (.head _))
      (hk.mem_writes (.head _)) (hk.few _ (.head _)) hk.later⟩
  | decorated decorator target =>
    refine ⟨rfl, leads_decorated hnode hc (fun _ => hk.mem_binds) (fun _ => hk.mem_writes)
      (hk.later _ (.head _)) fun decl hdecl => ?_⟩
    have htarget : Occurs p .decorated target :=
      he.inside (.tail _ (.head _))
    have hlater := hplain.later htarget
    rw [hdecl] at hlater
    exact ⟨hparams decl .function ⟨_, _, htarget, by rw [hdecl]; exact .head _⟩,
      hlater⟩
  | classDecl decl =>
    exact ⟨rfl, leads_class hp hnode hc hk.reads (hk.mem_binds (.head _))
      (hk.mem_writes (.head _)) hk.few hk.later⟩
  | enumDecl decl =>
    exact ⟨rfl, leads_enum hc hk.reads (hk.mem_binds (.head _))
      (hk.mem_writes (.head _))⟩
  | _ => cases hkind

/-- By induction on the budget: a node that declares nothing and starts with plain code leaves
no local, and one that does stands where locals may be left. -/
theorem balances_of_plain (hplain : PlainOperands p plain) (hp : KeepsReceiver p)
    (hparams : FewParameters p) : ∀ budget : Nat, (nodeScheme p budget).Balances p plain
  | 0 => ⟨fun _ _ _ => leads_impossible, fun _ _ _ => leads_impossible⟩
  | budget + 1 => by
    have hnode := balances_of_plain hplain hp hparams budget
    have hready {st : Standing} {e : Expr} {levels : Levels} {c : Scene} (hc : Ready p levels c)
        (he : Occurs p st e) : NodeReady p plain (levels.inNode e) c e.kind :=
      ⟨hc.inNode e, rfl, hplain.later he, fun f hf => hparams f.1 f.2 ⟨_, _, he, hf⟩⟩
    -- a declaration leaves locals, and any other node only those that it starts with
    have hyields {st : Standing} {e : Expr} {levels : Levels} {c : Scene} (hc : Ready p levels c)
        (he : Occurs p st e) (position : Position) :
        Leads (levels.inNode e) c
          (kindScheme p (nodeScheme p budget) position e.kind ++
            settleScheme (leaving e.kind) position)
          (c.Yields (e.kind.isDeclaration = false ∧ StartsPlain p plain e.kind) position.pushed) := by
      have hin := hc.inNode e
      refine Leads.then (P := c.Yields (e.kind.isDeclaration = false ∧ StartsPlain p plain e.kind)
        ((leaving e.kind).pushed position)) ?_ fun _ h1 => h1.onward hin fun d hd =>
          moves_settle hd.tidy
      by_cases hkind : e.kind.isDeclaration = true
      · obtain ⟨kind, span⟩ := e
        obtain ⟨hleft, hleads⟩ :=
          leads_declaration hp hplain hparams hnode he (hready hc he) hkind position
        dsimp only at hleft ⊢
        rw [hleft]
        refine hleads.imp fun _ h => ⟨h, fun hnot => ?_⟩
        rw [hkind] at hnot
        cases hnot.1
      · exact (leads_kind hp hnode (hready hc he) (Bool.eq_false_iff.mpr hkind) position).imp
          fun _ h => ⟨h.grows, fun hstarts => h.pushes hstarts.2⟩
    have hmarked {st : Standing} {e : Expr} {levels : Levels} {c : Scene} (hc : Ready p levels c)
        (he : Occurs p st e) (position : Position) :
        Leads levels c (marked e (kindScheme p (nodeScheme p budget) position e.kind ++
            settleScheme (leaving e.kind) position))
          (c.Yields (e.kind.isDeclaration = false ∧ StartsPlain p plain e.kind)
            position.pushed) := by
      refine (hyields hc he position).marked fun k t c' hx h => hc.expects
        ⟨budget + 1, st, position, k, c, c', ⟨he, t, hx, rfl⟩, fun hleaves => ?_⟩
      exact (h.pushes (startsPlain_of_not_leavesLocal hplain hleaves)).height
    refine ⟨fun {levels c} hc e position k t c' ⟨he, h⟩ => ?_,
      fun {levels c} hc e position k t c' ⟨he, h⟩ => ?_⟩
    · refine Leads.imp (hmarked hc he position) (fun _ h => ⟨h.grows, fun hp => ?_⟩) k t c' h
      exact h.pushes ⟨hplain.declares he hp, hplain.starts hp,
        fun _ _ hkind => hplain.expands hp hkind⟩
    · exact ((hmarked hc he position).imp fun _ h => h.grows) k t c' h

/-- Where declarations stand in bodies, all operands are plain. -/
theorem balances_nodeScheme (hbodies : DeclaresInBodies p) (hp : KeepsReceiver p)
    (hparams : FewParameters p) (budget : Nat) : (nodeScheme p budget).Balances p fun _ => True :=
  balances_of_plain hbodies.plainOperands hp hparams budget

end

end Codegen

end Strand
