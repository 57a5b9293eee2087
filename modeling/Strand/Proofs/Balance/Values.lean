import Strand.Proofs.Balance

/-!
# Every construct is balanced

If the nodes inside a construct are balanced, so is the construct: one lemma for each
scheme, which reads off how the stack grows and shrinks along it. An element of a body may
leave locals below its value, which the end of the body takes off. An operand may do so
only if it comes first: then all that the construct takes lies above those locals, and it
leaves them in turn.
-/

namespace Strand.Codegen

open Scheme

variable {name : String} {mk : UInt16 → Instr}

/-- The nodes inside leave what they should, and those that are plain no locals. -/
structure NodeScheme.Balances (node : NodeScheme) (p : Program) (plain : Expr → Prop) : Prop where
  operand : ∀ {levels c}, Ready p levels c → ∀ e position,
    Leads levels c (node .operand e position) (c.Yields (plain e) position.pushed)
  element : ∀ {levels c}, Ready p levels c → ∀ e position,
    Leads levels c (node .element e position) (c.Grows position.pushed)

section

variable {p : Program} {node : NodeScheme} {plain : Expr → Prop} {levels : Levels} {c : Scene}
  {n m : Nat} {e value target : Expr} {isWeak : Bool} {body items : List Expr}

/-! ## Code without nodes -/

theorem moves_constant (hc : c.Tidy) {k : Constant} : Moves levels c n (n + 1) (constant k) :=
  .choose fun _ => Moves.pooled.seq (.op hc rfl (by grind))

theorem moves_receiver (hc : c.Tidy) : Moves levels c n (n + 1) receiver := by
  refine .either (.choose fun v => .found hc fun hslot hmem => .getLocal hc (by omega) ?_)
    (.either (.choose fun _ => Moves.required.seq (.op hc rfl (by grind))) .none)
  exact fun _ _ => ⟨_, hmem, rfl, .inr rfl⟩

theorem moves_implicitReceiver (hp : KeepsReceiver p) (hc : c.Tidy) :
    Moves levels c n (n + 1) (implicitReceiver p) :=
  .either (moves_receiver hc)
    (.either (fun _ _ => leads_requires fun hlost => absurd hp hlost) .none)

/-- All but a macro, for which its tree stands. -/
theorem moves_resolved (hp : KeepsReceiver p) (hc : c.Tidy)
    (hreads : ∀ other, levels.reads = some other → other = name) : Moves levels c n (n + 1) (oneOf
      [choose fun v => found name v ++ op (.getLocal v.slot),
        choose fun i : UInt16 => unfound name ++ op (.getUpvalue i),
        choose fun i => unfound name ++ pooled (.str name) i ++ op (.getGlobal i),
        choose fun i =>
          unfound name ++ implicitReceiver p ++ pooled (.str name) i ++ op (.getAttr i)]) := by
  have hreceiver : Moves levels c n (n + 1) (implicitReceiver p) := moves_implicitReceiver hp hc
  refine .either (.choose fun v => .found hc fun hslot hmem => .getLocal hc (by omega) ?_) ?_
  · intro other hother
    rw [hreads other hother]
    exact ⟨_, hmem, rfl, .inl rfl⟩
  refine .either (.choose fun _ => Moves.required.seq (.op hc rfl (by grind))) ?_
  refine .either (.choose fun _ => (Moves.required.seq .pooled).seq (.op hc rfl (by grind))) ?_
  exact .either (.choose fun _ =>
    ((Moves.required.seq hreceiver).seq .pooled).seq (.op hc rfl (by grind))) .none

theorem moves_dropSlot {slot : UInt16} : Moves levels c n n (change fun c => c.dropSlot slot) := by
  intro c1 h1
  have hdropped : c.Pushes n (c1.dropSlot slot) :=
    ⟨⟨h1.extends_.kind, h1.extends_.depth, h1.extends_.loop,
      by rw [c1.shape_dropSlot, h1.extends_.shape]⟩, h1.height⟩
  exact leads_change (by rw [hdropped.view, h1.view]) hdropped

theorem moves_dropName (hp : KeepsReceiver p) (hc : c.Tidy) :
    Moves levels c n n (dropNameScheme p name) := by
  have hreceiver : Moves levels c n (n + 1) (implicitReceiver p) := moves_implicitReceiver hp hc
  refine .either (.choose fun _ => .assoc (.found hc fun hslot _ => ?_)) ?_
  · exact (Moves.dropLocal hc (by omega)).seq moves_dropSlot
  refine .either (.choose fun _ => Moves.required.seq (.op hc rfl (by grind))) ?_
  refine .either (.choose fun _ => (Moves.required.seq .pooled).seq (.op hc rfl (by grind))) ?_
  refine .either (.choose fun _ => ((Moves.required.seq hreceiver).seq .pooled).seq (.op hc rfl (by grind))) ?_
  exact .either .skip .none

/-- An instruction that takes `width` values for each item. -/
theorem moves_counted (hc : c.Tidy) {width count : Nat}
    (hconsumes : ∀ i, (mk i).consumes = i.toNat * width)
    (heffect : ∀ i, (mk i).stackEffect = 1 - ((i.toNat * width : Nat) : Int))
    (hslotless : ∀ i, (mk i).slotless = true) :
    Moves levels c (n + count * width) (n + 1) (counted mk count) := by
  refine .assume fun ⟨_, _, hlt⟩ => ?_
  have hcount : (UInt16.ofNat count).toNat = count := UInt16.toNat_ofNat_of_lt' hlt
  refine .op hc (hslotless _) ⟨?_, ?_⟩
  · rw [hconsumes, hcount]
    omega
  · rw [heffect, hcount]
    omega

/-- An instruction that takes what the items have left, the first of which may leave locals
below. -/
theorem leads_collected {α : Type} (hc : Ready p levels c) {x : α → Scheme}
    (width : Nat) {q : Prop} {items : List α}
    (hhead : ∀ a ∈ items.head?, Leads levels c (x a) (c.Yields q width))
    (htail : ∀ a ∈ items.tail, ∀ d, Ready p levels d → ∀ n, Moves levels d n (n + width) (x a))
    (hconsumes : ∀ i, (mk i).consumes = i.toNat * width)
    (heffect : ∀ i, (mk i).stackEffect = 1 - ((i.toNat * width : Nat) : Int))
    (hslotless : ∀ i, (mk i).slotless = true) :
    Leads levels c (each x items ++ counted mk items.length) (c.Yields q 1) := by
  have hcounted {d : Scene} (hd : Ready p levels d) (count : Nat) :
      Moves levels d (0 + count * width) 1 (counted mk count) :=
    moves_counted hd.tidy hconsumes heffect hslotless
  cases items with
  | nil =>
    refine (Moves.seq (m := 0) .skip ?_).leads.imp fun _ h => .ofPushes h
    have hnone := hcounted hc 0
    rw [Nat.zero_mul] at hnone
    exact hnone
  | cons a rest =>
    refine .assoc ((hhead a rfl).then fun _ h1 => h1.onward hc fun d hd => ?_)
    have hrest : Moves levels d width (width + rest.length * width) (each x rest) :=
      .each fun b hb n => htail b hb d hd n
    have hall := hcounted hd (rest.length + 1)
    rw [Nat.zero_add, Nat.add_one_mul, Nat.add_comm] at hall
    exact hrest.seq hall

/-! ## Bodies -/

theorem leads_effects (hnode : node.Balances p plain) : ∀ {body : List Expr} {c : Scene}, Ready p levels c →
    Leads levels c (effectsScheme node body) (c.Grows 0)
  | [], c, _ => leads_skip (Scene.Pushes.refl c).grows
  | e :: _, _, hc => (hnode.element hc e .effect).then fun _ h1 =>
    (leads_effects hnode (hc.grows h1)).imp fun _ h2 => h1.trans h2

theorem leads_sequence (hnode : node.Balances p plain) : ∀ {body : List Expr} {c : Scene},
    Ready p levels c → Leads levels c (sequenceScheme node body) (c.Grows 1)
  | [], _, hc => (Moves.op hc.tidy rfl (by grind)).leads.imp fun _ h => h.grows
  | [last], _, hc => hnode.element hc last .value
  | e :: e' :: rest, _, hc => (hnode.element hc e .effect).then fun _ h1 =>
    (leads_sequence hnode (hc.grows h1)).imp fun _ h2 => h1.trans h2

/-! ## Operands and blocks -/

variable (hp : KeepsReceiver p) (hnode : node.Balances p plain) (hc : Ready p levels c)

include hnode hc

theorem moves_value (he : plain e) : Moves levels c n (n + 1) (node.value e) :=
  .ofLeads fun _ h1 => (hnode.operand (hc.pushes h1) e .value).imp fun _ h => h.pushes he

theorem leads_value : Leads levels c (node.value e) (c.Yields (∀ f ∈ some e, plain f) 1) :=
  (hnode.operand hc e .value).imp fun _ h => ⟨h.grows, fun hplain => h.pushes (hplain e rfl)⟩

/-- A construct that starts with an operand. -/
theorem leads_first {x : Scheme} (hx : ∀ d, Ready p levels d → Moves levels d 1 m x) :
    Leads levels c (node.value e ++ x) (c.Yields (∀ f ∈ some e, plain f) m) :=
  (leads_value hnode hc).then fun _ h1 => h1.onward hc hx

theorem moves_block : Moves levels c n (n + 1) (blockScheme node body) :=
  .ofLeads fun _ h1 =>
    leads_scoped (hc.pushes h1).tidy (leads_sequence hnode (hc.pushes h1).openScope)

theorem moves_blockEffects : Moves levels c n n (blockEffectsScheme node body) :=
  .ofLeads fun _ h1 =>
    leads_scoped (hc.pushes h1).tidy (leads_effects hnode (hc.pushes h1).openScope)

theorem moves_otherwise
    {body : Option (List Expr)} : Moves levels c n (n + 1) (otherwiseScheme node body) := by
  cases body with
  | none => exact .op hc.tidy rfl (by grind)
  | some body => exact moves_block hnode hc

/-! ## Reading, assigning and dropping -/

include hp in
theorem leads_variable (hreads : ∀ other, levels.reads = some other → other = name) :
    Leads levels c (variableScheme p node name)
      (c.Yields (∀ value, Expands p name value → plain value) 1) := by
  refine .oneOf fun x hx => ?_
  rcases List.mem_cons.mp hx with rfl | hx
  · refine .choose fun value => Leads.then (P := fun d => d = c ∧ Expands p name value)
      (leads_requires fun hexpands => ⟨rfl, hexpands⟩) ?_
    rintro _ ⟨rfl, hexpands⟩
    exact (hnode.operand hc value .value).imp fun _ h =>
      ⟨h.grows, fun hplain => h.pushes (hplain value hexpands)⟩
  · refine Leads.imp (P := c.Pushes 1) (fun k t c' h => ?_) fun _ h => .ofPushes h
    exact (moves_resolved hp hc.tidy hreads).leads k t c' ⟨x, hx, h⟩

include hp in
/-- A name is assigned to. The value comes first, unless the name stands for an attribute of
the receiver. -/
theorem leads_assignName (hname : name ∈ levels.writes) (hstrong : isWeak = false → plain value) :
    Leads levels c (assignNameScheme p node isWeak name value) (c.Yields (plain value) 1) := by
  have hvalue : Leads levels c (node.value value) (c.Yields (plain value) 1) :=
    hnode.operand hc value .value
  -- looking the name up changes nothing, so each form starts from the same scene
  have hresolved {P : Scene → Prop} {x : Scheme}
      (hx : P c → Leads levels c x (c.Yields (plain value) 1)) :
      Leads levels c (.requires P ++ x) (c.Yields (plain value) 1) := by
    refine Leads.then (P := fun d => d = c ∧ P c) (leads_requires fun hP => ⟨rfl, hP⟩) ?_
    rintro _ ⟨rfl, hP⟩
    exact hx hP
  refine .oneOf fun x hx => ?_
  simp only [List.mem_cons, List.not_mem_nil, or_false] at hx
  rcases hx with rfl | rfl | rfl | rfl
  · refine .choose fun v => .assoc (hresolved fun hfound => hvalue.then fun _ h1 =>
      h1.onwardFrom fun d hd => ?_)
    exact .setLocal (hc.grows hd).tidy (hd.mem_scope (c.mem_scope hfound)) hname Nat.one_pos
  · exact .choose fun _ => .assoc (hresolved fun _ => hvalue.then fun _ h1 =>
      h1.onward hc fun d hd => .op hd.tidy rfl (by grind))
  · exact .choose fun _ => .assoc (.assoc (hresolved fun _ => hvalue.then fun _ h1 =>
      h1.onward hc fun d hd => Moves.pooled.seq (.op hd.tidy rfl (by grind))))
  · refine .choose fun _ => .assoc (.assoc (hresolved fun _ =>
      Leads.then (P := fun d => d = c) (leads_pooled rfl) ?_))
    rintro c rfl
    have hreceiver {d : Scene} {n : Nat} (hd : Ready p levels d) :
        Moves levels d n (n + 1) (implicitReceiver p) := moves_implicitReceiver hp hd.tidy
    cases isWeak with
    | false =>
      have hvalue : Moves levels c 1 2 (node.value value) := moves_value hnode hc (hstrong rfl)
      exact (((hreceiver hc).seq hvalue).seq (.op hc.tidy rfl (by grind))).leads.imp
        fun _ h => .ofPushes h
    | true =>
      exact .assoc (.assoc (hvalue.then fun _ h1 => h1.onward hc fun d hd => (hreceiver hd).seq
        (Moves.seq (m := 2) (.op hd.tidy rfl (by grind)) (.op hd.tidy rfl (by grind)))))

include hp in
theorem leads_assign
    (hwrites : ∀ name ∈ (ExprKind.assign isWeak target value).writes, name ∈ levels.writes)
    (hlater : ∀ e ∈ (ExprKind.assign isWeak target value).later, plain e) :
    Leads levels c (assignScheme p node isWeak target value)
      (c.Yields (∀ e ∈ (ExprKind.assign isWeak target value).first, plain e) 1) := by
  obtain ⟨kind, span⟩ := target
  cases kind with
  | var name =>
    have hname : name ∈ levels.writes := hwrites name (.head _)
    cases isWeak with
    | false =>
      have hvalue : plain value := hlater value (.head _)
      exact (leads_assignName hp hnode hc hname fun _ => hvalue).imp fun _ h =>
        .ofPushes (h.pushes hvalue)
    | true =>
      have hweak : Leads levels c (assignNameScheme p node true name value)
          (c.Yields (plain value) 1) := leads_assignName hp hnode hc hname nofun
      exact hweak.imp fun _ h => ⟨h.grows, fun hfirst => h.pushes (hfirst value rfl)⟩
  | member object name =>
    refine .choose fun i => .assoc (Leads.then (P := fun d => d = c) (leads_pooled rfl) ?_)
    rintro _ rfl
    cases isWeak with
    | false =>
      have hvalue : plain value := hlater value (.head _)
      exact .assoc (leads_first hnode hc fun d hd =>
        (moves_value hnode hd hvalue).seq (.op hd.tidy rfl (by grind)))
    | true =>
      have hobject : plain object := hlater object (.head _)
      exact .assoc (.assoc (leads_first hnode hc fun d hd =>
        (moves_value hnode hd hobject).seq
          (Moves.seq (m := 2) (.op hd.tidy rfl (by grind)) (.op hd.tidy rfl (by grind)))))
  | index object i =>
    have hindex : plain i := hlater i (.head _)
    have hvalue : plain value := hlater value (.tail _ (.head _))
    exact .assoc (.assoc (leads_first hnode hc fun d hd => (moves_value hnode hd hindex).seq
      ((moves_value hnode hd hvalue).seq (.op hd.tidy rfl (by grind)))))
  | _ => exact leads_impossible

include hp in
theorem leads_drop : Leads levels c (dropScheme p node target)
      (c.Yields (∀ e ∈ (ExprKind.drop target).first, plain e) 0) := by
  obtain ⟨kind, span⟩ := target
  cases kind with
  | var name => exact (moves_dropName hp hc.tidy).leads.imp fun _ h => .ofPushes h
  | member object name =>
    exact .choose fun _ => .assoc (leads_first hnode hc fun d hd =>
      Moves.pooled.seq (.op hd.tidy rfl (by grind)))
  | _ => exact leads_impossible

/-! ## Collections, operators and calls -/

theorem moves_values (hitems : ∀ e ∈ items, plain e) :
    Moves levels c n (n + items.length * 1) (valuesScheme node items) :=
  .each fun e he _ => moves_value hnode hc (hitems e he)

theorem leads_values
    (hitems : ∀ e ∈ items.tail, plain e) (hconsumes : ∀ i, (mk i).consumes = i.toNat)
    (heffect : ∀ i, (mk i).stackEffect = 1 - (i.toNat : Int)) (hslotless : ∀ i, (mk i).slotless = true) :
    Leads levels c (valuesScheme node items ++ counted mk items.length)
      (c.Yields (∀ e ∈ items.head?, plain e) 1) := by
  refine leads_collected hc 1 (fun e he => ?_)
    (fun e he d hd n => moves_value hnode hd (hitems e he))
    (fun i => by rw [hconsumes, Nat.mul_one]) (fun i => by rw [heffect, Nat.mul_one]) hslotless
  rw [Option.mem_def.mp he]
  exact leads_value hnode hc

theorem leads_interpolated
    {parts : List TextPart} (hlater : ∀ e ∈ (ExprKind.interpolated parts).later, plain e) :
    Leads levels c (each (textPartScheme node) parts ++ counted .buildString parts.length)
      (c.Yields (∀ e ∈ (ExprKind.interpolated parts).first, plain e) 1) := by
  refine leads_collected hc 1 (fun part hpart => ?_) (fun part hpart d hd n => ?_)
    (fun i => (Nat.mul_one _).symm) (fun i => by rw [Nat.mul_one]; rfl) fun _ => rfl
  · simp only [ExprKind.first, Option.mem_def.mp hpart]
    cases part with
    | literal text => exact (moves_constant hc.tidy).leads.imp fun _ h => .ofPushes h
    | expr e => exact leads_value hnode hc
  · cases part with
    | literal text => exact moves_constant hd.tidy
    | expr e =>
      refine moves_value hnode hd (hlater e ?_)
      exact List.mem_flatMap.mpr ⟨_, hpart, .head _⟩

theorem leads_map {pairs : List (Expr × Expr)} (hlater : ∀ e ∈ (ExprKind.map pairs).later, plain e) :
    Leads levels c (each (pairScheme node) pairs ++ counted .map pairs.length)
      (c.Yields (∀ e ∈ (ExprKind.map pairs).first, plain e) 1) := by
  refine leads_collected hc 2 (fun pair hpair => ?_) (fun pair hpair d hd n => ?_)
    (fun i => Nat.mul_comm ..) (fun i => by simp only [Instr.stackEffect]; omega) fun _ => rfl
  · have hvalue : plain pair.2 := hlater _ (List.mem_append_left _ (by
      rw [Option.mem_def.mp hpair]
      exact .head _))
    simp only [ExprKind.first, Option.mem_def.mp hpair]
    exact leads_first hnode hc fun d hd => moves_value hnode hd hvalue
  · have hmem : ∀ e ∈ [pair.1, pair.2], plain e := fun e he =>
      hlater e (List.mem_append_right _ (List.mem_flatMap.mpr ⟨pair, hpair, he⟩))
    exact (moves_value hnode hd (hmem _ (.head _))).seq
      (moves_value hnode hd (hmem _ (.tail _ (.head _))))

/-- The left side may leave locals, and then so it does on both paths. -/
theorem leads_logical {left right : Expr} {b : LogicalOp} (hright : plain right) :
    Leads levels c (logicalScheme node left b right) (c.Yields (∀ e ∈ some left, plain e) 1) := by
  refine .blockAssoc (.blockAssoc (Leads.blockFrom (g := Scene.view)
    (fun v => leads_value hnode (hc.set .done v rfl)) fun c1 h1 => ?_))
  obtain ⟨d, hd, hpush⟩ := h1.base
  have hin := (hc.grows hd.grows).set .done c1.view rfl
  have hjump (kind : JumpKind) (hkind : kind = .ifFalse ∨ kind = .ifTrue) :
      Moves (levels.set .done c1.view) d 1 1 (jump kind .done) := by
    refine .jump hin.tidy hkind ?_ (by omega)
    rw [Levels.set_self, hpush.view]
  have hpop : Moves (levels.set .done c1.view) d 1 0 (op .pop) := .op hin.tidy rfl (by grind)
  refine ((hjump _ ?_).seq (hpop.seq (moves_value hnode hin hright)) c1 hpush).imp fun c' h' => ?_
  · cases b <;> simp
  · exact ⟨by rw [h'.view, hpush.view], hd.push h'⟩

theorem leads_call {callee : Expr}
    {args : List Argument} (hargs : ∀ e ∈ args.map Argument.value, plain e) :
    Leads levels c (callScheme node callee args) (c.Yields (∀ e ∈ some callee, plain e) 1) := by
  have hpassed : ∀ e ∈ args.filterMap positional?, plain e := by
    intro e he
    obtain ⟨a, ha, heq⟩ := List.mem_filterMap.mp he
    cases a with
    | positional e' =>
      cases heq
      exact hargs _ (List.mem_map.mpr ⟨_, ha, rfl⟩)
    | keyword name e' => cases heq
  have hnamed : ∀ x ∈ args.filterMap keyword?, plain x.2 := by
    intro x hx
    obtain ⟨a, ha, heq⟩ := List.mem_filterMap.mp hx
    cases a with
    | positional e' => cases heq
    | keyword name e' =>
      cases heq
      exact hargs _ (List.mem_map.mpr ⟨_, ha, rfl⟩)
  refine .assoc (.assoc (.assoc (leads_first hnode hc fun d hd => ?_)))
  have hkeywords {n : Nat} : Moves levels d n (n + (args.filterMap keyword?).length * 2)
      (each (keywordScheme node) (args.filterMap keyword?)) :=
    .each fun x hx _ => (moves_constant hd.tidy).seq (moves_value hnode hd (hnamed x hx))
  refine (moves_values hnode hd hpassed).seq (hkeywords.seq (.assume fun ⟨_, _, hcount, hkeys⟩ => ?_))
  have hcount' := UInt8.toNat_ofNat_of_lt' (Nat.lt_succ_of_le hcount)
  have hkeys' := UInt8.toNat_ofNat_of_lt' (Nat.lt_succ_of_le hkeys)
  refine .op hd.tidy rfl ⟨?_, ?_⟩
  · simp only [Instr.consumes, hcount', hkeys']
    omega
  · simp only [Instr.stackEffect, hcount', hkeys']
    omega

/-! ## Branches -/

theorem moves_branch {b : Branch}
    (hcondition : plain b.condition) (hdone : levels.views .done = some (c.above 1)) :
    Moves levels c 0 0 (branchScheme node c.height b) := by
  have hin := hc.set .skip (c.above 1) rfl
  have htaken : Halts (levels.set .skip (c.above 1)) c 0
      (node.value b.condition ++ jump .ifFalse .skip ++ op .pop ++ blockScheme node b.body ++
        jump .always .done) := by
    refine Moves.halts (m := 1) ?_ (.jump hc.tidy (by rw [Levels.set_of_ne (by simp)]; exact hdone))
    exact (((moves_value hnode hin hcondition).seq
      (.jump hc.tidy (.inl rfl) (Levels.set_self ..) (by omega))).seq
      (.op hc.tidy rfl (by grind))).seq (moves_block hnode hin)
  exact htaken.block.seq (.op hc.tidy rfl (by grind))

/-- The base of a conditional is the height that it starts with. -/
theorem moves_if {branches : List Branch}
    {otherwise : Option (List Expr)} (hconditions : ∀ e ∈ branches.map Branch.condition, plain e) :
    Moves levels c n (n + 1) (ifScheme node branches otherwise) := by
  refine .ofLeads fun c1 h1 k t c' ⟨base, h⟩ => ?_
  obtain rfl : c1.height = base := by
    obtain ⟨_, _, _, ⟨_, ⟨_, _, _, ⟨_, _, _, ⟨-, -, hbase⟩, -⟩, -⟩, -⟩, -⟩ := h
    exact hbase
  have hin := (hc.pushes h1).set .done (c1.above 1) rfl
  have hbranches : Moves (levels.set .done (c1.above 1)) c1 0 0
      (each (branchScheme node c1.height) branches) :=
    .eachSame fun b hb => moves_branch hnode hin (hconditions _ (List.mem_map.mpr ⟨b, hb, rfl⟩))
      (Levels.set_self ..)
  refine Moves.leads (n := 1) ?_ k t c' h
  exact (Moves.block ((Moves.required.seq hbranches).seq (moves_otherwise hnode hin))).seq .atHeight

theorem moves_ternary {condition thenValue elseValue : Expr}
    (hplain : ∀ e ∈ [condition, thenValue, elseValue], plain e) :
    Moves levels c n (n + 1) (ternaryScheme node condition thenValue elseValue) := by
  simp only [List.mem_cons, List.not_mem_nil, or_false, forall_eq_or_imp, forall_eq] at hplain
  obtain ⟨hcondition, hthenValue, helseValue⟩ := hplain
  refine .ofLeads fun c1 h1 k t c' hcode => ?_
  obtain ⟨base, h⟩ := hcode
  obtain rfl : c1.height = base := by
    obtain ⟨_, _, _, ⟨_, ⟨_, _, _, ⟨_, _, _, ⟨_, _, _, ⟨_, ⟨_, _, _, ⟨_, _, _, ⟨_, _, _, ⟨_, _, _,
      ⟨_, _, _, ⟨-, -, hbase⟩, -⟩, -⟩, -⟩, -⟩, -⟩, -⟩, -⟩, -⟩, -⟩, -⟩, -⟩ := h
    exact hbase
  have hc1 := hc.pushes h1
  have hdone := hc1.set .done (c1.above 1) rfl
  have hskip := hdone.set .skip (c1.above 1) rfl
  refine Moves.leads (n := 1) ?_ k t c' h
  have hthen : Halts ((levels.set .done (c1.above 1)).set .skip (c1.above 1)) c1 0
      (heightIs c1.height ++ node.value condition ++ jump .ifFalse .skip ++ op .pop ++
        node.value thenValue ++ jump .always .done) := by
    refine Moves.halts (m := 1) ?_ (.jump hc1.tidy ?_)
    · exact (((Moves.required.seq (moves_value hnode hskip hcondition)).seq
        (.jump hc1.tidy (.inl rfl) (Levels.set_self ..) (by omega))).seq
        (.op hc1.tidy rfl (by grind))).seq (moves_value hnode hskip hthenValue)
    · rw [Levels.set_of_ne (by simp), Levels.set_self]
  exact (Moves.block ((hthen.block.seq (.op hc1.tidy rfl (by grind))).seq
    (moves_value hnode hdone helseValue))).seq .atHeight

end

end Strand.Codegen
