import Strand.Proofs.Balance.Values

/-!
# Loops are balanced

An iteration starts and ends with the stack at one height, the base of the loop, and so
does every way out of it: `break` and `continue` first take off what lies above the base.
-/

namespace Strand.Codegen

open Scheme

variable {x : Scheme} {body : List Expr} {counter : UInt16}

/-- The scene at the base of a loop, with the levels around the loop and those inside. -/
structure InLoop (p : Program) (outer levels : Levels) (c : Scene) : Prop where
  ready : Ready p levels c
  start : levels.views .start = some c.view
  names : levels.toNames = outer.toNames

section

variable {p : Program} {node : NodeScheme} {plain : Expr → Prop} {outer levels : Levels}
  {c : Scene} {n : Nat} {position : Position}

namespace InLoop

theorem enter (hc : Ready p levels c) (back : Bool) :
    InLoop p levels (levels.inLoop c.view c.view) { c with loop := some ⟨c.height, back⟩ } := by
  have hpos := hc.tidy.pos
  refine ⟨⟨⟨hpos, hc.tidy.slots, hc.tidy.nodup, hc.tidy.depths, ?_⟩, ?_, hc.expects⟩, rfl, rfl⟩
  · rintro _ ⟨⟩
    exact ⟨hpos, Nat.le_refl _⟩
  · rintro _ ⟨⟩
    exact ⟨c.view, rfl, fun r hr => ⟨hr, hc.tidy.scope hr⟩, rfl, rfl, rfl⟩

theorem set (h : InLoop p outer levels c) (l : Label) (v : View)
    (hl : l.isLocal = true) : InLoop p outer (levels.set l v) c :=
  ⟨h.ready.set l v hl, by
    rw [Levels.set_of_ne (Ne.symm (Label.ne_start hl))]
    exact h.start, h.names⟩

/-- Where `continue` goes may be marked anew. -/
theorem setAgain (h : InLoop p outer levels c) : InLoop p outer (levels.set .again c.view) c := by
  have hstart : (levels.set .again c.view).views .start = some c.view := by
    rw [Levels.set_of_ne (by simp)]
    exact h.start
  refine ⟨⟨h.ready.tidy, fun l hl => ?_, h.ready.expects⟩, hstart, h.names⟩
  obtain ⟨s, hheight, hscope, hexit, -, hbase⟩ := h.ready.suits l hl
  obtain rfl : c.view = s := Option.some.inj (h.start.symm.trans hbase)
  exact ⟨_, hheight, hscope, by rw [Levels.set_of_ne (by simp)]; exact hexit, Levels.set_self ..,
    hstart⟩

theorem back (h : InLoop p outer levels c) : Halts levels c 0 back := .back h.ready.tidy h.start

end InLoop

/-! ## Loops in general -/

theorem moves_openAccumulator (hc : c.Tidy) :
    Moves levels c n n (openAccumulatorScheme position) := by
  cases position with
  | value => exact .op hc rfl (by grind)
  | effect => exact .skip

theorem moves_closeAccumulator (hc : c.Tidy) :
    Moves levels c n (n + position.pushed) (closeAccumulatorScheme position) := by
  cases position with
  | value => exact .op hc rfl ⟨Nat.zero_le n, rfl⟩
  | effect => exact .skip

theorem moves_finish (hc : c.Tidy) : Moves levels c (n + 1) n (finishScheme position) := by
  cases position with
  | value => exact .op hc rfl (by grind)
  | effect => exact .op hc rfl (by grind)

/-- What was true inside the loop is true after it, but for the loop. -/
theorem leads_looped (hc : Ready p levels c) {back : Bool}
    (h : ∀ levels' d, InLoop p levels levels' d → d.view = c.view → Moves levels' d 0 0 x) :
    Leads levels c (looped back x) (c.Pushes 0) := by
  refine Leads.looped ((h _ _ (.enter hc back) rfl).leads.imp fun c' h' => ⟨h'.view, ?_⟩)
  exact ⟨⟨h'.extends_.kind, h'.extends_.depth, rfl, h'.extends_.shape⟩, rfl⟩

theorem leads_conditionLoop (hc : Ready p levels c) {back : Bool} {iteration : Scheme}
    (h : ∀ levels' d, InLoop p levels levels' d → d.view = c.view →
      levels'.views .done = some (d.above 1) → Halts levels' d 0 iteration) :
    Leads levels c (conditionLoop back c.height iteration) (c.Pushes 0) := by
  refine leads_looped hc fun levels' d hd hsame => ?_
  have hin := h _ d (hd.set .done (d.above 1) rfl) hsame (Levels.set_self ..)
  have hheight : d.height = c.height := congrArg View.height hsame
  rw [← hheight]
  exact hin.block.seq (.op hd.ready.tidy rfl (by grind))

/-- The frame of a loop that is left where its condition was tested. -/
theorem leads_framed (hc : Ready p levels c) {back : Bool} {base : Nat} {iteration : Scheme}
    (h : ∀ levels' d, InLoop p levels levels' d → levels'.views .done = some (d.above 1) →
      Halts levels' d 0 iteration) :
    Leads levels c (openAccumulatorScheme position ++ change Scene.openScope ++ heightIs base ++
      conditionLoop back base iteration ++ leave false ++ closeAccumulatorScheme position)
      (c.Pushes (0 + position.pushed)) := by
  refine Leads.then (P := c.Pushes 0) ?_ (moves_closeAccumulator hc.tidy)
  refine Leads.then (P := c.openScope.Grows 0) ?_ fun _ h => leads_leave hc.tidy h
  refine Leads.then (P := fun c1 => c1.height = base ∧ c.openScope.Pushes 0 c1) ?_ ?_
  · refine Leads.then (P := c.openScope.Pushes 0) ?_ fun _ h1 => leads_requires fun hb => ⟨hb, h1⟩
    exact Leads.then ((moves_openAccumulator hc.tidy).leads) fun _ h1 => leads_openScope h1
  · rintro c1 ⟨rfl, h1⟩
    exact (leads_conditionLoop (hc.openScope.pushes h1)
      fun levels' d hd _ => h levels' d hd).imp fun _ h2 => (h1.trans h2).grows

/-! ## Kinds of loops -/

theorem moves_while (hnode : node.Balances p plain) (hc : Ready p levels c) {condition : Expr}
    (hcondition : plain condition) :
    Moves levels c n (n + position.pushed) (whileScheme node condition body position) := by
  refine .ofLeads fun c1 h1 => .choose fun base => ?_
  rw [← Nat.zero_add position.pushed]
  refine leads_framed (hc.pushes h1) fun levels d hd hdone => ?_
  have hbody : Moves levels d 0 1 (node.value condition ++ jump .ifFalse .done ++ op .pop ++
      blockScheme node body) :=
    (((moves_value hnode hd.ready hcondition).seq
      (.jump hd.ready.tidy (.inl rfl) hdone (by omega))).seq
      (.op hd.ready.tidy rfl (by grind))).seq (moves_block hnode hd.ready)
  exact (hbody.seq (moves_finish hd.ready.tidy)).halts hd.back

theorem moves_doWhile (hnode : node.Balances p plain) (hc : Ready p levels c) {condition : Expr}
    (hcondition : plain condition) :
    Moves levels c n (n + position.pushed) (doWhileScheme node body condition position) := by
  refine .ofLeads fun c1 h1 => .choose fun base => ?_
  rw [← Nat.zero_add position.pushed]
  refine leads_framed (hc.pushes h1) fun levels d hd hdone => ?_
  have hbody : Moves levels d 0 0 (block .again (blockScheme node body ++ finishScheme position)) :=
    .block ((moves_block hnode hd.setAgain.ready).seq (moves_finish hd.ready.tidy))
  have htest : Moves levels d 0 0 (block .again (blockScheme node body ++ finishScheme position) ++
      node.value condition ++ jump .ifFalse .done ++ op .pop) :=
    ((hbody.seq (moves_value hnode hd.ready hcondition)).seq
      (.jump hd.ready.tidy (.inl rfl) hdone (by omega))).seq
      (.op hd.ready.tidy rfl (by grind))
  exact htest.halts hd.back

/-- One iteration of a range: its variable is a copy of the counter, in a block of its own. -/
theorem moves_rangeIteration (hnode : node.Balances p plain) (hc : Ready p levels c)
    (hreads : levels.reads = none) {name : String} (hname : name ∈ levels.binds)
    (hcounter : counter.toNat + 2 < c.height) (hdone : levels.views .done = some (c.above 1)) :
    Moves levels c 0 0 (rangeIteration node name counter body position) := by
  have hin := hc.openScope
  have hcheck : Moves levels c 0 1 (op (.rangeCheck counter)) :=
    .opAt hc.tidy (Nat.zero_le _) rfl (by simp only [Instr.SlotsBelow]; omega) ⟨nofun, nofun⟩
  have hvalue : Moves levels c.openScope 0 1 (op (.getLocal counter)) :=
    .getHidden hin.tidy hreads (Nat.lt_of_le_of_lt (Nat.le_add_right ..) hcounter)
  intro c1 h1
  refine Leads.then (P := c.Pushes 1) ?_ (moves_finish hc.tidy)
  refine Leads.then (P := c.openScope.Grows 1) ?_ fun _ h => leads_leave hc.tidy h
  refine Leads.then (P := c.openScope.Adds 1 0) ?_ fun _ h =>
    (leads_sequence hnode (hin.grows ⟨_, h⟩)).imp fun _ h' => Scene.Grows.trans ⟨_, h⟩ h'
  refine Leads.then (P := c.openScope.Pushes 1) ?_ fun _ h => leads_declared hname h.adds
  refine Leads.then (P := c.openScope.Pushes 1) ?_ (Moves.op hin.tidy rfl (by grind))
  refine Leads.then (P := c.openScope.Pushes 0) ?_ hvalue
  refine Leads.then (P := c.Pushes 0) ?_ fun _ h => leads_openScope h
  exact (hcheck.seq (.jump hc.tidy (.inl rfl) hdone (by omega))).seq (.op hc.tidy rfl (by grind)) c1 h1

theorem moves_step (hnode : node.Balances p plain) (hc : Ready p levels c)
    (hreads : levels.reads = none) {last : UInt16}
    (hcounter : counter.toNat < c.height) (hlast : last.toNat < c.height) {step : Option Expr}
    (hstep : ∀ e ∈ step, plain e) : Moves levels c 0 1 (stepScheme node counter last step) := by
  cases step with
  | some e => exact moves_value hnode hc (hstep e rfl)
  | none =>
    exact ((Moves.getHidden hc.tidy hreads hcounter).seq
      (.getHidden hc.tidy hreads (by omega))).seq (.op hc.tidy rfl (by grind))

/-- The locals at the base of a range, as far as they have been declared, and the values
above them. -/
structure InRange (c : Scene) (counter last step : UInt16) (k n : Nat) (c' : Scene) : Prop where
  adds : c.Adds k n c'
  held : 0 < k → ⟨"$counter", counter⟩ ∈ c'.view.scope
  counter : 0 < k → counter.toNat = c.height
  last : 1 < k → last.toNat = c.height + 1
  step : 2 < k → step.toNat = c.height + 2

theorem InRange.above {last step : UInt16} {k m : Nat} {c1 : Scene}
    (h : InRange c counter last step k n c1) (hx : ∀ d, c.Adds k 0 d → Moves levels d n m x) :
    Leads levels c1 x (InRange c counter last step k m) := by
  obtain ⟨d, hd, hpushes⟩ := h.adds.base
  refine (hx d hd c1 hpushes).imp fun c' h' => ⟨?_, fun hk => ?_, h.counter, h.last, h.step⟩
  · rw [← Nat.zero_add m]
    exact hd.pushes h'
  · have hheld := h.held hk
    rw [hpushes.view] at hheld
    rw [h'.view]
    exact hheld

/-- A range whose slots lie above locals that its first bound may have left. -/
def RangeAbove (c : Scene) (counter last step : UInt16) (k n : Nat) (c' : Scene) : Prop :=
  ∃ d, c.Grows 0 d ∧ InRange d counter last step k n c'

/-- What is done before the first iteration of a range. -/
theorem leads_rangeStart (hnode : node.Balances p plain) (hc : Ready p levels c)
    (hreads : levels.reads = none) (hbinds : ∀ name ∈ ["$counter", "$end", "$step"], name ∈ levels.binds)
    {first last : Expr} {step : Option Expr} (hlast : plain last) (hstep : ∀ e ∈ step, plain e)
    {lastSlot stepSlot : UInt16} (hx : Leads levels c x (c.openScope.Pushes 0)) :
    Leads levels c (x ++ node.value first ++ declare "$counter" counter ++
      node.value last ++ declare "$end" lastSlot ++
      stepScheme node counter lastSlot step ++ declare "$step" stepSlot)
      (RangeAbove c.openScope counter lastSlot stepSlot 3 0) := by
  have hin := hc.openScope
  simp only [List.mem_cons, List.not_mem_nil, or_false, forall_eq_or_imp, forall_eq] at hbinds
  obtain ⟨hcounterName, hendName, hstepName⟩ := hbinds
  -- counter, bound and step are pushed and declared in turn; each fact adds one step to the code
  -- before it
  have hfirst : Leads levels c (x ++ node.value first)
      (RangeAbove c.openScope counter lastSlot stepSlot 0 1) := by
    refine hx.then fun c1 h1 => (hnode.operand (hin.pushes h1) first .value).imp fun _ h2 => ?_
    obtain ⟨d, hd, hpush⟩ := h2.base
    exact ⟨d, h1.grows.trans hd.grows, hpush.adds, fun h => absurd h (by omega),
      fun h => absurd h (by omega), fun h => absurd h (by omega), fun h => absurd h (by omega)⟩
  have hcounter : Leads levels c (x ++ node.value first ++ declare "$counter" counter)
      (RangeAbove c.openScope counter lastSlot stepSlot 1 0) := by
    refine hfirst.then fun _ hrange => ?_
    obtain ⟨d, hd, h⟩ := hrange
    exact (leads_declare hcounterName h.adds).imp fun _ h' => ⟨d, hd, h'.2.2,
      fun _ => h'.2.1 ▸ .head _, fun _ => h'.1,
      fun h => absurd h (by omega), fun h => absurd h (by omega)⟩
  have hend : Leads levels c (x ++ node.value first ++ declare "$counter" counter ++
      node.value last) (RangeAbove c.openScope counter lastSlot stepSlot 1 1) := by
    refine hcounter.then fun _ hrange => ?_
    obtain ⟨d, hd, h⟩ := hrange
    exact (h.above fun d' hd' => moves_value hnode ((hin.grows hd).grows ⟨_, hd'⟩) hlast).imp
      fun _ h' => ⟨d, hd, h'⟩
  have hbounds : Leads levels c (x ++ node.value first ++ declare "$counter" counter ++
      node.value last ++ declare "$end" lastSlot)
      (RangeAbove c.openScope counter lastSlot stepSlot 2 0) := by
    refine hend.then fun _ hrange => ?_
    obtain ⟨d, hd, h⟩ := hrange
    exact (leads_declare hendName h.adds).imp fun _ h' => ⟨d, hd, h'.2.2,
      fun _ => h'.2.1 ▸ .tail _ (h.held (by omega)), fun _ => h.counter (by omega),
      fun _ => h'.1, fun h => absurd h (by omega)⟩
  have hstepped : Leads levels c (x ++ node.value first ++ declare "$counter" counter ++
      node.value last ++ declare "$end" lastSlot ++ stepScheme node counter lastSlot step)
      (RangeAbove c.openScope counter lastSlot stepSlot 2 1) := by
    refine hbounds.then fun _ hrange => ?_
    obtain ⟨d, hd, h⟩ := hrange
    refine Leads.imp (h.above fun d' hd' => ?_) fun _ h' => ⟨d, hd, h'⟩
    have hheight := hd'.height
    have hcounter := h.counter (by omega)
    have hlast := h.last (by omega)
    exact moves_step hnode ((hin.grows hd).grows ⟨_, hd'⟩) hreads (by omega) (by omega) hstep
  refine hstepped.then fun _ hrange => ?_
  obtain ⟨d, hd, h⟩ := hrange
  exact (leads_declare hstepName h.adds).imp fun _ h' => ⟨d, hd, h'.2.2,
    fun _ => h'.2.1 ▸ .tail _ (h.held (by omega)), fun _ => h.counter (by omega),
    fun _ => h.last (by omega), fun _ => h'.1⟩

theorem moves_rangeFor (hnode : node.Balances p plain) (hc : Ready p levels c)
    (hreads : levels.reads = none) {name : String}
    (hbinds : ∀ n ∈ ["$counter", "$end", "$step", name], n ∈ levels.binds)
    (hwrites : "$counter" ∈ levels.writes) {first last : Expr} {step : Option Expr} {body : List Expr}
    (hlater : ∀ e ∈ last :: step.toList, plain e) :
    Moves levels c n (n + position.pushed) (rangeScheme node name first last step body position) := by
  refine .ofLeads fun c0 h0 => .choose fun counter => .choose fun lastSlot => .choose fun stepSlot =>
    .choose fun base => ?_
  replace hc := hc.pushes h0
  have hlast := hlater last (.head _)
  have hstepPlain : ∀ e ∈ step, plain e := fun e he =>
    hlater e (.tail _ (Option.mem_toList.mpr he))
  have hname : name ∈ levels.binds := hbinds name (by simp)
  rw [← Nat.zero_add position.pushed]
  refine Leads.then (P := c0.Pushes 0) ?_ (moves_closeAccumulator hc.tidy)
  refine Leads.then (P := c0.openScope.Grows 0) ?_ fun _ h => leads_leave hc.tidy h
  refine Leads.then (P := fun c1 => c1.height = base ∧
    RangeAbove c0.openScope counter lastSlot stepSlot 3 0 c1) ?_ ?_
  · refine Leads.then (leads_rangeStart hnode hc hreads (fun n hn => hbinds n ?_) hlast hstepPlain ?_)
      fun _ h => leads_requires fun hb => ⟨hb, h⟩
    · exact List.mem_append_left [name] hn
    · exact (moves_openAccumulator hc.tidy).leads.then fun _ h => leads_openScope h
  -- inside of the loop the three hidden locals are in place, at slots that are known
  rintro c1 ⟨rfl, d0, hd0, h1⟩
  have hheight := h1.adds.height
  have hcounter := h1.counter (by omega)
  have hstep := h1.step (by omega)
  have hready := (hc.openScope.grows hd0).grows ⟨_, h1.adds⟩
  refine (leads_conditionLoop hready fun levels' d hd hsame hdone => ?_).imp
    fun _ h2 => hd0.trans ⟨3, h1.adds.pushes h2⟩
  have hreads' : levels'.reads = none := (congrArg Names.reads hd.names).trans hreads
  have hheight' : d.height = c1.height := congrArg View.height hsame
  have hbody : Moves levels' d 0 0 (block .again (rangeIteration node name counter body position)) := by
    refine .block (moves_rangeIteration hnode hd.setAgain.ready hreads' ?_ (by omega) ?_)
    · rw [hd.setAgain.names]
      exact hname
    · rw [Levels.set_of_ne (by simp)]
      exact hdone
  have hget {n : Nat} {slot : UInt16} (hslot : slot.toNat < d.height) :
      Moves levels' d n (n + 1) (op (.getLocal slot)) :=
    .getHidden hd.ready.tidy hreads' (by omega)
  have hsum : Moves levels' d 0 1 (block .again (rangeIteration node name counter body position) ++
      op (.getLocal counter) ++ op (.getLocal stepSlot) ++ op (.binary .add)) :=
    ((hbody.seq (hget (by omega))).seq (hget (by omega))).seq (.op hd.ready.tidy rfl (by grind))
  have hheld : ⟨"$counter", counter⟩ ∈ d.view.scope := hsame ▸ h1.held (by omega)
  have hstore : Moves levels' d 1 1 (op (.setLocal counter)) :=
    .setLocal hd.ready.tidy hheld (by rw [hd.names]; exact hwrites) Nat.one_pos
  exact ((hsum.seq hstore).seq (.op hd.ready.tidy rfl (by grind))).halts hd.back

theorem moves_forEach (hnode : node.Balances p plain) (hc : Ready p levels c) {name : String}
    (hbinds : ∀ n ∈ ["$iter", name], n ∈ levels.binds) {iterable : Expr} :
    Moves levels c n (n + position.pushed) (forEachScheme node name iterable body position) := by
  refine .ofLeads fun c0 h0 => .choose fun base => ?_
  replace hc := hc.pushes h0
  have hin := hc.openScope
  have hname : name ∈ levels.binds := hbinds name (by simp)
  rw [← Nat.zero_add position.pushed]
  refine Leads.then (P := c0.Pushes 0) ?_ (moves_closeAccumulator hc.tidy)
  refine Leads.then (P := c0.openScope.Grows 0) ?_ fun _ h => leads_leave hc.tidy h
  refine Leads.then (P := fun c1 => c1.height = base ∧ c0.openScope.Grows 0 c1 ∧
    c0.height < c1.height) ?_ ?_
  · refine Leads.then (P := fun c1 => c0.openScope.Grows 0 c1 ∧ c0.height < c1.height) ?_
      fun _ h => leads_requires fun hb => ⟨hb, h⟩
    refine Leads.then (P := c0.openScope.Yields (plain iterable) 1) ?_ fun _ h => ?_
    · refine Leads.then (P := c0.openScope.Yields (plain iterable) 1) ?_ fun _ h =>
        h.onward hin fun d hd => .op hd.tidy rfl (by grind)
      refine Leads.then (P := c0.openScope.Pushes 0) ?_ fun _ h =>
        (hnode.operand (hin.pushes h) iterable .value).imp fun _ h' => .after h h'
      exact (moves_openAccumulator hc.tidy).leads.then fun _ h => leads_openScope h
    · obtain ⟨k, h⟩ := h.grows
      refine (leads_declared (hbinds _ (.head _)) h).imp fun d hd => ⟨⟨_, hd⟩, ?_⟩
      have hheight : d.height = c0.height + (k + 1) + 0 := hd.height
      omega
  rintro c1 ⟨rfl, h1, hlt⟩
  refine (leads_looped (hin.grows h1) fun levels' d hd hsame => ?_).imp
    fun _ h2 => h1.trans h2.grows
  have hheight : d.height = c1.height := congrArg View.height hsame
  rw [← hheight]
  have htidy := hd.ready.tidy
  have hpos := hc.tidy.pos
  refine Halts.block (m := 0) (Moves.halts (m := 0) ?_ (hd.set .done _ rfl).back)
  have hready := (hd.set .done (d.above 0) rfl).ready
  intro c2 h2
  -- the item that the iterator has pushed becomes the variable
  have hnext : Leads (levels'.set .done (d.above 0)) c2 (jump .atEnd .done) (d.Pushes 1) := by
    refine leads_jump ?_ (Levels.set_self ..) (by rw [h2.view]; exact .refl _) (h2.emit rfl)
    rw [h2.view]
    refine ⟨⟨⟨?_, trivial⟩, fun r hr => htidy.scope hr, htidy.apart⟩, .ofSlotless rfl⟩
    simp only [JumpKind.instr, Instr.consumes, Scene.above]
    omega
  refine Leads.then (P := d.Pushes 1) ?_ (moves_finish htidy)
  refine Leads.then (P := d.openScope.Grows 1) ?_ fun _ h => leads_leave htidy h
  refine Leads.then (P := d.openScope.Adds 1 0) ?_ fun _ h =>
    (leads_sequence hnode (hready.openScope.grows ⟨_, h⟩)).imp
      fun _ h' => Scene.Grows.trans ⟨_, h⟩ h'
  refine (hnext.then fun _ h => leads_openScope h).then fun _ h => leads_declared ?_ h.adds
  rw [(hd.set .done (d.above 0) rfl).names]
  exact hname

/-! ## Leaving loops -/

/-- Taking off what lies above the base of the loop, whose variables stay. -/
theorem balanced_unwind (hc : Ready p levels c) {l : LoopScene} (hl : c.loop = some l)
    {k : List Constant} {t : Tree} {c' : Scene} (h : times .pop (c.height - l.baseHeight) k c t c') :
    c.Extends [] c' ∧ ∃ s : View, t.Balanced levels c.view s ∧
      (∀ i : Instr, i.consumes = 0 → i.slotless = true → s.Admits levels i) ∧
      levels.views .exit = some s ∧ levels.views .again = some s ∧ levels.views .start = some s := by
  obtain ⟨s, hbase, hscope, hviews⟩ := hc.suits l hl
  have hloop := hc.tidy.loop l hl
  have hapart : ∀ r ∈ s.scope, ∀ r' ∈ s.scope, r.slot = r'.slot → r = r' := fun r hr r' hr' =>
    hc.tidy.apart r (hscope r hr).1 r' (hscope r' hr').1
  have htaken : t.Balanced levels ⟨s.height + (c.height - l.baseHeight), s.scope⟩ s ∧
      c' = c.setHeight s.height := by
    refine balanced_times rfl rfl ?_ (fun r hr => ?_) hapart h (by omega)
    · simp only [Instr.consumes]
      omega
    · have := (hscope r hr).2
      simp only [Instr.consumes]
      omega
  obtain ⟨hbal, rfl⟩ := htaken
  refine ⟨(Scene.Extends.refl c).setHeight _, s, hbal.ofNarrows ⟨?_, fun r hr => (hscope r hr).1⟩,
    fun i hi hslotless => ⟨⟨⟨by omega, Instr.slotsBelow_of_slotless hslotless _⟩, fun r hr => ?_,
      hapart⟩, .ofSlotless hslotless⟩, hviews⟩
  · change s.height + (c.height - l.baseHeight) = c.height
    omega
  · have := (hscope r hr).2
    have := i.takes_le_consumes
    omega

theorem moves_break (hc : Ready p levels c) : Moves levels c n n breakScheme := by
  refine Moves.ofLeads (m := 0) fun c1 h1 => .reading (.choose fun l => Stops.resume ?_)
  rintro k _ _ ⟨_, c2, _, ⟨_, _, t, ⟨rfl, rfl, hl⟩, htimes, rfl⟩, ⟨rfl, rfl⟩, rfl⟩
  obtain ⟨hext, s, hbal, hadmits, hexit, -⟩ := balanced_unwind (hc.pushes h1) hl htimes
  refine ⟨fun w => ⟨s, ⟨_, .refl _, hbal⟩, s, s, .refl s, hadmits _ rfl rfl, hexit, .refl s, nofun⟩, ?_⟩
  exact (hext.emit _).pushes 0

theorem moves_continue (hc : Ready p levels c) : Moves levels c n n continueScheme := by
  refine Moves.ofLeads (m := 0) fun c1 h1 => .reading (.choose fun l => Stops.resume ?_)
  rintro k _ _ ⟨_, c2, _, ⟨_, _, t, ⟨rfl, rfl, hl⟩, htimes, rfl⟩, hgo, rfl⟩
  obtain ⟨hext, s, hbal, hadmits, -, hagain, hstart⟩ := balanced_unwind (hc.pushes h1) hl htimes
  split at hgo
  · obtain ⟨rfl, rfl⟩ := hgo
    exact ⟨fun w => ⟨s, ⟨_, .refl _, hbal⟩, s, hstart, .refl s, hadmits _ rfl rfl⟩, hext.pushes 0⟩
  · obtain ⟨rfl, rfl⟩ := hgo
    refine ⟨fun w => ⟨s, ⟨_, .refl _, hbal⟩, s, s, .refl s, hadmits _ rfl rfl, hagain, .refl s,
      nofun⟩, ?_⟩
    exact (hext.emit _).pushes 0

end

end Strand.Codegen
