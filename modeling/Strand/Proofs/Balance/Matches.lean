import Strand.Proofs.Balance.Values

/-!
# Switches and pattern matching are balanced

Both keep their subject in a local of its own. The bodies of the cases of a switch come
after all its tests, and each is entered by a jump that leaves the result of the test on
the stack. An arm of a match that does not apply takes off what it has put there and goes
on to the next.
-/

namespace Strand.Codegen

open Scheme

variable {slot : UInt16} {subject : Expr} {name : String} {base : Nat} {c1 : Scene}
  {otherwise : Option (List Expr)} {fails : Bool}

/-- The value on top of the stack has become a local of the scene. -/
def Scene.holding (c : Scene) (name : String) (slot : UInt16) : Scene :=
  (c.declare name slot).setHeight (c.height + 1)

/-- The subject of a switch or a match is a local, with `n` values above. -/
structure Scene.Holds (c : Scene) (name : String) (slot : UInt16) (base n : Nat) (c' : Scene) :
    Prop where
  at_slot : slot.toNat = c.height
  at_base : c.height + 1 = base
  pushes : (c.holding name slot).Pushes n c'

section

variable {p : Program} {node : NodeScheme} {plain : Expr → Prop} {levels : Levels} {c : Scene}
  {n : Nat} {cases : List SwitchCase} {binders : List (String × Option String)}

/-! ## The subject -/

theorem Scene.adds_holding (name : String) (hslot : slot.toNat = c.height) :
    c.Adds 1 0 (c.holding name slot) :=
  ⟨⟨_, rfl, ((Scene.Extends.refl c).declare name slot).setHeight _, List.nodup_singleton _, fun e he => by
    cases List.mem_singleton.mp he
    exact ⟨rfl, by dsimp only; omega, by dsimp only; omega⟩⟩, rfl⟩

/-- The subject becomes a local, below all that follows. -/
theorem leads_subject (hnode : node.Balances p plain) (hc : Ready p levels c)
    (hsubject : plain subject) (hname : name ∈ levels.binds) :
    Leads levels c (node.value subject ++ declare name slot ++ heightIs base)
      (c.Holds name slot base 0) := by
  refine Leads.then (P := fun c2 => slot.toNat = c.height ∧ (c.holding name slot).Pushes 0 c2) ?_
    fun c2 h2 => leads_requires fun hb => ⟨h2.1, by rw [← hb, h2.2.height]; rfl, h2.2⟩
  refine (moves_value hnode hc hsubject).leads.then fun c1 h1 k t c2 h => ?_
  obtain ⟨hbal, hslot, -⟩ := leads_declare hname h1.adds k t c2 h
  obtain ⟨rfl, -, rfl⟩ := h
  have hext := h1.extends_.declare name slot
  exact ⟨hbal, hslot, ⟨hext.kind, hext.depth, hext.loop, hext.shape⟩, h1.height⟩

theorem Scene.Holds.ready (h1 : c.Holds name slot base n c1) (hc : Ready p levels c) :
    Ready p levels (c.holding name slot) :=
  hc.grows ⟨_, adds_holding name h1.at_slot⟩

theorem Scene.Holds.slot_lt (h1 : c.Holds name slot base n c1) :
    slot.toNat < (c.holding name slot).height :=
  Nat.lt_succ_of_le (Nat.le_of_eq h1.at_slot)

/-- Code that moves values above the subject leaves the subject where it is. -/
theorem Scene.Holds.leads {m : Nat} {x : Scheme}
    (h1 : c.Holds name slot base n c1) (hx : Moves levels (c.holding name slot) n m x) :
    Leads levels c1 x (c.Holds name slot base m) :=
  (hx c1 h1.pushes).imp fun _ h2 => ⟨h1.at_slot, h1.at_base, h2⟩

/-! ## Switches -/

/-- The labels of a switch, as far as its cases from `index` up to `count` are concerned: a
test that succeeds leaves its result on the stack. -/
structure SwitchLevels (levels : Levels) (d : Scene) (index count : Nat) : Prop where
  binds : "$switch" ∈ levels.binds
  reads : levels.reads = none
  done : levels.views .done = some d.view
  otherwise : levels.views .otherwise = some d.view
  cases : ∀ j, index ≤ j → j < count → levels.views (.case j) = some (d.above 1)

theorem moves_caseTests (hnode : node.Balances p plain) (hc : Ready p levels c)
    (hreads : levels.reads = none) (hslot : slot.toNat < c.height) {index : Nat}
    (hlevel : levels.views (.case index) = some (c.above 1)) {values : List Expr}
    (hvalues : ∀ e ∈ values, plain e) : Moves levels c 0 0 (caseTestsScheme node slot index values) := by
  refine .eachSame fun value hvalue => ?_
  exact ((((Moves.getHidden hc.tidy hreads (by omega)).seq
    (moves_value hnode hc (hvalues value hvalue))).seq (.op hc.tidy rfl (by grind))).seq
    (.jump hc.tidy (.inr rfl) hlevel (by omega))).seq (.op hc.tidy rfl (by grind))

/-- After a test that fails the stack is as before, so the next one starts from there. -/
theorem moves_tests (hnode : node.Balances p plain) (hc : Ready p levels c)
    (hreads : levels.reads = none) (hslot : slot.toNat < c.height) :
    ∀ {cases : List SwitchCase} {index : Nat}, (∀ e ∈ cases.flatMap SwitchCase.values, plain e) →
      (∀ j, index ≤ j → j < index + cases.length → levels.views (.case j) = some (c.above 1)) →
      Moves levels c 0 0 (testsScheme node slot index cases)
  | [], _, _, _ => .skip
  | b :: rest, index, hvalues, hlevels => by
    rw [List.length_cons] at hlevels
    have hrest : Moves levels c 0 0 (testsScheme node slot (index + 1) rest) :=
      moves_tests hnode hc hreads hslot (fun e he => hvalues e (List.mem_append_right _ he))
        fun j hlo hhi => hlevels j (by omega) (by omega)
    exact (moves_caseTests hnode hc hreads hslot (hlevels index (by omega) (by omega))
      fun e he => hvalues e (List.mem_append_left _ he)).seq hrest

/-- The scene inside a switch, above its subject. -/
def InSwitch (c : Scene) (slot : UInt16) (base : Nat) (c' : Scene) : Prop :=
  slot.toNat = c.height ∧ c.height + 1 = base ∧ (c.holding "$switch" slot).Extends [] c'

/-- The code before the bodies of the cases stops, and so does the code with them: each
body is reached by jumps only and jumps to the end. -/
theorem stops_caseBodies (hnode : node.Balances p plain) :
    ∀ {cases : List SwitchCase} {index : Nat} {before : Scheme},
      (∀ levels, Ready p levels c →
        SwitchLevels levels (c.holding "$switch" slot) index (index + cases.length) →
        Stops levels c before (InSwitch c slot base)) →
      ∀ levels, Ready p levels c → SwitchLevels levels (c.holding "$switch" slot) 0 0 →
        Stops levels c (caseBodiesScheme node base index cases before) (InSwitch c slot base)
  | [], index, _, hbefore, levels, hc, hlevels =>
    hbefore levels hc { hlevels with
      cases := fun j hlo hhi => by
        rw [List.length_nil] at hhi
        omega }
  | b :: rest, index, before, hbefore, levels, hc, hlevels => by
    rw [caseBodiesScheme]
    rw [List.length_cons] at hbefore
    refine stops_caseBodies hnode (fun levels hc hlevels => ?_) levels hc hlevels
    -- in the code before, the label of this case is known as well
    have hin : SwitchLevels (levels.set (.case index) ((c.holding "$switch" slot).above 1))
        (c.holding "$switch" slot) index (index + (rest.length + 1)) := by
      refine ⟨hlevels.binds, hlevels.reads, hlevels.done, hlevels.otherwise, fun j hlo hhi => ?_⟩
      by_cases hj : j = index
      · rw [hj, Levels.set_self]
      · rw [Levels.set_of_ne (by simpa using hj)]
        exact hlevels.cases j (by omega) (by omega)
    have hstart : Leads levels c (block (.case index) before ++ atHeight (base + 1))
        (c.Holds "$switch" slot base 1) := by
      refine Stops.block ((hbefore _ (hc.set _ _ rfl) hin).imp fun c' h' => ?_)
      obtain ⟨hslot, rfl, hext⟩ := h'
      exact ⟨(hext.pushes 1).view, hslot, rfl, hext.pushes 1⟩
    have hbody : Leads levels c (block (.case index) before ++ atHeight (base + 1) ++
        op .pop ++ blockEffectsScheme node b.body) (c.Holds "$switch" slot base 0) := by
      refine .assoc (hstart.then fun c1 h1 => ?_)
      have hd := h1.ready hc
      have hpop : Moves levels (c.holding "$switch" slot) 1 0 (op .pop) :=
        .op hd.tidy rfl (by grind)
      exact h1.leads (hpop.seq (moves_blockEffects hnode hd))
    refine hbody.stops fun c1 h1 => ?_
    exact (Halts.jump (n := 0) (h1.ready hc).tidy hlevels.done c1 h1.pushes).imp
      fun _ h2 => ⟨h1.at_slot, h1.at_base, h2⟩

/-- The code before the bodies: the subject becomes a local, with which the values of all
cases are compared. -/
theorem stops_switchTests (hnode : node.Balances p plain) (hc : Ready p levels c)
    (hlater : ∀ e ∈ subject :: cases.flatMap SwitchCase.values, plain e)
    (hlevels : SwitchLevels levels (c.holding "$switch" slot) 0 cases.length) :
    Stops levels c (node.value subject ++ declare "$switch" slot ++ heightIs base ++
      testsScheme node slot 0 cases ++ jump .always .otherwise) (InSwitch c slot base) := by
  have hsubject : Leads levels c (node.value subject ++ declare "$switch" slot ++ heightIs base)
      (c.Holds "$switch" slot base 0) :=
    leads_subject hnode hc (hlater subject (.head _)) hlevels.binds
  have htests : Leads levels c (node.value subject ++ declare "$switch" slot ++ heightIs base ++
      testsScheme node slot 0 cases) (c.Holds "$switch" slot base 0) :=
    hsubject.then fun c2 h2 => h2.leads (moves_tests hnode (h2.ready hc) hlevels.reads h2.slot_lt
      (fun e he => hlater e (.tail _ he))
      fun j hlo hhi => hlevels.cases j hlo (by omega))
  refine htests.stops fun c3 h3 => ?_
  exact (Halts.jump (n := 0) (h3.ready hc).tidy hlevels.otherwise c3 h3.pushes).imp
    fun _ h4 => ⟨h3.at_slot, h3.at_base, h4⟩

theorem moves_default (hnode : node.Balances p plain) (hc : Ready p levels c) :
    Moves levels c n n (defaultScheme node otherwise) := by
  cases otherwise with
  | none => exact .skip
  | some body => exact moves_blockEffects hnode hc

/-- All bodies meet behind the switch with the stack as it was, and null is pushed there. -/
theorem leads_switch (hnode : node.Balances p plain) (hc : Ready p levels c)
    (hreads : levels.reads = none) (hbinds : "$switch" ∈ levels.binds)
    (hlater : ∀ e ∈ subject :: cases.flatMap SwitchCase.values, plain e) :
    Leads levels c (switchScheme node subject cases otherwise) (c.Grows 1) := by
  refine .choose fun slot => .choose fun base => ?_
  have hdone := hc.set .done (c.holding "$switch" slot).view rfl
  have hlevels : SwitchLevels ((levels.set .done (c.holding "$switch" slot).view).set .otherwise
      (c.holding "$switch" slot).view) (c.holding "$switch" slot) 0 0 :=
    ⟨hbinds, hreads, by rw [Levels.set_of_ne (by simp), Levels.set_self], Levels.set_self ..,
      fun j hlo hhi => by omega⟩
  have htests : ∀ levels, Ready p levels c →
      SwitchLevels levels (c.holding "$switch" slot) 0 (0 + cases.length) →
      Stops levels c (node.value subject ++ declare "$switch" slot ++ heightIs base ++
        testsScheme node slot 0 cases ++ jump .always .otherwise) (InSwitch c slot base) := by
    intro levels hc hlevels
    rw [Nat.zero_add] at hlevels
    exact stops_switchTests hnode hc hlater hlevels
  -- the tests jump into the bodies, so the blocks of the bodies lie around the tests
  have hbodies := stops_caseBodies hnode htests _ (hdone.set .otherwise _ rfl) hlevels
  refine Leads.then (P := c.Holds "$switch" slot base 0) ?_ fun c4 h4 => ?_
  · refine Leads.then (P := c.Holds "$switch" slot base 0)
      (Leads.block (v := (c.holding "$switch" slot).view) ?_) fun c3 h3 => ?_
    · refine Leads.then (P := c.Holds "$switch" slot base 0) ?_ fun c2 h2 => ?_
      · refine Stops.block (hbodies.imp fun c' h' => ?_)
        obtain ⟨hslot, rfl, hext⟩ := h'
        exact ⟨(hext.pushes 0).view, hslot, rfl, hext.pushes 0⟩
      · exact (h2.leads (moves_default hnode (h2.ready hdone))).imp fun _ h3 => ⟨h3.pushes.view, h3⟩
    · obtain rfl := h3.at_base
      exact h3.leads .atHeight
  · have hnull : Moves levels (c.holding "$switch" slot) 0 1 (op .pushNull) :=
      .op (h4.ready hc).tidy rfl (by grind)
    exact (h4.leads hnull).imp fun _ h5 =>
      ⟨_, (Scene.adds_holding "$switch" h5.at_slot).pushes h5.pushes⟩

/-! ## Pattern matching -/

/-- Where a pattern fails the result of its test is still on the stack. -/
theorem moves_pattern (hnode : node.Balances p plain) (hc : Ready p levels c)
    (hreads : levels.reads = none) (hslot : slot.toNat < c.height)
    {pattern : Pattern} (hpattern : ∀ e ∈ pattern.exprs, plain e)
    (hfailed : fails = true → levels.views .failed = some (c.above 1)) :
    Moves levels c 0 0 (patternScheme node slot pattern fails binders) := by
  have hsubject : Moves levels c 0 1 (op (.getLocal slot)) :=
    .getHidden hc.tidy hreads hslot
  have hjump (h : fails = true) : Moves levels c 1 1 (jump .ifFalse .failed) :=
    .jump hc.tidy (.inl rfl) (hfailed h) (by omega)
  have hpop : Moves levels c 1 0 (op .pop) := .op hc.tidy rfl (by grind)
  cases pattern with
  | wildcard => exact .required
  | value e =>
    have he : plain e := hpattern e (.head _)
    have htest : Moves levels c 2 1 (op (.binary .equal)) := .op hc.tidy rfl (by grind)
    refine .either .required (.either (.assoc (.assoc (.assoc (.assoc ?_)))) .none)
    refine .assume fun ⟨_, _, hfails, _⟩ => ?_
    exact hsubject.seq ((moves_value hnode hc he).seq (htest.seq ((hjump hfails).seq hpop)))
  | destructure target names =>
    have htarget : plain target := hpattern target (.head _)
    have htest : Moves levels c 2 1 (op .matchType) := .op hc.tidy rfl (by grind)
    intro c1 h1 k t c' h
    have hfails : fails = true := by
      obtain ⟨_, _, _, _, ⟨-, -, hfails, -⟩, -⟩ := h
      exact hfails
    refine Moves.seq ?_ .required c1 h1 k t c' h
    exact (((hsubject.seq (moves_value hnode hc htarget)).seq htest).seq (hjump hfails)).seq hpop

/-- Each name that a pattern binds becomes a local. -/
theorem leads_binders (hc : Ready p levels c) (hreads : levels.reads = none)
    (hslot : slot.toNat < c.height) : ∀ {binders : List (String × Option String)} {k : Nat} {c1 : Scene},
      (∀ b ∈ binders, b.1 ∈ levels.binds) → c.Adds k 0 c1 →
      Leads levels c1 (each (binderScheme slot) binders) (c.Adds (k + binders.length) 0) := by
  intro binders
  induction binders with
  | nil => exact fun _ h1 => leads_skip h1
  | cons b rest ih =>
    intro k c1 hbinds h1
    obtain ⟨name, member⟩ := b
    have hname : name ∈ levels.binds := hbinds _ (.head _)
    have hget {d : Scene} (hd : c.Adds k 0 d) : Moves levels d 0 1 (op (.getLocal slot)) := by
      have hheight := hd.height
      exact .getHidden (hc.grows ⟨_, hd⟩).tidy hreads (by omega)
    have hone : Leads levels c1 (binderScheme slot (name, member)) (c.Adds (k + 1) 0) := by
      refine Leads.then (P := c.Adds k 1) ?_ fun _ h2 => leads_declared hname h2
      refine Moves.above (fun d hd => (hget hd).seq ?_) h1
      cases member with
      | none => exact .skip
      | some m =>
        exact .choose fun _ => Moves.pooled.seq (.op (hc.grows ⟨_, hd⟩).tidy rfl (by grind))
    rw [List.length_cons, Nat.add_comm rest.length, ← Nat.add_assoc]
    exact hone.then fun _ h3 => ih (fun b hb => hbinds b (.tail _ hb)) h3

theorem moves_guard (hnode : node.Balances p plain) (hc : Ready p levels c) {guard : Option Expr}
    (hguard : ∀ e ∈ guard, plain e)
    (hunguarded : guard.isSome = true →
      ∃ s, levels.views .unguarded = some s ∧ (c.above 1).Narrows s) :
    Moves levels c 0 0 (guardScheme node guard) := by
  cases guard with
  | none => exact .skip
  | some e =>
    obtain ⟨s, hlevel, hlands⟩ := hunguarded rfl
    exact ((moves_value hnode hc (hguard e rfl)).seq
      (.jumpTo hc.tidy (.inl rfl) hlevel hlands (by omega))).seq (.op hc.tidy rfl (by grind))

/-- The nodes that an arm compares are plain, and its names may be declared. -/
structure ArmReady (plain : Expr → Prop) (binds : List String) (a : Arm) : Prop where
  exprs : ∀ e ∈ a.pattern.exprs ++ a.guard.toList, plain e
  names : ∀ name ∈ a.pattern.names, name ∈ binds

/-- An arm that matches does not go on to the next. -/
theorem halts_arm (hnode : node.Balances p plain) (hc : Ready p levels c)
    (hreads : levels.reads = none) (hslot : slot.toNat < c.height) {a : Arm}
    (ha : ArmReady plain levels.binds a)
    (hdone : levels.views .done = some (c.above 1)) (hfailed : fails = true → levels.views .failed = some (c.above 1))
    (hunguarded : a.guard.isSome = true →
      levels.views .unguarded = some (c.above (binders.length + 1))) :
    Halts levels c 0 (change Scene.openScope ++ patternScheme node slot a.pattern fails binders ++
      each (binderScheme slot) binders ++ guardScheme node a.guard ++
      sequenceScheme node a.body ++ leave true ++ jump .always .done) := by
  intro c1 h1
  have hin := hc.openScope
  have hpattern : ∀ e ∈ a.pattern.exprs, plain e := fun e he =>
    ha.exprs e (List.mem_append_left _ he)
  have hguard : ∀ e ∈ a.guard, plain e := fun e he =>
    ha.exprs e (List.mem_append_right _ (Option.mem_toList.mpr he))
  refine Leads.stops (P := c.Pushes 1) ?_ (Halts.jump hc.tidy hdone)
  refine Leads.then (P := c.openScope.Grows 1) ?_ fun _ h => leads_leave hc.tidy h
  refine Leads.then (P := c.openScope.Adds binders.length 0) ?_ fun _ h =>
    (leads_sequence hnode (hin.grows ⟨_, h⟩)).imp fun _ h' => Scene.Grows.trans ⟨_, h⟩ h'
  refine Leads.then (P := c.openScope.Adds binders.length 0) ?_ fun _ h =>
    Moves.above (fun d hd => moves_guard hnode (hin.grows ⟨_, hd⟩) hguard fun hsome => ?_) h
  · refine Leads.then
      (P := fun c2 => c.openScope.Pushes 0 c2 ∧ ∀ b ∈ binders, b.1 ∈ levels.binds) ?_ fun _ h => ?_
    · refine (leads_openScope h1).then fun c2 h2 k t c3 h => ?_
      obtain ⟨hbal, hpushes⟩ := moves_pattern hnode hin hreads hslot hpattern hfailed c2 h2 k t c3 h
      exact ⟨hbal, hpushes, fun b hb => ha.names _ (mem_names_of_pattern h b hb)⟩
    · rw [← Nat.zero_add binders.length]
      exact leads_binders hin hreads hslot h.2 h.1.adds
  · -- after a failed guard the names that were bound are no longer in scope
    obtain ⟨⟨_, -, hext, -⟩, hheight⟩ := hd
    refine ⟨_, hunguarded hsome, ?_, fun r hr => hext.mem_scope hr⟩
    change c.height + (binders.length + 1) = d.height + 1
    rw [hheight]
    rfl

/-- The code after an arm starts with the stack as it was before. -/
theorem moves_fallThrough (hc : Ready p levels c) (hdone : levels.views .done = some (c.above 1))
    {count : Nat} {guarded : Bool} {arm : Scheme}
    (harm : ∀ levels' : Levels, Ready p levels' c → levels'.binds = levels.binds →
      levels'.reads = levels.reads → levels'.views .done = some (c.above 1) →
      (fails = true → levels'.views .failed = some (c.above 1)) →
      (guarded = true → levels'.views .unguarded = some (c.above (count + 1))) →
      Halts levels' c 0 arm) :
    Moves levels c 0 0 (fallThroughScheme c.height count guarded fails arm) := by
  have hset {levels : Levels} (h : levels.views .done = some (c.above 1)) {l : Label} {v : View}
      (hl : Label.done ≠ l) : (levels.set l v).views .done = some (c.above 1) := by
    rw [Levels.set_of_ne hl]
    exact h
  have hpops {levels : Levels} : Moves levels c (count + 1) 0 (times .pop (count + 1)) := by
    have hpops : Moves levels c (0 + (count + 1)) 0 (times .pop (count + 1)) := .pops hc.tidy
    rw [Nat.zero_add] at hpops
    exact hpops
  unfold fallThroughScheme
  dsimp only
  -- the label `next` only exists when both the guard and the test can fail
  cases guarded <;> cases fails
  · exact (harm levels hc rfl rfl hdone nofun nofun).resume
  · have hfailed := harm (levels.set .failed (c.above 1)) (hc.set _ _ rfl) rfl rfl
      (hset hdone (by simp)) (fun _ => Levels.set_self ..) nofun
    exact (hfailed.block.seq (.op hc.tidy rfl (by grind))).seq .atHeight
  · have hunguarded := harm (levels.set .unguarded (c.above (count + 1))) (hc.set _ _ rfl) rfl rfl
      (hset hdone (by simp)) nofun (fun _ => Levels.set_self ..)
    exact (((Halts.block (m := count + 1) hunguarded).seq hpops).seq .skip).seq .atHeight
  · have hall := harm (((levels.set .next c.view).set .failed (c.above 1)).set .unguarded
      (c.above (count + 1))) (((hc.set _ _ rfl).set _ _ rfl).set _ _ rfl) rfl rfl
      (hset (hset (hset hdone (by simp)) (by simp)) (by simp))
      (fun _ => by rw [Levels.set_of_ne (by simp), Levels.set_self]) (fun _ => Levels.set_self ..)
    have hguard := ((Halts.block (m := count + 1) hall).seq hpops).halts
      (Halts.jump (l := .next) hc.tidy (by rw [Levels.set_of_ne (by simp), Levels.set_self]; rfl))
    exact (Moves.block (hguard.block.seq (.op hc.tidy rfl (by grind)))).seq .atHeight

/-- An arm that does not match leaves the stack as it found it. -/
theorem moves_arm (hnode : node.Balances p plain) (hc : Ready p levels c)
    (hreads : levels.reads = none) (hslot : slot.toNat < c.height)
    (hdone : levels.views .done = some (c.above 1)) {a : Arm}
    (ha : ArmReady plain levels.binds a) : Moves levels c 0 0 (armScheme node slot c.height a) := by
  refine .choose fun _ => .choose fun _ => moves_fallThrough hc hdone
    fun levels' hc hbinds hreads' hdone hfailed hunguarded => ?_
  rw [← hbinds] at ha
  exact halts_arm hnode hc (hreads'.trans hreads) hslot ha hdone hfailed hunguarded

/-- The arms and the default leave one value each. -/
theorem leads_match (hnode : node.Balances p plain) (hc : Ready p levels c)
    (hreads : levels.reads = none) (hbinds : "$match" ∈ levels.binds)
    {arms : List Arm} (hsubject : plain subject) (harms : ∀ a ∈ arms, ArmReady plain levels.binds a) :
    Leads levels c (matchScheme node subject arms otherwise) (c.Grows 1) := by
  refine .choose fun slot => .choose fun base => ?_
  have hin := hc.set .done ((c.holding "$match" slot).above 1) rfl
  -- the subject is a local below everything that follows
  refine Leads.then (P := c.Holds "$match" slot base 1)
    (Leads.block (v := (c.holding "$match" slot).above 1) ?_) fun c3 h3 => ?_
  · refine Leads.then (P := c.Holds "$match" slot base 0) ?_ fun c2 h2 =>
      (h2.leads (moves_otherwise hnode (h2.ready hin))).imp fun _ h3 => ⟨h3.pushes.view, h3⟩
    refine (leads_subject hnode hin hsubject hbinds).then fun c2 h2 => ?_
    obtain rfl := h2.at_base
    exact h2.leads (.eachSame fun a ha =>
      moves_arm hnode (h2.ready hin) hreads h2.slot_lt (Levels.set_self ..) (harms a ha))
  · obtain rfl := h3.at_base
    exact (h3.leads .atHeight).imp fun _ h =>
      ⟨_, (Scene.adds_holding "$match" h.at_slot).pushes h.pushes⟩

end

end Codegen

end Strand
