import Strand.Proofs.Meaning.Loops

/-!
# The four forms of loops

What is special to each form: where the condition is tested, which locals the loop keeps
for itself, and where `continue` goes. Each form is a round, as the loops before it need one.
-/

namespace Strand.Machine

open Codegen
open Codegen.Scheme (op jump back block atHeight heightIs change looped declare declared leave)

variable {V σ E : Type} {I : Interp V σ E} {rounds : Nat} {b : Bool} {scope : List String}
  {pool : List Constant} {accs : List (List V)} {node : NodeScheme} {position : Position}
  {c' : Scene} {condition : Expr} {stepSlot : UInt16} {env : Env V} {S : Setting V}
  {step : Option Expr} {w : World V σ} {cells : List (Option V)} {m l : Eval V σ E V}

variable {c : Scene} {t : Tree} {base : Nat} {body : List Expr} {name : String}
  {scope' : List String} {counter : UInt16}

/-! ## Entering a loop -/

theorem Fits.enter (h : Fits b S c cells env) (hnames : env.names = scope) (continuesBack : Bool)
    (accs : List (List V)) : Fits true ⟨some ⟨continuesBack, cells, scope⟩, accs⟩
      { c with loop := some ⟨c.height, continuesBack⟩ } cells env where
  placed := h.placed
  height := h.height
  ring a ha := by
    cases ha
    refine ⟨?_, List.suffix_refl _, hnames ▸ List.suffix_refl _, hnames ▸ h.placed.holes⟩
    rw [Ring.scene, ← h.height]
  inside _ := Option.some_ne_none _

/-- The header of a loop cannot leave the loop. -/
theorem Fits.header (h : Fits b S c cells env) (l : LoopScene) (accs : List (List V)) :
    Fits false (.closed accs) { c with loop := some l } cells env where
  placed := h.placed
  height := h.height
  ring _ ha := by cases ha
  inside hb := by cases hb

theorem finish_scene
    (hcode : finishScheme position pool (c.setHeight (c.height + 1)) t c') : c' = c := by
  have hheight : ((c.height + 1 : Nat) + (-1 : Int)).toNat = c.height := by omega
  cases position with
  | value => exact hcode.2.trans (congrArg c.setHeight hheight)
  | effect => exact hcode.2.trans (congrArg c.setHeight hheight)

/-- A condition has been tested and, where it holds, a turn of the body made. -/
inductive Tested (a : Ring V) (position : Position) (accs : List (List V)) (acc : List V) :
    Option (Bool × List V) → Env V → σ → Outcome V σ E → Prop where
  | holds {r : Bool × List V} {env : Env V} {s : σ} {o : Outcome V σ E}
      (h : Turning a position accs r env s o) : Tested a position accs acc (some r) env s o
  | fails {env : Env V} {s : σ} (hnames : env.names = a.names) (v : V) :
      Tested a position accs acc none env s
        (.goto .done ⟨v :: fill a.cells env, held position acc accs, s⟩)

theorem Follows.guarded {a : Ring V} {acc : List V} {t' : Tree}
    {m : Eval V σ E (Bool × List V)} {s : Env V × σ}
    (h : Follows I (.closed (held position acc accs)) pool t w
      (Pushed (.closed (held position acc accs)) a.names a.cells) (l s))
    (hrest : ∀ env s, env.names = a.names →
      Follows I (.closed (held position acc accs)) pool t'
        ⟨fill a.cells env, held position acc accs, s⟩ (Turning a position accs) (m (env, s))) :
    Follows I (.closed (held position acc accs)) pool
      (.seq (.seq (.seq t (.jump .ifFalse .done)) (.op .pop)) t') w
      (Tested a position accs acc) ((l >>= fun v => select I v (some <$> m) (pure none)) s) := by
  refine (h.test (jumpsOn_ifFalse I) .done).bind fun v env' s' o hq => ?_
  obtain ⟨hnames', rfl⟩ := hq
  cases htruthy : I.truthy s' v with
  | true =>
    rw [select_of_true (s := (env', s')) htruthy]
    exact .on (follows_map.mpr ((hrest env' s' hnames').imp fun _ _ _ _ hq => .holds hq))
  | false =>
    rw [select_of_false (s := (env', s')) htruthy]
    exact .out (.fails hnames' v)

/-- Where a turn that is ended early ends at the same place as one that is not, there is one
end and one exit. -/
theorem Turning.landed {a : Ring V} (ha : a.continuesBack = false) {r : Bool × List V}
    {s : σ} {o : Outcome V σ E} (h : Turning a position accs r env s o) :
    env.names = a.names ∧ o.land .again =
      if r.1 then .fall ⟨fill a.cells env, held position r.2 accs, s⟩
      else .goto .exit ⟨fill a.cells env, held position r.2 accs, s⟩ := by
  cases h with
  | on hnames hw =>
    subst hw
    exact ⟨hnames, rfl⟩
  | next hnames hw =>
    subst hw
    refine ⟨hnames, ?_⟩
    rw [Ring.nextLabel, ha]
    rfl
  | left hnames hw =>
    subst hw
    exact ⟨hnames, rfl⟩

/-- Where there is no loop to leave, any label can be closed. -/
theorem Follows.closeLabel {α : Type}
    {Q : α → Env V → σ → Outcome V σ E → Prop} {r : Option (Except (Exit V σ E) (α × Env V × σ))}
    (h : Follows I (.closed accs) pool t w Q r) (l : Label) :
    Follows I (.closed accs) pool (.block l t) w (fun a env s x => ∃ y, Q a env s y ∧ x = y.land l)
      r := by
  cases h with
  | undefined => exact .undefined
  | gives h hq => exact .gives (.block h) ⟨_, hq, rfl⟩
  | exits h hx =>
    cases hx with
    | fail => exact .exits (.block h) .fail
    | ret => exact .exits (.block h) .ret
    | leave ha _ | next ha _ => cases ha

/-! ## While -/

theorem whileRound_eq (l m : Eval V σ E V) (acc : List V) :
    whileRound I position l m acc =
      (l >>= fun v => select I v (some <$> turn I position acc m) (pure none)) >>= fun r =>
        pure (r.elim (.inr acc) fun r => proceed r.1 r.2) := by
  rw [whileRound, bind_assoc]
  refine congrArg (l >>= ·) (funext fun v => ?_)
  rw [select_bind]
  simp

theorem loops_while (hcondition : Pushes I false scope (node.value condition) l)
    (hbody : Pushes I true scope (blockScheme node body) m) : Loops I b scope position
      (openAccumulatorScheme position ++ change Scene.openScope ++ heightIs base ++
        conditionLoop true base
          (node.value condition ++ jump .ifFalse .done ++ op .pop ++ blockScheme node body ++
            finishScheme position ++ back))
      (repeating (whileRound I position l m) rounds []) := by
  rintro pool c _ c' hc ⟨_, _, _, ⟨_, _, _, ⟨t0, c0, _, h0, ⟨rfl, rfl⟩, rfl⟩, ⟨rfl, rfl, -⟩, rfl⟩,
    ⟨_, _, ⟨_, _, _, ⟨_, _, _, ⟨_, ⟨_, _, _, ⟨_, _, t3, ⟨_, _, t2, ⟨_, _, _, ⟨t1, _, _, h1, ⟨rfl, rfl⟩,
      rfl⟩, ⟨rfl, rfl⟩, rfl⟩, h2, rfl⟩, h3, rfl⟩, ⟨rfl, rfl⟩, rfl⟩, rfl⟩, ⟨rfl, rfl⟩, rfl⟩, ⟨rfl, rfl⟩,
      rfl⟩, rfl, rfl⟩, rfl⟩
  obtain ⟨rfl, hopen⟩ := runs_open (I := I) h0
  obtain ⟨rfl, hrun1⟩ := hcondition (hc.openScope.inLoop _) h1
  rw [emit_test _ rfl] at h2
  obtain ⟨rfl, hrun2⟩ := hbody (hc.openScope.inLoop _) h2
  cases finish_scene h3
  refine ⟨[], fresh_nil _, rfl, fun S cells env s hfits hnames => ?_⟩
  refine Follows.before (.within (A := S.accs) ?_) (.seq (.seq (hopen _ _ _) .nil) .nil)
  refine follows_repeating (W := fun acc env s => ⟨fill cells env, held position acc S.accs, s⟩)
    (R := Over position 0 cells scope S.accs) (fun acc env s hnames' => ?_) rounds hnames
  have hturn (env : Env V) (s : σ) (hnames' : env.names = scope) :=
    (hrun2 (s := s) ((hfits.openScope.congr (hnames'.trans hnames.symm)).enter hnames' true
      (held position acc S.accs)) hnames').turn (a := ⟨true, cells, scope⟩) h3 hnames'
  have hheader := hfits.openScope.congr (hnames'.trans hnames.symm)
  have htested := (hrun1 (s := s) (hheader.header _ (held position acc S.accs)) hnames').guarded
    (a := ⟨true, cells, scope⟩) hturn
  -- a round starts with the test, and reaches the turn only if it holds
  rw [whileRound_eq]
  refine (Follows.rounded (htested.assoc.bind fun r env2 s2 o hq => ?_)).within
  cases hq with
  | fails hnames2 v => exact .out (.done v ⟨hnames2, [], rfl, rfl⟩)
  | holds hq =>
    cases hq with
    | on hnames2 hw =>
      subst hw
      exact .on (.gives .back (.again hnames2))
    | next hnames2 hw =>
      subst hw
      exact .out (.again hnames2)
    | left hnames2 hw =>
      subst hw
      exact .out (.left ⟨hnames2, [], rfl, rfl⟩)

/-! ## Do-while -/

theorem loops_doWhile (hbody : Pushes I true scope (blockScheme node body) m)
    (hcondition : Pushes I false scope (node.value condition) l) : Loops I b scope position
      (openAccumulatorScheme position ++ change Scene.openScope ++ heightIs base ++
        conditionLoop false base
          (block .again (blockScheme node body ++ finishScheme position) ++ node.value condition ++
            jump .ifFalse .done ++ op .pop ++ back))
      (repeating (doWhileRound I position m l) rounds []) := by
  rintro pool c _ c' hc ⟨_, _, _, ⟨_, _, _, ⟨t0, c0, _, h0, ⟨rfl, rfl⟩, rfl⟩, ⟨rfl, rfl, -⟩, rfl⟩,
    ⟨_, _, ⟨_, _, _, ⟨_, _, _, ⟨_, ⟨_, _, _, ⟨_, _, _, ⟨_, _, _, ⟨_, _, t3, ⟨_, ⟨t1, _, t2, h1, h2, rfl⟩,
      rfl⟩, h3, rfl⟩, ⟨rfl, rfl⟩, rfl⟩, ⟨rfl, rfl⟩, rfl⟩, ⟨rfl, rfl⟩, rfl⟩, rfl⟩, ⟨rfl, rfl⟩, rfl⟩,
      ⟨rfl, rfl⟩, rfl⟩, rfl, rfl⟩, rfl⟩
  obtain ⟨rfl, hopen⟩ := runs_open (I := I) h0
  obtain ⟨rfl, hrun1⟩ := hbody (hc.openScope.inLoop _) h1
  cases finish_scene h2
  obtain ⟨rfl, hrun3⟩ := hcondition (hc.openScope.inLoop _) h3
  refine ⟨[], fresh_nil _, rfl, fun S cells env s hfits hnames => ?_⟩
  refine Follows.before (.within (A := S.accs) ?_) (.seq (.seq (hopen _ _ _) .nil) .nil)
  refine follows_repeating (W := fun acc env s => ⟨fill cells env, held position acc S.accs, s⟩)
    (R := Over position 0 cells scope S.accs) (fun acc env s hnames' => ?_) rounds hnames
  have hfits' := hfits.openScope.congr (hnames'.trans hnames.symm)
  have hturn := (hrun1 (s := s) (hfits'.enter hnames' false (held position acc S.accs)) hnames').turn
    (a := ⟨false, cells, scope⟩) h2 hnames'
  refine (Follows.rounded (.flat [_, _, _] ((hturn.closeLabel .again).bind fun r env2 s2 o hq => ?_))).within
  obtain ⟨o, hq, rfl⟩ := hq
  -- whether the body ends or continues, it lands on the condition; only a break skips it
  obtain ⟨hnames2, hland⟩ := hq.landed rfl
  obtain ⟨on, acc2⟩ := r
  rw [hland]
  cases on with
  | false => exact .out (.left ⟨hnames2, [], rfl, rfl⟩)
  | true =>
    have hfits2 := hfits.openScope.congr (hnames2.trans hnames.symm)
    have hcond := hrun3 (s := s2) (hfits2.header _ (held position acc2 S.accs)) hnames2
    refine .on (.within ((hcond.test (jumpsOn_ifFalse I) .done).bind fun v env3 s3 o hq => ?_))
    obtain ⟨hnames3, rfl⟩ := hq
    cases htruthy : I.truthy s3 v with
    | true =>
      rw [select_of_true (s := (env3, s3)) htruthy]
      exact .on (.gives .back (.again hnames3))
    | false =>
      rw [select_of_false (s := (env3, s3)) htruthy]
      exact .out (.done v ⟨hnames3, [], rfl, rfl⟩)

/-! ## Locals that a loop keeps for itself -/

theorem slot?_append (above : List V) (v : V) (below : List V) :
    slot? (above ++ v :: below) below.length = some v := by
  induction above with
  | nil => exact if_pos rfl
  | cons u above ih =>
    have hne : below.length ≠ (above ++ v :: below).length := by
      rw [List.length_append, List.length_cons]
      omega
    rw [List.cons_append, slot?, if_neg hne, ih]

theorem setSlot?_append (above : List V) (u v : V) (below : List V) :
    setSlot? (above ++ u :: below) below.length v = some (above ++ v :: below) := by
  induction above with
  | nil => exact if_pos rfl
  | cons w above ih =>
    have hne : below.length ≠ (above ++ u :: below).length := by
      rw [List.length_append, List.length_cons]
      omega
    rw [List.cons_append, setSlot?, if_neg hne, ih]
    rfl

section

variable {slot : UInt16} {below : List V}

theorem runs_getLocal (hslot : slot.toNat = below.length) (above : List V) (v : V)
    (accs : List (List V)) (s : σ) :
    Runs I pool (.op (.getLocal slot)) ⟨above ++ v :: below, accs, s⟩
      (.fall ⟨v :: (above ++ v :: below), accs, s⟩) := by
  refine .op ?_
  rw [perform_getLocal, hslot, slot?_append]
  rfl

theorem runs_setLocal (hslot : slot.toNat = below.length) (above : List V) (u v : V)
    (accs : List (List V)) (s : σ) :
    Runs I pool (.op (.setLocal slot)) ⟨v :: above ++ u :: below, accs, s⟩
      (.fall ⟨v :: above ++ v :: below, accs, s⟩) := by
  have hset := setSlot?_append (v :: above) u v below
  rw [← hslot] at hset
  refine .op ?_
  rw [List.cons_append, perform_setLocal, ← List.cons_append, hset]
  rfl

theorem follows_rangeCheck (hslot : slot.toNat = below.length) (S : Setting V)
    (counter last step : V) (env : Env V) (s : σ) :
    Follows I S pool (.op (.rangeCheck slot)) ⟨step :: last :: counter :: below, S.accs, s⟩
      (fun v env' s' o => env' = env ∧
        o = .fall ⟨v :: step :: last :: counter :: below, S.accs, s'⟩)
      (compute I .inRange [counter, last, step] (env, s)) := by
  have hcounter := slot?_append [step, last] counter below
  have hlast := slot?_append [step] last (counter :: below)
  have hstep := slot?_append [] step (last :: counter :: below)
  rw [List.length_cons, ← hslot] at hlast
  rw [List.length_cons, List.length_cons, ← hslot] at hstep
  rw [← hslot] at hcounter
  have hperform : perform I pool (.rangeCheck slot) ⟨step :: last :: counter :: below, S.accs, s⟩ =
      some ((I.apply .inRange [counter, last, step] s).map fun r =>
        ⟨r.1 :: step :: last :: counter :: below, S.accs, r.2⟩) := by
    simp only [List.nil_append, List.cons_append] at hcounter hlast hstep
    rw [perform_rangeCheck I pool _ _ _ hcounter hlast hstep, operate]
  refine follows_ofResult (fun r => .fall ⟨r.1 :: step :: last :: counter :: below, S.accs, r.2⟩) env
    (fun e he => ?_) (fun r hr => ?_)
  · rw [he] at hperform
    exact .fail hperform
  · rw [hr] at hperform
    exact .op hperform

end

theorem Orderly.hide (hc : Orderly scope c) (name : String) (slot : UInt16) :
    Orderly scope ((c.setHeight (c.height + 1)).declare name slot) :=
  (hc.declaring (fresh_local c name slot)).forget [name]

/-! ## A turn with a variable -/

/-- The value on top of the stack becomes the variable of a loop, for one turn of its body. -/
theorem turn_item {x : Scheme}
    (hx : Turns I true (name :: scope) scope' x 0 1 (pushing m)) {c'' : Scene} {t' : Tree}
    (hc : Orderly scope c)
    (hbody : (declared name ++ x ++ leave true) pool (c.openScope.setHeight (c.height + 1)) t c')
    (hfinish : finishScheme position pool c' t' c'') :
    c'' = c ∧ ∀ {accs : List (List V)} {a : Ring V} {acc : List V} {env : Env V} {s : σ} (item : V),
      Fits true ⟨some a, held position acc accs⟩ c a.cells env → env.names = scope →
      a.names = scope →
      Follows I (.closed (held position acc accs)) pool (.seq t t')
        ⟨item :: fill a.cells env, held position acc accs, s⟩ (Turning a position accs)
        (turn I position acc (inBlock do
          declareName name item
          m) (env, s)) := by
  have hturns : Turns I true scope scope' (declared name ++ x) 1 1 fun vs =>
      pushing (vs.forM (declareName name) >>= fun _ => m) [] :=
    (turns_declared.append hx).congr fun vs _ => by simp [pushing]
  obtain ⟨rfl, hrun⟩ := pushes_leave hturns hc hbody
  refine ⟨finish_scene hfinish, fun {accs a acc env s} item hfits hnames ha => ?_⟩
  have hlen : [item].length = 1 := rfl
  have hfollows := hrun (s := s) hfits hnames hlen
  rw [← ha] at hfollows hnames
  simpa using hfollows.turn hfinish hnames

theorem emit_same (c : Scene) {i : Instr} (hi : i.stackEffect = 0) : c.emit i = c := by
  simp [Scene.emit, hi]

/-! ## For-each -/

theorem follows_atEnd (S : Setting V) (iter : V) (below : List V) (env : Env V) (s : σ) :
    Follows I S pool (.jump .atEnd .done) ⟨iter :: below, S.accs, s⟩
      (fun item env' s' o => env' = env ∧
        o = item.elim (.goto .done ⟨iter :: below, S.accs, s'⟩) fun v =>
          .fall ⟨v :: iter :: below, S.accs, s'⟩)
      (advance I iter (env, s)) := by
  refine follows_ofResult
    (fun r : Option V × σ => r.1.elim (.goto .done ⟨iter :: below, S.accs, r.2⟩) fun v =>
      .fall ⟨v :: iter :: below, S.accs, r.2⟩) env (fun e he => ?_) (fun r hr => ?_)
  · exact .stray fun d => by simp [branch?, JumpKind.instr, he, Except.map]
  · obtain ⟨item, s'⟩ := r
    cases item with
    | some v => exact .pass fun d => by simp [branch?, JumpKind.instr, hr, Except.map]
    | none => exact .jump fun d => by simp [branch?, JumpKind.instr, hr, Except.map]

theorem Follows.ended {α β : Type} {W : α → Env V → σ → World V σ}
    {R : β → Env V → σ → World V σ → Prop}
    {r : Option (Except (Exit V σ E) ((α ⊕ β) × Env V × σ))} (h : Follows I (.closed accs) pool t w
      (fun x env s o => Rounded scope W R x env s (o.land .done)) r) :
    Follows I (.closed accs) pool (.seq (.block .done t) .nil) w (Rounded scope W R) r := by
  refine (h.closeLabel .done).after fun x env s o hq => ?_
  obtain ⟨o, hq, rfl⟩ := hq
  generalize o.land .done = o at hq
  cases hq with
  | again hnames => exact .out (.again hnames)
  | ended hR => exact .on (.gives .nil (.ended hR))
  | left hR => exact .out (.left hR)

theorem loops_forEach {iterable : Expr} {x : Scheme} (hfree : "$iter" ∉ scope)
    (hiterable : Pushes I false scope (node.value iterable) l)
    (hx : Turns I true (name :: scope) scope' x 0 1 (pushing m)) : Loops I b scope position
      (openAccumulatorScheme position ++ change Scene.openScope ++
        node.value iterable ++ op .getIter ++ declared "$iter" ++ heightIs base ++
        looped true
          (block .done
              (jump .atEnd .done ++ change Scene.openScope ++ declared name ++ x ++ leave true ++
                finishScheme position ++ back) ++
            atHeight base))
      (do
        let v ← l
        let iter ← compute I .iterator [v]
        repeating (forEachRound I position name iter m) rounds []) := by
  rintro pool c _ c' hc ⟨_, _, _, ⟨_, _, _, ⟨_, _, _, ⟨_, _, _, ⟨_, _, t1, ⟨t0, c0, _, h0, ⟨rfl, rfl⟩, rfl⟩,
    h1, rfl⟩, ⟨rfl, rfl⟩, rfl⟩, ⟨slot, rfl, hslot, rfl⟩, rfl⟩, ⟨rfl, rfl, -⟩, rfl⟩,
    ⟨_, _, ⟨_, _, _, ⟨_, ⟨_, _, _, ⟨_, _, t5, ⟨_, _, t4, ⟨_, _, t3, ⟨_, _, t2, ⟨_, _, _, ⟨rfl, rfl⟩,
      ⟨rfl, rfl⟩, rfl⟩, h2, rfl⟩, h3, rfl⟩, h4, rfl⟩, h5, rfl⟩, ⟨rfl, rfl⟩, rfl⟩, rfl⟩, ⟨rfl, rfl⟩, rfl⟩,
      rfl, rfl⟩, rfl⟩
  obtain ⟨rfl, hopen⟩ := runs_open (I := I) h0
  obtain ⟨rfl, hrun1⟩ := hiterable hc.openScope h1
  rw [emit_same (i := .getIter) _ rfl] at hslot h2
  -- the iterator stays on the stack, in a local that no name of the program denotes
  have hc1 := (hc.openScope.hide "$iter" slot).inLoop ⟨c0.height + 1, true⟩
  have hbody : (declared name ++ x ++ leave true) pool _ _ _ :=
    ⟨_, _, t4, ⟨t2, _, t3, h2, h3, rfl⟩, h4, rfl⟩
  cases (turn_item hx hc1 hbody h5).1
  refine ⟨[⟨"$iter", c0.depth + 1, slot, false⟩], fresh_local c0.openScope _ slot, rfl,
    fun S cells env s hfits hnames => ?_⟩
  have hhidden (iter : V) {env : Env V} (hnames' : env.names = scope) :=
    (hfits.openScope.congr (hnames'.trans hnames.symm)).hide (hnames' ▸ hfree) hslot iter
  refine .within (A := held position [] S.accs) (.flat [_, _, _, _]
    (Follows.before ?_ (.seq (hopen _ _ _) .nil)))
  refine .flat [_, _, _] ((hrun1 (hfits.openScope.closed _) hnames).bind fun v env1 s1 o hq => ?_)
  obtain ⟨hnames1, rfl⟩ := hq
  refine .on (.flat [_, _] ((follows_operation (o := .iterator) rfl [v] rfl _ _ env1 s1).bind
    fun iter env2 s2 o hq => ?_))
  obtain ⟨rfl, rfl⟩ := hq
  refine .on (Follows.before (.within (A := S.accs) ?_) (.seq .nil .nil))
  -- each round starts with the iterator on top of the cells of the names
  refine follows_repeating
    (W := fun acc env s => ⟨iter :: fill cells env, held position acc S.accs, s⟩)
    (R := Over position 1 cells scope S.accs) (fun acc env s hnames' => ?_) rounds hnames1
  rw [forEachRound]
  have hnext : Follows I (.closed (held position acc S.accs)) pool
      (.seq (.jump .atEnd .done) .nil) ⟨iter :: fill cells env, held position acc S.accs, s⟩
      (fun item env' s' o => env' = env ∧
        o = item.elim (.goto .done ⟨iter :: fill cells env, held position acc S.accs, s'⟩) fun v =>
          .fall ⟨v :: iter :: fill cells env, held position acc S.accs, s'⟩)
      (advance I iter (env, s)) :=
    (follows_atEnd (.closed (held position acc S.accs)) iter (fill cells env) env s).after
      fun item env' s' o hq => by
        obtain ⟨rfl, rfl⟩ := hq
        cases item with
        | none => exact .out ⟨rfl, rfl⟩
        | some v => exact .on (.gives .nil ⟨rfl, rfl⟩)
  refine (Follows.ended (.flat [_, _, _, _] (hnext.bind fun item env2 s2 o hq => ?_))).within
  obtain ⟨rfl, rfl⟩ := hq
  cases item with
  | none => exact .out (.ended ⟨hnames', [iter], rfl, rfl⟩)
  | some item =>
    have hring := (hhidden iter hnames').enter hnames' true (held position acc S.accs)
    have hturn := (turn_item hx hc1 hbody h5).2 (s := s2) item hring hnames' rfl
    refine .on (hturn.bind fun r env3 s3 o hq => ?_)
    cases hq with
    | on hnames3 hw =>
      subst hw
      exact .on (.gives .back (.again hnames3))
    | next hnames3 hw =>
      subst hw
      exact .out (.again hnames3)
    | left hnames3 hw =>
      subst hw
      exact .out (.left ⟨hnames3, [iter], rfl, rfl⟩)

/-! ## Ranges -/

theorem follows_step {last : UInt16}
    (h : ∀ e, step = some e → Pushes I false scope (node.value e) (evalExpr I rounds e))
    (hc : Orderly scope c) (hcode : stepScheme node counter last step pool c t c') :
    c' = c.setHeight (c.height + 1) ∧
      ∀ {S : Setting V} {u v : V} {cells : List (Option V)} {env : Env V} {s : σ},
        Fits false S c (some v :: some u :: cells) env → env.names = scope →
        counter.toNat = (fill cells env).length → last.toNat = (fill cells env).length + 1 →
        Follows I S pool t ⟨v :: u :: fill cells env, S.accs, s⟩
          (Pushed S scope (some v :: some u :: cells)) (evalStep I rounds step u v (env, s)) := by
  cases step with
  | some e =>
    obtain ⟨rfl, hrun⟩ := h e rfl hc hcode
    exact ⟨rfl, fun hfits hnames _ _ => hrun hfits hnames⟩
  | none =>
    obtain ⟨_, _, _, ⟨_, _, _, ⟨rfl, rfl⟩, ⟨rfl, rfl⟩, rfl⟩, ⟨rfl, rfl⟩, rfl⟩ := hcode
    have hheight : ((((c.height : Int) + 1).toNat + (1 : Int)).toNat + (-1 : Int)).toNat =
        c.height + 1 := by omega
    refine ⟨congrArg c.setHeight hheight, fun {S u v cells env s} hfits hnames hcounter hlast => ?_⟩
    have hlast' : last.toNat = (u :: fill cells env).length := hlast
    refine Follows.before ?_ (.seq (runs_getLocal hcounter [v] u S.accs s)
      (runs_getLocal hlast' [u] v S.accs s))
    refine (follows_operation rfl [v, u] rfl S _ env s).imp fun w env' s' o hq => ?_
    obtain ⟨rfl, rfl⟩ := hq
    exact ⟨hnames, rfl⟩

/-- One iteration of a range, up to where `continue` goes. -/
theorem tested_range
    (hbody : Turns I true (name :: scope) scope' (sequenceScheme node body) 0 1 (pushing m))
    (hc : Orderly scope c) (hcode : rangeIteration node name counter body position pool c t c') :
    c' = c ∧ ∀ {u v w : V} {cells : List (Option V)} {accs : List (List V)} {acc : List V}
        {env : Env V} {s : σ},
      (∀ env, env.names = scope → Fits true
        ⟨some ⟨false, some w :: some v :: some u :: cells, scope⟩, held position acc accs⟩ c
        (some w :: some v :: some u :: cells) env) →
      env.names = scope → counter.toNat = cells.length →
      Follows I (.closed (held position acc accs)) pool t
        ⟨w :: v :: u :: fill cells env, held position acc accs, s⟩
        (Tested ⟨false, some w :: some v :: some u :: cells, scope⟩ position accs acc)
        ((do
          let inside ← compute I .inRange [u, v, w]
          select I inside
            (some <$> do
              let item ← compute I .copy [u]
              turn I position acc (inBlock do
                declareName name item
                m))
            (pure none)) (env, s)) := by
  obtain ⟨_, _, t4, ⟨_, _, t3, ⟨_, _, t2, ⟨_, _, t1, ⟨_, _, _, ⟨_, _, _, ⟨_, _, _, ⟨_, _, _, ⟨_, _, _,
    ⟨rfl, rfl⟩, ⟨rfl, rfl⟩, rfl⟩, ⟨rfl, rfl⟩, rfl⟩, ⟨rfl, rfl⟩, rfl⟩, ⟨rfl, rfl⟩, rfl⟩, ⟨rfl, rfl⟩, rfl⟩,
    h1, rfl⟩, h2, rfl⟩, h3, rfl⟩, h4, rfl⟩ := hcode
  have hscene : ((c.emit (.rangeCheck counter)).emit (.jumpIfFalse Instr.unpatched)).emit .pop = c :=
    emit_test c rfl
  rw [emit_same (i := .copy) _ rfl] at h1
  change declared name pool (((((c.emit (.rangeCheck counter)).emit
    (.jumpIfFalse Instr.unpatched)).emit .pop).openScope.emit (.getLocal counter))) t1 _ at h1
  rw [hscene] at h1
  have hturn := turn_item hbody hc ⟨_, _, t3, ⟨t1, _, t2, h1, h2, rfl⟩, h3, rfl⟩ h4
  refine ⟨hturn.1, fun {u v w cells accs acc env s} hfits hnames hcounter => ?_⟩
  -- the counter lies right above the cells, with the bound and the step on top of it
  have hslot (env : Env V) (hnames : env.names = scope) : counter.toNat = (fill cells env).length := by
    have hlength := length_fill (hfits env hnames).placed rfl
    simp only [fill, List.length_cons] at hlength
    omega
  have hcheck : Follows I (.closed (held position acc accs)) pool (.op (.rangeCheck counter)) _
      (Pushed (.closed (held position acc accs)) scope (some w :: some v :: some u :: cells)) _ :=
    (follows_rangeCheck (hslot env hnames) (.closed (held position acc accs)) u v w env s).imp
      fun inside env' s' o hq => by
        obtain ⟨rfl, rfl⟩ := hq
        exact ⟨hnames, rfl⟩
  refine .flat [_, _, _] (.flat [_, _, _] (hcheck.guarded
    (a := ⟨false, some w :: some v :: some u :: cells, scope⟩) fun env s hnames => ?_))
  refine ((follows_operation rfl [u] rfl (.closed (held position acc accs))
    (w :: v :: u :: fill cells env) env s).before (.seq .nil (runs_getLocal (hslot env hnames) [w, v] u
      (held position acc accs) s))).bind fun item env' s' o hq => ?_
  obtain ⟨rfl, rfl⟩ := hq
  exact .on (hturn.2 item (hfits env' hnames) hnames rfl)

theorem rangeRound_eq (name : String) (last step : V) (m : Eval V σ E V) (state : V × List V) :
    rangeRound I position name last step m state = (do
      let inside ← compute I .inRange [state.1, last, step]
      select I inside
        (some <$> do
          let item ← compute I .copy [state.1]
          turn I position state.2 (inBlock do
            declareName name item
            m))
        (pure none)) >>= fun r => r.elim (pure (.inr state.2)) fun r =>
          if r.1 then (fun counter => .inl (counter, r.2)) <$> compute I (.binary .add) [state.1, step]
          else pure (.inr r.2) := by
  rw [rangeRound, bind_assoc]
  refine congrArg (compute I .inRange _ >>= ·) (funext fun inside => ?_)
  rw [select_bind]
  simp

/-- The counter of a range is advanced in its slot. -/
theorem follows_advance {below : List V}
    (hcounter : counter.toNat = below.length) (hstep : stepSlot.toNat = below.length + 2)
    (S : Setting V) (u v w : V) (env : Env V) (s : σ) : Follows I S pool
      (.seq (.seq (.seq (.seq (.op (.getLocal counter)) (.op (.getLocal stepSlot)))
        (.op (.binary .add))) (.op (.setLocal counter))) (.op .pop))
      ⟨w :: v :: u :: below, S.accs, s⟩
      (fun u' env' s' o => env' = env ∧ o = .fall ⟨w :: v :: u' :: below, S.accs, s'⟩)
      (compute I (.binary .add) [u, w] (env, s)) := by
  have hstep' : stepSlot.toNat = (v :: u :: below).length := hstep
  have hop : operation? pool (.binary .add) = some (.binary .add, 2) := rfl
  have hadd := (follows_operation (I := I) hop [w, u] rfl S (w :: v :: u :: below) env s).before
    (.seq (runs_getLocal hcounter [w, v] u S.accs s) (runs_getLocal hstep' [u] w S.accs s))
  refine (hadd.after fun u' env' s' o hq => ?_).after
    (Q := fun u' env' s' o => env' = env ∧ o = .fall ⟨u' :: w :: v :: u' :: below, S.accs, s'⟩)
    fun u' env' s' o hq => ?_
  · obtain ⟨rfl, rfl⟩ := hq
    exact .on (.gives (runs_setLocal hcounter [w, v] u u' S.accs s') ⟨rfl, rfl⟩)
  · obtain ⟨rfl, rfl⟩ := hq
    exact .on (.gives (.op rfl) ⟨rfl, rfl⟩)

theorem loops_range {lastSlot : UInt16} {first last : Expr}
    {r : Eval V σ E V} (hfree : ∀ n ∈ hiddenNames, n ∉ scope)
    (hfirst : Pushes I false scope (node.value first) l)
    (hlast : Pushes I false scope (node.value last) r)
    (hstep : ∀ e, step = some e → Pushes I false scope (node.value e) (evalExpr I rounds e))
    (hbody : Turns I true (name :: scope) scope' (sequenceScheme node body) 0 1 (pushing m)) :
    Loops I b scope position
      (openAccumulatorScheme position ++ change Scene.openScope ++
        node.value first ++ declare "$counter" counter ++
        node.value last ++ declare "$end" lastSlot ++
        stepScheme node counter lastSlot step ++ declare "$step" stepSlot ++ heightIs base ++
        conditionLoop false base
          (block .again (rangeIteration node name counter body position) ++
            op (.getLocal counter) ++ op (.getLocal stepSlot) ++ op (.binary .add) ++
            op (.setLocal counter) ++ op .pop ++ back))
      (rangeLoop I rounds position name l r (evalStep I rounds step) m) := by
  rintro pool c _ c' hc ⟨_, _, _, ⟨_, _, _, ⟨_, _, _, ⟨_, _, t3, ⟨_, _, _, ⟨_, _, t2, ⟨_, _, _, ⟨_, _, t1,
    ⟨t0, c0, _, h0, ⟨rfl, rfl⟩, rfl⟩, h1, rfl⟩, ⟨rfl, hslot1, rfl⟩, rfl⟩, h2, rfl⟩, ⟨rfl, hslot2, rfl⟩, rfl⟩,
    h3, rfl⟩, ⟨rfl, hslot3, rfl⟩, rfl⟩, ⟨rfl, rfl, -⟩, rfl⟩,
    ⟨_, _, ⟨_, _, _, ⟨_, _, _, ⟨_, ⟨_, _, _, ⟨_, _, _, ⟨_, _, _, ⟨_, _, _, ⟨_, _, _, ⟨_, _, _, ⟨t4, h4, rfl⟩,
      ⟨rfl, rfl⟩, rfl⟩, ⟨rfl, rfl⟩, rfl⟩, ⟨rfl, rfl⟩, rfl⟩, ⟨rfl, rfl⟩, rfl⟩, ⟨rfl, rfl⟩, rfl⟩, ⟨rfl, rfl⟩,
      rfl⟩, rfl⟩, ⟨rfl, rfl⟩, rfl⟩, ⟨rfl, rfl⟩, rfl⟩, rfl, rfl⟩, rfl⟩
  obtain ⟨rfl, hopen⟩ := runs_open (I := I) h0
  obtain ⟨rfl, hrun1⟩ := hfirst hc.openScope h1
  have hc1 := hc.openScope.hide "$counter" counter
  obtain ⟨rfl, hrun2⟩ := hlast hc1 h2
  have hc2 := hc1.hide "$end" lastSlot
  obtain ⟨rfl, hrun3⟩ := follows_step hstep hc2 h3
  have hc3 := (hc2.hide "$step" stepSlot).inLoop ⟨c0.height + 3, false⟩
  cases (tested_range hbody hc3 h4).1
  refine ⟨[⟨"$step", c0.depth + 1, stepSlot, false⟩, ⟨"$end", c0.depth + 1, lastSlot, false⟩,
    ⟨"$counter", c0.depth + 1, counter, false⟩], ?_, rfl, fun S cells env s hfits hnames => ?_⟩
  · intro v hv
    simp only [List.mem_cons, List.not_mem_nil, or_false] at hv
    rcases hv with rfl | rfl | rfl <;> exact ⟨rfl, rfl⟩
  have hcounter : counter.toNat = cells.length := hslot1.trans hfits.height
  have hfits1 {env : Env V} (hnames' : env.names = scope) (u : V) :=
    (hfits.openScope.congr (hnames'.trans hnames.symm)).hide
      (hnames' ▸ hfree "$counter" (by simp [hiddenNames])) hslot1 u
  have hfits2 {env : Env V} (hnames' : env.names = scope) (u v : V) :=
    (hfits1 hnames' u).hide (hnames' ▸ hfree "$end" (by simp [hiddenNames])) hslot2 v
  have hfits3 {env : Env V} (hnames' : env.names = scope) (u v w : V) :=
    (hfits2 hnames' u v).hide (hnames' ▸ hfree "$step" (by simp [hiddenNames])) hslot3 w
  have hlength {env : Env V} (hnames' : env.names = scope) : (fill cells env).length = cells.length :=
    length_fill (hfits.congr (hnames'.trans hnames.symm)).placed rfl
  rw [rangeLoop]
  -- the header is run piece by piece, and each value that it leaves becomes a local
  refine .within (A := held position [] S.accs) (.flat [_, _, _, _, _, _, _]
    (Follows.before ?_ (.seq (hopen _ _ _) .nil)))
  refine .flat [_, _, _, _, _, _] ((hrun1 (hfits.openScope.closed _) hnames).bind
    fun u env1 s1 o hq => ?_)
  obtain ⟨hnames1, rfl⟩ := hq
  refine .on (.flat [_, _, _, _, _] (Follows.before ?_ .nil))
  refine .flat [_, _, _, _] ((hrun2 ((hfits1 hnames1 u).closed _) hnames1).bind
    fun v env2 s2 o hq => ?_)
  obtain ⟨hnames2, rfl⟩ := hq
  refine .on (.flat [_, _, _] (Follows.before ?_ .nil))
  refine .flat [_, _] ((hrun3 ((hfits2 hnames2 u v).closed _) hnames2 ?_ ?_).bind
    fun w env3 s3 o hq => ?_)
  · rw [hlength hnames2, hcounter]
  · rw [hlength hnames2, ← hfits.height]
    exact hslot2
  obtain ⟨hnames3, rfl⟩ := hq
  refine .on (Follows.before (.within (A := S.accs) ?_) (.seq .nil .nil))
  refine follows_repeating
    (W := fun (state : V × List V) env s =>
      ⟨w :: v :: state.1 :: fill cells env, held position state.2 S.accs, s⟩)
    (R := Over position 3 cells scope S.accs) (fun state env s hnames' => ?_) rounds (a := (u, []))
    (s := s3) hnames3
  obtain ⟨u, acc⟩ := state
  rw [rangeRound_eq]
  have htested := (tested_range hbody hc3 h4).2 (s := s)
    (fun env hnames' => (hfits3 hnames' u v w).enter hnames' false (held position acc S.accs))
    hnames' hcounter
  refine (Follows.rounded (.flat [_, _, _, _, _] ((htested.closeLabel .again).bind
    fun r env2 s2 o hq => ?_))).within
  obtain ⟨o, hq, rfl⟩ := hq
  cases hq with
  | fails hnames4 inside => exact .out (.done inside ⟨hnames4, [w, v, u], rfl, rfl⟩)
  | @holds r _ _ _ hq =>
    obtain ⟨hnames4, hland⟩ := hq.landed rfl
    obtain ⟨on, acc2⟩ := r
    rw [hland]
    cases on with
    | false => exact .out (.left ⟨hnames4, [w, v, u], rfl, rfl⟩)
    | true =>
      have hstep : stepSlot.toNat = (fill cells env2).length + 2 := by
        rw [hlength hnames4, ← hfits.height]
        exact hslot3
      refine .on (.within (follows_map.mpr ((follows_advance
        (hcounter.trans (hlength hnames4).symm) hstep (.closed (held position acc2 S.accs)) u v w
        env2 s2).after fun u' env5 s5 o hq => ?_)))
      obtain ⟨rfl, rfl⟩ := hq
      exact .on (.gives .back (.again hnames4))

end Strand.Machine
