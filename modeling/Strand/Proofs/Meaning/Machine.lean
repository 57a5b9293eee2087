import Strand.Proofs.StackHeight

/-!
# The stack machine

What the instructions do that the code of plain bodies is made of. The values, which of
them count as true, what the operations compute from them and what an iterator gives next
are left open: a machine is given by an interpretation of these, and it may fail. What is
fixed is where values are kept and where control goes.

A unit is run from flat code with relative jumps. Because that code has the shape of a
tree, its runs can be described without offsets: a piece of code is run to its end, or
to a label, or until the machine stops. `Runs.yields` carries such a description over to
the flat code, and nothing that comes after has to follow a jump.
-/

namespace Strand

variable {i : Instr}

namespace Machine

variable {sites : Sites}

/-! ## Values -/

/-- What a value is computed by. -/
inductive Operation where
  | constant (k : Constant)
  | null
  | bool (value : Bool)
  | binary (op : BinaryOp)
  | unary (op : UnaryOp)
  | index
  | array
  /-- The values are keys and values by turns. -/
  | map
  | tuple
  | text
  | copy
  | iterator
  /-- The step of a range whose first and last value are given. -/
  | inferStep
  /-- Whether a counter is still inside a range, given its last value and its step. -/
  | inRange
  /-- The list of what a loop has collected. -/
  | collected

/-- The operation of an instruction and the number of values it takes, given the pool. -/
def operation? (pool : List Constant) : Instr → Option (Operation × Nat)
  | .constant i => pool[i.toNat]?.map fun k => (.constant k, 0)
  | .pushNull => some (.null, 0)
  | .pushTrue => some (.bool true, 0)
  | .pushFalse => some (.bool false, 0)
  | .binary op => some (.binary op, 2)
  | .unary op => some (.unary op, 1)
  | .getIndex => some (.index, 2)
  | .array n => some (.array, n.toNat)
  | .map n => some (.map, 2 * n.toNat)
  | .tuple n => some (.tuple, n.toNat)
  | .buildString n => some (.text, n.toNat)
  | .copy => some (.copy, 1)
  | .getIter => some (.iterator, 1)
  | .inferStep => some (.inferStep, 2)
  | _ => none

/-- An interpretation: values `V`, a store `σ` that operations may change, and errors. -/
structure Interp (V σ E : Type) where
  truthy : σ → V → Bool
  /-- What a loop does not collect. -/
  isNull : σ → V → Bool
  apply : Operation → List V → σ → Except E (V × σ)
  /-- The next item of an iterator, if there is one. -/
  next : V → σ → Except E (Option V × σ)

/-! ## The stack -/

variable {V σ E : Type}

/-- The operand stack, with its top first, the open accumulators, with the innermost first,
and the store. -/
structure World (V σ : Type) where
  stack : List V
  accs : List (List V)
  store : σ

/-- What is in a slot. Slots are counted from the bottom of the stack. -/
def slot? : List V → Nat → Option V
  | [], _ => none
  | v :: s, n => if n = s.length then some v else slot? s n

/-- Put a value into a slot. -/
def setSlot? : List V → Nat → V → Option (List V)
  | [], _, _ => none
  | v :: s, n, w => if n = s.length then some (w :: s) else (setSlot? s n w).map (v :: ·)

/-- Push what an operation computes from some values. -/
def operate (I : Interp V σ E) (o : Operation) (args : List V) (w : World V σ) :
    Except E (World V σ) :=
  (I.apply o args w.store).map fun r => { w with stack := r.1 :: w.stack, store := r.2 }

/-- What an accumulator holds after a further value. -/
def collect (I : Interp V σ E) (s : σ) (acc : List V) (v : V) : List V :=
  if I.isNull s v then acc else acc ++ [v]

/-- The effect of an instruction after which control goes on to the next one. There is
none where values are missing. -/
def perform (I : Interp V σ E) (pool : List Constant) (i : Instr) (w : World V σ) :
    Option (Except E (World V σ)) :=
  match operation? pool i with
  | some (o, n) =>
    if n ≤ w.stack.length then
      some (operate I o (w.stack.take n).reverse { w with stack := w.stack.drop n })
    else none
  | none =>
    match i, w.stack, w.accs with
    | .pop, _ :: s, _ => some (.ok { w with stack := s })
    | .popUnder, v :: _ :: s, _ => some (.ok { w with stack := v :: s })
    | .getLocal n, s, _ => (slot? s n.toNat).map fun v => .ok { w with stack := v :: s }
    | .setLocal n, v :: s, _ =>
      (setSlot? (v :: s) n.toNat v).map fun s => .ok { w with stack := s }
    | .rangeCheck n, s, _ => do
      let counter ← slot? s n.toNat
      let last ← slot? s (n.toNat + 1)
      let step ← slot? s (n.toNat + 2)
      pure (operate I .inRange [counter, last, step] w)
    | .accStart, _, accs => some (.ok { w with accs := [] :: accs })
    | .accCollect, v :: s, acc :: accs =>
      some (.ok { w with stack := s, accs := collect I w.store acc v :: accs })
    | .accFlush, _, acc :: accs => some (operate I .collected acc { w with accs })
    | _, _, _ => none

section

variable (I : Interp V σ E) (pool : List Constant) (s : List V) (accs : List (List V)) (store : σ)

theorem perform_operation {o : Operation} {n : Nat} (hop : operation? pool i = some (o, n))
    (hn : n ≤ s.length) : perform I pool i ⟨s, accs, store⟩ =
      some (operate I o (s.take n).reverse ⟨s.drop n, accs, store⟩) := by
  unfold perform
  rw [hop]
  exact if_pos hn

theorem perform_getLocal (n : UInt16) : perform I pool (.getLocal n) ⟨s, accs, store⟩ =
    (slot? s n.toNat).map fun v => .ok ⟨v :: s, accs, store⟩ := rfl

theorem perform_setLocal (n : UInt16) (v : V) : perform I pool (.setLocal n) ⟨v :: s, accs, store⟩ =
    (setSlot? (v :: s) n.toNat v).map fun s => .ok ⟨s, accs, store⟩ := rfl

theorem perform_rangeCheck {n : UInt16} {counter last step : V}
    (hcounter : slot? s n.toNat = some counter) (hlast : slot? s (n.toNat + 1) = some last)
    (hstep : slot? s (n.toNat + 2) = some step) : perform I pool (.rangeCheck n) ⟨s, accs, store⟩ =
      some (operate I .inRange [counter, last, step] ⟨s, accs, store⟩) := by
  have hbind : perform I pool (.rangeCheck n) ⟨s, accs, store⟩ =
      (slot? s n.toNat).bind fun counter => (slot? s (n.toNat + 1)).bind fun last =>
        (slot? s (n.toNat + 2)).bind fun step =>
          some (operate I .inRange [counter, last, step] ⟨s, accs, store⟩) := rfl
  rw [hbind, hcounter, hlast, hstep]
  rfl

end

/-- Whether a jump is taken, and the world after it. One that is conditional tests the top
of the stack, and leaves it there; an iterator stays too, below its item. -/
def branch? (I : Interp V σ E) (w : World V σ) : Instr → Option (Except E (Bool × World V σ))
  | .jump _ | .loop _ => some (.ok (true, w))
  | .jumpIfFalse _ => w.stack.head?.map fun v => .ok (!I.truthy w.store v, w)
  | .jumpIfTrue _ => w.stack.head?.map fun v => .ok (I.truthy w.store v, w)
  | .forIter _ => w.stack.head?.map fun v => (I.next v w.store).map fun r =>
    match r.1 with
    | some item => (false, { w with stack := item :: w.stack, store := r.2 })
    | none => (true, { w with store := r.2 })
  | _ => none

/-! ## Running a unit -/

/-- What comes after one step: another, or a result. -/
inductive Next (V σ E : Type) where
  | go (offset : Nat) (w : World V σ)
  | stop (result : Except E (V × σ))

/-- One step of a unit. A machine that finds no instruction, or not the values for it,
is stuck. -/
def step (I : Interp V σ E) (u : CodeUnit) (offset : Nat) (w : World V σ) :
    Option (Next V σ E) := do
  let i ← u.code[offset]?
  if i = .ret then
    let v ← w.stack.head?
    pure (.stop (.ok (v, w.store)))
  else if i.isJump then
    match ← branch? I w i with
    | .ok (true, w) => pure (.go (← jumpTarget? u.code offset) w)
    | .ok (false, w) => pure (.go (offset + 1) w)
    | .error e => pure (.stop (.error e))
  else
    match ← perform I u.constants i w with
    | .ok w => pure (.go (offset + 1) w)
    | .error e => pure (.stop (.error e))

/-- The unit, run from an offset, stops with a result. -/
inductive Yields (I : Interp V σ E) (u : CodeUnit) : Nat → World V σ → Except E (V × σ) → Prop where
  | stop {o : Nat} {w : World V σ} {r : Except E (V × σ)} (h : step I u o w = some (.stop r)) :
      Yields I u o w r
  | go {o o' : Nat} {w w' : World V σ} {r : Except E (V × σ)}
      (h : step I u o w = some (.go o' w')) (hrest : Yields I u o' w' r) : Yields I u o w r

/-- A run has one result. -/
theorem Yields.unique {I : Interp V σ E} {u : CodeUnit} {o : Nat} {w : World V σ}
    {r r' : Except E (V × σ)} (h : Yields I u o w r) (h' : Yields I u o w r') : r' = r := by
  induction h with
  | stop h =>
    cases h' with
    | stop h' => cases h.symm.trans h'; rfl
    | go h' _ => cases h.symm.trans h'
  | go h _ ih =>
    cases h' with
    | stop h' => cases h.symm.trans h'
    | go h' hrest =>
      cases h.symm.trans h'
      exact ih hrest

/-! ## Running structured code -/

open Codegen (Label JumpKind Sites Tree)

/-- How the run of a piece of code ends: at its end, at a label, or with a result. -/
inductive Outcome (V σ E : Type) where
  | fall (w : World V σ)
  | goto (l : Label) (w : World V σ)
  | stop (result : Except E (V × σ))

/-- Seen from around a block, the label of the block is its end. -/
def Outcome.land (l : Label) : Outcome V σ E → Outcome V σ E
  | .goto l' w => if l' = l then .fall w else .goto l' w
  | o => o

/-- Seen from around a loop, `exit` and `again` are its end. -/
def Outcome.leaveLoop : Outcome V σ E → Outcome V σ E
  | .goto l w => if l.ofLoop then .fall w else .goto l w
  | o => o

/-- Code is run from a world to an outcome. A loop whose inside comes to `start` is run once
more. -/
inductive Runs (I : Interp V σ E) (pool : List Constant) :
    Tree → World V σ → Outcome V σ E → Prop where
  | nil {w : World V σ} : Runs I pool .nil w (.fall w)
  | op {i : Instr} {w w' : World V σ} (h : perform I pool i w = some (.ok w')) :
      Runs I pool (.op i) w (.fall w')
  | fail {i : Instr} {w : World V σ} {e : E} (h : perform I pool i w = some (.error e)) :
      Runs I pool (.op i) w (.stop (.error e))
  | ret {v : V} {s : List V} {accs : List (List V)} {store : σ} :
      Runs I pool (.op .ret) ⟨v :: s, accs, store⟩ (.stop (.ok (v, store)))
  | seq {x y : Tree} {w w' : World V σ} {o : Outcome V σ E} (hx : Runs I pool x w (.fall w'))
      (hy : Runs I pool y w' o) : Runs I pool (.seq x y) w o
  | leave {x y : Tree} {w w' : World V σ} {l : Label} (hx : Runs I pool x w (.goto l w')) :
      Runs I pool (.seq x y) w (.goto l w')
  | halt {x y : Tree} {w : World V σ} {r : Except E (V × σ)} (hx : Runs I pool x w (.stop r)) :
      Runs I pool (.seq x y) w (.stop r)
  | jump {k : JumpKind} {l : Label} {w w' : World V σ}
      (h : ∀ d, branch? I w (k.instr d) = some (.ok (true, w'))) :
      Runs I pool (.jump k l) w (.goto l w')
  | pass {k : JumpKind} {l : Label} {w w' : World V σ}
      (h : ∀ d, branch? I w (k.instr d) = some (.ok (false, w'))) :
      Runs I pool (.jump k l) w (.fall w')
  | stray {k : JumpKind} {l : Label} {w : World V σ} {e : E}
      (h : ∀ d, branch? I w (k.instr d) = some (.error e)) :
      Runs I pool (.jump k l) w (.stop (.error e))
  | back {w : World V σ} : Runs I pool .back w (.goto .start w)
  | block {l : Label} {t : Tree} {w : World V σ} {o : Outcome V σ E} (h : Runs I pool t w o) :
      Runs I pool (.block l t) w (o.land l)
  | loop {t : Tree} {w : World V σ} {o : Outcome V σ E} (h : Runs I pool t w o)
      (hend : ∀ w', o ≠ .goto .start w') : Runs I pool (.loop t) w o.leaveLoop
  | again {t : Tree} {w w' : World V σ} {o : Outcome V σ E} (h : Runs I pool t w (.goto .start w'))
      (hrest : Runs I pool (.loop t) w' o) : Runs I pool (.loop t) w o
  | node {e : Expr} {t : Tree} {w : World V σ} {o : Outcome V σ E} (h : Runs I pool t w o) :
      Runs I pool (.node e t) w o

theorem Runs.assoc {I : Interp V σ E} {pool : List Constant} {x y z : Tree} {w : World V σ}
    {o : Outcome V σ E} (h : Runs I pool (.seq x (.seq y z)) w o) :
    Runs I pool (.seq (.seq x y) z) w o := by
  cases h with
  | leave hx => exact .leave (.leave hx)
  | halt hx => exact .halt (.halt hx)
  | seq hx h =>
    cases h with
    | seq hy hz => exact .seq (.seq hx hy) hz
    | leave hy => exact .leave (.seq hx hy)
    | halt hy => exact .halt (.seq hx hy)

/-- What stands first can be replaced by what does the same and more. -/
theorem Runs.first {I : Interp V σ E} {pool : List Constant} {x x' : Tree} (rest : List Tree)
    (hx : ∀ w o, Runs I pool x w o → Runs I pool x' w o) {w : World V σ} {o : Outcome V σ E}
    (h : Runs I pool (rest.foldl .seq x) w o) : Runs I pool (rest.foldl .seq x') w o := by
  induction rest generalizing x x' with
  | nil => exact hx w o h
  | cons y rest ih =>
    refine ih (fun w o h => ?_) h
    cases h with
    | seq h hy => exact .seq (hx _ _ h) hy
    | leave h => exact .leave (hx _ _ h)
    | halt h => exact .halt (hx _ _ h)

/-- Pieces in a row, the first of which is taken out. -/
theorem Runs.flat {I : Interp V σ E} {pool : List Constant} {x y : Tree} (rest : List Tree)
    {w : World V σ} {o : Outcome V σ E} (h : Runs I pool (.seq x (rest.foldl .seq y)) w o) :
    Runs I pool (rest.foldl .seq (.seq x y)) w o := by
  induction rest generalizing y with
  | nil => exact h
  | cons z rest ih => exact (ih h).first rest fun _ _ h => h.assoc

/-- What flat code still has to do after a piece of it ended at the offset `stop`. -/
def Outcome.Leads (I : Interp V σ E) (u : CodeUnit) (sites : Sites) (stop : Nat)
    (r : Except E (V × σ)) : Outcome V σ E → Prop
  | .fall w => Yields I u stop w r
  | .goto l w => ∃ target, sites l = some target ∧ Yields I u target w r
  | .stop r' => r' = r

section

variable {I : Interp V σ E} {u : CodeUnit} {o : Nat} {w w' : World V σ} {r : Except E (V × σ)}
  {x : Outcome V σ E}

theorem ne_ret_of_perform {pool : List Constant} {x : Except E (World V σ)}
    (h : perform I pool i w = some x) : i ≠ .ret := by
  rintro rfl
  cases h

theorem ne_ret_of_branch {x : Except E (Bool × World V σ)} (h : branch? I w i = some x) : i ≠ .ret := by
  rintro rfl
  cases h

theorem yields_of_perform (hi : u.code[o]? = some i) (hplain : i.isJump = false)
    (h : perform I u.constants i w = some (.ok w')) (hrest : Yields I u (o + 1) w' r) :
    Yields I u o w r :=
  .go (by simp [step, hi, ne_ret_of_perform h, hplain, h]) hrest

theorem yields_of_failure {e : E} (hi : u.code[o]? = some i)
    (hplain : i.isJump = false) (h : perform I u.constants i w = some (.error e)) :
    Yields I u o w (.error e) :=
  .stop (by simp [step, hi, ne_ret_of_perform h, hplain, h])

theorem yields_of_ret {v : V} {s : List V} {accs : List (List V)} {store : σ}
    (hi : u.code[o]? = some .ret) : Yields I u o ⟨v :: s, accs, store⟩ (.ok (v, store)) :=
  .stop (by simp [step, hi])

theorem yields_of_taken {target : Nat} (hi : u.code[o]? = some i)
    (hjump : i.isJump = true) (h : branch? I w i = some (.ok (true, w')))
    (htarget : jumpTarget? u.code o = some target) (hrest : Yields I u target w' r) : Yields I u o w r :=
  .go (by simp [step, hi, ne_ret_of_branch h, hjump, h, htarget]) hrest

theorem yields_of_pass (hi : u.code[o]? = some i) (hjump : i.isJump = true)
    (h : branch? I w i = some (.ok (false, w'))) (hrest : Yields I u (o + 1) w' r) : Yields I u o w r :=
  .go (by simp [step, hi, ne_ret_of_branch h, hjump, h]) hrest

theorem yields_of_stray {e : E} (hi : u.code[o]? = some i) (hjump : i.isJump = true)
    (h : branch? I w i = some (.error e)) : Yields I u o w (.error e) :=
  .stop (by simp [step, hi, ne_ret_of_branch h, hjump, h])

/-- The label of a block is aimed at its end. -/
theorem Outcome.Leads.enter {stop : Nat} {l : Label}
    (h : (x.land l).Leads I u sites stop r) : x.Leads I u (sites.set l stop) stop r := by
  cases x with
  | fall w => exact h
  | stop r' => exact h
  | goto l' w =>
    by_cases hl : l' = l
    · rw [Outcome.land, if_pos hl] at h
      exact ⟨stop, by rw [hl, Sites.set_self], h⟩
    · rw [Outcome.land, if_neg hl] at h
      obtain ⟨target, hsite, hrest⟩ := h
      exact ⟨target, by rw [Sites.set_of_ne hl, hsite], hrest⟩

/-- So are the labels of a loop, but for the one at its start. -/
theorem Outcome.Leads.enterLoop {start stop : Nat}
    (hend : ∀ w', x ≠ .goto .start w') (h : x.leaveLoop.Leads I u sites stop r) :
    x.Leads I u (sites.inLoop start stop) stop r := by
  cases x with
  | fall w => exact h
  | stop r' => exact h
  | goto l w =>
    rw [Outcome.leaveLoop] at h
    split at h
    · -- both labels stand where the loop ends
      refine ⟨stop, ?_, h⟩
      cases l <;> first | rfl | contradiction
    · rename_i hl
      obtain ⟨target, hsite, hrest⟩ := h
      refine ⟨target, ?_, hrest⟩
      cases l <;> first | exact hsite | exact absurd rfl (hend w) | exact absurd rfl hl

/-- A jump carries some distance, whether it has been aimed or not. -/
theorem exists_jump_of_at {k : JumpKind} {l : Label} {a : Nat}
    (hat : (Tree.jump k l).At u.code sites a) : ∃ d, u.code[a]? = some (k.instr d) := by
  rw [Tree.At] at hat
  split at hat
  · exact hat.imp fun d hd => hd.1
  · exact ⟨_, hat⟩

/-- Flat code runs as the tree that stands in it. -/
theorem Runs.yields {t : Tree} (h : Runs I u.constants t w x)
    {a : Nat} (hat : t.At u.code sites a) (hleads : x.Leads I u sites (a + t.size) r) :
    Yields I u a w r := by
  induction h generalizing sites a with
  | nil => exact hleads
  | op h => exact yields_of_perform hat.1 hat.2 h hleads
  | fail h =>
    cases hleads
    exact yields_of_failure hat.1 hat.2 h
  | ret =>
    cases hleads
    exact yields_of_ret hat.1
  | seq _ _ ihx ihy =>
    refine ihx hat.1 (ihy hat.2 ?_)
    rwa [Nat.add_assoc]
  | leave _ ihx => exact ihx hat.1 hleads
  | halt _ ihx => exact ihx hat.1 hleads
  | jump h =>
    obtain ⟨target, hsite, hrest⟩ := hleads
    rw [Tree.At, hsite] at hat
    obtain ⟨d, hi, -, rfl⟩ := hat
    exact yields_of_taken hi (Codegen.isJump_instr ..) (h d) (Codegen.jumpTarget_of_forward hi) hrest
  | pass h =>
    obtain ⟨d, hi⟩ := exists_jump_of_at hat
    exact yields_of_pass hi (Codegen.isJump_instr ..) (h d) hleads
  | stray h =>
    cases hleads
    obtain ⟨d, hi⟩ := exists_jump_of_at hat
    exact yields_of_stray hi (Codegen.isJump_instr ..) (h d)
  | back =>
    obtain ⟨target, d, hstart, hi, hdistance, -⟩ := hat
    obtain ⟨target', hsite, hrest⟩ := hleads
    cases hstart.symm.trans hsite
    exact yields_of_taken hi rfl rfl (Codegen.jumpTarget_of_back hi hdistance) hrest
  | block _ ih => exact ih hat.2 hleads.enter
  | loop _ hend ih => exact ih hat (hleads.enterLoop hend)
  -- the jump back leads to where the loop starts, and there the rest of the run is placed
  | again _ _ ih ihrest => exact ih hat ⟨a, Sites.inLoop_start .., ihrest hat hleads⟩
  | node _ ih => exact ih hat hleads

end

end Machine

end Strand
