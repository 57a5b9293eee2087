import Strand.Proofs.Nesting
import Strand.Proofs.StackHeight

/-!
# Open accumulators

A loop whose value is wanted opens an accumulator before it starts, collects the value of
each iteration in it and closes it at its end. Which accumulators are open at an offset is
known by where they were opened, so that it can be said which one an instruction closes.

A jump is harmless if at its target the same accumulators are open as at the jump. Inside a
construct this is clear, since all its labels are in the code of the construct. Only
`break` and `continue` go further, to the loop around them. They do no harm in the body of a
loop, where the loop around them is the one that opened the innermost accumulator; but the
bounds of a range and the iterable of a loop over items stand after the accumulator is
opened and before the loop begins, and what leaves from there goes to a loop further out.
-/

namespace Strand

namespace Instr

/-- The accumulators that are open after the instruction at an offset, innermost first. Each
is known by the offset at which it was opened. -/
def accumulators (o : Nat) (opened : List Nat) : Instr → List Nat
  | .accStart => o :: opened
  | .accFlush => opened.tail
  | _ => opened

/-- The instruction opens, fills or closes an accumulator. -/
def ofAccumulator : Instr → Bool
  | .accStart | .accCollect | .accFlush => true
  | _ => false

theorem accumulators_of_not {i : Instr} (h : i.ofAccumulator = false) (o : Nat)
    (opened : List Nat) : i.accumulators o opened = opened := by
  cases i <;> first | rfl | cases h

end Instr

/-- The value of the node is wanted: it is an operand, or what a body comes to. -/
def Wanted (p : Program) (e : Expr) : Prop := Occurs p .operand e ∨ EndsBody p e

/-- No loop whose value is wanted is left from its header. -/
def StaysInHeaders (p : Program) : Prop :=
  ∀ e, Wanted p e → ∀ c ∈ e.kind.header, ¬ Leaves p c

namespace Codegen

/-! ## Trees -/

variable {source : Source}

/-- The innermost node around a piece of code. -/
structure Owner where
  start : Nat
  stop : Nat
  isLoop : Bool

/-- At the last instruction of a loop the innermost accumulator is the one opened by its
first. -/
structure Owner.Closes (owner : Owner) (a : Nat) (opened : List Nat) : Prop where
  isLoop : owner.isLoop = true
  stop : owner.stop = a + 1
  head : opened.head? = some owner.start

/-- The accumulators that are open at labels. -/
abbrev Marks := Label → List Nat

/-- Say what is open at one label. -/
def Marks.set (marks : Marks) (l : Label) (opened : List Nat) : Marks :=
  fun m => if m = l then opened else marks m

/-- At the start of a loop the same is open before each round. Behind it, and where a round goes
on, it is what is open after the body. -/
def Marks.inLoop (marks : Marks) (before after : List Nat) : Marks :=
  ((marks.set .start before).set .again after).set .exit after

namespace Tree

/-- The accumulators that are open after the code, if no jump is taken. -/
def opened : Tree → (a : Nat) → List Nat → List Nat
  | nil, _, A | jump _ _, _, A | back, _, A => A
  | op i, a, A => i.accumulators a A
  | seq x y, a, A => y.opened (a + x.size) (x.opened a A)
  | block _ t, a, A | loop t, a, A | node _ t, a, A => t.opened a A

/-- Each jump finds the same accumulators open at its label, and there is one open where it
is used. -/
def Collects : (owner : Owner) → (marks : Marks) → (a : Nat) → List Nat → Tree → Prop
  | _, _, _, _, nil => True
  | owner, _, a, A, op i => (i = .accCollect → A ≠ []) ∧ (i = .accFlush → owner.Closes a A)
  | owner, marks, a, A, seq x y =>
    x.Collects owner marks a A ∧ y.Collects owner marks (a + x.size) (x.opened a A)
  | _, marks, _, A, jump _ l => marks l = A
  | owner, marks, a, A, block l t => t.Collects owner (marks.set l (t.opened a A)) a A
  | owner, marks, a, A, loop t => t.Collects owner (marks.inLoop A (t.opened a A)) a A
  | _, marks, _, A, back => marks .start = A
  | _, marks, a, A, node e t => t.Collects ⟨a, a + t.size, e.kind.isLoop⟩ marks a A

end Tree

/-! ## Code that keeps what is open -/

variable {p : Program} {budget : Nat} {st : Standing} {e : Expr} {kind : ExprKind} {span : Span}
  {position : Position} {k : List Constant} {c c' : Scene} {t u : Tree} {exits : Prop} {w : Spot}
  {marks : Marks} {A : List Nat} {ls : List Label}

/-- The same accumulators are open at these labels as now, and also at those of the loop around
where that may be left. -/
structure Marks.Fix (marks : Marks) (A : List Nat) (ls : List Label) (exits : Prop) : Prop where
  labels : ∀ l ∈ ls, marks l = A
  exits : exits → ∀ l ∈ loopLabels, marks l = A

theorem Marks.Fix.label (h : marks.Fix A ls exits) (l : Label) :
    (marks.set l A).Fix A (l :: ls) exits := by
  have hset {m : Label} (hm : m ≠ l → marks m = A) : marks.set l A m = A := by
    by_cases hl : m = l
    · exact if_pos hl
    · exact (if_neg hl).trans (hm hl)
  refine ⟨fun m hm => hset fun hl => ?_, fun hexits m hm => hset fun _ => h.exits hexits m hm⟩
  exact h.labels m ((List.mem_cons.mp hm).resolve_left hl)

theorem Marks.Fix.inLoop (h : ∀ l ∈ ls, marks l = A) :
    (marks.inLoop A A).Fix A (loopLabels ++ ls) exits := by
  have hmarks := (((Marks.Fix.mk h False.elim).label .start).label .again).label .exit
  have hlabels (l : Label) (hl : l ∈ loopLabels ++ ls) : marks.inLoop A A l = A :=
    hmarks.labels l (by grind)
  exact ⟨hlabels, fun _ l hl => hlabels l (List.mem_append_left _ hl)⟩

/-- A loop whose value is wanted has an accumulator. -/
def Spot.collects : Spot → Bool
  | .around .value | .inside .value => true
  | _ => false

/-- The code leaves the accumulators open that it found, and its jumps do. -/
def Tree.Keeps (exits : Prop) (w : Spot) (ls : List Label) (t : Tree) : Prop :=
  ∀ owner marks a A, Marks.Fix marks A ls (w.isInside = true ∨ exits) →
    (w.collects = true → A ≠ []) → t.Collects owner marks a A ∧ t.opened a A = A

/-- The nodes inside keep what is open, if they leave only where that does no harm. -/
structure NodeScheme.Keeps (p : Program) (node : NodeScheme) : Prop where
  code : ∀ {st e position k c t c'}, node st e position k c t c' →
    (position = .value → st = .operand ∨ EndsBody p e) → t.Keeps (Leaves p e) .plain []

theorem keeps_nil : Tree.nil.Keeps exits w ls := fun _ _ _ _ _ _ => ⟨trivial, rfl⟩

theorem Tree.Keeps.seq (ht : t.Keeps exits w ls) (hu : u.Keeps exits w ls) :
    (Tree.seq t u).Keeps exits w ls := by
  intro owner marks a A h hopen
  obtain ⟨hcollects, hsame⟩ := ht owner marks a A h hopen
  obtain ⟨hcollects', hsame'⟩ := hu owner marks (a + t.size) A h hopen
  refine ⟨⟨hcollects, ?_⟩, ?_⟩
  · rw [hsame]
    exact hcollects'
  · rw [Tree.opened, hsame, hsame']

theorem keeps_op {i : Instr} (hi : i.ofAccumulator = false) : (Tree.op i).Keeps exits w ls := by
  refine fun owner marks a A _ _ => ⟨⟨fun h => ?_, fun h => ?_⟩, i.accumulators_of_not hi a A⟩ <;>
    (rw [h] at hi; cases hi)

theorem keeps_closure {node : NodeScheme} {n : UInt8}
    (h : closureScheme node source n k c t c') : t.Keeps exits w ls := by
  obtain ⟨_, _, _, _, _, ⟨_, _, _, ⟨rfl, -⟩, ⟨rfl, -⟩, rfl⟩, ⟨rfl, -⟩, rfl⟩ := h
  exact (keeps_nil.seq keeps_nil).seq (keeps_op rfl)

/-- All code keeps what is open that is put together from nodes which do. -/
theorem keeps_analysis {node : NodeScheme} (hnode : node.Keeps p) (exits : Prop) :
    Analysis node (Ask.suited p exits) fun _ w ls t => t.Keeps exits w ls where
  nil := keeps_nil
  op {_ _ _ i} hi := keeps_op (by cases i <;> first | rfl | cases hi)
  jump hl _ _ _ _ h _ := ⟨h.labels _ hl, rfl⟩
  back hl _ _ _ _ h _ := ⟨h.labels _ hl, rfl⟩
  seq := .seq
  block {_ _ l _ t} ht owner marks a A h hopen := by
    obtain ⟨hcollects, hsame⟩ := ht owner (marks.set l A) a A (h.label l) hopen
    refine ⟨?_, hsame⟩
    rw [Tree.Collects, hsame]
    exact hcollects
  loop {_ r _ t} ht owner marks a A h hopen := by
    obtain ⟨hcollects, hsame⟩ := ht owner (marks.inLoop A A) a A (.inLoop h.labels)
      (by cases r <;> exact hopen)
    refine ⟨?_, hsame⟩
    rw [Tree.Collects, hsame]
    exact hcollects
  finish {_ r _ _ _ _} ht := by
    cases r with
    | value =>
      obtain ⟨rfl, -⟩ := ht
      exact fun _ _ _ _ _ hopen => ⟨⟨fun _ => hopen rfl, fun h => by cases h⟩, rfl⟩
    | effect =>
      obtain ⟨rfl, -⟩ := ht
      exact keeps_op rfl
  asked {_ w _ _ _ _ _ _ _} hask ht owner marks a A h _ := by
    refine hnode.code ht hask.1 owner marks a A ⟨fun _ hl => (by cases hl), fun hleaves => h.exits ?_⟩
      fun hw => by cases hw
    -- a node inside the body of a loop may leave it; elsewhere `exits` has to allow that
    cases hw : w.isInside with
    | true => exact .inl rfl
    | false => exact .inr (hask.2 hw (hleaves.resolve_left Bool.false_ne_true))
  closed _ hclosed h := by
    rw [hclosed] at h
    exact keeps_closure h
  function _ ht _ h := ht.seq (keeps_closure h)

/-! ## Nodes -/

/-- The accumulators that are open in a loop which began at an offset. -/
def Position.opened (a : Nat) (A : List Nat) : Position → List Nat
  | .value => a :: A
  | .effect => A

/-- The code of a loop up to where the accumulator is closed. -/
theorem Opening.collects (h : Opening position (Tree.Keeps exits (.around position) []) t)
    (hexits : exits → position = .effect) (owner : Owner) (a : Nat)
    (hmarks : exits → ∀ l ∈ loopLabels, marks l = A) :
    t.Collects owner marks a A ∧ t.opened a A = position.opened a A := by
  induction h with
  | start h =>
    cases position with
    | value =>
      obtain ⟨rfl, -⟩ := h
      exact ⟨⟨fun h => (by cases h), fun h => by cases h⟩, rfl⟩
    | effect =>
      obtain ⟨rfl, -⟩ := h
      exact ⟨trivial, rfl⟩
  | @seq t u _ hu ih =>
    obtain ⟨hcollects, hopened⟩ := ih
    obtain ⟨hcollects', hsame⟩ := hu owner marks (a + t.size) (position.opened a A)
      ⟨fun _ hl => (by cases hl), fun h => by
        have h := h.resolve_left Bool.false_ne_true
        rw [hexits h]
        exact hmarks h⟩ (by cases position <;> simp [Position.opened, Spot.collects])
    refine ⟨⟨hcollects, ?_⟩, ?_⟩
    · rw [hopened]
      exact hcollects'
    · rw [Tree.opened, hopened, hsame]

/-- The end of a loop closes what was opened at its beginning. -/
theorem Opening.closed (h : Opening position (Tree.Keeps exits (.around position) []) t)
    (hclose : closeAccumulatorScheme position k c u c') (hexits : exits → position = .effect)
    (a : Nat) (hmarks : exits → ∀ l ∈ loopLabels, marks l = A) :
    (Tree.seq t u).Collects ⟨a, a + (Tree.seq t u).size, true⟩ marks a A ∧
      (Tree.seq t u).opened a A = A := by
  obtain ⟨hcollects, hopened⟩ := h.collects hexits ⟨a, a + (Tree.seq t u).size, true⟩ a hmarks
  cases position with
  | value =>
    obtain ⟨rfl, -⟩ := hclose
    have hcloses : Owner.Closes ⟨a, a + (t.size + 1), true⟩ (a + t.size) (t.opened a A) :=
      ⟨rfl, rfl, by rw [hopened]; rfl⟩
    refine ⟨⟨hcollects, fun h => ?_, fun _ => hcloses⟩, ?_⟩
    · cases h
    · rw [Tree.opened, hopened]
      rfl
  | effect =>
    obtain ⟨rfl, -⟩ := hclose
    exact ⟨⟨hcollects, trivial⟩, hopened⟩

theorem keeps_nodeScheme (hp : StaysInHeaders p) : ∀ budget : Nat, (nodeScheme p budget).Keeps p
  | 0 => ⟨fun h => h.elim⟩
  | budget + 1 => by
    refine ⟨fun {st e position k c _ c'} h hwanted => ?_⟩
    obtain ⟨kind, span⟩ := e
    obtain ⟨hoccurs, _, ⟨t1, c1, t2, h1, h2, rfl⟩, rfl⟩ := h
    have hgood := keeps_analysis (keeps_nodeScheme hp budget)
    intro _ marks a A hmarks hopen
    cases hloop : kind.isLoop with
    | false =>
      have hsettle : (settleScheme (leaving kind) position).Gives (nodeScheme p budget) .plain
        (loopExits kind) ∅ := inferInstance
      have hfirst := (gives_kind hoccurs hloop).good (hgood _) subset_rfl h1
      have hrest := hsettle.good (hgood (Leaves p ⟨kind, span⟩)) (Set.empty_subset _) h2
      refine hfirst.seq hrest _ marks a A ⟨fun l hl => ?_, hmarks.exits⟩ hopen
      cases kind with
      | breakLoop => exact hmarks.exits (.inr .breaks) l hl
      | continueLoop => exact hmarks.exits (.inr .continues) l hl
      | _ => cases hl
    | true =>
      -- a header that leaves an outer loop would leave the accumulator of this one open, so no loop
      -- whose value is wanted has such a header
      have hheader : ∀ c ∈ kind.header, Leaves p c → Leaves p ⟨kind, span⟩ ∧ position = .effect := by
        intro c hc hleaves
        refine ⟨.inside (by cases kind <;> first | exact hc | cases hc) hleaves, ?_⟩
        cases position with
        | effect => rfl
        | value =>
          have hwants : Wanted p ⟨kind, span⟩ := (hwanted rfl).imp_left (by rintro rfl; exact hoccurs)
          exact absurd hleaves (hp _ hwants c hc)
      have hleaving : leaving kind = .asWanted := by cases kind <;> first | rfl | cases hloop
      rw [hleaving] at h2
      obtain ⟨rfl, -⟩ := h2
      obtain ⟨t, u, _, rfl, hopening, hclose⟩ :=
        (loops_kind hoccurs hloop hheader).good (hgood _) subset_rfl h1
      obtain ⟨hcollects, hsame⟩ := hopening.closed hclose And.right a
        fun h => hmarks.exits (.inr h.1)
      refine ⟨⟨?_, trivial⟩, hsame⟩
      rw [hloop]
      exact hcollects

theorem keeps_source (hp : StaysInHeaders p) (hsource : source.DeclaredIn p)
    (h : source.scheme (nodeScheme p budget) k c t c') : t.Keeps True .plain [] :=
  (gives_source hsource).good (keeps_analysis (keeps_nodeScheme hp budget) True) subset_rfl h

end Codegen

end Strand
