import Strand.Proofs.Analysis

/-!
# The nesting of nodes in code

The code of a node is marked in the code around it, so a tree shows which part of the
code belongs to which node, and what stands around it. Here it is shown that the marks
can be trusted: what is marked as the code of a node is what the schemes give for it, and
loops are laid down for loop nodes only. In the same way no instruction makes a closure
unless the code of the default values that it takes stands in front of it.

Both are read off from how code is put together, and only closures need an argument.
-/

namespace Strand

/-- The instruction makes a closure. -/
def Instr.isClosure : Instr → Bool
  | .closure _ _ => true
  | _ => false

namespace Codegen

open Scheme

variable {p : Program} {budget : Nat} {st : Standing} {e : Expr} {position : Position}
  {k : List Constant} {c c' : Scene} {t : Tree}

/-- The tree is the code of a node, up to the mark. -/
def CodeOfNode (p : Program) (e : Expr) (t : Tree) : Prop :=
  ∃ budget position k c c',
    (kindScheme p (nodeScheme p budget) position e.kind ++ settleScheme (leaving e.kind) position)
      k c t c'

/-- What is marked is code of its node, and there are loops only in the code of loop nodes.
Whether the code belongs to one directly is `inLoopNode`. -/
def Tree.Nested (p : Program) : (inLoopNode : Bool) → Tree → Prop
  | _, nil | _, op _ | _, jump _ _ | _, back => True
  | b, seq x y => Nested p b x ∧ Nested p b y
  | b, block _ t => Nested p b t
  | b, loop t => b = true ∧ Nested p b t
  | _, node e t => CodeOfNode p e t ∧ Nested p e.kind.isLoop t

/-- The tree is the code that makes a closure over the unit of a source. -/
def ClosureCode (p : Program) (k : List Constant) (source : Source) (t : Tree) : Prop :=
  source.DeclaredIn p ∧ ∃ budget c c', source.closed (nodeScheme p budget) k c t c'

/-- No closure is made without the default values that it takes in front of it. -/
def Tree.Supplied (p : Program) (k : List Constant) : Tree → Prop
  | nil | jump _ _ | back => True
  | op i => i.isClosure = false
  | seq x y => Supplied p k x ∧ (Supplied p k y ∨ ∃ source, ClosureCode p k source (seq x y))
  | block _ t | loop t | node _ t => Supplied p k t

/-- The code is nested, and its closures get their default values. -/
def Tree.Nests (p : Program) (k : List Constant) (inLoopNode : Bool) (t : Tree) : Prop :=
  t.Nested p inLoopNode ∧ t.Supplied p k

theorem Tree.Nests.seq {b : Bool} {u : Tree} (h : t.Nests p k b) (h' : u.Nests p k b) :
    (Tree.seq t u).Nests p k b := ⟨⟨h.1, h'.1⟩, h.2, .inl h'.2⟩

/-- The node is a loop. -/
def Spot.isLoop : Spot → Bool
  | .plain => false
  | _ => true

/-- All code nests that is put together from nodes which do. -/
theorem nests_analysis (exits : Prop)
    (hnode : ∀ {st e position k c t c'}, nodeScheme p budget st e position k c t c' →
      ∀ b, t.Nests p k b) :
    Analysis (nodeScheme p budget) (Ask.suited p exits) fun k w _ t => t.Nests p k w.isLoop where
  nil := ⟨trivial, trivial⟩
  op {_ _ _ i} hi := ⟨trivial, by cases i <;> first | rfl | cases hi⟩
  jump _ := ⟨trivial, trivial⟩
  back _ := ⟨trivial, trivial⟩
  seq := .seq
  block h := h
  loop h := ⟨⟨rfl, h.1⟩, h.2⟩
  finish {_ r _ _ _ _} h := by
    cases r <;>
    · obtain ⟨rfl, -⟩ := h
      exact ⟨trivial, rfl⟩
  asked _ h := hnode h _
  closed {k w _ source c t c'} hsource hclosed h := by
    have hcode : ClosureCode p k source t := ⟨hsource, budget, c, c', h⟩
    rw [hclosed] at h
    obtain ⟨u, i, _, _, _, ⟨_, _, _, ⟨rfl, -⟩, ⟨rfl, -⟩, rfl⟩, ⟨rfl, -⟩, rfl⟩ := h
    exact ⟨⟨⟨trivial, trivial⟩, trivial⟩, ⟨trivial, .inl trivial⟩, .inr ⟨source, hcode⟩⟩
  function {k w _ decl kind c t t' c1 c'} hdecl h hvalues hclosure := by
    have hcode : ClosureCode p k (.function decl kind) (.seq t t') :=
      ⟨hdecl, budget, c, c', t, c1, t', hvalues, hclosure, rfl⟩
    -- the closure is not supplied by the second half alone, so it is kept as a whole
    obtain ⟨u, i, _, _, _, ⟨_, _, _, ⟨rfl, -⟩, ⟨rfl, -⟩, rfl⟩, ⟨rfl, -⟩, rfl⟩ := hclosure
    exact ⟨⟨h.1, ⟨trivial, trivial⟩, trivial⟩, h.2, .inr ⟨_, hcode⟩⟩

theorem Opening.nests (h : Opening position (Tree.Nests p k true) t) : t.Nests p k true := by
  induction h with
  | start h =>
    cases position <;>
    · obtain ⟨rfl, -⟩ := h
      exact ⟨trivial, by first | rfl | trivial⟩
  | seq _ h' ih => exact ih.seq h'

theorem nests_close (h : closeAccumulatorScheme position k c t c') : t.Nests p k true := by
  cases position <;>
  · obtain ⟨rfl, -⟩ := h
    exact ⟨trivial, by first | rfl | trivial⟩

/-- By induction on the budget, all code of a node nests, wherever the node stands. -/
theorem nests_nodeScheme (p : Program) : ∀ (budget : Nat) {st : Standing} {e : Expr}
    {position : Position} {k : List Constant} {c : Scene} {t : Tree} {c' : Scene},
    nodeScheme p budget st e position k c t c' → ∀ b, t.Nests p k b
  | budget + 1, st, ⟨kind, span⟩, position, k, c, _, c', ⟨hoccurs, _, h, rfl⟩, b => by
    have hgood (exits : Prop) := nests_analysis exits (nests_nodeScheme p budget)
    have hcode : CodeOfNode p ⟨kind, span⟩ _ := ⟨budget, position, k, c, c', h⟩
    suffices hnests : Tree.Nests p k kind.isLoop _ from ⟨⟨hcode, hnests.1⟩, hnests.2⟩
    obtain ⟨t1, c1, t2, h1, h2, rfl⟩ := h
    have hsettle (w : Spot) : (settleScheme (leaving kind) position).Gives (nodeScheme p budget)
      w [] ∅ := inferInstance
    have hrest (w : Spot) : t2.Nests p k w.isLoop :=
      (hsettle w).good (hgood True) (Set.empty_subset _) h2
    cases hloop : kind.isLoop with
    | false =>
      have hfirst := (gives_kind hoccurs hloop).good (hgood _) subset_rfl h1
      exact hfirst.seq (hrest .plain)
    | true =>
      obtain ⟨t, u, _, rfl, hopen, hclose⟩ :=
        (loops_kind hoccurs hloop fun _ _ _ => trivial).good (hgood True) subset_rfl h1
      exact (hopen.nests.seq (nests_close hclose)).seq (hrest (.around position))

/-- So does all code of a unit, which stands outside of all loops. -/
theorem nests_source {source : Source} (hsource : source.DeclaredIn p)
    (h : source.scheme (nodeScheme p budget) k c t c') : t.Nests p k false :=
  (gives_source hsource).good (nests_analysis True (nests_nodeScheme p budget)) subset_rfl h

end Codegen

end Strand
