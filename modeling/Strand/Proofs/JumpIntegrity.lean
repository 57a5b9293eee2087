import Strand.Proofs.Nesting
import Strand.Proofs.StackHeight
import Strand.Proofs.Translation.Program

/-!
# Where jumps land

In a finished unit every jump has been aimed. A forward jump lands further on in the same
unit, and a jump back at the start of the loop that it belongs to; `break` and `continue`
go to the innermost loop around them, and no path runs past the end, because the last
instruction returns.

What stands around an instruction is read off the layout of the unit, the tree that its
code was laid down from. `Tree.parts` lists all parts of a tree with the node and the loop
around each, and every part stands in the code with the labels of that loop.
-/

namespace Strand

variable {i : Instr}

theorem Instr.forwardDistance_of_not_jump (h : i.isJump = false) : i.forwardDistance? = none := by
  cases i <;> first | rfl | cases h

namespace Codegen

variable {o : Nat} {t : Tree} {l : Label} {u : CodeUnit}

/-! ## Parts of a tree -/

/-- Where a loop is in the code, and the node that it is the loop of. -/
structure LoopPlace where
  node : Option Expr
  start : Nat
  /-- Where `continue` goes on, if it does not go back to the start. -/
  again : Nat
  exit : Nat

/-- The innermost node and the innermost loop around a part of the code. -/
structure Surroundings where
  node : Option Expr := none
  loop : Option LoopPlace := none

namespace Surroundings

/-- One node further in. -/
def inNode (s : Surroundings) (e : Expr) : Surroundings := { s with node := some e }

/-- One loop further in, which belongs to the node around it. -/
def inLoop (s : Surroundings) (start stop : Nat) : Surroundings :=
  { s with loop := some { node := s.node, start, again := stop, exit := stop } }

/-- A block may say where the loop goes on. -/
def inBlock (s : Surroundings) (l : Label) (stop : Nat) : Surroundings :=
  if l = .again then { s with loop := s.loop.map fun x => { x with again := stop } } else s

end Surroundings

/-- A part of the code: where it stands, what is around it, and the tree that it is. -/
structure Part where
  around : Surroundings
  offset : Nat
  tree : Tree

namespace Tree

/-- All parts of a tree that stands at an offset. -/
def parts (s : Surroundings) (a : Nat) : Tree → List Part
  | nil => [⟨s, a, nil⟩]
  | op i => [⟨s, a, op i⟩]
  | jump k l => [⟨s, a, jump k l⟩]
  | back => [⟨s, a, back⟩]
  | seq x y => ⟨s, a, seq x y⟩ :: (x.parts s a ++ y.parts s (a + x.size))
  | block l t => ⟨s, a, block l t⟩ :: t.parts (s.inBlock l (a + t.size)) a
  | loop t => ⟨s, a, loop t⟩ :: t.parts (s.inLoop a (a + t.size)) a
  | node e t => ⟨s, a, node e t⟩ :: t.parts (s.inNode e) a

/-- Single instructions. -/
def isLeaf : Tree → Bool
  | op _ | jump _ _ | back => true
  | _ => false

theorem mem_parts_self (s : Surroundings) (a : Nat) (t : Tree) : ⟨s, a, t⟩ ∈ t.parts s a := by
  cases t <;> simp [parts]

/-- There is an instruction at every offset of the tree. -/
theorem exists_leaf : ∀ {t : Tree} (s : Surroundings) {a : Nat}, a ≤ o → o < a + t.size →
    ∃ q ∈ t.parts s a, q.offset = o ∧ q.tree.isLeaf = true
  | nil, _, _, hlo, hhi => by
    simp only [size] at hhi
    omega
  | op i, s, a, hlo, hhi => by
    obtain rfl : o = a := by simp only [size] at hhi; omega
    exact ⟨_, mem_parts_self .., rfl, rfl⟩
  | jump k l, s, a, hlo, hhi => by
    obtain rfl : o = a := by simp only [size] at hhi; omega
    exact ⟨_, mem_parts_self .., rfl, rfl⟩
  | back, s, a, hlo, hhi => by
    obtain rfl : o = a := by simp only [size] at hhi; omega
    exact ⟨_, mem_parts_self .., rfl, rfl⟩
  | seq x y, s, a, hlo, hhi => by
    simp only [size] at hhi
    rcases Nat.lt_or_ge o (a + x.size) with ho | ho
    · obtain ⟨q, hq, hleaf⟩ := exists_leaf s hlo ho
      exact ⟨q, .tail _ (List.mem_append_left _ hq), hleaf⟩
    · obtain ⟨q, hq, hleaf⟩ := exists_leaf (t := y) s ho (by omega)
      exact ⟨q, .tail _ (List.mem_append_right _ hq), hleaf⟩
  | block l t, s, a, hlo, hhi => by
    obtain ⟨q, hq, hleaf⟩ := exists_leaf (t := t) (s.inBlock l (a + t.size)) hlo hhi
    exact ⟨q, .tail _ hq, hleaf⟩
  | loop t, s, a, hlo, hhi => by
    obtain ⟨q, hq, hleaf⟩ := exists_leaf (t := t) (s.inLoop a (a + t.size)) hlo hhi
    exact ⟨q, .tail _ hq, hleaf⟩
  | node e t, s, a, hlo, hhi => by
    obtain ⟨q, hq, hleaf⟩ := exists_leaf (t := t) (s.inNode e) hlo hhi
    exact ⟨q, .tail _ hq, hleaf⟩

/-- How far the code goes at the end of which a label may be. -/
def reach : Tree → Nat
  | nil | op _ | jump _ _ | back => 0
  | seq x y => max x.reach (x.size + y.reach)
  | block _ t | loop t => t.size
  | node _ t => t.reach

theorem reach_le_size : ∀ t : Tree, t.reach ≤ t.size
  | nil | op _ | jump _ _ | back | block _ _ | loop _ => by simp [reach, size]
  | seq x y => by
    have := reach_le_size x
    have := reach_le_size y
    simp only [reach, size]
    omega
  | node _ t => reach_le_size t

end Tree

/-! ## Where parts stand -/

/-- The labels of the loop around are where the loop says. -/
structure Surroundings.Agrees (s : Surroundings) (sites : Sites) : Prop where
  start : sites .start = s.loop.map LoopPlace.start
  again : sites .again = s.loop.map LoopPlace.again
  exit : sites .exit = s.loop.map LoopPlace.exit

namespace Surroundings.Agrees

variable {s : Surroundings} {sites : Sites}

theorem inBlock (h : s.Agrees sites) (hl : sites.Admits l) (o : Nat) :
    (s.inBlock l o).Agrees (sites.set l o) := by
  unfold Surroundings.inBlock
  split
  · rename_i hagain
    subst hagain
    -- there is a loop, or nothing could be done again
    have hloop := hl.again rfl
    rw [h.start] at hloop
    obtain ⟨x, hx⟩ : ∃ x, s.loop = some x :=
      Option.ne_none_iff_exists'.mp fun hnone => hloop (by rw [hnone]; rfl)
    have hstart := h.start
    have hexit := h.exit
    rw [hx] at hstart hexit ⊢
    exact ⟨hstart, rfl, hexit⟩
  · rename_i hagain
    exact
      { start := by rw [Sites.set_of_ne (Ne.symm hl.ne_start), h.start]
        again := by rw [Sites.set_of_ne (Ne.symm hagain), h.again]
        exit := by rw [Sites.set_of_ne (Ne.symm hl.ne_exit), h.exit] }

theorem loop_of_start (h : s.Agrees sites) (ho : sites .start = some o) :
    ∃ l, s.loop = some l ∧ l.start = o :=
  Option.map_eq_some_iff.mp (h.start.symm.trans ho)

theorem loop_of_again (h : s.Agrees sites) (ho : sites .again = some o) :
    ∃ l, s.loop = some l ∧ l.again = o :=
  Option.map_eq_some_iff.mp (h.again.symm.trans ho)

theorem loop_of_exit (h : s.Agrees sites) (ho : sites .exit = some o) :
    ∃ l, s.loop = some l ∧ l.exit = o :=
  Option.map_eq_some_iff.mp (h.exit.symm.trans ho)

end Surroundings.Agrees

/-- What is known of a part of the code of a unit, with the labels around it at `sites`.
No label is further than `bound`. -/
structure Part.Stands (p : Program) (code : Array Instr) (bound : Nat) (q : Part) (sites : Sites)
    (inLoopNode : Bool) : Prop where
  code : q.tree.At code sites q.offset
  closed : ∀ l, sites l = none → q.tree.uses l q.offset = []
  agrees : q.around.Agrees sites
  bounded : ∀ l o, sites l = some o → o ≤ bound
  reach : q.offset + q.tree.reach ≤ bound
  nested : q.tree.Nested p inLoopNode
  inLoop : inLoopNode = true → ∃ e, q.around.node = some e ∧ e.kind.isLoop = true
  loopNode : ∀ l, q.around.loop = some l → ∃ e, l.node = some e ∧ e.kind.isLoop = true

namespace Part.Stands

variable {p : Program} {code : Array Instr} {bound a : Nat} {s : Surroundings} {sites : Sites}
  {b : Bool}

/-! One lemma for each way to go from a part to a part of it. -/

theorem first {x y : Tree} (h : Part.Stands p code bound ⟨s, a, .seq x y⟩ sites b) :
    Part.Stands p code bound ⟨s, a, x⟩ sites b where
  code := h.code.1
  closed l hl := (List.append_eq_nil_iff.mp (h.closed l hl)).1
  agrees := h.agrees
  bounded := h.bounded
  reach := by
    have := h.reach
    simp only [Tree.reach] at this ⊢
    omega
  nested := h.nested.1
  inLoop := h.inLoop
  loopNode := h.loopNode

theorem second {x y : Tree} (h : Part.Stands p code bound ⟨s, a, .seq x y⟩ sites b) :
    Part.Stands p code bound ⟨s, a + x.size, y⟩ sites b where
  code := h.code.2
  closed l hl := (List.append_eq_nil_iff.mp (h.closed l hl)).2
  agrees := h.agrees
  bounded := h.bounded
  reach := by
    have := h.reach
    simp only [Tree.reach] at this ⊢
    omega
  nested := h.nested.2
  inLoop := h.inLoop
  loopNode := h.loopNode

theorem inBlock (h : Part.Stands p code bound ⟨s, a, .block l t⟩ sites b) :
    Part.Stands p code bound ⟨s.inBlock l (a + t.size), a, t⟩ (sites.set l (a + t.size)) b where
  code := h.code.2
  closed m hm := by
    have hne : m ≠ l := by
      rintro rfl
      rw [Sites.set_self] at hm
      cases hm
    rw [Sites.set_of_ne hne] at hm
    have hnone := h.closed m hm
    rwa [Tree.uses, if_neg (Ne.symm hne)] at hnone
  agrees := h.agrees.inBlock h.code.1 _
  bounded m o hm := by
    by_cases hne : m = l
    · rw [hne, Sites.set_self, Option.some.injEq] at hm
      exact hm ▸ h.reach
    · rw [Sites.set_of_ne hne] at hm
      exact h.bounded m o hm
  reach := Nat.le_trans (Nat.add_le_add_left t.reach_le_size a) h.reach
  nested := h.nested
  inLoop hb := by
    unfold Surroundings.inBlock
    split <;> exact h.inLoop hb
  loopNode x hx := by
    unfold Surroundings.inBlock at hx
    split at hx
    · obtain ⟨y, hy, rfl⟩ := Option.map_eq_some_iff.mp hx
      exact h.loopNode y hy
    · exact h.loopNode x hx

theorem inside (h : Part.Stands p code bound ⟨s, a, .loop t⟩ sites b) :
    Part.Stands p code bound ⟨s.inLoop a (a + t.size), a, t⟩ (sites.inLoop a (a + t.size)) b where
  code := h.code
  closed m hm := by
    obtain ⟨hout, hm⟩ := Sites.of_inLoop_none hm
    have hnone := h.closed m hm
    rwa [Tree.uses, if_neg (by rw [hout]; exact Bool.false_ne_true)] at hnone
  agrees := ⟨rfl, rfl, rfl⟩
  bounded m o hm := by
    have hend : a + t.size ≤ bound := h.reach
    rcases Sites.of_inLoop_some hm with rfl | rfl | hm
    · omega
    · exact hend
    · exact h.bounded m o hm
  reach := Nat.le_trans (Nat.add_le_add_left t.reach_le_size a) h.reach
  nested := h.nested.2
  inLoop := h.inLoop
  loopNode := by
    rintro _ ⟨⟩
    exact h.inLoop h.nested.1

theorem marked {e : Expr} (h : Part.Stands p code bound ⟨s, a, .node e t⟩ sites b) :
    Part.Stands p code bound ⟨s.inNode e, a, t⟩ sites e.kind.isLoop where
  code := h.code
  closed := h.closed
  agrees := ⟨h.agrees.start, h.agrees.again, h.agrees.exit⟩
  bounded := h.bounded
  reach := h.reach
  nested := h.nested.2
  inLoop hb := ⟨e, rfl, hb⟩
  loopNode := h.loopNode

/-- All parts of a tree stand in the code if the tree does. -/
theorem parts : ∀ {t : Tree} {s : Surroundings} {a : Nat} {sites : Sites} {b : Bool},
    Part.Stands p code bound ⟨s, a, t⟩ sites b →
      ∀ q ∈ t.parts s a, ∃ sites' b', q.Stands p code bound sites' b'
  | .nil, _, _, _, _, h, q, hq | .op _, _, _, _, _, h, q, hq | .jump _ _, _, _, _, _, h, q, hq
  | .back, _, _, _, _, h, q, hq => by
    cases List.mem_singleton.mp hq
    exact ⟨_, _, h⟩
  | .seq x y, _, _, _, _, h, q, hq => by
    rcases List.mem_cons.mp hq with rfl | hq
    · exact ⟨_, _, h⟩
    · rcases List.mem_append.mp hq with hq | hq
      · exact parts h.first q hq
      · exact parts h.second q hq
  | .block l t, _, _, _, _, h, q, hq => by
    rcases List.mem_cons.mp hq with rfl | hq
    · exact ⟨_, _, h⟩
    · exact parts h.inBlock q hq
  | .loop t, _, _, _, _, h, q, hq => by
    rcases List.mem_cons.mp hq with rfl | hq
    · exact ⟨_, _, h⟩
    · exact parts h.inside q hq
  | .node e t, _, _, _, _, h, q, hq => by
    rcases List.mem_cons.mp hq with rfl | hq
    · exact ⟨_, _, h⟩
    · exact parts h.marked q hq

/-- A forward jump has been aimed at the site of its label. -/
theorem aimed {k : JumpKind} (h : Part.Stands p code bound ⟨s, a, .jump k l⟩ sites b) :
    ∃ t d, sites l = some t ∧ code[a]? = some (k.instr d) ∧ d ≠ Instr.unpatched ∧
      jumpTarget? code a = some t ∧ a < t ∧ t ≤ bound := by
  have hcode := h.code
  rw [Tree.At] at hcode
  cases hsite : sites l with
  | none => simpa [Tree.uses] using h.closed l hsite
  | some t =>
    rw [hsite] at hcode
    obtain ⟨d, hcode, hd, rfl⟩ := hcode
    exact ⟨_, d, rfl, hcode, hd, jumpTarget_of_forward hcode,
      Nat.lt_of_lt_of_le (Nat.lt_succ_self a) (Nat.le_add_right ..), h.bounded l _ hsite⟩

/-- A jump back goes to the start of the loop around it. -/
theorem goesBack (h : Part.Stands p code bound ⟨s, a, .back⟩ sites b) :
    ∃ l d, s.loop = some l ∧ code[a]? = some (.loop d) ∧ jumpTarget? code a = some l.start ∧
      l.start ≤ a := by
  obtain ⟨t, d, hsite, hcode, ht, hle⟩ := h.code
  obtain ⟨l, hl, rfl⟩ := h.agrees.loop_of_start hsite
  exact ⟨l, d, hl, hcode, jumpTarget_of_back hcode ht, hle⟩

/-- The code of `break` jumps to the exit of the loop around it. -/
theorem leavesLoop {span : Span}
    (h : Part.Stands p code bound ⟨s, a, .node ⟨.breakLoop, span⟩ t⟩ sites b) :
    ∃ l o d, s.loop = some l ∧ a ≤ o ∧ o < a + t.size ∧ code[o]? = some (.jump d) ∧
      jumpTarget? code o = some l.exit := by
  obtain ⟨budget, position, k, c, c', hcode⟩ := h.nested.1
  -- the code takes values off the stack and jumps
  obtain ⟨_, _, _, ⟨_, _, _, _, ⟨pops, _, _, _, ⟨rfl, -⟩, rfl⟩, ⟨rfl, -⟩, rfl⟩, -, rfl⟩ := hcode
  obtain ⟨_, d, hsite, hinstr, -, htarget, -, -⟩ := h.marked.first.first.second.aimed
  obtain ⟨l, hl, rfl⟩ := h.agrees.loop_of_exit hsite
  refine ⟨l, _, d, hl, Nat.le_add_right .., ?_, hinstr, htarget⟩
  simp only [Tree.size]
  omega

/-- The code of `continue` jumps to where the loop around it goes on, or back to its
start. -/
theorem repeatsLoop {span : Span}
    (h : Part.Stands p code bound ⟨s, a, .node ⟨.continueLoop, span⟩ t⟩ sites b) :
    ∃ l o d, s.loop = some l ∧ a ≤ o ∧ o < a + t.size ∧
      (code[o]? = some (.jump d) ∧ jumpTarget? code o = some l.again ∨
        code[o]? = some (.loop d) ∧ jumpTarget? code o = some l.start) := by
  obtain ⟨budget, position, k, c, c', hcode⟩ := h.nested.1
  obtain ⟨_, _, _, ⟨_, _, _, _, ⟨pops, _, _, _, hjump, rfl⟩, ⟨rfl, -⟩, rfl⟩, -, rfl⟩ := hcode
  have hstands := h.marked.first.first.second
  split at hjump
  · obtain ⟨rfl, -⟩ := hjump
    obtain ⟨l, d, hl, hinstr, htarget, -⟩ := hstands.goesBack
    refine ⟨l, _, d, hl, Nat.le_add_right .., ?_, .inr ⟨hinstr, htarget⟩⟩
    simp only [Tree.size]
    omega
  · obtain ⟨rfl, -⟩ := hjump
    obtain ⟨_, d, hsite, hinstr, -, htarget, -, -⟩ := hstands.aimed
    obtain ⟨l, hl, rfl⟩ := h.agrees.loop_of_again hsite
    refine ⟨l, _, d, hl, Nat.le_add_right .., ?_, .inl ⟨hinstr, htarget⟩⟩
    simp only [Tree.size]
    omega

end Part.Stands

/-! ## Units -/

/-- The tree that the code of a unit was laid down from: the code of a source of the
program, as the schemes give it. -/
structure LaidOut (p : Program) (u : CodeUnit) (layout : Tree) : Prop where
  source : ∃ (budget : Nat) (source : Source) (c' : Scene),
    source.DeclaredIn p ∧ u.header = source.header ∧
      source.scheme (nodeScheme p budget) u.constants (Scene.start source.kind) layout c'
  code : layout.At u.code .none 0
  size : layout.size = u.code.size
  closed : ∀ l, layout.uses l 0 = []

theorem Translated.laidOut {p : Program} (h : Translated p u) : ∃ layout, LaidOut p u layout := by
  obtain ⟨budget, source, hsource, hheader, t, c', hscheme, hcode, hsize, hclosed⟩ := h
  exact ⟨t, ⟨budget, source, c', hsource, hheader, hscheme⟩, hcode, hsize, hclosed⟩

/-- The code of a source ends with a return, and no label is behind it. -/
theorem ends_source {node : NodeScheme} {source : Source} {k : List Constant} {c c' : Scene}
    (h : source.scheme node k c t c') :
    t.reach < t.size ∧ ∀ code sites a, t.At code sites a → code[a + (t.size - 1)]? = some .ret := by
  cases source with
  | function decl kind =>
    -- the parameters are in front of the body, so the return is one level further in
    obtain ⟨x, _, _, -, ⟨y, _, _, -, ⟨rfl, -⟩, rfl⟩, rfl⟩ := h
    have := x.reach_le_size
    have := y.reach_le_size
    refine ⟨by simp only [Tree.reach, Tree.size]; omega, fun code sites a hat => ?_⟩
    have hret := hat.2.2.1
    simp only [Tree.size]
    rwa [show a + (x.size + (y.size + 1) - 1) = a + x.size + y.size by omega]
  | main body | scope body | switch _ _ _ | patternMatch _ _ _ =>
    obtain ⟨x, _, _, -, ⟨rfl, -⟩, rfl⟩ := h
    have := x.reach_le_size
    refine ⟨by simp only [Tree.reach, Tree.size]; omega, fun code sites a hat => ?_⟩
    have hret := hat.2.1
    simp only [Tree.size]
    rwa [show a + (x.size + 1 - 1) = a + x.size by omega]

/-- The whole of a layout stands in the code of its unit, with every label in front of the
last instruction. -/
theorem LaidOut.stands {p : Program} {layout : Tree} (h : LaidOut p u layout) :
    Part.Stands p u.code (u.code.size - 1) ⟨{}, 0, layout⟩ .none false := by
  obtain ⟨budget, source, c', hsource, -, hscheme⟩ := h.source
  have hends := (ends_source hscheme).1
  have hsize := h.size
  exact
    { code := h.code
      closed := fun l _ => h.closed l
      agrees := ⟨rfl, rfl, rfl⟩
      bounded := nofun
      reach := by
        rw [Nat.zero_add]
        show layout.reach ≤ _
        omega
      nested := (nests_source hsource hscheme).1
      inLoop := nofun
      loopNode := nofun }


end Codegen

open Codegen

/-- The jumps of a unit land where they should, its layout being given. -/
structure CodeUnit.JumpsLand (u : CodeUnit) (layout : Tree) : Prop where
  /-- No forward jump has the distance that stands for none. -/
  aimed : ∀ (o : Nat) (i : Instr), u.code[o]? = some i → i.forwardDistance? ≠ some Instr.unpatched
  forward : ∀ (o : Nat) (i : Instr), u.code[o]? = some i → i.forwardDistance?.isSome = true →
    ∃ t, jumpTarget? u.code o = some t ∧ o < t ∧ t < u.code.size
  /-- A jump back goes to the start of the innermost loop around it. -/
  back : ∀ (o : Nat) (d : UInt32), u.code[o]? = some (.loop d) →
    ∃ s l, ⟨s, o, .back⟩ ∈ layout.parts {} 0 ∧ s.loop = some l ∧
      jumpTarget? u.code o = some l.start ∧ l.start ≤ o
  /-- In the code of `break` there is a jump to the exit of the innermost loop. -/
  breaks : ∀ s a span t, ⟨s, a, .node ⟨.breakLoop, span⟩ t⟩ ∈ layout.parts {} 0 →
    ∃ l o d, s.loop = some l ∧ a ≤ o ∧ o < a + t.size ∧ u.code[o]? = some (.jump d) ∧
      jumpTarget? u.code o = some l.exit
  /-- In the code of `continue` there is a jump to where the innermost loop goes on; only
  one back goes to its start. -/
  continues : ∀ s a span t, ⟨s, a, .node ⟨.continueLoop, span⟩ t⟩ ∈ layout.parts {} 0 →
    ∃ l o d, s.loop = some l ∧ a ≤ o ∧ o < a + t.size ∧
      (u.code[o]? = some (.jump d) ∧ jumpTarget? u.code o = some l.again ∨
        u.code[o]? = some (.loop d) ∧ jumpTarget? u.code o = some l.start)
  /-- Every loop in the code is that of a loop node. -/
  loops : ∀ q ∈ layout.parts {} 0, ∀ l, q.around.loop = some l →
    ∃ e, l.node = some e ∧ e.kind.isLoop = true
  last : u.code.back? = some .ret

namespace Codegen

section

variable {p : Program} {u : CodeUnit} {layout : Tree}

/-- The instruction at an offset is a part of the layout. -/
theorem LaidOut.leafAt (h : LaidOut p u layout) (hi : u.code[o]? = some i) :
    ∃ s t, ⟨s, o, t⟩ ∈ layout.parts {} 0 ∧ t.isLeaf = true ∧
      ∃ sites b, Part.Stands p u.code (u.code.size - 1) ⟨s, o, t⟩ sites b := by
  have ho : o < u.code.size := (Array.getElem?_eq_some_iff.mp hi).1
  obtain ⟨⟨s, o', t⟩, hq, rfl, hleaf⟩ := Tree.exists_leaf (t := layout) {} (Nat.zero_le o)
    (by rw [Nat.zero_add, h.size]; exact ho)
  exact ⟨s, t, hq, hleaf, h.stands.parts _ hq⟩

/-- Forward jumps are aimed at a place in front of them, inside the unit. -/
theorem LaidOut.forward (h : LaidOut p u layout) {n : UInt32}
    (hi : u.code[o]? = some i) (hn : i.forwardDistance? = some n) :
    n ≠ Instr.unpatched ∧ ∃ t, jumpTarget? u.code o = some t ∧ o < t ∧ t < u.code.size := by
  have hsize : o < u.code.size := (Array.getElem?_eq_some_iff.mp hi).1
  obtain ⟨s, t, -, hleaf, sites, b, hstands⟩ := h.leafAt hi
  cases t with
  | jump k l =>
    obtain ⟨target, d, -, hcode, hd, htarget, hlt, hle⟩ := hstands.aimed
    cases hi.symm.trans hcode
    rw [Tree.forwardDistance_instr, Option.some.injEq] at hn
    subst hn
    exact ⟨hd, target, htarget, hlt, by omega⟩
  | op j =>
    -- what is laid down as a plain instruction is none that jumps
    obtain ⟨hcode, hplain⟩ := hstands.code
    cases hi.symm.trans hcode
    rw [Instr.forwardDistance_of_not_jump hplain] at hn
    cases hn
  | back =>
    obtain ⟨l, d, -, hcode, -⟩ := hstands.goesBack
    cases hi.symm.trans hcode
    cases hn
  | _ => cases hleaf

/-- A jump back is where the layout has one. -/
theorem LaidOut.back (h : LaidOut p u layout) {n : UInt32} (hi : u.code[o]? = some (.loop n)) :
    ∃ s l, ⟨s, o, .back⟩ ∈ layout.parts {} 0 ∧ s.loop = some l ∧
      jumpTarget? u.code o = some l.start ∧ l.start ≤ o := by
  obtain ⟨s, t, hq, hleaf, sites, b, hstands⟩ := h.leafAt hi
  cases t with
  | back =>
    obtain ⟨l, d, hl, -, htarget, hle⟩ := hstands.goesBack
    exact ⟨s, l, hq, hl, htarget, hle⟩
  | op j =>
    obtain ⟨hcode, hplain⟩ := hstands.code
    cases hi.symm.trans hcode
    cases hplain
  | jump k l =>
    obtain ⟨_, d, -, hcode, -⟩ := hstands.aimed
    have hforward := Tree.forwardDistance_instr k d
    rw [← Option.some.inj (hi.symm.trans hcode)] at hforward
    cases hforward
  | _ => cases hleaf

theorem LaidOut.jumpsLand (h : LaidOut p u layout) : u.JumpsLand layout where
  aimed o i hi hn := (h.forward hi hn).1 rfl
  forward o i hi hsome := by
    obtain ⟨n, hn⟩ := Option.isSome_iff_exists.mp hsome
    exact (h.forward hi hn).2
  back o d hi := h.back hi
  breaks s a span t hq := by
    obtain ⟨sites, b, hstands⟩ := h.stands.parts _ hq
    exact hstands.leavesLoop
  continues s a span t hq := by
    obtain ⟨sites, b, hstands⟩ := h.stands.parts _ hq
    exact hstands.repeatsLoop
  loops q hq l hl := by
    obtain ⟨sites, b, hstands⟩ := h.stands.parts q hq
    exact hstands.loopNode l hl
  last := by
    obtain ⟨budget, source, c', -, -, hscheme⟩ := h.source
    have hret := (ends_source hscheme).2 _ _ _ h.code
    rwa [Nat.zero_add, h.size] at hret

end

end Codegen

/-- In every unit of a compiled module every jump has been aimed and lands where it
should, and the last instruction returns. -/
theorem compile_jumpsLand {p : Program} {o : Options} {m : Module} (h : compile p o = .ok m) :
    ∀ u ∈ m.units, ∃ layout, LaidOut p u layout ∧ u.JumpsLand layout := by
  intro u hu
  obtain ⟨layout, hlayout⟩ := ((compile_translated h).2 u hu).laidOut
  exact ⟨layout, hlayout, hlayout.jumpsLand⟩

/-- A loop in a loop. The inner one is left and repeated, and the outer one goes on from
its condition. -/
def nestedLoops : Program :=
  let node (kind : ExprKind) : Expr := ⟨kind, .zero⟩
  let inner := node (.whileLoop (node (.bool true))
    [node (.cond [⟨node (.bool true), [node .breakLoop]⟩] (some [node .continueLoop]))])
  ⟨[node (.doWhile [inner, node (.cond [⟨node (.bool true), [node .continueLoop]⟩] none)]
    (node (.bool false)))]⟩

theorem compile_jumpsLand_nestedLoops : ∃ m, compile nestedLoops {} = .ok m ∧
    [6, 10, 18].map (jumpTarget? m.main.code) = [some 15, some 0, some 24] ∧
    ∀ u ∈ m.units, ∃ layout, LaidOut nestedLoops u layout ∧ u.JumpsLand layout := by
  have hcode : (compile nestedLoops {}).toOption.map
      (fun m => [6, 10, 18].map (jumpTarget? m.main.code)) = some [some 15, some 0, some 24] := by
    decide +kernel
  cases hm : compile nestedLoops {} with
  | error e =>
    rw [hm] at hcode
    cases hcode
  | ok m =>
    rw [hm] at hcode
    exact ⟨m, rfl, Option.some.inj hcode, compile_jumpsLand hm⟩

end Strand
