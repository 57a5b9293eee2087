import Mathlib.Data.List.Nodup
import Strand.Proofs.FirstOperands
import Strand.Proofs.Scheme
import Strand.Proofs.StackHeight

/-!
# Balanced schemes

Rules for showing that the code of a scheme is balanced, one for each way of putting
schemes together. They speak of the height by how far it lies above that of a scene in
which a construct began: `Moves levels c n m x` says that `x` takes a stack with `n`
values above the height of `c` to one with `m`. All else that code depends on stays as
it was in `c`, except that locals may be marked as dropped.

Code that control does not leave at its end is said to stop. What follows such code may
start at any height, which is what makes it sound that the height is set there.
-/

namespace Strand

variable {i : Instr} {name : String} {slot : UInt16} {α : Type}

namespace Codegen

variable {r : Resident} {kind : JumpKind} {c' : Scene}

/-! ## Scenes -/

namespace Scene

variable {c : Scene} {new : List (Nat × Resident)}

/-- Depth, name and slot of each local. -/
def shape (c : Scene) : List (Nat × Resident) := c.locals.map fun v => (v.depth, ⟨v.name, v.slot⟩)

/-- The slots of some locals. -/
def slotsOf (locals : List (Nat × Resident)) : List UInt16 := locals.map fun e => e.2.slot

/-- The stack as the scene has it. -/
def view (c : Scene) : View := ⟨c.height, c.shape.map Prod.snd⟩

/-- The same with `n` values more. -/
def above (c : Scene) (n : Nat) : View := { c.view with height := c.height + n }

/-- From `c` to `c'` locals were added, and else only the height has changed. -/
structure Extends (c : Scene) (new : List (Nat × Resident)) (c' : Scene) : Prop where
  kind : c'.kind = c.kind
  depth : c'.depth = c.depth
  loop : c'.loop = c.loop
  shape : c'.shape = new ++ c.shape

/-- There are `n` values more on the stack, none of them a local. -/
structure Pushes (c : Scene) (n : Nat) (c' : Scene) : Prop where
  extends_ : c.Extends [] c'
  height : c'.height = c.height + n

/-- The innermost block has `k` locals more, which lie above the stack of `c`, each in a slot
of its own. -/
def Locals (c : Scene) (k : Nat) (c' : Scene) : Prop :=
  ∃ new, new.length = k ∧ c.Extends new c' ∧ (slotsOf new).Nodup ∧
    ∀ e ∈ new, e.1 = c.depth ∧ c.height ≤ e.2.slot.toNat ∧ e.2.slot.toNat < c.height + k

/-- There are `k` locals more, and `n` values above them. -/
structure Adds (c : Scene) (k n : Nat) (c' : Scene) : Prop where
  locals : c.Locals k c'
  height : c'.height = c.height + k + n

/-- There may be more locals, and above them are `n` values. -/
def Grows (c : Scene) (n : Nat) (c' : Scene) : Prop := ∃ k, c.Adds k n c'

/-- Locals lie on the stack, each in a slot of its own and in order of their blocks, and so
does the loop. -/
structure Tidy (c : Scene) : Prop where
  pos : 0 < c.height
  slots : ∀ e ∈ c.shape, e.2.slot.toNat < c.height
  nodup : (slotsOf c.shape).Nodup
  depths : ∀ e ∈ c.shape, e.1 ≤ c.depth
  loop : ∀ l, c.loop = some l → 0 < l.baseHeight ∧ l.baseHeight ≤ c.height

namespace Extends

variable {c c' c'' : Scene} {new new' : List (Nat × Resident)}

theorem refl (c : Scene) : c.Extends [] c := ⟨rfl, rfl, rfl, rfl⟩

theorem trans (h : c.Extends new c') (h' : c'.Extends new' c'') : c.Extends (new' ++ new) c'' :=
  ⟨h'.kind.trans h.kind, h'.depth.trans h.depth, h'.loop.trans h.loop,
    by rw [h'.shape, h.shape, List.append_assoc]⟩

theorem setHeight (h : c.Extends new c') (n : Nat) : c.Extends new (c'.setHeight n) :=
  ⟨h.kind, h.depth, h.loop, h.shape⟩

theorem emit (h : c.Extends new c') (i : Instr) : c.Extends new (c'.emit i) :=
  ⟨h.kind, h.depth, h.loop, h.shape⟩

theorem declare (h : c.Extends new c') (name : String) (slot : UInt16) :
    c.Extends ((c.depth, ⟨name, slot⟩) :: new) (c'.declare name slot) :=
  ⟨h.kind, h.depth, h.loop, by
    rw [Scene.shape, Scene.declare, List.map_cons, ← Scene.shape, h.shape, h.depth]
    rfl⟩

theorem mem_scope (h : c.Extends new c') (hr : r ∈ c.view.scope) : r ∈ c'.view.scope := by
  obtain ⟨e, he, rfl⟩ := List.mem_map.mp hr
  exact List.mem_map.mpr ⟨e, by rw [h.shape]; exact List.mem_append_right _ he, rfl⟩

end Extends

namespace Pushes

variable {c c' c'' : Scene} {n m : Nat}

theorem refl (c : Scene) : c.Pushes 0 c := ⟨.refl c, rfl⟩

theorem trans (h : c.Pushes n c') (h' : c'.Pushes m c'') : c.Pushes (n + m) c'' :=
  ⟨h.extends_.trans h'.extends_, by rw [h'.height, h.height, Nat.add_assoc]⟩

theorem emit (h : c.Pushes n c') (hm : (m : Int) = n + i.stackEffect) : c.Pushes m (c'.emit i) := by
  refine ⟨h.extends_.emit i, ?_⟩
  have heq : (c'.emit i).height = ((c'.height : Int) + i.stackEffect).toNat := rfl
  rw [heq, h.height]
  omega

theorem adds (h : c.Pushes n c') : c.Adds 0 n c' :=
  ⟨⟨[], rfl, h.extends_, .nil, fun _ he => absurd he List.not_mem_nil⟩, h.height⟩

theorem grows (h : c.Pushes n c') : c.Grows n c' := ⟨0, h.adds⟩

theorem view (h : c.Pushes n c') : c'.view = c.above n := by
  unfold Scene.view above
  rw [h.height, h.extends_.shape]
  rfl

end Pushes

namespace Locals

variable {c c' c'' : Scene} {k : Nat}

theorem extended (h : c.Locals k c') (h' : c'.Extends [] c'') : c.Locals k c'' := by
  obtain ⟨new, hlen, hext, hnew⟩ := h
  exact ⟨new, hlen, hext.trans h', hnew⟩

theorem setHeight (h : c.Locals k c') (n : Nat) : c.Locals k (c'.setHeight n) :=
  h.extended ((Extends.refl c').setHeight n)

end Locals

theorem nodup_slotsOf_append {old : List (Nat × Resident)} (hnew : (slotsOf new).Nodup)
    (hold : (slotsOf old).Nodup) (hlt : ∀ e ∈ new, ∀ e' ∈ old, e'.2.slot.toNat < e.2.slot.toNat) :
    (slotsOf (new ++ old)).Nodup := by
  rw [slotsOf, List.map_append, List.nodup_append]
  refine ⟨hnew, hold, fun i hi j hj heq => ?_⟩
  obtain ⟨e, he, rfl⟩ := List.mem_map.mp hi
  obtain ⟨e', he', rfl⟩ := List.mem_map.mp hj
  have := hlt e he e' he'
  rw [heq] at this
  omega

namespace Adds

variable {c c' c'' : Scene} {j k n m : Nat}

theorem trans (h : c.Adds k 0 c') (h' : c'.Adds j n c'') : c.Adds (k + j) n c'' := by
  obtain ⟨⟨new, hlen, hext, hnodup, hnew⟩, hheight⟩ := h
  obtain ⟨⟨new', hlen', hext', hnodup', hnew'⟩, hheight'⟩ := h'
  refine ⟨⟨new' ++ new, ?_, hext.trans hext', ?_, fun e he => ?_⟩, by omega⟩
  · rw [List.length_append, hlen, hlen', Nat.add_comm]
  · refine nodup_slotsOf_append hnodup' hnodup fun e he e' he' => ?_
    have := hnew' e he
    have := hnew e' he'
    omega
  · rcases List.mem_append.mp he with he | he
    · have := hnew' e he
      rw [hext.depth, hheight] at this
      omega
    · have := hnew e he
      omega

theorem pushes (h : c.Adds k n c') (h' : c'.Pushes m c'') : c.Adds k (n + m) c'' :=
  ⟨h.locals.extended h'.extends_, by rw [h'.height, h.height, Nat.add_assoc]⟩

/-- The scene with the locals, below the values. -/
theorem base (h : c.Adds k n c') : ∃ d, c.Adds k 0 d ∧ d.Pushes n c' :=
  ⟨c'.setHeight (c.height + k), ⟨h.locals.setHeight _, rfl⟩, ⟨rfl, rfl, rfl, rfl⟩, h.height⟩

/-- The value on top becomes a local. -/
theorem declare (h : c.Adds k 1 c')
    (hslot : slot.toNat = c.height + k) : c.Adds (k + 1) 0 (c'.declare name slot) := by
  obtain ⟨⟨new, hlen, hext, hnodup, hnew⟩, hheight⟩ := h
  refine ⟨⟨_, ?_, hext.declare name slot, ?_, fun e he => ?_⟩, hheight⟩
  · rw [List.length_cons, hlen]
  · refine List.nodup_cons.mpr ⟨fun hmem => ?_, hnodup⟩
    obtain ⟨e', he', heq⟩ := List.mem_map.mp hmem
    have := hnew e' he'
    dsimp only at heq
    rw [heq] at this
    omega
  · rcases List.mem_cons.mp he with rfl | he
    · exact ⟨rfl, by dsimp only; omega, by dsimp only; omega⟩
    · have := hnew e he
      omega

end Adds

theorem Grows.trans {c'' : Scene} {n : Nat} (h : c.Grows 0 c') (h' : c'.Grows n c'') :
    c.Grows n c'' := by
  obtain ⟨k, h⟩ := h
  obtain ⟨k', h'⟩ := h'
  exact ⟨_, h.trans h'⟩

theorem Grows.mem_scope {n : Nat} (h : c.Grows n c')
    (hr : r ∈ c.view.scope) : r ∈ c'.view.scope := by
  obtain ⟨_, ⟨_, -, hext, -⟩, -⟩ := h
  exact hext.mem_scope hr

namespace Tidy

variable {c c' : Scene} {n : Nat}

theorem grows (hc : c.Tidy) (h : c.Grows n c') : c'.Tidy := by
  obtain ⟨k, ⟨new, -, hext, hnodup, hnew⟩, hheight⟩ := h
  have hpos := hc.pos
  refine ⟨by omega, fun e he => ?_, ?_, fun e he => ?_, fun l hl => ?_⟩
  · rw [hext.shape] at he
    rcases List.mem_append.mp he with he | he
    · have := (hnew e he).2
      omega
    · have := hc.slots e he
      omega
  · rw [hext.shape]
    refine nodup_slotsOf_append hnodup hc.nodup fun e he e' he' => ?_
    have := hnew e he
    have := hc.slots e' he'
    omega
  · rw [hext.shape] at he
    rw [hext.depth]
    rcases List.mem_append.mp he with he | he
    · exact Nat.le_of_eq (hnew e he).1
    · exact hc.depths e he
  · rw [hext.loop] at hl
    have := hc.loop l hl
    omega

theorem openScope (hc : c.Tidy) : c.openScope.Tidy :=
  ⟨hc.pos, hc.slots, hc.nodup, fun e he => Nat.le_succ_of_le (hc.depths e he), hc.loop⟩

theorem scope (hc : c.Tidy) (hr : r ∈ c.view.scope) : r.slot.toNat < c.height := by
  obtain ⟨e, he, rfl⟩ := List.mem_map.mp hr
  exact hc.slots e he

/-- No two variables in scope share a slot. -/
theorem apart (hc : c.Tidy) : ∀ r ∈ c.view.scope, ∀ r' ∈ c.view.scope, r.slot = r'.slot → r = r' := by
  have hnodup : (c.view.scope.map Resident.slot).Nodup := by
    rw [Scene.view, List.map_map]
    exact hc.nodup
  exact fun r hr r' hr' heq => List.inj_on_of_nodup_map hnodup hr hr' heq

end Tidy

/-- A name that is found is one of the locals. -/
theorem mem_scope (c : Scene) {v : Var} (h : c.findLocal? name = some v) :
    ⟨name, v.slot⟩ ∈ c.view.scope := by
  unfold findLocal? at h
  split at h
  · cases h
  · have hname : v.name = name := by
      have hfound := List.find?_some h
      simp only [Bool.and_eq_true, beq_iff_eq] at hfound
      exact hfound.2
    refine List.mem_map.mpr ⟨(v.depth, ⟨v.name, v.slot⟩), ?_, by rw [hname]⟩
    exact List.mem_map.mpr ⟨v, List.mem_of_find?_eq_some h, rfl⟩

theorem shape_dropSlot (c : Scene) (slot : UInt16) : (c.dropSlot slot).shape = c.shape := by
  have hsame (q : Var → Bool) (l : List Var) :
      (Frame.updateFirst q (fun v => { v with isDropped := true }) l).map
        (fun v => (v.depth, Resident.mk v.name v.slot)) =
          l.map fun v => (v.depth, Resident.mk v.name v.slot) := by
    induction l with
    | nil => rfl
    | cons v rest ih =>
      rw [Frame.updateFirst]
      split
      · rfl
      · rw [List.map_cons, ih, List.map_cons]
  exact hsame _ c.locals

/-- The innermost block declared just the locals that came since it was opened. -/
theorem closeCount_of_extends (hc : c.Tidy)
    (h : c.openScope.Extends new c') (hnew : ∀ e ∈ new, e.1 = c.openScope.depth) :
    c'.closeCount = new.length := by
  have hdepth : c'.depth = c.depth + 1 := h.depth
  have hmap : c'.shape.takeWhile (fun e => decide (c'.depth - 1 < e.1)) =
      (c'.locals.takeWhile fun v => decide (c'.depth - 1 < v.depth)).map
        fun v => (v.depth, Resident.mk v.name v.slot) := List.takeWhile_map ..
  have hnone : c.shape.takeWhile (fun e => decide (c.depth < e.1)) = [] := by
    cases hshape : c.shape with
    | nil => rfl
    | cons e rest =>
      have hle : e.1 ≤ c.depth := hc.depths e (by rw [hshape]; exact .head _)
      exact List.takeWhile_cons_of_neg (by simpa using hle)
  have hall : ∀ e ∈ new, decide (c.depth < e.1) = true := by
    intro e he
    rw [hnew e he]
    exact decide_eq_true (Nat.lt_succ_self _)
  rw [h.shape, hdepth, Nat.add_sub_cancel] at hmap
  rw [closeCount, hdepth, Nat.add_sub_cancel, ← List.length_map, ← hmap,
    List.takeWhile_append_of_pos hall]
  exact (congrArg (fun l => (new ++ l).length) hnone).trans (by rw [List.append_nil])

end Scene

/-! ## Scenes and levels -/

/-- The labels of the loop around a node are where its iterations start. What is in scope
there is so at the node, too. -/
def Levels.Suits (levels : Levels) (c : Scene) : Prop :=
  ∀ l, c.loop = some l → ∃ s : View, s.height = l.baseHeight ∧
    (∀ r ∈ s.scope, r ∈ c.view.scope ∧ r.slot.toNat < s.height) ∧
    levels.views .exit = some s ∧ levels.views .again = some s ∧ levels.views .start = some s

/-- How many values a node leaves in a position. -/
def Position.pushed : Position → Nat
  | .value => 1
  | .effect => 0

/-- The code of a node leaves the values that are wanted in the position it was laid down for,
and nothing below them if the node leaves no local. -/
def LeavesWanted (p : Program) (e : Expr) (t : Tree) (before after : Nat) : Prop :=
  ∃ budget st position k c c', nodeScheme p budget st e position k c (.node e t) c' ∧
    (¬ LeavesLocal p e → after = before + position.pushed)

/-- What code for a node may rely on. No more is expected of it than that it leaves what is
wanted. -/
structure Ready (p : Program) (levels : Levels) (c : Scene) : Prop where
  tidy : c.Tidy
  suits : levels.Suits c
  expects : ∀ {e t h h'}, LeavesWanted p e t h h' → levels.expects e t h h'

namespace Ready

variable {p : Program} {levels : Levels} {c c' : Scene} {n : Nat}

theorem grows (hc : Ready p levels c) (h : c.Grows n c') : Ready p levels c' := by
  refine ⟨hc.tidy.grows h, fun l hl => ?_, hc.expects⟩
  have hloop : c'.loop = c.loop := by
    obtain ⟨_, ⟨_, -, hext, -⟩, -⟩ := h
    exact hext.loop
  rw [hloop] at hl
  obtain ⟨s, hheight, hscope, hviews⟩ := hc.suits l hl
  exact ⟨s, hheight, fun r hr => ⟨h.mem_scope (hscope r hr).1, (hscope r hr).2⟩, hviews⟩

theorem pushes (hc : Ready p levels c) (h : c.Pushes n c') : Ready p levels c' := hc.grows h.grows

theorem openScope (hc : Ready p levels c) : Ready p levels c.openScope :=
  ⟨hc.tidy.openScope, hc.suits, hc.expects⟩

/-- A label that is none of a loop may be introduced. -/
theorem set (hc : Ready p levels c) (l : Label) (v : View)
    (hl : l.isLocal = true) : Ready p (levels.set l v) c := by
  refine ⟨hc.tidy, fun m hm => ?_, hc.expects⟩
  obtain ⟨s, hheight, hscope, hexit, hagain, hstart⟩ := hc.suits m hm
  refine ⟨s, hheight, hscope, ?_, ?_, ?_⟩
  · rw [Levels.set_of_ne (by rintro rfl; cases hl)]
    exact hexit
  · rw [Levels.set_of_ne (by rintro rfl; cases hl)]
    exact hagain
  · rw [Levels.set_of_ne (Ne.symm (Label.ne_start hl))]
    exact hstart

theorem inNode (hc : Ready p levels c) (e : Expr) : Ready p (levels.inNode e) c :=
  ⟨hc.tidy, hc.suits, hc.expects⟩

end Ready

/-! ## Schemes -/

/-- From the scene `c` on, the code of the scheme is balanced, and the scene after it is
as said. -/
def Scheme.Leads (levels : Levels) (c : Scene) (x : Scheme) (Q : Scene → Prop) : Prop :=
  ∀ k t c', x k c t c' → t.Balanced levels c.view c'.view ∧ Q c'

/-- The same for code that does not come to its end. -/
def Scheme.Stops (levels : Levels) (c : Scene) (x : Scheme) (Q : Scene → Prop) : Prop :=
  ∀ k t c', x k c t c' → (∀ w, t.Balanced levels c.view w) ∧ Q c'

open Scheme

section

variable {p : Program} {levels : Levels} {c c0 c1 : Scene} {x y z : Scheme} {P Q : Scene → Prop}
  {n m k : Nat} {l : Label} {v s : View} {constant : Constant} {carry : Bool} {xs : List Scheme}

namespace Scheme

theorem Leads.imp (h : Leads levels c x P) (hQ : ∀ c', P c' → Q c') : Leads levels c x Q :=
  fun k t c' hx => ⟨(h k t c' hx).1, hQ c' (h k t c' hx).2⟩

theorem Stops.imp (h : Stops levels c x P) (hQ : ∀ c', P c' → Q c') : Stops levels c x Q :=
  fun k t c' hx => ⟨(h k t c' hx).1, hQ c' (h k t c' hx).2⟩

theorem Leads.then (h : Leads levels c x P) (h' : ∀ c1, P c1 → Leads levels c1 y Q) :
    Leads levels c (x ++ y) Q := by
  rintro k _ c' ⟨t1, c1, t2, hx, hy, rfl⟩
  obtain ⟨hbal, hP⟩ := h k t1 c1 hx
  obtain ⟨hbal', hQ⟩ := h' c1 hP k t2 c' hy
  exact ⟨⟨_, hbal, hbal'⟩, hQ⟩

theorem Leads.stops (h : Leads levels c x P) (h' : ∀ c1, P c1 → Stops levels c1 y Q) :
    Stops levels c (x ++ y) Q := by
  rintro k _ c' ⟨t1, c1, t2, hx, hy, rfl⟩
  obtain ⟨hbal, hP⟩ := h k t1 c1 hx
  obtain ⟨hbal', hQ⟩ := h' c1 hP k t2 c' hy
  exact ⟨fun h => ⟨_, hbal, hbal' h⟩, hQ⟩

theorem Leads.assoc (h : Leads levels c (x ++ (y ++ z)) Q) : Leads levels c (x ++ y ++ z) Q := by
  rintro k _ c' ⟨_, c2, t3, ⟨t1, c1, t2, hx, hy, rfl⟩, hz, rfl⟩
  obtain ⟨⟨m1, h1, m2, h2, h3⟩, hQ⟩ := h k _ c' ⟨t1, c1, _, hx, ⟨t2, c2, t3, hy, hz, rfl⟩, rfl⟩
  exact ⟨⟨m2, ⟨m1, h1, h2⟩, h3⟩, hQ⟩

/-- After code that stops, the height may be set. -/
theorem Stops.resume (h : Stops levels c x fun c' => Q (c'.setHeight n)) :
    Leads levels c (x ++ atHeight n) Q := by
  rintro k _ c' ⟨t1, c1, _, hx, ⟨rfl, rfl⟩, rfl⟩
  obtain ⟨hbal, hQ⟩ := h k t1 c1 hx
  exact ⟨⟨_, hbal _, .refl _⟩, hQ⟩

/-- A block that is only left by jumps to its label. -/
theorem Stops.block (h : Stops (levels.set l v) c x fun c' =>
      (c'.setHeight n).view = v ∧ Q (c'.setHeight n)) :
    Leads levels c (block l x ++ atHeight n) Q := by
  rintro k _ c' ⟨_, c1, _, ⟨t1, hx, rfl⟩, ⟨rfl, rfl⟩, rfl⟩
  obtain ⟨hbal, hview, hQ⟩ := h k t1 c1 hx
  exact ⟨⟨v, hbal v, by rw [hview]; exact .refl v⟩, hQ⟩

theorem Leads.block (h : Leads (levels.set l v) c x fun c' => c'.view = v ∧ Q c') :
    Leads levels c (block l x) Q := by
  rintro k _ c' ⟨t1, hx, rfl⟩
  obtain ⟨hbal, rfl, hQ⟩ := h k t1 c' hx
  exact ⟨hbal, hQ⟩

/-- A block whose label is where its first part leads. -/
theorem Leads.blockFrom {g : Scene → View} (hx : ∀ v, Leads (levels.set l v) c x P)
    (hy : ∀ c1, P c1 → Leads (levels.set l (g c1)) c1 y fun c' => c'.view = g c1 ∧ Q c') :
    Leads levels c (Scheme.block l (x ++ y)) Q := by
  rintro k _ c' ⟨_, ⟨t1, c1, t2, h1, h2, rfl⟩, rfl⟩
  obtain ⟨hbal, hP⟩ := hx (g c1) k t1 c1 h1
  obtain ⟨hbal', hview, hQ⟩ := hy c1 hP k t2 c' h2
  rw [hview] at hbal' ⊢
  exact ⟨⟨_, hbal, hbal'⟩, hQ⟩

theorem Leads.blockAssoc (h : Leads levels c (Scheme.block l (x ++ (y ++ z))) Q) :
    Leads levels c (Scheme.block l (x ++ y ++ z)) Q := by
  rintro k _ c' ⟨_, ⟨_, c2, t3, ⟨t1, c1, t2, hx, hy, rfl⟩, hz, rfl⟩, rfl⟩
  obtain ⟨⟨m1, h1, m2, h2, h3⟩, hQ⟩ :=
    h k _ c' ⟨_, ⟨t1, c1, _, hx, ⟨t2, c2, t3, hy, hz, rfl⟩, rfl⟩, rfl⟩
  exact ⟨⟨m2, ⟨m1, h1, h2⟩, h3⟩, hQ⟩

theorem leads_skip (hQ : Q c) : Leads levels c skip Q := by
  rintro k _ _ ⟨rfl, rfl⟩
  exact ⟨.refl _, hQ⟩

theorem leads_impossible : Leads levels c impossible Q := fun _ _ _ h => h.elim

theorem leads_change {f : Scene → Scene} (hview : (f c).view = c.view) (hQ : Q (f c)) :
    Leads levels c (change f) Q := by
  rintro k _ _ ⟨rfl, rfl⟩
  exact ⟨by rw [hview]; exact .refl _, hQ⟩

theorem leads_requires (hQ : P c → Q c) : Leads levels c (.requires P) Q := by
  rintro k _ _ ⟨rfl, rfl, hP⟩
  exact ⟨.refl _, hQ hP⟩

theorem leads_pooled {i : UInt16} (hQ : Q c) : Leads levels c (pooled constant i) Q := by
  rintro k _ _ ⟨rfl, rfl, -⟩
  exact ⟨.refl _, hQ⟩

theorem Leads.choose {x : α → Scheme} (h : ∀ a, Leads levels c (x a) Q) : Leads levels c (choose x) Q :=
  fun k t c' ⟨a, hx⟩ => h a k t c' hx

theorem Leads.oneOf (h : ∀ x ∈ xs, Leads levels c x Q) : Leads levels c (oneOf xs) Q :=
  fun k t c' ⟨x, hmem, hx⟩ => h x hmem k t c' hx

theorem Leads.reading {x : Scene → Scheme} (h : Leads levels c (x c) Q) :
    Leads levels c (reading x) Q := h

theorem leads_op (hadmits : c.view.Admits levels i) (hQ : Q (c.emit i)) : Leads levels c (op i) Q := by
  rintro k _ _ ⟨rfl, rfl⟩
  exact ⟨⟨_, .refl _, hadmits, fun _ => rfl⟩, hQ⟩

/-- An instruction after which control does not go on. -/
theorem stops_op (hadmits : c.view.Admits levels i) (hstops : i.fallsThrough = false)
    (hQ : Q (c.emit i)) : Stops levels c (op i) Q := by
  rintro k _ _ ⟨rfl, rfl⟩
  refine ⟨fun w => ⟨_, .refl _, hadmits, fun hfalls => ?_⟩, hQ⟩
  rw [hstops] at hfalls
  cases hfalls

theorem leads_jump (hadmits : c.view.Admits levels (kind.instr Instr.unpatched))
    (hlevel : levels.views l = some s) (hlands : c.view.Narrows s)
    (hQ : Q (c.emit (kind.instr Instr.unpatched))) : Leads levels c (jump kind l) Q := by
  rintro k _ _ ⟨rfl, rfl⟩
  exact ⟨⟨_, s, .refl _, hadmits, hlevel, hlands, fun _ => rfl⟩, hQ⟩

theorem Leads.marked {e : Expr} (h : Leads (levels.inNode e) c x Q)
    (hexpects : ∀ k t c', x k c t c' → Q c' → levels.expects e t c.height c'.height) :
    Leads levels c (marked e x) Q := by
  rintro k _ c' ⟨t1, hx, rfl⟩
  obtain ⟨hbal, hQ⟩ := h k t1 c' hx
  exact ⟨⟨hexpects k t1 c' hx hQ, hbal⟩, hQ⟩

/-- Inside a loop its labels are where the loop starts. -/
theorem Leads.looped {back : Bool}
    (h : Leads (levels.inLoop c.view c.view) { c with loop := some ⟨c.height, back⟩ } x fun c' =>
      c'.view = c.view ∧ Q { c' with loop := c.loop, height := c.height }) :
    Leads levels c (looped back x) Q := by
  rintro k _ _ ⟨t1, c1, hx, rfl, rfl⟩
  obtain ⟨hbal, hview, hQ⟩ := h k t1 c1 hx
  rw [hview] at hbal
  have hend : Scene.view { c1 with loop := c.loop, height := c.height } = c.view := by
    rw [← hview]
    exact congrArg (View.mk · _) (congrArg View.height hview).symm
  rw [hend]
  exact ⟨⟨_, .refl _, hbal⟩, hQ⟩

end Scheme

/-- Variables may go out of scope in front of any code. -/
theorem Tree.Balanced.ofNarrows {u w : View} : ∀ {t : Tree} {levels : Levels},
    t.Balanced levels u w → v.Narrows u → t.Balanced levels v w
  | .nil, _, h, hv => hv.then h
  | .op _, _, ⟨_, hu, h⟩, hv => ⟨_, hv.trans hu, h⟩
  | .jump _ _, _, ⟨_, s, hu, h⟩, hv => ⟨_, s, hv.trans hu, h⟩
  | .loop _, _, ⟨_, hu, h⟩, hv => ⟨_, hv.trans hu, h⟩
  | .back, _, ⟨s, hs, hu, h⟩, hv => ⟨s, hs, hv.trans hu, h⟩
  | .seq _ _, _, ⟨_, h, h'⟩, hv => ⟨_, h.ofNarrows hv, h'⟩
  | .block l t, levels, h, hv =>
    have hin : t.Balanced (levels.set l w) u w := h
    hin.ofNarrows hv
  | .node _ _, _, ⟨hexpects, h⟩, hv => ⟨by rw [← hv.height]; exact hexpects, h.ofNarrows hv⟩

/-- Taking values off the stack one by one, none of them a variable in scope. -/
theorem balanced_times {base : Nat} {scope : List Resident} {k : List Constant}
    (heffect : i.stackEffect = -1) (hi : i.slotless = true) (hbase : i.consumes ≤ base)
    (hscope : ∀ r ∈ scope, r.slot.toNat + i.consumes ≤ base)
    (hapart : ∀ r ∈ scope, ∀ r' ∈ scope, r.slot = r'.slot → r = r') :
    ∀ {n : Nat} {c c' : Scene} {t : Tree}, times i n k c t c' → c.height = base + n →
      t.Balanced levels ⟨base + n, scope⟩ ⟨base, scope⟩ ∧ c' = c.setHeight base
  | 0, c, _, _, ⟨rfl, rfl⟩, hheight => by
    rw [Nat.add_zero] at hheight
    exact ⟨.refl _, by rw [← hheight]; rfl⟩
  | n + 1, c, c', _, ⟨_, _, t, ⟨rfl, rfl⟩, hrest, rfl⟩, hheight => by
    have hnext : (c.emit i).height = base + n := by
      have heq : (c.emit i).height = ((c.height : Int) + i.stackEffect).toNat := rfl
      omega
    obtain ⟨hbal, rfl⟩ := balanced_times heffect hi hbase hscope hapart hrest hnext
    refine ⟨⟨⟨base + n, scope⟩, ⟨_, .refl _, ⟨⟨⟨?_, Instr.slotsBelow_of_slotless hi _⟩,
      fun r hr => ?_, hapart⟩, .ofSlotless hi⟩, fun _ => ?_⟩, hbal⟩, rfl⟩
    · dsimp only
      omega
    · have := hscope r hr
      have := i.takes_le_consumes
      dsimp only
      omega
    · unfold View.after
      congr 1
      dsimp only
      omega

/-! ## Values above a scene -/

/-- The scheme takes a stack with `n` values above those of `c` to one with `m`. -/
def Moves (levels : Levels) (c : Scene) (n m : Nat) (x : Scheme) : Prop :=
  ∀ c1, c.Pushes n c1 → Leads levels c1 x (c.Pushes m)

/-- The code of the scheme does not come to its end, from `n` values above those of `c`. -/
def Halts (levels : Levels) (c : Scene) (n : Nat) (x : Scheme) : Prop :=
  ∀ c1, c.Pushes n c1 → Stops levels c1 x (c.Extends [])

theorem Scene.Extends.pushes (h : c.Extends [] c') (n : Nat) :
    c.Pushes n (c'.setHeight (c.height + n)) := ⟨h.setHeight _, rfl⟩

/-- An instruction that works on values above a scene leaves its locals alone. -/
theorem Scene.Pushes.admits (h1 : c.Pushes n c1) (hc : c.Tidy)
    (hn : i.consumes ≤ n) (hslots : i.SlotsBelow ((c.height + n : Nat) : Int))
    (hallows : levels.Allows c.view.scope i) : c1.view.Admits levels i := by
  have hpos := hc.pos
  rw [h1.view]
  refine ⟨⟨⟨?_, hslots⟩, fun r hr => ?_, hc.apart⟩, hallows⟩
  · dsimp only [Scene.above]
    omega
  · have := hc.scope hr
    have := i.takes_le_consumes
    dsimp only [Scene.above]
    omega

theorem Moves.leads (h : Moves levels c 0 n x) : Leads levels c x (c.Pushes n) := h c (.refl c)

/-- What holds of a scene holds with values above another. -/
theorem Moves.ofLeads (h : ∀ c1, c.Pushes n c1 → Leads levels c1 x (c1.Pushes m)) :
    Moves levels c n (n + m) x :=
  fun c1 h1 => (h c1 h1).imp fun _ h2 => h1.trans h2

namespace Moves

variable {k : Nat}

theorem seq (hx : Moves levels c n m x) (hy : Moves levels c m k y) :
    Moves levels c n k (x ++ y) :=
  fun c1 h1 => (hx c1 h1).then hy

theorem halts (hx : Moves levels c n m x) (hy : Halts levels c m y) :
    Halts levels c n (x ++ y) :=
  fun c1 h1 => (hx c1 h1).stops hy

theorem assoc (h : Moves levels c n m (x ++ (y ++ z))) : Moves levels c n m (x ++ y ++ z) :=
  fun c1 h1 => (h c1 h1).assoc

theorem choose {x : α → Scheme} (h : ∀ a, Moves levels c n m (x a)) : Moves levels c n m (choose x) :=
  fun c1 h1 => .choose fun a => h a c1 h1

theorem skip : Moves levels c n n skip := fun _ h1 => leads_skip h1

theorem required : Moves levels c n n (.requires P) :=
  fun _ h1 => leads_requires fun _ => h1

theorem pooled {i : UInt16} : Moves levels c n n (pooled constant i) :=
  fun _ h1 => leads_pooled h1

theorem opAt (hc : c.Tidy) (hn : i.consumes ≤ n) (hm : (m : Int) = n + i.stackEffect)
    (hslots : i.SlotsBelow ((c.height + n : Nat) : Int))
    (hallows : levels.Allows c.view.scope i) : Moves levels c n m (op i) := by
  intro c1 h1
  exact leads_op (h1.admits hc hn hslots hallows) (h1.emit hm)

theorem op (hc : c.Tidy) (hi : i.slotless = true) (h : i.Turns n m) : Moves levels c n m (op i) :=
  opAt hc h.1 h.2 (Instr.slotsBelow_of_slotless hi _) (.ofSlotless hi)

/-- A condition that may be used for what follows. -/
theorem assume (h : (∃ c1, c.Pushes n c1 ∧ P c1) → Moves levels c n m x) :
    Moves levels c n m (.requires P ++ x) := by
  intro c1 h1
  refine Leads.then (P := fun c2 => c2 = c1 ∧ P c1) (leads_requires fun hP => ⟨rfl, hP⟩) ?_
  rintro _ ⟨rfl, hP⟩
  exact h ⟨_, h1, hP⟩ _ h1

theorem either (hx : Moves levels c n m x) (hxs : Moves levels c n m (.oneOf xs)) :
    Moves levels c n m (.oneOf (x :: xs)) := by
  intro c1 h1
  refine .oneOf fun y hy => ?_
  rcases List.mem_cons.mp hy with rfl | hy
  · exact hx c1 h1
  · exact fun k t c' h => hxs c1 h1 k t c' ⟨y, hy, h⟩

theorem none : Moves levels c n m (.oneOf []) :=
  fun _ _ => .oneOf fun _ hx => absurd hx List.not_mem_nil

/-- A slot is read, for the name that the code reads if there is one. -/
theorem getLocal (hc : c.Tidy) (hslot : slot.toNat < c.height + n)
    (hreads : ∀ name, levels.reads = some name →
      ∃ r ∈ c.view.scope, r.slot = slot ∧ (r.name = name ∨ r.name = "this")) :
    Moves levels c n (n + 1) (.op (.getLocal slot)) := by
  refine opAt hc (Nat.zero_le n) rfl (Int.ofNat_lt.mpr hslot) ⟨fun _ h => ?_, nofun⟩
  cases h
  exact hreads

theorem getHidden (hc : c.Tidy) (hreads : levels.reads = Option.none)
    (hslot : slot.toNat < c.height + n) : Moves levels c n (n + 1) (.op (.getLocal slot)) := by
  refine getLocal hc hslot fun name hname => ?_
  rw [hreads] at hname
  cases hname

/-- A variable is written to, and as no other shares its slot, no other is. -/
theorem setLocal (hc : c.Tidy) (hmem : ⟨name, slot⟩ ∈ c.view.scope)
    (hname : name ∈ levels.writes) (hn : 0 < n) : Moves levels c n n (.op (.setLocal slot)) := by
  have hslot := hc.scope hmem
  refine opAt hc hn (Int.add_zero _).symm (Int.ofNat_lt.mpr (by dsimp only at hslot; omega))
    ⟨nofun, fun _ h r hr heq => ?_⟩
  cases h
  rw [hc.apart r hr _ hmem heq]
  exact hname

theorem dropLocal (hc : c.Tidy) (hslot : slot.toNat < c.height + n) :
    Moves levels c n n (.op (.dropLocal slot)) :=
  opAt hc (Nat.zero_le n) (Int.add_zero _).symm (Int.ofNat_lt.mpr hslot)
    ⟨nofun, nofun⟩

/-- A name that is found lies below all values. -/
theorem found (hc : c.Tidy) {v : Var}
    (h : v.slot.toNat < c.height → ⟨name, v.slot⟩ ∈ c.view.scope → Moves levels c n m x) :
    Moves levels c n m (found name v ++ x) := by
  refine assume fun ⟨c1, h1, hfound⟩ => ?_
  have hmem := c1.mem_scope hfound
  rw [h1.view] at hmem
  exact h (hc.scope hmem) hmem

/-- A test whose result stays on the stack, and from which control may go to a label. -/
theorem jumpTo (hc : c.Tidy) (hkind : kind = .ifFalse ∨ kind = .ifTrue)
    (hlevel : levels.views l = some s) (hlands : (c.above n).Narrows s) (hn : 0 < n) :
    Moves levels c n n (jump kind l) := by
  intro c1 h1
  refine leads_jump (h1.admits hc ?_ ?_ ?_) hlevel (by rw [h1.view]; exact hlands) (h1.emit ?_)
  · rcases hkind with rfl | rfl <;> exact hn
  · rcases hkind with rfl | rfl <;> trivial
  · rcases hkind with rfl | rfl <;> exact .ofSlotless rfl
  · rcases hkind with rfl | rfl <;> exact (Int.add_zero _).symm

theorem jump (hc : c.Tidy) (hkind : kind = .ifFalse ∨ kind = .ifTrue)
    (hlevel : levels.views l = some (c.above n)) (hn : 0 < n) : Moves levels c n n (jump kind l) :=
  jumpTo hc hkind hlevel (.refl _) hn

theorem block (h : Moves (levels.set l (c.above m)) c n m x) :
    Moves levels c n m (block l x) :=
  fun c1 h1 => .block ((h c1 h1).imp fun _ h2 => ⟨h2.view, h2⟩)

/-- Setting the height to what it is. -/
theorem atHeight : Moves levels c n n (atHeight (c.height + n)) :=
  fun c1 h1 => leads_change (by rw [h1.view, (h1.extends_.pushes n).view])
    (h1.extends_.pushes n)

theorem each {x : α → Scheme} : ∀ {items : List α}, (∀ a ∈ items, ∀ n, Moves levels c n (n + k) (x a)) →
      ∀ {n : Nat}, Moves levels c n (n + items.length * k) (each x items)
  | [], _, n => by
    rw [List.length_nil, Nat.zero_mul]
    exact skip
  | a :: rest, h, n => by
    have hrest : Moves levels c (n + k) (n + k + rest.length * k) (Scheme.each x rest) :=
      each fun b hb => h b (.tail _ hb)
    rw [List.length_cons, Nat.add_one_mul, Nat.add_comm _ k, ← Nat.add_assoc]
    exact (h a (.head _) n).seq hrest

theorem eachSame {x : α → Scheme} : ∀ {items : List α},
    (∀ a ∈ items, Moves levels c n n (x a)) → Moves levels c n n (Scheme.each x items)
  | [], _ => skip
  | a :: _, h => (h a (.head _)).seq
      (eachSame fun b hb => h b (.tail _ hb))

theorem pops (hc : c.Tidy) : Moves levels c (n + k) n (times .pop k) := by
  intro c1 h1 pool t c' h
  have hpos := hc.pos
  have hheight := h1.height
  have hpops : t.Balanced levels ⟨c.height + n + k, c.view.scope⟩ ⟨c.height + n, c.view.scope⟩ ∧
      c' = c1.setHeight (c.height + n) := by
    refine balanced_times rfl rfl ?_ (fun r hr => ?_) hc.apart h (by omega)
    · simp only [Instr.consumes]
      omega
    · have := hc.scope hr
      simp only [Instr.consumes]
      omega
  obtain ⟨hbal, rfl⟩ := hpops
  have hpushes := h1.extends_.pushes n
  rw [h1.view, hpushes.view]
  rw [Nat.add_assoc] at hbal
  exact ⟨hbal, hpushes⟩

end Moves

namespace Halts

theorem block (h : Halts (levels.set l (c.above m)) c n x) :
    Moves levels c n m (Scheme.block l x ++ atHeight (c.height + m)) :=
  fun c1 h1 => Stops.block ((h c1 h1).imp fun _ h2 => ⟨(h2.pushes m).view, h2.pushes m⟩)

theorem resume (h : Halts levels c n x) : Moves levels c n m (x ++ atHeight (c.height + m)) :=
  fun c1 h1 => Stops.resume ((h c1 h1).imp fun _ h2 => h2.pushes m)

theorem jump (hc : c.Tidy) (hlevel : levels.views l = some (c.above n)) :
    Halts levels c n (jump .always l) := by
  rintro c1 h1 k _ _ ⟨rfl, rfl⟩
  have hadmits : c1.view.Admits levels (.jump Instr.unpatched) :=
    h1.admits hc (Nat.zero_le n) trivial (.ofSlotless rfl)
  rw [h1.view] at hadmits ⊢
  exact ⟨fun w => ⟨_, _, .refl _, hadmits, hlevel, .refl _, nofun⟩, h1.extends_.emit _⟩

theorem back (hc : c.Tidy) (hlevel : levels.views .start = some (c.above n)) :
    Halts levels c n back := by
  rintro _ h1 k _ c1 ⟨rfl, rfl⟩
  have hadmits : c1.view.Admits levels (.loop Instr.unpatched) :=
    h1.admits hc (Nat.zero_le n) trivial (.ofSlotless rfl)
  rw [h1.view] at hadmits ⊢
  exact ⟨fun w => ⟨_, hlevel, .refl _, hadmits⟩, h1.extends_⟩

theorem op (hc : c.Tidy) (hi : i.slotless = true) (hstops : i.fallsThrough = false)
    (hn : i.consumes ≤ n) : Halts levels c n (op i) := by
  intro c1 h1
  exact stops_op (h1.admits hc hn (Instr.slotsBelow_of_slotless hi _) (.ofSlotless hi)) hstops
    (h1.extends_.emit i)

end Halts

/-! ## Locals -/

/-- What holds above any scene with `k` locals more. -/
theorem Moves.above (h : ∀ d, c.Adds k 0 d → Moves levels d n m x)
    (h1 : c.Adds k n c1) : Leads levels c1 x (c.Adds k m) := by
  obtain ⟨d, hd, hpushes⟩ := h1.base
  refine (h d hd c1 hpushes).imp fun c2 h2 => ?_
  have hall := hd.pushes h2
  rw [Nat.zero_add] at hall
  exact hall

/-- There are `n` values more, and locals below them only if `plain` does not hold. -/
structure Scene.Yields (c : Scene) (plain : Prop) (n : Nat) (c' : Scene) : Prop where
  grows : c.Grows n c'
  pushes : plain → c.Pushes n c'

namespace Scene.Yields

variable {plain : Prop} {c1 c' d : Scene}

theorem ofPushes (h : c.Pushes n c') : c.Yields plain n c' := ⟨h.grows, fun _ => h⟩

/-- The scene with the locals, below the values. -/
theorem base (h : c.Yields plain n c1) : ∃ d, c.Yields plain 0 d ∧ d.Pushes n c1 := by
  obtain ⟨⟨k, hadds⟩, hpushes⟩ := h
  obtain ⟨d, hd, hpush⟩ := hadds.base
  refine ⟨d, ⟨⟨k, hd⟩, fun hplain => ?_⟩, hpush⟩
  have hsame := hpushes hplain
  have hheight := hsame.height
  have hheight' := hadds.height
  obtain rfl : k = 0 := by omega
  refine ⟨⟨?_, ?_, ?_, ?_⟩, hd.height⟩
  · rw [← hpush.extends_.kind, hsame.extends_.kind]
  · rw [← hpush.extends_.depth, hsame.extends_.depth]
  · rw [← hpush.extends_.loop, hsame.extends_.loop]
  · exact hpush.extends_.shape.symm.trans hsame.extends_.shape

theorem after (h : c.Pushes 0 d) (h' : d.Yields plain n c') : c.Yields plain n c' := by
  refine ⟨h.grows.trans h'.grows, fun hplain => ?_⟩
  rw [← Nat.zero_add n]
  exact h.trans (h'.pushes hplain)

theorem push (h : c.Yields plain 0 d) (h' : d.Pushes m c') : c.Yields plain m c' := by
  refine ⟨h.grows.trans h'.grows, fun hplain => ?_⟩
  rw [← Nat.zero_add m]
  exact (h.pushes hplain).trans h'

/-- What holds above any scene with more locals holds after code that may have left some. -/
theorem onwardFrom (h : c.Yields plain n c1) (hx : ∀ d, c.Grows 0 d → Moves levels d n m x) :
    Leads levels c1 x (c.Yields plain m) := by
  obtain ⟨d, hd, hpush⟩ := h.base
  exact (hx d hd.grows c1 hpush).imp fun _ h' => hd.push h'

theorem onward (h : c.Yields plain n c1) (hc : Ready p levels c)
    (hx : ∀ d, Ready p levels d → Moves levels d n m x) : Leads levels c1 x (c.Yields plain m) :=
  h.onwardFrom fun d hd => hx d (hc.grows hd)

end Scene.Yields

theorem leads_declare (hname : name ∈ levels.binds) (h : c.Adds k 1 c1) :
    Leads levels c1 (declare name slot) fun c2 => slot.toNat = c.height + k ∧
      c2.view.scope = ⟨name, slot⟩ :: c1.view.scope ∧ c.Adds (k + 1) 0 c2 := by
  rintro _ _ _ ⟨rfl, hslot, rfl⟩
  have hheight := h.height
  have hslot' : slot.toNat = c.height + k := by omega
  refine ⟨⟨rfl, fun r hr => ?_⟩, hslot', rfl, h.declare hslot'⟩
  rcases List.mem_cons.mp hr with rfl | hr
  · have htop : slot.toNat + 1 = c1.height := by omega
    exact .inr ⟨htop, hname⟩
  · exact .inl hr

theorem leads_declared (hname : name ∈ levels.binds)
    (h : c.Adds k 1 c1) : Leads levels c1 (declared name) (c.Adds (k + 1) 0) :=
  .choose fun _ => (leads_declare hname h).imp fun _ h2 => h2.2.2

/-! ## Blocks -/

/-- The scene in which a block is open, with as many values above as before. -/
theorem leads_openScope (h1 : c.Pushes n c1) :
    Leads levels c1 (change Scene.openScope) (c.openScope.Pushes n) :=
  leads_change rfl ⟨⟨h1.extends_.kind, congrArg (· + 1) h1.extends_.depth, h1.extends_.loop,
    h1.extends_.shape⟩, h1.height⟩

/-- At the end of a block its locals go. -/
theorem leads_leave (hc : c.Tidy) {c2 : Scene}
    (h : c.openScope.Grows carry.toNat c2) : Leads levels c2 (leave carry) (c.Pushes carry.toNat) := by
  obtain ⟨_, ⟨new, rfl, hext, -, hnew⟩, hheight⟩ := h
  have hcount := Scene.closeCount_of_extends hc hext fun e he => (hnew e he).1
  have hpos := hc.pos
  have hopen : c.openScope.height = c.height := rfl
  have hshape : (c2.setHeight (c.height + carry.toNat)).leave.shape = c.shape := by
    have hdrop : c2.leave.shape = c2.shape.drop c2.closeCount := List.map_drop ..
    rw [hcount, hext.shape, List.drop_left] at hdrop
    exact hdrop
  have hdepth : c2.depth - 1 = c.depth := by
    rw [hext.depth]
    exact Nat.add_sub_cancel ..
  have hleft : c.Pushes carry.toNat (c2.setHeight (c.height + carry.toNat)).leave :=
    ⟨⟨hext.kind, hdepth, hext.loop, hshape⟩, rfl⟩
  -- what is out of scope is taken off, and what is in scope lies below it
  rintro k _ _ ⟨t, c3, _, htimes, ⟨rfl, rfl⟩, rfl⟩
  rw [hcount] at htimes
  have htaken : t.Balanced levels ⟨c.height + carry.toNat + new.length, c.view.scope⟩
      ⟨c.height + carry.toNat, c.view.scope⟩ ∧ c3 = c2.setHeight (c.height + carry.toNat) := by
    refine balanced_times ?_ ?_ ?_ (fun r hr => ?_) hc.apart htimes (by omega)
    · cases carry <;> rfl
    · cases carry <;> rfl
    · cases carry <;> simp [Instr.consumes] <;> omega
    · have := hc.scope hr
      cases carry <;> simp [Instr.consumes] <;> omega
  obtain ⟨hbal, rfl⟩ := htaken
  refine ⟨⟨_, hbal.ofNarrows ⟨?_, fun r hr => ?_⟩, by rw [hleft.view]; exact .refl _⟩, hleft⟩
  · change c.height + carry.toNat + new.length = c2.height
    omega
  · exact hext.mem_scope hr

theorem leads_scoped (hc : c.Tidy)
    (h : Leads levels c.openScope x (c.openScope.Grows carry.toNat)) :
    Leads levels c (change Scene.openScope ++ x ++ leave carry) (c.Pushes carry.toNat) := by
  refine Leads.then (Leads.then (P := fun c1 => c1 = c.openScope) (leads_change rfl rfl) ?_)
    fun c2 h2 => leads_leave hc h2
  rintro _ rfl
  exact h

end

end Codegen

end Strand
