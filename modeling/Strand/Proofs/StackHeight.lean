import Strand.Proofs.Nodes
import Strand.Proofs.Tree

/-!
# Heights of the operand stack

What it means that code keeps the stack in order, and a way to see it on structured
code. A unit starts with its callee and its arguments on the stack. From there every
path through the code gives every offset that it passes a height; the code is in order
when all paths agree, and when each instruction finds below that height what it takes
and the slots that it names.

On a tree the heights can be read off without following paths, and with them the variables
that are in scope: `Tree.Balanced` says how the stack looks after a piece of code and at
each label, and `Tree.Balanced.chart` turns this into one view for each offset that all
jumps respect.
-/

namespace Strand

variable {d : UInt32} {i : Instr}

namespace ExprKind

/-- The name that a node reads. -/
def reads : ExprKind → Option String
  | .var name => some name
  | .this => some "this"
  | _ => none

/-- The names whose slots the code of a node writes to, apart from the nodes inside. -/
def writes : ExprKind → List String
  | .assign _ ⟨.var name, _⟩ _ => [name]
  | .functionDecl decl => [decl.name]
  | .decorated _ ⟨.functionDecl decl, _⟩ => [decl.name]
  | .classDecl decl => [decl.name]
  | .enumDecl decl => [decl.name]
  | .rangeFor _ _ _ _ _ _ => ["$counter"]
  | _ => []

end ExprKind

namespace Codegen

/-- What code does with variables: the names that it declares, that it reads and that it
writes to. -/
structure Names where
  binds : List String
  reads : Option String
  writes : List String

/-- Code outside of all nodes only declares. -/
def Names.outer (binds : List String) : Names := ⟨binds, none, []⟩

end Codegen

/-- What the code of a node itself does with variables. -/
def ExprKind.names (kind : ExprKind) : Codegen.Names := ⟨kind.binds, kind.reads, kind.writes⟩

namespace Instr

/-- How many values the instruction takes off the top of the stack, or looks at there. -/
def consumes : Instr → Nat
  | .pop | .dup | .copy | .unary _ | .ref | .deref | .getIter | .accCollect => 1
  | .setLocal _ | .setUpvalue _ | .setGlobal _ | .defineGlobal _ | .getAttr _ | .dropAttr _ => 1
  | .jumpIfFalse _ | .jumpIfTrue _ | .forIter _ | .ret | .throw => 1
  | .popUnder | .swap | .setAttr _ | .getIndex | .binary _ => 2
  | .inferStep | .matchType | .assert => 2
  | .setIndex => 3
  | .closure _ defaults => defaults.toNat
  | .call positional keyword => 1 + positional.toNat + 2 * keyword.toNat
  | .array n | .tuple n | .buildString n => n.toNat
  | .map n => 2 * n.toNat
  | .makeClass _ consumed => consumed.toNat
  | .constant _ | .pushNull | .pushTrue | .pushFalse => 0
  | .getLocal _ | .dropLocal _ | .getUpvalue _ | .dropUpvalue _ | .getGlobal _ | .dropGlobal _ => 0
  | .jump _ | .loop _ | .makeEnum _ | .accStart | .accFlush | .rangeCheck _ | .directive _ _ => 0

/-- How many values the instruction takes off the top of the stack or puts others in their
place. Some are only looked at. -/
def takes : Instr → Nat
  | .dup | .setLocal _ | .setUpvalue _ | .setGlobal _ => 0
  | .jumpIfFalse _ | .jumpIfTrue _ | .forIter _ => 0
  | i => i.consumes

theorem takes_le_consumes (i : Instr) : i.takes ≤ i.consumes := by
  unfold takes
  split <;> omega

/-- The slots that the instruction names lie below a height. A range uses the slot of
its counter and the two after it. -/
def SlotsBelow (height : Int) : Instr → Prop
  | .getLocal slot | .setLocal slot | .dropLocal slot => (slot.toNat : Int) < height
  | .rangeCheck slot => (slot.toNat : Int) + 2 < height
  | _ => True

/-- The instruction finds what it needs on a stack of a given height. Slot zero, which
holds the callee or the receiver, is never taken off. -/
structure Fits (i : Instr) (height : Int) : Prop where
  operands : (i.consumes : Int) < height
  slots : i.SlotsBelow height

/-- The instruction names no slot. -/
def slotless : Instr → Bool
  | .getLocal _ | .setLocal _ | .dropLocal _ | .rangeCheck _ => false
  | _ => true

theorem slotsBelow_of_slotless (h : i.slotless = true) (height : Int) : i.SlotsBelow height := by
  cases i <;> trivial

/-- Where there are `n` values to work on, the instruction leaves `m`. -/
def Turns (i : Instr) (n m : Nat) : Prop := i.consumes ≤ n ∧ (m : Int) = n + i.stackEffect

attribute [grind =] consumes stackEffect Turns

/-- Control may go on to the next instruction. -/
def fallsThrough : Instr → Bool
  | .jump _ | .loop _ | .ret | .throw => false
  | _ => true

/-- No instruction removes more than it consumes. -/
theorem consumes_add_stackEffect (i : Instr) : 0 ≤ (i.consumes : Int) + i.stackEffect := by
  cases i <;> simp only [consumes, stackEffect] <;> omega

/-- Net change of the height when control is transferred: an iterator that has ended
pushes nothing. -/
def jumpEffect : Instr → Int
  | .forIter _ => 0
  | i => i.stackEffect

end Instr

/-! ## Paths -/

/-- One step of control in `code`, from an offset and a height to an offset and a
height. -/
inductive Edge (code : Array Instr) (o : Nat) (height : Int) : Nat → Int → Prop where
  | next {i : Instr} (hi : code[o]? = some i) (hfalls : i.fallsThrough = true) :
      Edge code o height (o + 1) (height + i.stackEffect)
  | taken {i : Instr} {t : Nat} (hi : code[o]? = some i) (ht : jumpTarget? code o = some t) :
      Edge code o height t (height + i.jumpEffect)

namespace CodeUnit

/-- Some path through the unit comes to an offset with a height. -/
inductive Reaches (u : CodeUnit) : Nat → Int → Prop where
  | entry : Reaches u 0 (1 + u.header.totalArity.toNat)
  | step {o o' : Nat} {h h' : Int} (hr : Reaches u o h) (he : Edge u.code o h o' h') :
      Reaches u o' h'

/-- All paths through the unit agree on the height at each offset, none leaves the code,
and each instruction on them finds what it needs. -/
structure StackDisciplined (u : CodeUnit) : Prop where
  agree : ∀ {o h h'}, u.Reaches o h → u.Reaches o h' → h = h'
  fits : ∀ {o h}, u.Reaches o h → ∃ i, u.code[o]? = some i ∧ i.Fits h ∧
    (i.isJump = true → ∃ t, jumpTarget? u.code o = some t)

end CodeUnit

/-! ## Heights on trees -/

namespace Codegen

variable {k : JumpKind} {a : Nat} {u : CodeUnit} {code : Array Instr} {view : Nat → View}
  {declared : List (Nat × String)}

theorem isJump_instr (k : JumpKind) (d : UInt32) : (k.instr d).isJump = true := by
  cases k <;> rfl

theorem jumpEffect_instr (k : JumpKind) (d : UInt32) : (k.instr d).jumpEffect = 0 := by
  cases k <;> rfl

theorem stackEffect_instr (k : JumpKind) (d d' : UInt32) :
    (k.instr d).stackEffect = (k.instr d').stackEffect := by
  cases k <;> rfl

theorem fallsThrough_instr (k : JumpKind) (d d' : UInt32) :
    (k.instr d).fallsThrough = (k.instr d').fallsThrough := by
  cases k <;> rfl

theorem fits_instr {d' : UInt32} {h : Int} (hfits : (k.instr d).Fits h) : (k.instr d').Fits h := by
  obtain ⟨hoperands, -⟩ := hfits
  cases k <;> exact ⟨hoperands, trivial⟩

theorem takes_instr (k : JumpKind) (d : UInt32) : (k.instr d).takes = 0 := by
  cases k <;> rfl

theorem jumpTarget_of_forward
    (h : code[a]? = some (k.instr d)) : jumpTarget? code a = some (a + 1 + d.toNat) := by
  unfold jumpTarget?
  cases k <;> simp [h, JumpKind.instr, Instr.forwardDistance?]

theorem jumpTarget_of_back {t : Nat}
    (h : code[a]? = some (.loop d)) (ht : t + d.toNat = a + 1) : jumpTarget? code a = some t := by
  have hle : d.toNat ≤ a + 1 := by omega
  have hsub : a + 1 - d.toNat = t := by omega
  unfold jumpTarget?
  simp [h, hle, hsub]

theorem jumpTarget_of_not_jump
    (h : code[a]? = some i) (hi : i.isJump = false) : jumpTarget? code a = none := by
  unfold jumpTarget?
  cases i <;> simp_all [Instr.isJump, Instr.forwardDistance?]

/-! ## Views -/

/-- A variable of the source in the slot that holds it. -/
structure Resident where
  name : String
  slot : UInt16

/-- What is known of the stack at a place in the code: its height, and the variables that
are in scope. -/
structure View where
  height : Nat
  scope : List Resident

namespace View

/-- The instruction leaves the variables in scope alone. -/
def SparedBy (v : View) (i : Instr) : Prop := ∀ r ∈ v.scope, r.slot.toNat + i.takes < v.height

/-- The stack after an instruction that keeps what is in scope. -/
def after (v : View) (i : Instr) : View :=
  { v with height := ((v.height : Int) + i.stackEffect).toNat }

/-- Some variables are out of scope. -/
structure Narrows (v w : View) : Prop where
  height : w.height = v.height
  scope : ∀ r ∈ w.scope, r ∈ v.scope

/-- What is in scope was so before, or lies on top of the stack and may have its name. -/
structure Passes (names : String → Prop) (v w : View) : Prop where
  height : w.height = v.height
  scope : ∀ r ∈ w.scope, r ∈ v.scope ∨ (r.slot.toNat + 1 = w.height ∧ names r.name)

/-- The instruction finds what it needs and leaves the variables in scope alone, of which
no two share a slot. -/
structure Carries (v : View) (i : Instr) : Prop where
  fits : i.Fits v.height
  spared : v.SparedBy i
  apart : ∀ r ∈ v.scope, ∀ r' ∈ v.scope, r.slot = r'.slot → r = r'

variable {u v w : View} {i : Instr} {names names' : String → Prop}

theorem Narrows.refl (v : View) : v.Narrows v := ⟨rfl, fun _ hr => hr⟩

theorem Narrows.trans (h : u.Narrows v) (h' : v.Narrows w) : u.Narrows w :=
  ⟨h'.height.trans h.height, fun r hr => h.scope r (h'.scope r hr)⟩

theorem Narrows.passes (h : v.Narrows w) : Passes names v w :=
  ⟨h.height, fun r hr => .inl (h.scope r hr)⟩

theorem Passes.refl (v : View) : Passes names v v := (Narrows.refl v).passes

theorem Passes.mono (h : Passes names v w) (hnames : ∀ name, names name → names' name) :
    Passes names' v w :=
  ⟨h.height, fun r hr => (h.scope r hr).imp_right fun hnew => ⟨hnew.1, hnames _ hnew.2⟩⟩

theorem Passes.trans (h : Passes names u v) (h' : Passes names v w) : Passes names u w := by
  refine ⟨h'.height.trans h.height, fun r hr => ?_⟩
  rcases h'.scope r hr with hr | hnew
  · exact (h.scope r hr).imp_right fun hnew => ⟨by rw [h'.height]; exact hnew.1, hnew.2⟩
  · exact .inr hnew

theorem Narrows.then (h : u.Narrows v) (h' : Passes names v w) : Passes names u w :=
  h.passes.trans h'

/-- The height after an instruction that finds its operands. -/
theorem height_after (hfits : i.Fits v.height) :
    ((v.after i).height : Int) = v.height + i.stackEffect := by
  have := i.consumes_add_stackEffect
  have := hfits.operands
  have heq : (v.after i).height = ((v.height : Int) + i.stackEffect).toNat := rfl
  omega

theorem carries_instr {d' : UInt32} (h : v.Carries (k.instr d)) : v.Carries (k.instr d') := by
  refine ⟨fits_instr h.fits, fun r hr => ?_, h.apart⟩
  rw [takes_instr k d', ← takes_instr k d]
  exact h.spared r hr

theorem after_instr (v : View) (k : JumpKind) (d d' : UInt32) :
    v.after (k.instr d) = v.after (k.instr d') := by
  unfold after
  rw [stackEffect_instr k d d']

end View

/-- An instruction uses the slots of variables in scope by their names: it reads a name
where it is, or the receiver for it, and writes to no slot but those of names that the
code writes to. -/
structure Names.Allows (names : Names) (scope : List Resident) (i : Instr) : Prop where
  reads : ∀ slot, i = .getLocal slot → ∀ name, names.reads = some name →
    ∃ r ∈ scope, r.slot = slot ∧ (r.name = name ∨ r.name = "this")
  writes : ∀ slot, i = .setLocal slot → ∀ r ∈ scope, r.slot = slot → r.name ∈ names.writes

theorem Names.Allows.ofSlotless {names : Names} {scope : List Resident}
    (hi : i.slotless = true) : names.Allows scope i := by
  refine ⟨fun slot h => ?_, fun slot h => ?_⟩ <;>
  · rw [h] at hi
    cases hi

/-- What is known around a piece of code: its names, and how the stack looks at the labels. -/
structure Levels extends Names where
  views : Label → Option View
  /-- What the code of nodes is held to, by the heights before and after it. -/
  expects : Expr → Tree → (before after : Nat) → Prop

namespace Levels

/-- The code of a unit, outside of all nodes. -/
def outer (binds : List String) (expects : Expr → Tree → Nat → Nat → Prop) : Levels :=
  ⟨.outer binds, fun _ => none, expects⟩

/-- Say how the stack looks at one label. -/
def set (levels : Levels) (l : Label) (v : View) : Levels :=
  { levels with views := fun m => if m = l then some v else levels.views m }

/-- A round may begin at the start of a loop. It is left with the same stack wherever it is left. -/
def inLoop (levels : Levels) (start stop : View) : Levels :=
  ((levels.set .start start).set .again stop).set .exit stop

/-- The names are those of the node that the code belongs to. -/
def inNode (levels : Levels) (e : Expr) : Levels := { levels with toNames := e.kind.names }

theorem set_self (levels : Levels) (l : Label) (v : View) : (levels.set l v).views l = some v :=
  if_pos rfl

theorem set_of_ne {l m : Label} (h : m ≠ l) (levels : Levels) (v : View) :
    (levels.set l v).views m = levels.views m := if_neg h

end Levels

/-- The instruction does no harm to variables, and uses them by their names. -/
structure View.Admits (levels : Levels) (v : View) (i : Instr) : Prop extends v.Carries i where
  allows : levels.Allows v.scope i

namespace Tree

/-- The code takes the stack from the view `v` to the view `w`, with the labels around it
at given views. Variables may go out of scope anywhere, but come into scope only where
no code is laid down. Where control does not come to the end, any view will do there. -/
def Balanced : (levels : Levels) → Tree → (v w : View) → Prop
  | levels, nil, v, w => View.Passes (· ∈ levels.binds) v w
  | levels, op i, v, w =>
    ∃ u, v.Narrows u ∧ u.Admits levels i ∧ (i.fallsThrough = true → w = u.after i)
  | levels, seq x y, v, w => ∃ u, Balanced levels x v u ∧ Balanced levels y u w
  | levels, jump k l, v, w =>
    let i := k.instr Instr.unpatched
    ∃ u s, v.Narrows u ∧ u.Admits levels i ∧ levels.views l = some s ∧ u.Narrows s ∧
      (i.fallsThrough = true → w = u.after i)
  | levels, block l t, v, w => Balanced (levels.set l w) t v w
  | levels, loop t, v, w => ∃ u, v.Narrows u ∧ Balanced (levels.inLoop u w) t u w
  | levels, back, v, _ =>
    ∃ s, levels.views .start = some s ∧ v.Narrows s ∧ s.Admits levels (.loop Instr.unpatched)
  | levels, node e t, v, w =>
    levels.expects e t v.height w.height ∧ Balanced (levels.inNode e) t v w

/-- The places where a name may come into scope, when the code starts at `start`. -/
def declares : (binds : List String) → Tree → (start : Nat) → List (Nat × String)
  | binds, nil, a => binds.map (Prod.mk a)
  | binds, seq x y, a => x.declares binds a ++ y.declares binds (a + x.size)
  | binds, block _ t, a | binds, loop t, a => t.declares binds a
  | _, node e t, a => t.declares e.kind.binds a
  | _, op _, _ | _, jump _ _, _ | _, back, _ => []

/-- The instructions other than jumps, with the names of the node that each belongs to. -/
def ops : (names : Names) → Tree → (start : Nat) → List (Nat × Names × Instr)
  | names, op i, a => [(a, names, i)]
  | names, seq x y, a => x.ops names a ++ y.ops names (a + x.size)
  | names, block _ t, a | names, loop t, a => t.ops names a
  | _, node e t, a => t.ops e.kind.names a
  | _, nil, _ | _, jump _ _, _ | _, back, _ => []

/-- Where the code of nodes starts, with the node and the code. -/
def marks : Tree → (start : Nat) → List (Nat × Expr × Tree)
  | seq x y, a => x.marks a ++ y.marks (a + x.size)
  | block _ t, a | loop t, a => t.marks a
  | node e t, a => (a, e, t) :: t.marks a
  | nil, _ | op _, _ | jump _ _, _ | back, _ => []

/-- Views for the offsets from `a` to `b` that every step of control respects, unless it
goes to a label outside. A step leads to some view `s`, from which variables may come
into scope only where they are declared. -/
structure Chart (code : Array Instr) (declared : List (Nat × String)) (sites : Sites)
    (views : Label → Option View) (a b : Nat) (view : Nat → View) : Prop where
  keeps : ∀ o, a ≤ o → o < b → ∃ i, code[o]? = some i ∧ (view o).Carries i ∧
    (i.isJump = true → ∃ t, jumpTarget? code o = some t)
  edge : ∀ o, a ≤ o → o < b → ∀ o' k, Edge code o (view o).height o' k →
    ∃ s : View, k = s.height ∧ (∀ r ∈ s.scope, r ∈ (view o).scope) ∧
      ((a ≤ o' ∧ o' ≤ b ∧ View.Passes (fun name => (o', name) ∈ declared) s (view o')) ∨
        ∃ l, sites l = some o' ∧ views l = some s)

section

variable {code : Array Instr} {declared : List (Nat × String)} {sites : Sites} {levels : Levels}
  {views : Label → Option View} {a b c : Nat}

/-- One instruction, whose jumps go to labels outside. -/
theorem Chart.single (declared : List (Nat × String)) {u w : View}
    (hi : code[a]? = some i) (hcarries : u.Carries i) (hnext : i.fallsThrough = true → w = u.after i)
    (hjump : i.isJump = true → ∃ t, jumpTarget? code a = some t)
    (htaken : ∀ t, jumpTarget? code a = some t →
      ∃ l s, sites l = some t ∧ views l = some s ∧ u.Narrows s ∧ i.jumpEffect = 0) :
    ∃ view : Nat → View, view a = u ∧ view (a + 1) = w ∧
      Chart code declared sites views a (a + 1) view := by
  have hsucc : (if a + 1 = a then u else w) = w := if_neg (Nat.succ_ne_self a)
  -- one view before the instruction and one behind it; a jump leads to the view at its label
  refine ⟨fun o => if o = a then u else w, if_pos rfl, hsucc, ?_, ?_⟩
  · intro o hlo hhi
    obtain rfl : o = a := by omega
    simp only [if_pos]
    exact ⟨i, hi, hcarries, hjump⟩
  · intro o hlo hhi o' k he
    obtain rfl : o = a := by omega
    simp only [if_pos] at he ⊢
    cases he with
    | next hi' hfalls =>
      cases hi.symm.trans hi'
      refine ⟨u.after i, (View.height_after hcarries.fits).symm, fun _ hr => hr,
        .inl ⟨by omega, by omega, ?_⟩⟩
      rw [hsucc, hnext hfalls]
      exact .refl _
    | taken hi' ht =>
      cases hi.symm.trans hi'
      obtain ⟨l, s, hsite, hview, hnarrow, heffect⟩ := htaken _ ht
      exact ⟨s, by rw [heffect, Int.add_zero, hnarrow.height], hnarrow.scope,
        .inr ⟨l, hsite, hview⟩⟩

/-- Two charts that agree where they meet are one. -/
theorem Chart.append {left right : Nat → View} (hl : Chart code declared sites views a b left)
    (hr : Chart code declared sites views b c right) (hab : a ≤ b) (hbc : b ≤ c)
    (hmeet : View.Passes (fun name => (b, name) ∈ declared) (left b) (right b)) :
    Chart code declared sites views a c fun o => if o < b then left o else right o := by
  refine ⟨fun o hlo hhi => ?_, fun o hlo hhi o' k he => ?_⟩
  · rcases Nat.lt_or_ge o b with ho | ho
    · rw [if_pos ho]
      exact hl.keeps o hlo ho
    · rw [if_neg (Nat.not_lt.mpr ho)]
      exact hr.keeps o ho hhi
  · rcases Nat.lt_or_ge o b with ho | ho
    · rw [if_pos ho] at he ⊢
      obtain ⟨s, hk, hscope, ⟨hlo', hhi', hpass⟩ | hout⟩ := hl.edge o hlo ho o' k he
      · refine ⟨s, hk, hscope, .inl ⟨hlo', by omega, ?_⟩⟩
        rcases Nat.lt_or_eq_of_le hhi' with ho' | rfl
        · rw [if_pos ho']
          exact hpass
        · rw [if_neg (Nat.lt_irrefl _)]
          exact hpass.trans hmeet
      · exact ⟨s, hk, hscope, .inr hout⟩
    · rw [if_neg (Nat.not_lt.mpr ho)] at he ⊢
      obtain ⟨s, hk, hscope, ⟨hlo', hhi', hpass⟩ | hout⟩ := hr.edge o ho hhi o' k he
      · refine ⟨s, hk, hscope, .inl ⟨by omega, hhi', ?_⟩⟩
        rw [if_neg (Nat.not_lt.mpr hlo')]
        exact hpass
      · exact ⟨s, hk, hscope, .inr hout⟩

/-- A label at a place inside need not be outside too. -/
theorem Chart.hide {l : Label} {o : Nat} {v : View}
    (h : Chart code declared (sites.set l o) (levels.set l v).views a b view) (hlo : a ≤ o)
    (hhi : o ≤ b) (hv : View.Passes (fun name => (o, name) ∈ declared) v (view o)) :
    Chart code declared sites levels.views a b view := by
  refine ⟨h.keeps, fun x hx hx' o' k he => ?_⟩
  obtain ⟨s, hk, hscope, hin | ⟨m, hsite, hview⟩⟩ := h.edge x hx hx' o' k he
  · exact ⟨s, hk, hscope, .inl hin⟩
  · refine ⟨s, hk, hscope, ?_⟩
    by_cases hm : m = l
    · subst hm
      rw [Sites.set_self, Option.some.injEq] at hsite
      rw [Levels.set_self, Option.some.injEq] at hview
      subst hsite hview
      exact .inl ⟨hlo, hhi, hv⟩
    · rw [Sites.set_of_ne hm] at hsite
      rw [Levels.set_of_ne hm] at hview
      exact .inr ⟨m, hsite, hview⟩

end

theorem mem_ops : ∀ {t : Tree} {names : Names} {a : Nat} {x : Nat × Names × Instr},
    x ∈ t.ops names a → a ≤ x.1 ∧ x.1 < a + t.size
  | op i, names, a, x, h => by
    cases List.mem_singleton.mp h
    exact ⟨Nat.le_refl a, Nat.lt_succ_self a⟩
  | seq t t', names, a, x, h => by
    simp only [size]
    rcases List.mem_append.mp h with h | h
    · have := mem_ops h
      omega
    · have := mem_ops h
      omega
  | block _ t, names, a, x, h | loop t, names, a, x, h => mem_ops (t := t) h
  | node e t, names, a, x, h => mem_ops (t := t) h
  | nil, names, a, x, h | jump _ _, names, a, x, h | back, names, a, x, h =>
    absurd h List.not_mem_nil

theorem mem_marks : ∀ {t : Tree} {a : Nat} {x : Nat × Expr × Tree}, x ∈ t.marks a →
    a ≤ x.1 ∧ x.1 + x.2.2.size ≤ a + t.size
  | seq t t', a, x, h => by
    simp only [size]
    rcases List.mem_append.mp h with h | h
    · have := mem_marks h
      omega
    · have := mem_marks h
      omega
  | node e t, a, x, h => by
    rcases List.mem_cons.mp h with rfl | h
    · exact ⟨Nat.le_refl a, Nat.le_refl _⟩
    · exact mem_marks (t := t) h
  | block _ t, a, x, h | loop t, a, x, h => mem_marks (t := t) h
  | nil, a, x, h | op _, a, x, h | jump _ _, a, x, h | back, a, x, h => absurd h List.not_mem_nil

/-- The code of every node does what it is held to. -/
def NodesKept (expects : Expr → Tree → Nat → Nat → Prop) (view : Nat → View)
    (places : List (Nat × Expr × Tree)) : Prop :=
  ∀ x ∈ places, expects x.2.1 x.2.2 (view x.1).height (view (x.1 + x.2.2.size)).height

/-- Every instruction uses variables by their names. -/
def NamesKept (view : Nat → View) (places : List (Nat × Names × Instr)) : Prop :=
  ∀ x ∈ places, x.2.1.Allows (view x.1).scope x.2.2

/-- Balanced code has a chart, by induction on the tree: a label becomes a place inside
where its block ends or its loop begins. -/
theorem Balanced.chart {t : Tree} :
    ∀ {sites : Sites} {levels : Levels} {a : Nat} {v w : View}, t.Balanced levels v w →
      t.At code sites a → (∀ l, sites l = none → t.uses l a = []) →
      (∀ x ∈ t.declares levels.binds a, x ∈ declared) →
      ∃ view : Nat → View, View.Passes (fun name => (a, name) ∈ declared) v (view a) ∧
        view (a + t.size) = w ∧ Chart code declared sites levels.views a (a + t.size) view ∧
        NamesKept view (t.ops levels.toNames a) ∧
        NodesKept levels.expects view (t.marks a) := by
  induction t with
  | nil =>
    intro _ levels a v w hbal _ _ hdeclared
    refine ⟨fun _ => w, hbal.mono fun name hname => ?_, rfl, ⟨fun _ _ _ => ?_, fun _ _ _ => ?_⟩,
      fun _ hx => absurd hx List.not_mem_nil, fun _ hx => absurd hx List.not_mem_nil⟩
    · exact hdeclared _ (List.mem_map.mpr ⟨name, hname, rfl⟩)
    all_goals
      simp only [size] at *
      omega
  | op i =>
    intro _ levels a v w hbal hat _ _
    obtain ⟨u, hnarrow, hadmits, hnext⟩ := hbal
    have hnone := jumpTarget_of_not_jump hat.1 hat.2
    obtain ⟨view, ha, hb, hchart⟩ := Chart.single declared (w := w) hat.1
      hadmits.toCarries hnext (fun hjump => by rw [hat.2] at hjump; cases hjump)
      fun t ht => by rw [hnone] at ht; cases ht
    refine ⟨view, by rw [ha]; exact hnarrow.passes, hb, hchart, fun x hx => ?_,
      fun _ hx => absurd hx List.not_mem_nil⟩
    cases List.mem_singleton.mp hx
    dsimp only
    rw [ha]
    exact hadmits.allows
  | seq x y ihx ihy =>
    intro sites levels a v w hbal hat hclosed hdeclared
    obtain ⟨u, hx, hy⟩ := hbal
    obtain ⟨left, hla, hlb, hleft, hopsx, hmarksx⟩ := ihx hx hat.1
      (fun l hl => (List.append_eq_nil_iff.mp (hclosed l hl)).1)
      fun d hd => hdeclared d (List.mem_append_left _ hd)
    obtain ⟨right, hra, hrb, hright, hopsy, hmarksy⟩ := ihy hy hat.2
      (fun l hl => (List.append_eq_nil_iff.mp (hclosed l hl)).2)
      fun d hd => hdeclared d (List.mem_append_right _ hd)
    rw [← hlb] at hra
    have hboth := hleft.append hright (by omega) (by omega) hra
    -- at the place where they meet, both sides have the same height
    have hmeet {o : Nat} (ho : o ≤ a + x.size) :
        (if o < a + x.size then left o else right o).height = (left o).height := by
      split
      · rfl
      · obtain rfl : o = a + x.size := by omega
        exact hra.height
    refine ⟨_, ?_, ?_, by rw [size, ← Nat.add_assoc]; exact hboth, fun d hd => ?_, fun d hd => ?_⟩
    · split
      · exact hla
      · -- nothing was laid down for the first part
        have hsize : a + x.size = a := by omega
        rw [hsize] at hra
        exact hla.trans hra
    · simp only [size, ← Nat.add_assoc]
      rw [if_neg (by omega)]
      exact hrb
    · rcases List.mem_append.mp hd with hd | hd
      · rw [if_pos (mem_ops hd).2]
        exact hopsx d hd
      · rw [if_neg (Nat.not_lt.mpr (mem_ops hd).1)]
        exact hopsy d hd
    · rcases List.mem_append.mp hd with hd | hd
      · have := mem_marks hd
        rw [hmeet (by omega), hmeet (by omega)]
        exact hmarksx d hd
      · have := mem_marks hd
        rw [if_neg (by omega), if_neg (by omega)]
        exact hmarksy d hd
  | jump k l =>
    intro sites levels a v w hbal hat hclosed _
    obtain ⟨u, s, hnarrow, hadmits, hview, hlands, hnext⟩ := hbal
    rw [At] at hat
    cases hsite : sites l with
    | none => simpa [uses] using hclosed l hsite
    | some t =>
      rw [hsite] at hat
      obtain ⟨d, hcode, -, ht⟩ := hat
      have htarget := jumpTarget_of_forward hcode
      obtain ⟨view, ha, hb, hchart⟩ := Chart.single declared (w := w) hcode
        (View.carries_instr hadmits.toCarries) (fun hfalls => by
          rw [u.after_instr k d Instr.unpatched]
          exact hnext (by rw [← hfalls]; exact fallsThrough_instr ..))
        (fun _ => ⟨_, htarget⟩) fun t' ht' => by
          rw [htarget, ht, Option.some.injEq] at ht'
          subst ht'
          exact ⟨l, s, hsite, hview, hlands, jumpEffect_instr k d⟩
      exact ⟨view, by rw [ha]; exact hnarrow.passes, hb, hchart,
        fun _ hx => absurd hx List.not_mem_nil, fun _ hx => absurd hx List.not_mem_nil⟩
  | block l t ih =>
    intro sites levels a v w hbal hat hclosed hdeclared
    obtain ⟨view, ha, hb, hchart, hops⟩ := ih hbal hat.2 (fun m hm => by
      have hne : m ≠ l := by
        rintro rfl
        rw [Sites.set_self] at hm
        cases hm
      rw [Sites.set_of_ne hne] at hm
      simpa [uses, hne.symm] using hclosed m hm) hdeclared
    exact ⟨view, ha, hb, hchart.hide (Nat.le_add_right ..) (Nat.le_refl _) (by rw [hb]; exact .refl w),
      hops⟩
  | loop t ih =>
    intro sites levels a v w hbal hat hclosed hdeclared
    obtain ⟨u, hnarrow, hbal⟩ := hbal
    obtain ⟨view, ha, hb, hchart, hops⟩ := ih hbal hat (fun m hm => by
      obtain ⟨hout, hm⟩ := Sites.of_inLoop_none hm
      simpa [uses, hout] using hclosed m hm) hdeclared
    have hend : a ≤ a + t.size := Nat.le_add_right ..
    have hstop : View.Passes (fun name => (a + t.size, name) ∈ declared) w (view (a + t.size)) := by
      rw [hb]
      exact .refl w
    exact ⟨view, hnarrow.then ha, hb, ((hchart.hide hend (Nat.le_refl _) hstop).hide hend
      (Nat.le_refl _) hstop).hide (Nat.le_refl _) hend ha, hops⟩
  | back =>
    intro sites levels a v w hbal hat _ _
    obtain ⟨s, hview, hnarrow, hadmits⟩ := hbal
    obtain ⟨t, d, hsite, hcode, ht, -⟩ := hat
    have htarget := jumpTarget_of_back hcode ht
    obtain ⟨view, ha, hb, hchart⟩ := Chart.single declared (u := s) (w := w) hcode
      ⟨⟨hadmits.fits.operands, trivial⟩, hadmits.spared, hadmits.apart⟩
      (fun hfalls => by cases hfalls)
      (fun _ => ⟨_, htarget⟩) fun t' ht' => by
        rw [htarget, Option.some.injEq] at ht'
        subst ht'
        exact ⟨.start, s, hsite, hview, .refl s, rfl⟩
    exact ⟨view, by rw [ha]; exact hnarrow.passes, hb, hchart,
      fun _ hx => absurd hx List.not_mem_nil, fun _ hx => absurd hx List.not_mem_nil⟩
  | node e t ih =>
    intro sites levels a v w hbal hat hclosed hdeclared
    obtain ⟨hexpects, hbal⟩ := hbal
    obtain ⟨view, ha, hb, hchart, hops, hmarks⟩ := ih hbal hat hclosed hdeclared
    refine ⟨view, ha, hb, hchart, hops, fun x hx => ?_⟩
    rcases List.mem_cons.mp hx with rfl | hx
    · dsimp only
      rw [hb, ha.height]
      exact hexpects
    · exact hmarks x hx

end Tree

/-! ## Units -/

/-- Views for the offsets of a unit by which all paths through it go, from the variables on
that it starts with. -/
structure Charted (u : CodeUnit) (declared : List (Nat × String)) (entry : List Resident)
    (view : Nat → View) : Prop where
  start : ∀ r ∈ (view 0).scope, r ∈ entry ∨
    (r.slot.toNat = u.header.totalArity.toNat ∧ (0, r.name) ∈ declared)
  height : ∀ {o h}, u.Reaches o h → h = (view o).height
  keeps : ∀ {o h}, u.Reaches o h → ∃ i, u.code[o]? = some i ∧ (view o).Carries i ∧
    (i.isJump = true → ∃ t, jumpTarget? u.code o = some t)
  scope : ∀ {o h o' h'}, u.Reaches o h → Edge u.code o h o' h' → ∀ r ∈ (view o').scope,
    r ∈ (view o).scope ∨ ((r.slot.toNat : Int) + 1 = h' ∧ (o', r.name) ∈ declared)

/-- A unit has a chart if its code is balanced up to a final return. -/
theorem charted_of_balanced {t : Tree} {levels : Levels} {v w : View} (hbal : t.Balanced levels v w)
    (hv : v.height = 1 + u.header.totalArity.toNat) (hat : t.At u.code .none 0) (hclosed : ∀ l, t.uses l 0 = [])
    (hdeclared : ∀ x ∈ t.declares levels.binds 0, x ∈ declared)
    (hret : u.code[t.size]? = some .ret) (hend : w.Carries .ret) :
    ∃ view, Charted u declared v.scope view ∧ Tree.NamesKept view (t.ops levels.toNames 0) ∧
      Tree.NodesKept levels.expects view (t.marks 0) := by
  obtain ⟨view, hstart, hlast, hchart, hops, hmarks⟩ := hbal.chart hat (fun l _ => hclosed l) hdeclared
  rw [Nat.zero_add] at hlast hchart
  -- no step leads out of the code: no label is outside, and nothing follows the return
  have hedge {o o' : Nat} {k : Int} (hle : o ≤ t.size) (he : Edge u.code o (view o).height o' k) :
      o' ≤ t.size ∧ ∃ s : View, k = s.height ∧ (∀ r ∈ s.scope, r ∈ (view o).scope) ∧
        View.Passes (fun name => (o', name) ∈ declared) s (view o') := by
    rcases Nat.lt_or_eq_of_le hle with hlt | rfl
    · obtain ⟨s, hk, hscope, ⟨-, hhi, hpass⟩ | ⟨l, hsite, -⟩⟩ :=
        hchart.edge o (Nat.zero_le o) hlt o' k he
      · exact ⟨hhi, s, hk, hscope, hpass⟩
      · cases hsite
    · cases he with
      | next hi hfalls =>
        cases hret.symm.trans hi
        cases hfalls
      | taken hi ht =>
        rw [jumpTarget_of_not_jump hret rfl] at ht
        cases ht
  have hcovers {o : Nat} {h : Int} (hr : u.Reaches o h) : o ≤ t.size ∧ h = (view o).height := by
    induction hr with
    | entry => exact ⟨Nat.zero_le _, by rw [hstart.height, hv]; omega⟩
    | step hr he ih =>
      obtain ⟨hle, rfl⟩ := ih
      obtain ⟨hle', s, rfl, -, hpass⟩ := hedge hle he
      exact ⟨hle', by rw [hpass.height]⟩
  refine ⟨view, ⟨fun r hr => ?_, fun hr => (hcovers hr).2, fun {o h} hr => ?_,
    fun {o h o' h'} hr he r hmem => ?_⟩, hops, hmarks⟩
  · refine (hstart.scope r hr).imp_right fun ⟨htop, hname⟩ => ⟨?_, hname⟩
    have := hstart.height
    omega
  · obtain ⟨hle, rfl⟩ := hcovers hr
    rcases Nat.lt_or_eq_of_le hle with hlt | rfl
    · exact hchart.keeps o (Nat.zero_le o) hlt
    · rw [hlast]
      exact ⟨.ret, hret, hend, nofun⟩
  · obtain ⟨hle, rfl⟩ := hcovers hr
    obtain ⟨-, s, rfl, hscope, hpass⟩ := hedge hle he
    rcases hpass.scope r hmem with hr | ⟨htop, hname⟩
    · exact .inl (hscope r hr)
    · refine .inr ⟨?_, hname⟩
      have := hpass.height
      omega

theorem Charted.stackDisciplined {entry : List Resident} (h : Charted u declared entry view) :
    u.StackDisciplined := by
  refine ⟨fun hr hr' => by rw [h.height hr, h.height hr'], fun hr => ?_⟩
  obtain ⟨i, hi, hcarries, hjump⟩ := h.keeps hr
  exact ⟨i, hi, by rw [h.height hr]; exact hcarries.fits, hjump⟩

end Codegen

end Strand
