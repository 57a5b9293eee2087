import Strand.Proofs.Meaning.Evaluator
import Strand.Proofs.Scheme

/-!
# Stacks and environments

While a body is run its locals are spread over the stack, with values between them that
are still to be used. `fill` says where they are: a cell of the stack is either a value,
which stays as it is, or a local, whose value the environment gives. `Placed` says that
the slots of the scene are those of the locals; those that a loop keeps for itself have no
name in the program, and are values like others. So what an evaluation does to the
environment determines what the code has to do to the stack.

Where an evaluation ends early, the code goes to a label of the loop around it, with the
stack that the loop started with. That loop is part of the `Setting` of a piece of code.
-/

namespace Strand.Machine

open Codegen

variable {V σ E : Type} {env : Env V} {scope : List String} {cells : List (Option V)}
  {x : Exit V σ E} {o : Outcome V σ E}

variable {names : List String} {ls : List Var} {name : String}

/-! ## Cells -/

/-- The stack with these cells: values, and locals that an environment gives the values
of. -/
def fill : List (Option V) → Env V → List V
  | [], _ => []
  | some v :: cells, env => v :: fill cells env
  | none :: cells, (_, v) :: env => v :: fill cells env
  | none :: _, [] => []

/-- The locals of a scene stand in the cells that are for locals. Those that are hidden have
values in place of names, and do not hide any name. Below all of them is the callee. -/
inductive Placed : List (Option V) → (names : List String) → List Var → Prop where
  | callee {l : Var} {v : V} : Placed [some v] [] [l]
  | value {cells : List (Option V)} {names : List String} {ls : List Var} (v : V)
      (h : Placed cells names ls) : Placed (some v :: cells) names ls
  | var {cells : List (Option V)} {names : List String} {ls : List Var} {l : Var}
      (hslot : l.slot.toNat = cells.length) (hkept : l.isDropped = false)
      (h : Placed cells names ls) : Placed (none :: cells) (l.name :: names) (l :: ls)
  | hidden {cells : List (Option V)} {names : List String} {ls : List Var} {l : Var} (v : V)
      (hslot : l.slot.toNat = cells.length) (hname : l.name ∉ names)
      (h : Placed cells names ls) : Placed (some v :: cells) names (l :: ls)

theorem Env.names_cons_inv {n : String} (h : env.names = n :: names) :
    ∃ (v : V) (env' : Env V), env = (n, v) :: env' ∧ env'.names = names := by
  cases env with
  | nil => cases h
  | cons b env =>
    obtain ⟨hn, hnames⟩ := List.cons.inj h
    exact ⟨b.2, env, by rw [← hn], hnames⟩

theorem length_fill (h : Placed cells names ls) (henv : env.names = names) :
    (fill cells env).length = cells.length := by
  induction h generalizing env with
  | callee => rfl
  | value v _ ih | hidden v _ _ _ ih => rw [fill, List.length_cons, ih henv, List.length_cons]
  | var _ _ _ ih =>
    obtain ⟨v, env, rfl, hrest⟩ := Env.names_cons_inv henv
    rw [fill, List.length_cons, ih hrest, List.length_cons]

/-- A slot below is not that of the cell on top. -/
theorem Placed.slot_ne {i : Nat} (h : Placed cells names ls) (henv : env.names = names)
    (hi : i < cells.length) : i ≠ (fill cells env).length := by
  rw [length_fill h henv]
  omega

/-- Which local of a scene a name denotes. -/
def denotes (name : String) (l : Var) : Bool := !l.isDropped && l.name == name

theorem findLocal?_eq (c : Scene) (hname : name ≠ "") :
    c.findLocal? name = c.locals.find? (denotes name) := by
  rw [Scene.findLocal?, if_neg (by simpa using hname)]
  rfl

/-- A name that is declared denotes a local whose slot holds its value. -/
theorem Placed.read (h : Placed cells names ls) (henv : env.names = names) (hname : name ∈ names) :
    ∃ v l, env.lookup name = some v ∧ ls.find? (denotes name) = some l ∧
      l.slot.toNat < cells.length ∧ slot? (fill cells env) l.slot.toNat = some v := by
  induction h generalizing env with
  | callee => cases hname
  | @value cells names ls v h ih =>
    obtain ⟨w, l, hlookup, hfind, hlt, hslot⟩ := ih henv hname
    -- the name was found further down, so the value on top is not in its slot
    have hne := h.slot_ne henv hlt
    exact ⟨w, l, hlookup, hfind, Nat.lt_succ_of_lt hlt, by rw [fill, slot?, if_neg hne, hslot]⟩
  | @var cells names ls l hslot hkept h ih =>
    obtain ⟨v, env, rfl, hrest⟩ := Env.names_cons_inv henv
    by_cases hl : l.name = name
    · refine ⟨v, l, by rw [hl, List.lookup_cons_self], ?_, ?_, ?_⟩
      · exact List.find?_cons_of_pos (by simp [denotes, hkept, hl])
      · rw [List.length_cons, hslot]
        omega
      · rw [fill, slot?, hslot, length_fill h hrest, if_pos rfl]
    · have hmem : name ∈ names := (List.mem_cons.mp hname).resolve_left (Ne.symm hl)
      obtain ⟨w, l', hlookup, hfind, hlt, hfound⟩ := ih hrest hmem
      have hne := h.slot_ne hrest hlt
      refine ⟨w, l', ?_, ?_, Nat.lt_succ_of_lt hlt, by rw [fill, slot?, if_neg hne, hfound]⟩
      · rw [List.lookup_cons, beq_eq_false_iff_ne.mpr (Ne.symm hl)]
        exact hlookup
      · rw [List.find?_cons_of_neg (by simp [denotes, hl]), hfind]
  | @hidden cells names ls l v hslot hl h ih =>
    obtain ⟨w, l', hlookup, hfind, hlt, hfound⟩ := ih henv hname
    have hother : l.name ≠ name := fun heq => hl (heq ▸ hname)
    have hne := h.slot_ne henv hlt
    refine ⟨w, l', hlookup, ?_, Nat.lt_succ_of_lt hlt, by rw [fill, slot?, if_neg hne, hfound]⟩
    rw [List.find?_cons_of_neg (by simp [denotes, hother]), hfind]

theorem Env.names_assign (env : Env V) (name : String) (v : V) :
    (env.assign name v).names = env.names := by
  induction env with
  | nil => rfl
  | cons b env ih =>
    rw [Env.assign]
    split
    · rfl
    · exact congrArg (b.1 :: ·) ih

/-- Putting a value into the slot of a name assigns it to the name. -/
theorem Placed.write
    (h : Placed cells names ls) (henv : env.names = names) (hname : name ∈ names) (v : V) :
    ∃ l, ls.find? (denotes name) = some l ∧ l.slot.toNat < cells.length ∧
      setSlot? (fill cells env) l.slot.toNat v = some (fill cells (env.assign name v)) := by
  induction h generalizing env with
  | callee => cases hname
  | @value cells names ls w h ih =>
    obtain ⟨l, hfind, hlt, hset⟩ := ih henv hname
    -- as for reading, the cell on top is another one
    have hne := h.slot_ne henv hlt
    refine ⟨l, hfind, Nat.lt_succ_of_lt hlt, ?_⟩
    rw [fill, setSlot?, if_neg hne, hset]
    rfl
  | @var cells names ls l hslot hkept h ih =>
    obtain ⟨w, env, rfl, hrest⟩ := Env.names_cons_inv henv
    by_cases hl : l.name = name
    · refine ⟨l, List.find?_cons_of_pos (by simp [denotes, hkept, hl]), ?_, ?_⟩
      · rw [List.length_cons, hslot]
        omega
      · rw [fill, setSlot?, hslot, length_fill h hrest, if_pos rfl, Env.assign, if_pos hl, fill]
    · have hmem : name ∈ names := (List.mem_cons.mp hname).resolve_left (Ne.symm hl)
      obtain ⟨l', hfind, hlt, hset⟩ := ih hrest hmem
      have hne := h.slot_ne hrest hlt
      refine ⟨l', ?_, Nat.lt_succ_of_lt hlt, ?_⟩
      · rw [List.find?_cons_of_neg (by simp [denotes, hl]), hfind]
      · rw [fill, setSlot?, if_neg hne, hset, Env.assign, if_neg hl]
        rfl
  | @hidden cells names ls l w hslot hl h ih =>
    obtain ⟨l', hfind, hlt, hset⟩ := ih henv hname
    have hother : l.name ≠ name := fun heq => hl (heq ▸ hname)
    have hne := h.slot_ne henv hlt
    refine ⟨l', ?_, Nat.lt_succ_of_lt hlt, ?_⟩
    · rw [List.find?_cons_of_neg (by simp [denotes, hother]), hfind]
    · rw [fill, setSlot?, if_neg hne, hset]
      rfl

/-! ## Taking values off -/

/-- How many of the cells are for locals. -/
def holes (cells : List (Option V)) : Nat := cells.countP Option.isNone

theorem Placed.holes (h : Placed cells names ls) : holes cells = names.length := by
  induction h with
  | callee => rfl
  | value v _ ih | hidden v _ _ _ ih => simpa [Machine.holes] using ih
  | var _ _ _ ih => simpa [Machine.holes] using ih

theorem drop_fill (above below : List (Option V)) (h : holes (above ++ below) = env.length) :
    (fill (above ++ below) env).drop above.length = fill below (env.outermost (holes below)) := by
  induction above generalizing env with
  | nil =>
    rw [Env.outermost, show holes below = env.length from h, Nat.sub_self]
    rfl
  | cons cell above ih =>
    cases cell with
    | some v =>
      have hrest : holes (above ++ below) = env.length := by simpa [holes] using h
      exact ih hrest
    | none =>
      cases env with
      | nil => simp [holes] at h
      | cons b env =>
        have hrest : holes (above ++ below) = env.length := by simpa [holes] using h
        have hle : holes below ≤ env.length := by
          rw [← hrest, holes, holes, List.countP_append]
          exact Nat.le_add_left ..
        have hout : Env.outermost (holes below) (b :: env) = Env.outermost (holes below) env := by
          rw [Env.outermost, Env.outermost, List.length_cons, Nat.succ_sub hle,
            List.drop_succ_cons]
        rw [hout]
        exact ih hrest

theorem Env.names_outermost (h : names <:+ env.names) :
    (env.outermost names.length).names = names := by
  obtain ⟨news, hnews⟩ := h
  have hlength : env.length - names.length = news.length := by
    have hlen := congrArg List.length hnews
    rw [List.length_append, Env.names, List.length_map] at hlen
    omega
  have hdrop := congrArg (List.drop news.length) hnews
  rw [List.drop_left' rfl, Env.names, ← List.map_drop] at hdrop
  rw [Env.outermost, hlength]
  exact hdrop.symm

/-! ## Settings -/

/-- The loop around a piece of code: how `continue` goes in it, and the cells of the stack and
the names with which its iterations start. -/
structure Ring (V : Type) where
  continuesBack : Bool
  cells : List (Option V)
  names : List String

/-- What code generation knows of the loop. -/
def Ring.scene (a : Ring V) : LoopScene := ⟨a.cells.length, a.continuesBack⟩

/-- Where `continue` goes. -/
def Ring.nextLabel (a : Ring V) : Label := if a.continuesBack then .start else .again

/-- What is around a piece of code: the loop that it may leave, and the open accumulators. -/
structure Setting (V : Type) where
  ring : Option (Ring V)
  accs : List (List V)

/-- In the same place, but with no loop to leave. -/
def Setting.closed (accs : List (List V)) : Setting V := ⟨none, accs⟩

/-- How an early end of an evaluation shows in the code: the machine stops, or control goes to
a label of the loop around with the stack that it started with. -/
inductive Exited (S : Setting V) : Exit V σ E → Outcome V σ E → Prop where
  | fail {e : E} : Exited S (.fail e) (.stop (.error e))
  | ret {v : V} {s : σ} : Exited S (.ret v s) (.stop (.ok (v, s)))
  | leave {a : Ring V} {env : Env V} {s : σ} (ha : S.ring = some a)
      (hnames : (env.outermost a.names.length).names = a.names) :
      Exited S (.leave env s)
        (.goto .exit ⟨fill a.cells (env.outermost a.names.length), S.accs, s⟩)
  | next {a : Ring V} {env : Env V} {s : σ} (ha : S.ring = some a)
      (hnames : (env.outermost a.names.length).names = a.names) :
      Exited S (.next env s)
        (.goto a.nextLabel ⟨fill a.cells (env.outermost a.names.length), S.accs, s⟩)

/-- Where there is no loop to leave, what is around does not matter. -/
theorem Exited.within {accs : List (List V)}
    (h : Exited (.closed accs) x o) (S : Setting V) : Exited S x o := by
  cases h with
  | fail => exact .fail
  | ret => exact .ret
  | leave ha _ | next ha _ => cases ha

/-- An early end passes a label that is not one of a loop. -/
theorem Exited.land {S : Setting V} (h : Exited S x o)
    {l : Label} (hl : l.isLocal = true) : o.land l = o := by
  cases h with
  | fail | ret => rfl
  | leave _ _ =>
    refine if_neg ?_
    rintro rfl
    cases hl
  | @next a _ _ _ _ =>
    refine if_neg ?_
    rintro rfl
    rw [Ring.nextLabel] at hl
    split at hl <;> cases hl

/-! ## Scenes -/

/-- The cells of the stack are those that a scene describes, and those of the loop around are
at the bottom of them. Code in a loop has one around it. -/
structure Fits (inLoop : Bool) (S : Setting V) (c : Scene) (cells : List (Option V))
    (env : Env V) : Prop where
  placed : Placed cells env.names c.locals
  height : c.height = cells.length
  ring : ∀ a, S.ring = some a → c.loop = some a.scene ∧ a.cells <:+ cells ∧
    a.names <:+ env.names ∧ holes a.cells = a.names.length
  inside : inLoop = true → S.ring ≠ none

section

variable {b : Bool} {S : Setting V} {c : Scene} {cells : List (Option V)} {env env' : Env V}
  {slot : UInt16}

theorem Fits.congr (h : Fits b S c cells env) (hnames : env'.names = env.names) :
    Fits b S c cells env' :=
  ⟨by rw [hnames]; exact h.placed, h.height, by rw [hnames]; exact h.ring, h.inside⟩

/-- Without the loop around, the rest stays. -/
theorem Fits.closed (h : Fits b S c cells env) (accs : List (List V)) :
    Fits false (.closed accs) c cells env where
  placed := h.placed
  height := h.height
  ring _ ha := by cases ha
  inside hb := by cases hb

theorem Fits.openScope (h : Fits b S c cells env) : Fits b S c.openScope cells env :=
  ⟨h.placed, h.height, h.ring, h.inside⟩

/-- Values that have been pushed. -/
theorem fill_append (vs : List V) (cells : List (Option V)) (env : Env V) :
    fill (vs.map some ++ cells) env = vs ++ fill cells env := by
  induction vs with
  | nil => rfl
  | cons v vs ih => exact congrArg (v :: ·) ih

theorem Placed.push (h : Placed cells names ls)
    (vs : List V) : Placed (vs.map some ++ cells) names ls := by
  induction vs with
  | nil => exact h
  | cons v vs ih => exact .value v ih

theorem Fits.push (h : Fits b S c cells env) (vs : List V) :
    Fits b S (c.setHeight (c.height + vs.length)) (vs.map some ++ cells) env where
  placed := h.placed.push vs
  height := by
    rw [List.length_append, List.length_map, ← h.height]
    exact Nat.add_comm ..
  ring a ha := by
    obtain ⟨hloop, hcells, hnames⟩ := h.ring a ha
    exact ⟨hloop, hcells.trans (List.suffix_append ..), hnames⟩
  inside := h.inside

/-- The value on top of the stack becomes a local. -/
theorem Fits.declare (h : Fits b S c cells env) (name : String)
    (hslot : slot.toNat = c.height) (v : V) :
    Fits b S ((c.setHeight (c.height + 1)).declare name slot) (none :: cells) ((name, v) :: env) where
  placed := .var (l := ⟨name, c.depth, slot, false⟩) (by rw [hslot, h.height]) rfl h.placed
  height := by
    rw [List.length_cons, ← h.height]
    rfl
  ring a ha := by
    obtain ⟨hloop, hcells, hnames, hholes⟩ := h.ring a ha
    exact ⟨hloop, hcells.trans (List.suffix_cons ..), hnames.trans (List.suffix_cons ..), hholes⟩
  inside := h.inside

/-- It becomes one that the program has no name for. -/
theorem Fits.hide (h : Fits b S c cells env) (hname : name ∉ env.names)
    (hslot : slot.toNat = c.height) (v : V) :
    Fits b S ((c.setHeight (c.height + 1)).declare name slot) (some v :: cells) env where
  placed := .hidden (l := ⟨name, c.depth, slot, false⟩) v (by rw [hslot, h.height]) hname h.placed
  height := by
    rw [List.length_cons, ← h.height]
    rfl
  ring a ha := by
    obtain ⟨hloop, hcells, hnames⟩ := h.ring a ha
    exact ⟨hloop, hcells.trans (List.suffix_cons ..), hnames⟩
  inside := h.inside

end

/-- Declarations are local, the locals are those of the blocks that are open, and the
names in `scope` denote some of them. What the unit returns is a value of its own. -/
structure Orderly (scope : List String) (c : Scene) : Prop where
  notModule : c.kind ≠ .module
  notConstructor : c.kind ≠ .constructor
  depth : ∀ l ∈ c.locals, l.depth ≤ c.depth
  bound : ∀ name ∈ scope, ∃ l ∈ c.locals, denotes name l = true

namespace Orderly

variable {scope : List String} {c : Scene}

theorem setHeight (h : Orderly scope c) (n : Nat) : Orderly scope (c.setHeight n) :=
  ⟨h.notModule, h.notConstructor, h.depth, h.bound⟩

theorem openScope (h : Orderly scope c) : Orderly scope c.openScope :=
  ⟨h.notModule, h.notConstructor, fun l hl => Nat.le_succ_of_le (h.depth l hl), h.bound⟩

theorem inLoop (h : Orderly scope c) (l : LoopScene) : Orderly scope { c with loop := some l } :=
  ⟨h.notModule, h.notConstructor, h.depth, h.bound⟩

theorem findLocal?_ne_none (h : Orderly scope c) (hmem : name ∈ scope)
    (hname : name ≠ "") : c.findLocal? name ≠ none := by
  obtain ⟨l, hl, hdenotes⟩ := h.bound name hmem
  intro hnone
  rw [findLocal?_eq c hname] at hnone
  exact List.find?_eq_none.mp hnone l hl hdenotes

end Orderly

/-- The scene with some values on top of the stack as new locals. -/
def declaring (c : Scene) (news : List Var) : Scene :=
  { c with locals := news ++ c.locals, height := c.height + news.length }

theorem declaring_append (c : Scene) (news news' : List Var) :
    declaring c (news' ++ news) = declaring (declaring c news) news' := by
  simp only [declaring, List.append_assoc, List.length_append]
  rw [Nat.add_assoc, Nat.add_comm news.length]

/-- Locals of the innermost block, none of them dropped. -/
def Fresh (c : Scene) (news : List Var) : Prop :=
  ∀ l ∈ news, l.depth = c.depth ∧ l.isDropped = false

theorem fresh_nil (c : Scene) : Fresh c [] := fun _ h => absurd h List.not_mem_nil

theorem fresh_local (c : Scene) (name : String) (slot : UInt16) :
    Fresh c [⟨name, c.depth, slot, false⟩] := by
  intro l hl
  cases List.mem_singleton.mp hl
  exact ⟨rfl, rfl⟩

theorem Orderly.declaring {c : Scene} (h : Orderly scope c)
    {news : List Var} (hnews : Fresh c news) :
    Orderly (news.map Var.name ++ scope) (declaring c news) where
  notModule := h.notModule
  notConstructor := h.notConstructor
  depth l hl := by
    rcases List.mem_append.mp hl with hl | hl
    · exact Nat.le_of_eq (hnews l hl).1
    · exact h.depth l hl
  bound name hname := by
    rcases List.mem_append.mp hname with hname | hname
    · obtain ⟨l, hl, rfl⟩ := List.mem_map.mp hname
      exact ⟨l, List.mem_append_left _ hl, by simp [denotes, (hnews l hl).2]⟩
    · obtain ⟨l, hl, hdenotes⟩ := h.bound name hname
      exact ⟨l, List.mem_append_right _ hl, hdenotes⟩

/-- The names of new locals need not be used. -/
theorem Orderly.forget (names : List String) {c : Scene}
    (h : Orderly (names ++ scope) c) : Orderly scope c :=
  ⟨h.notModule, h.notConstructor, h.depth, fun name hname =>
    h.bound name (List.mem_append_right _ hname)⟩

/-- The cells for new locals, above others. -/
def opening (news : List Var) (cells : List (Option V)) : List (Option V) :=
  news.map (fun _ => none) ++ cells

theorem opening_append (news news' : List Var) (cells : List (Option V)) :
    opening (news' ++ news) cells = opening news' (opening news cells) := by
  simp only [opening, List.map_append, List.append_assoc]

/-! ## Evaluations -/

section

variable {α β : Type} {m : Eval V σ E α} {f : α → Eval V σ E β} {s : Env V × σ}

theorem bind_of_ok {a : α} {s' : Env V × σ} (h : m s = some (.ok (a, s'))) :
    (m >>= f) s = f a s' := by
  simp [bind, StateT.bind, ExceptT.bind, ExceptT.mk, ExceptT.bindCont, h]

theorem bind_of_error (h : m s = some (.error x)) : (m >>= f) s = some (.error x) := by
  simp [bind, StateT.bind, ExceptT.bind, ExceptT.mk, ExceptT.bindCont, h, pure]

theorem bind_of_none (h : m s = none) : (m >>= f) s = none := by
  simp [bind, StateT.bind, ExceptT.bind, ExceptT.mk, h]

end

/-! ## Code and evaluations -/

section

variable {α β : Type} {I : Interp V σ E} {S : Setting V} {pool : List Constant} {t t' : Tree}
  {w : World V σ} {Q Q' : α → Env V → σ → Outcome V σ E → Prop}
  {R : β → Env V → σ → Outcome V σ E → Prop} {r : Option (Except (Exit V σ E) (α × Env V × σ))}
  {s : Env V × σ} {m : Eval V σ E α}

/-- Code that is run from a world goes as an evaluation does: it ends early if that does, and
if that gives something the code comes to an outcome that goes with it. If the evaluation is
undefined nothing is said. -/
inductive Follows (I : Interp V σ E) (S : Setting V) (pool : List Constant) (t : Tree)
    (w : World V σ) (Q : α → Env V → σ → Outcome V σ E → Prop) :
    Option (Except (Exit V σ E) (α × Env V × σ)) → Prop where
  | undefined : Follows I S pool t w Q none
  | exits {x : Exit V σ E} {o : Outcome V σ E} (h : Runs I pool t w o) (hx : Exited S x o) :
      Follows I S pool t w Q (some (.error x))
  | gives {a : α} {env : Env V} {s : σ} {o : Outcome V σ E} (h : Runs I pool t w o)
      (hq : Q a env s o) : Follows I S pool t w Q (some (.ok (a, env, s)))

/-- What follows after a piece of code: more code if it came to its end, and nothing if
it went to a label. -/
inductive Continues (I : Interp V σ E) (S : Setting V) (pool : List Constant) (t : Tree)
    (R : β → Env V → σ → Outcome V σ E → Prop) :
    Outcome V σ E → Option (Except (Exit V σ E) (β × Env V × σ)) → Prop where
  | on {w : World V σ} {r : Option (Except (Exit V σ E) (β × Env V × σ))}
      (h : Follows I S pool t w R r) : Continues I S pool t R (.fall w) r
  | out {l : Label} {w : World V σ} {b : β} {env : Env V} {s : σ} (h : R b env s (.goto l w)) :
      Continues I S pool t R (.goto l w) (some (.ok (b, env, s)))

/-- After an early end, no more code is run. -/
theorem Runs.skip (h : Runs I pool t w o) (hx : Exited S x o) : Runs I pool (.seq t t') w o := by
  cases hx with
  | fail | ret => exact .halt h
  | leave | next => exact .leave h

theorem Follows.imp (h : Follows I S pool t w Q r)
    (himp : ∀ a env s x, Q a env s x → Q' a env s x) : Follows I S pool t w Q' r := by
  cases h with
  | undefined => exact .undefined
  | exits h hx => exact .exits h hx
  | gives h hq => exact .gives h (himp _ _ _ _ hq)

theorem Follows.node (h : Follows I S pool t w Q r) (e : Expr) :
    Follows I S pool (.node e t) w Q r := by
  cases h with
  | undefined => exact .undefined
  | exits h hx => exact .exits (.node h) hx
  | gives h hq => exact .gives (.node h) hq

theorem Follows.block (h : Follows I S pool t w Q r) {l : Label} (hl : l.isLocal = true) :
    Follows I S pool (.block l t) w (fun a env s x => ∃ y, Q a env s y ∧ x = y.land l) r := by
  cases h with
  | undefined => exact .undefined
  | exits h hx =>
    have hblock : Runs I pool (.block l t) w _ := .block h
    rw [hx.land hl] at hblock
    exact .exits hblock hx
  | gives h hq => exact .gives (.block h) ⟨_, hq, rfl⟩

/-- Where there is no loop to leave, what is around does not matter. -/
theorem Follows.within {A : List (List V)} (h : Follows I (.closed A) pool t w Q r) :
    Follows I S pool t w Q r := by
  cases h with
  | undefined => exact .undefined
  | exits h hx => exact .exits h (hx.within S)
  | gives h hq => exact .gives h hq

/-- Code before, which has nothing to do with the evaluation. -/
theorem Follows.before {w' : World V σ} (h : Follows I S pool t' w' Q r)
    (hbefore : Runs I pool t w (.fall w')) : Follows I S pool (.seq t t') w Q r := by
  cases h with
  | undefined => exact .undefined
  | exits h hx => exact .exits (.seq hbefore h) hx
  | gives h hq => exact .gives (.seq hbefore h) hq

/-- Code after, which has nothing to do with the evaluation. -/
theorem Follows.after (h : Follows I S pool t w Q r)
    (hafter : ∀ a env s x, Q a env s x → Continues I S pool t' Q' x (some (.ok (a, env, s)))) :
    Follows I S pool (.seq t t') w Q' r := by
  cases h with
  | undefined => exact .undefined
  | exits h hx => exact .exits (h.skip hx) hx
  | gives h hq =>
    cases hafter _ _ _ _ hq with
    | on hrest =>
      cases hrest with
      | gives hrest hq' => exact .gives (.seq h hrest) hq'
    | out hq' => exact .gives (.leave h) hq'

/-- Pieces of code can be grouped as the evaluation is. -/
theorem Follows.assoc {t'' : Tree} (h : Follows I S pool (.seq t (.seq t' t'')) w Q r) :
    Follows I S pool (.seq (.seq t t') t'') w Q r := by
  cases h with
  | undefined => exact .undefined
  | exits h hx => exact .exits h.assoc hx
  | gives h hq => exact .gives h.assoc hq

/-- Code in one line goes as its last part does in one piece. -/
theorem Follows.flat (rest : List Tree) (h : Follows I S pool (.seq t (rest.foldl .seq t')) w Q r) :
    Follows I S pool (rest.foldl .seq (.seq t t')) w Q r := by
  cases h with
  | undefined => exact .undefined
  | exits h hx => exact .exits (h.flat rest) hx
  | gives h hq => exact .gives (h.flat rest) hq

theorem follows_map {g : α → β} :
    Follows I S pool t w R ((g <$> m) s) ↔ Follows I S pool t w (fun a => R (g a)) (m s) := by
  rw [map_eq_pure_bind]
  rcases hr : m s with _ | x | ⟨a, env, store⟩
  · rw [bind_of_none hr]
    constructor <;> intro _ <;> exact .undefined
  · rw [bind_of_error hr]
    constructor <;> rintro (_ | ⟨h, hx⟩) <;> exact .exits h hx
  · rw [bind_of_ok hr]
    constructor <;> rintro (_ | _ | ⟨h, hq⟩) <;> exact .gives h hq

/-- One piece of code after another goes as one evaluation after another. -/
theorem Follows.bind {f : α → Eval V σ E β} (h : Follows I S pool t w Q (m s))
    (hf : ∀ a env s' x, Q a env s' x → Continues I S pool t' R x (f a (env, s'))) :
    Follows I S pool (.seq t t') w R ((m >>= f) s) := by
  generalize hr : m s = r at h
  cases h with
  | undefined =>
    rw [bind_of_none hr]
    exact .undefined
  | exits h hx =>
    rw [bind_of_error hr]
    exact .exits (h.skip hx) hx
  | gives h hq =>
    rw [bind_of_ok hr]
    have hcont := hf _ _ _ _ hq
    generalize hr' : f _ _ = r' at hcont
    cases hcont with
    | out hR => exact .gives (.leave h) hR
    | on hrest =>
      cases hrest with
      | undefined => exact .undefined
      | exits hrest hx => exact .exits (.seq h hrest) hx
      | gives hrest hR => exact .gives (.seq h hrest) hR

end

end Strand.Machine
