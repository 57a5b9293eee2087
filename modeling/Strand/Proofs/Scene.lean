import Mathlib.Tactic.Common
import Strand.Codegen.Frame

/-!
# Scenes: what a stretch of code depends on

Of all that a frame keeps, the code that is laid down next depends on little: which
names hold which slots, how many blocks are open, how high the stack is, and what the
innermost loop is. A scene is that part. The operations here are those of frames with
the rest left out, and the lemmas say so.
-/

namespace Strand.Codegen

/-- A local without its type. -/
structure Var where
  name : String
  depth : Nat
  slot : UInt16
  isDropped : Bool := false
deriving DecidableEq

/-- What is kept of a local. -/
def Local.var (l : Local) : Var :=
  { name := l.name, depth := l.depth, slot := l.slot, isDropped := l.isDropped }

/-- The innermost loop, seen from its body. -/
structure LoopScene where
  baseHeight : Nat
  /-- `continue` goes back to the start, and does not jump forward. -/
  continuesBack : Bool
deriving DecidableEq

/-- What matters of a loop for the code inside. -/
def Loop.scene (l : Loop) : LoopScene := ⟨l.baseHeight, l.continueTarget.isSome⟩

/-- What code generation knows about a unit at some point, as far as the code depends on it. -/
structure Scene where
  kind : UnitKind
  locals : List Var
  depth : Nat
  height : Nat
  loop : Option LoopScene

namespace Scene

/-- Where the code of a unit starts. -/
def start (kind : UnitKind) : Scene :=
  { kind, depth := 0, height := 1, loop := none
    locals := [{ name := if kind.hasReceiver then "this" else "", depth := 0, slot := 0 }] }

/-- Declarations here make globals. -/
def isModuleLevel (c : Scene) : Bool := c.kind == .module && c.depth == 0

/-- The scene after an instruction. -/
def emit (c : Scene) (i : Instr) : Scene :=
  { c with height := ((c.height : Int) + i.stackEffect).toNat }

/-- The scene after the same instruction so many times. -/
def emitTimes (c : Scene) (i : Instr) : Nat → Scene
  | 0 => c
  | n + 1 => emitTimes (c.emit i) i n

/-- The scene with another height of the stack. -/
def setHeight (c : Scene) (n : Nat) : Scene := { c with height := n }

/-- The innermost local of a name that was not given up. -/
def findLocal? (c : Scene) (name : String) : Option Var :=
  if name.isEmpty then none
  else c.locals.find? fun l => !l.isDropped && l.name == name

/-- One more local in the innermost scope. -/
def declare (c : Scene) (name : String) (slot : UInt16) : Scene :=
  { c with locals := { name, depth := c.depth, slot } :: c.locals }

/-- The innermost local in the slot is given up. -/
def dropSlot (c : Scene) (slot : UInt16) : Scene :=
  let held := fun l : Var => l.slot == slot && !l.isDropped
  { c with locals := Frame.updateFirst held (fun l => { l with isDropped := true }) c.locals }

/-- The scene one scope deeper. -/
def openScope (c : Scene) : Scene := { c with depth := c.depth + 1 }

/-- How many locals the innermost block has declared. -/
def closeCount (c : Scene) : Nat := (c.locals.takeWhile fun l => c.depth - 1 < l.depth).length

/-- Forget the innermost block and its locals. -/
def leave (c : Scene) : Scene :=
  { c with depth := c.depth - 1, locals := c.locals.drop c.closeCount }

end Scene

/-! ## The scene of a frame -/

/-- What is seen of a frame. -/
def Frame.scene (f : Frame) : Scene :=
  { kind := f.kind, locals := f.locals.map Local.var, depth := f.depth, height := f.height
    loop := f.loops.head?.map Loop.scene }

namespace Frame

/-- An instruction changes the scene as it changes the frame. -/
theorem scene_emit (f : Frame) (i : Instr) (line : UInt64) :
    (f.emit i line).scene = f.scene.emit i := rfl

theorem scene_emitTimes (i : Instr) (line : UInt64) :
    ∀ (n : Nat) (f : Frame), (f.emitTimes i line n).scene = f.scene.emitTimes i n
  | 0, _ => rfl
  | n + 1, f => scene_emitTimes i line n (f.emit i line)

/-- In the scene the same local is found. -/
theorem findLocal?_scene (f : Frame) (name : String) :
    f.scene.findLocal? name = (f.findLocal? name).map Local.var := by
  unfold Scene.findLocal? findLocal?
  split
  · rfl
  · exact List.find?_map ..

/-- A projection may be applied before or after the first match is updated. -/
theorem map_updateFirst {α β : Type} {p : α → Bool} {g : α → α} {q : β → Bool} {h : β → β}
    (f : α → β) (hp : ∀ a, q (f a) = p a) (hg : ∀ a, f (g a) = h (f a)) :
    ∀ l : List α, (updateFirst p g l).map f = updateFirst q h (l.map f)
  | [] => rfl
  | a :: rest => by
    simp only [updateFirst, List.map_cons, hp]
    split
    · rw [List.map_cons, hg]
    · rw [List.map_cons, map_updateFirst f hp hg rest]

/-- An item of the updated list was there before, or is what became of one. -/
theorem exists_of_mem_updateFirst {α : Type} {p : α → Bool} {g : α → α} {b : α} :
    ∀ {l : List α}, b ∈ updateFirst p g l → ∃ a ∈ l, b = a ∨ b = g a
  | a :: rest, h => by
    rw [updateFirst] at h
    split at h
    · rcases List.mem_cons.mp h with rfl | h
      · exact ⟨a, .head _, .inr rfl⟩
      · exact ⟨b, .tail _ h, .inl rfl⟩
    · rcases List.mem_cons.mp h with rfl | h
      · exact ⟨b, .head _, .inl rfl⟩
      · obtain ⟨c, hc, hb⟩ := exists_of_mem_updateFirst h
        exact ⟨c, .tail _ hc, hb⟩

theorem scene_dropSlot (f : Frame) (slot : UInt16) :
    (f.dropSlot slot).scene = f.scene.dropSlot slot := by
  have hmap : (f.dropSlot slot).locals.map Local.var = (f.scene.dropSlot slot).locals := by
    simp only [dropSlot, scene, Scene.dropSlot]
    apply map_updateFirst <;> intro l <;> rfl
  rw [scene, hmap]
  rfl

/-- Types are not part of the scene. -/
theorem scene_retypeSlot (f : Frame) (slot : UInt16) (ty : Ty) :
    (f.retypeSlot slot ty).scene = f.scene := by
  have hsame : ∀ l : List Local,
      (updateFirst (fun l => l.slot == slot) (fun l => { l with ty }) l).map Local.var =
        l.map Local.var := by
    intro l
    induction l with
    | nil => rfl
    | cons a rest ih =>
      simp only [updateFirst]
      split
      · rfl
      · rw [List.map_cons, ih, List.map_cons]
  simp only [scene, retypeSlot, hsame]

/-! ### What a stretch of instructions changes -/

/-- Instructions change the height and the code, and nothing else of a frame. -/
theorem emitTimes_eq (i : Instr) (line : UInt64) : ∀ (n : Nat) (f : Frame),
    f.emitTimes i line n =
      { f with height := (f.emitTimes i line n).height, chunk := (f.emitTimes i line n).chunk }
  | 0, _ => rfl
  | n + 1, f => by
    rw [emitTimes, emitTimes_eq i line n (f.emit i line)]
    rfl

theorem closeCount_scene (f : Frame) :
    f.scene.closeCount = (f.locals.takeWhile fun l => f.depth - 1 < l.depth).length := by
  have hmap : f.scene.locals.takeWhile (fun l => decide (f.depth - 1 < l.depth)) =
      (f.locals.takeWhile fun l => decide (f.depth - 1 < l.depth)).map Local.var :=
    List.takeWhile_map ..
  rw [Scene.closeCount, show f.scene.depth = f.depth from rfl, hmap, List.length_map]

/-- To leave a block is to take its locals off the stack, and then to forget them. -/
theorem scene_closeScope (f : Frame) (carry : Bool) (line : UInt64) :
    (f.closeScope carry line).scene =
      (f.scene.emitTimes (if carry then .popUnder else .pop) f.scene.closeCount).leave := by
  have hcount := closeCount_scene f
  rw [← scene_emitTimes _ line, emitTimes_eq, hcount, Scene.leave, closeCount_scene]
  simp only [closeScope, scene]
  rw [emitTimes_eq]
  simp

end Frame

end Strand.Codegen
