import Strand.Code.Chunk
import Strand.Expr
import Strand.Ty.Names

/-!
# Frames: units under construction

A frame is all that is known about a unit while its code is laid down: the code so
far, the names it declares, and the exact height of the operand stack at the end of
the code. The height is what gives a local its slot, since a local is nothing but a
value left on the stack.

Locals, loops and macros are kept innermost first, so that what was declared last is
found first.
-/

namespace Strand.Codegen

/-- What a unit is the code of. -/
inductive UnitKind where
  | module
  | function
  | method
  | constructor
  | lambda
  /-- A body called on the spot: a scope literal, a switch or a match. -/
  | block
deriving DecidableEq, Inhabited

/-- Slot zero of these holds the receiver. -/
def UnitKind.hasReceiver : UnitKind → Bool
  | .method | .constructor => true
  | _ => false

/-- A variable that lives on the stack. -/
structure Local where
  name : String
  ty : Ty
  /-- How many blocks of the unit were open where it was declared. -/
  depth : Nat
  slot : UInt16
  isConst : Bool
  /-- A dropped local keeps its slot and is no longer found. -/
  isDropped : Bool := false
deriving Inhabited

/-- A macro, visible until the block it was declared in is closed. -/
structure InlineDef where
  name : String
  value : Expr
  depth : Nat

structure GlobalBinding where
  ty : Ty
  isConst : Bool
  /-- Supplied by the host, so not one of the module's own. -/
  isHost : Bool
deriving Inhabited

/-- What a unit captures from the unit around it, each once, in the order in which it was
first captured. -/
structure Captures where
  sources : Array CaptureSource
  distinct : sources.toList.Nodup

namespace Captures

def empty : Captures := ⟨#[], .nil⟩

instance : EmptyCollection Captures := ⟨empty⟩
instance : Inhabited Captures := ⟨empty⟩

theorem nodup_push {sources : Array CaptureSource} {source : CaptureSource}
    (h : sources.toList.Nodup) (hnew : source ∉ sources) :
    (sources.push source).toList.Nodup := by
  rw [Array.toList_push, List.nodup_append]
  refine ⟨h, List.pairwise_singleton _ source, fun a ha b hb => ?_⟩
  rw [List.mem_singleton.mp hb]
  exact fun heq => hnew (heq ▸ Array.mem_toList_iff.mp ha)

/-- Capture something and say under which index. What is captured already is not captured
again. -/
def add (c : Captures) (source : CaptureSource) : UInt16 × Captures :=
  if h : source ∈ c.sources then (UInt16.ofNat (c.sources.idxOf source), c)
  else (UInt16.ofNat (min c.sources.size 65535), ⟨c.sources.push source, nodup_push c.distinct h⟩)

end Captures

/-- A loop whose body is being laid down. -/
structure Loop where
  /-- The offset each iteration starts at. -/
  start : Nat
  /-- The height of the stack at the start of each iteration. -/
  baseHeight : Nat
  /-- Where `continue` goes back to; without it `continue` jumps forward. -/
  continueTarget : Option Nat
  /-- Forward jumps of `continue` that have not been aimed. -/
  continueJumps : List Nat := []
  /-- Jumps of `break`, aimed when the loop is closed. -/
  breakJumps : List Nat := []
deriving Inhabited

/-- A unit under construction. -/
structure Frame where
  kind : UnitKind
  header : UnitHeader
  manifest : Manifest := {}
  chunk : Chunk := {}
  locals : List Local
  /-- Generic parameters that are in scope. -/
  placeholders : List String := []
  captures : Captures := ∅
  globals : Table GlobalBinding := ∅
  types : TypeNames := {}
  inlines : List InlineDef := []
  /-- How many blocks are open. -/
  depth : Nat := 0
  /-- How many values the operand stack holds after the code so far. -/
  height : Nat := 1
  loops : List Loop := []
  /-- The class whose body the code stands in. -/
  owner : Option ClassRef := none
  /-- The declared type of the result. -/
  returnType : Option Ty := none

namespace Frame

/-- A fresh frame. Slot zero holds what is called, or the receiver. -/
def start (name : String) (kind : UnitKind) (owner : Option ClassRef) (receiver : Ty) : Frame :=
  { kind
    header := { name, isMethod := kind.hasReceiver }
    owner
    locals :=
      [{ name := if kind.hasReceiver then "this" else "", ty := receiver, depth := 0
         slot := 0, isConst := true }] }

instance : Inhabited Frame := ⟨start "" .module none .any⟩

/-- Whether declarations made here are globals of the module. -/
def isModuleLevel (f : Frame) : Bool := f.kind == .module && f.depth == 0

/-- The finished unit. -/
def toUnit (f : Frame) : CodeUnit := f.chunk.toUnit f.header f.captures.sources.toList f.manifest

/-! ## Code -/

/-- Lay down an instruction and follow the height of the stack. -/
def emit (f : Frame) (i : Instr) (line : UInt64) : Frame :=
  { f with height := ((f.height : Int) + i.stackEffect).toNat, chunk := f.chunk.emit i line }

/-- Lay down the same instruction `n` times. -/
def emitTimes (f : Frame) (i : Instr) (line : UInt64) : Nat → Frame
  | 0 => f
  | n + 1 => emitTimes (f.emit i line) i line n

/-! ## Locals -/

/-- The innermost local of that name. The empty name denotes nothing. -/
def findLocal? (f : Frame) (name : String) : Option Local :=
  if name.isEmpty then none
  else f.locals.find? fun l => !l.isDropped && l.name == name

/-- Whether the block at `depth`, the innermost one, declares `name`. -/
def declaresAt (depth : Nat) (name : String) : List Local → Bool
  | [] => false
  | l :: rest =>
    l.depth == depth && ((!l.isDropped && l.name == name) || declaresAt depth name rest)

/-- Change the first item that satisfies `p`. -/
def updateFirst {α : Type} (p : α → Bool) (g : α → α) : List α → List α
  | [] => []
  | l :: rest => if p l then g l :: rest else l :: updateFirst p g rest

/-- Hide the local in a slot from later look-ups. -/
def dropSlot (f : Frame) (slot : UInt16) : Frame :=
  let held := fun l : Local => l.slot == slot && !l.isDropped
  { f with locals := updateFirst held (fun l => { l with isDropped := true }) f.locals }

/-- Give the local in a slot another type. -/
def retypeSlot (f : Frame) (slot : UInt16) (ty : Ty) : Frame :=
  { f with locals := updateFirst (fun l => l.slot == slot) (fun l => { l with ty }) f.locals }

/-! ## Blocks -/

def openScope (f : Frame) : Frame := { f with depth := f.depth + 1 }

/-- Close the innermost block: one stack value goes for each local declared in it, and
its macros are forgotten. With `carry` the value on top of the stack is kept. -/
def closeScope (f : Frame) (carry : Bool) (line : UInt64) : Frame :=
  let depth := f.depth - 1
  let count := (f.locals.takeWhile fun l => depth < l.depth).length
  let f := f.emitTimes (if carry then .popUnder else .pop) line count
  { f with depth
           locals := f.locals.drop count
           inlines := f.inlines.filter fun m => m.depth ≤ depth }

/-! ## Captures -/

/-- Capture something from the unit around this one and say under which index. -/
def addCapture (f : Frame) (source : CaptureSource) : UInt16 × Frame :=
  let (index, captures) := f.captures.add source
  (index, { f with captures })

/-! ## Types -/

/-- What a name means as a type here. Generic parameters hide named types. -/
def findType? (f : Frame) (name : String) : Option Ty :=
  if f.placeholders.contains name then some (.generic name)
  else
    match f.types.find? name with
    | some ty => some ty
    | none =>
      if f.owner.any fun c => c.generics.contains name then some (.generic name) else none

end Frame

end Strand.Codegen
