import Strand.Codegen.State

/-!
# What a name means

A name is looked for as a macro, a local, a capture from the units around, a global
of the unit itself and, last, an attribute of the receiver. A capture is passed on
from unit to unit: the unit next to the one that holds a local captures its slot, and
each unit further in captures that capture. A global is captured by name.
-/

namespace Strand.Codegen

/-- A variable captured from the units around. -/
structure Capture where
  index : UInt16
  ty : Ty
  isConst : Bool
deriving Inhabited

/-- The nearest global of that name. -/
def findGlobal? (name : String) (frames : List Frame) : Option GlobalBinding :=
  frames.findSome? fun f => f.globals.find? name

/-- Capture `name` for the unit `f` inside `outer`. The answer holds the frames with
the captures that were added to them. -/
def capture? (name : String) : Frame → List Frame → Option (Capture × Frame × List Frame)
  | _, [] => none
  | f, parent :: outer =>
    match parent.findLocal? name with
    | some l =>
      let (index, f) := f.addCapture (.slot l.slot)
      some ({ index, ty := l.ty, isConst := l.isConst }, f, parent :: outer)
    | none =>
      match capture? name parent outer with
      | some (c, parent, outer) =>
        let (index, f) := f.addCapture (.upvalue c.index)
        some ({ c with index }, f, parent :: outer)
      | none =>
        match findGlobal? name (parent :: outer) with
        | some g =>
          let (index, f) := f.addCapture (.global name)
          some ({ index, ty := g.ty, isConst := g.isConst }, f, parent :: outer)
        | none => none

/-- Capture a name for the current unit. -/
def captureName (name : String) : Build (Option Capture) :=
  modifyGet fun s =>
    match capture? name s.frame s.outer with
    | some (c, frame, outer) => (some c, { s with frame, outer })
    | none => (none, s)

/-! ## Macros -/

/-- The innermost macro of that name. -/
def findInline? (name : String) (frames : List Frame) : Option Expr :=
  frames.findSome? fun f => (f.inlines.find? fun m => m.name == name).map InlineDef.value

/-- Forget the innermost macro of that name. -/
def eraseInline (name : String) : List Frame → List Frame
  | [] => []
  | f :: rest =>
    if f.inlines.any fun m => m.name == name then
      { f with inlines := f.inlines.eraseP fun m => m.name == name } :: rest
    else
      f :: eraseInline name rest

def dropInline (name : String) : Build Unit :=
  modify fun s =>
    match eraseInline name s.chain with
    | frame :: outer => { s with frame, outer }
    | [] => s

/-! ## The receiver -/

/-- Whether the receiver of a method can be reached: functions hide it, lambdas and
blocks inside a class do not. -/
def reachesReceiver : List Frame → Bool
  | [] => false
  | f :: rest =>
    match f.kind with
    | .method | .constructor => true
    | .lambda | .block => f.owner.isSome && reachesReceiver rest
    | .module | .function => false

/-- The type of an attribute of the receiver, if `name` is one that can be reached. -/
def State.receiverAttribute? (s : State) (name : String) : Option Ty := do
  let c ← s.frame.owner
  let ty ← s.decls.field? c name
  if reachesReceiver s.chain then some ty else none

/-- Push the receiver and give its type; outside of methods there is none. -/
def emitReceiver (line : UInt64) : Build (Option Ty) := do
  match (← get).frame.findLocal? "this" with
  | some l =>
    emit (.getLocal l.slot) line
    pure (some l.ty)
  | none =>
    if reachesReceiver (← get).chain then
      match ← captureName "this" with
      | some c =>
        emit (.getUpvalue c.index) line
        pure (some c.ty)
      | none => pure none
    else
      pure none

/-- Whether private members of the class called `owner` may be used here. -/
def State.isInside (s : State) (owner : String) : Bool :=
  s.frame.owner.any fun c => c.name == owner

/-! ## Resolution -/

/-- Where a name lives. -/
inductive Meaning where
  /-- A macro: the tree stands in place of the name. -/
  | inline (value : Expr)
  | slot (slot : UInt16) (ty : Ty) (isConst : Bool)
  | captured (c : Capture)
  | global (ty : Ty) (isConst : Bool)
  /-- An attribute of the receiver, named without it. -/
  | ofReceiver (ty : Ty)

/-- What a name means here, or `none` when it denotes nothing. -/
def resolveName (name : String) : Build (Option Meaning) := do
  match findInline? name (← get).chain with
  | some value => pure (some (.inline value))
  | none =>
    match (← get).frame.findLocal? name with
    | some l => pure (some (.slot l.slot l.ty l.isConst))
    | none =>
      match ← captureName name with
      | some c => pure (some (.captured c))
      | none =>
        match (← get).frame.globals.find? name with
        | some g => pure (some (.global g.ty g.isConst))
        | none => pure (((← get).receiverAttribute? name).map .ofReceiver)

end Strand.Codegen
