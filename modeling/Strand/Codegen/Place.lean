import Strand.Codegen.State

/-!
# Places of declarations

At the top of a module a declaration defines a global; anywhere else it leaves its
value on the stack as a local. A function, class or enum takes its place before its
value is built, so that the value can mention it.
-/

namespace Strand.Codegen

def openScope : Build Unit := modifyFrame Frame.openScope

def closeScope (carry : Bool) (line : UInt64) : Build Unit :=
  modifyFrame fun f => f.closeScope carry line

/-- The slot of the value on top of the stack. -/
def topSlot (span : Span) : Build UInt16 := do
  let slot := (← height) - 1
  if slot < UInt16.size then
    pure (UInt16.ofNat slot)
  else
    report .tooManyLocals span
    pure 65535

/-- Declare the value on top of the stack as a local. -/
def declareLocal (name : String) (ty : Ty) (isConst : Bool) (span : Span) : Build UInt16 := do
  let f := (← get).frame
  if Frame.declaresAt f.depth name f.locals then
    report (.redeclaration name) span
  let slot ← topSlot span
  modifyFrame fun f =>
    { f with locals := { name, ty, depth := f.depth, slot, isConst } :: f.locals }
  pure slot

def defineGlobal (name : String) (ty : Ty) (isConst : Bool) : Build Unit :=
  modifyFrame fun f =>
    { f with globals := f.globals.insert name { ty, isConst, isHost := false } }

/-- Where the value of a declaration goes. -/
inductive Place where
  /-- A global, by the constant that holds its name. -/
  | global (name : UInt16)
  /-- The slot of a local. -/
  | onStack (slot : UInt16)
deriving DecidableEq, Inhabited

/-- Take the place of a declaration before its value is built. -/
def reservePlace (name : String) (ty : Ty) (isConst : Bool) (span : Span) : Build Place := do
  if (← get).frame.isModuleLevel then
    defineGlobal name ty isConst
    pure (.global (← nameConstant name span))
  else
    emit .pushNull span.line
    pure (.onStack (← declareLocal name ty isConst span))

namespace Place

/-- Put the value on top of the stack into its place. -/
def store (p : Place) (line : UInt64) : Build Unit := do
  match p with
  | .global index => emit (.defineGlobal index) line
  | .onStack slot =>
    emit (.setLocal slot) line
    emit .pop line

/-- Push the value that is in the place. -/
def load (p : Place) (line : UInt64) : Build Unit :=
  match p with
  | .global index => emit (.getGlobal index) line
  | .onStack slot => emit (.getLocal slot) line

/-- Give what is called `name` in this place another type. -/
def retype (p : Place) (name : String) (ty : Ty) : Build Unit :=
  modifyFrame fun f =>
    match p with
    | .global _ => { f with globals := f.globals.modify name fun g => { g with ty } }
    | .onStack slot => f.retypeSlot slot ty

end Place

end Strand.Codegen
