import Strand.Codegen.Node
import Strand.Proofs.Nodes
import Strand.Proofs.Scene
import Strand.Proofs.Tree

/-!
# Translation schemes

What code generation lays down for each kind of node, said without saying how: no
state, no diagnostics, no types, and jumps that name labels. A scheme relates the
scene before, the code and the scene after, given the pool of the finished unit. It
leaves open what does not follow from the scene, such as under which index something
was captured.

Schemes are put together in the order in which code is laid down. A `block` closes a
label at the place where the code generator aims the jumps to it.
-/

namespace Strand.Codegen

/-- Two things that can be seen to be the same. -/
class Same {β : Type} (a b : β) : Prop where
  eq : a = b

instance {β : Type} {a : β} : Same a a := ⟨rfl⟩

/-- What may be laid down: the pool of the finished unit, the scene before, the code and
the scene after. -/
def Scheme := List Constant → Scene → Tree → Scene → Prop

namespace Scheme

/-! ## Putting schemes together -/

/-- No code at all. -/
def skip : Scheme := fun _ c t c' => t = .nil ∧ c' = c

/-- A single instruction, which changes the scene as it says. -/
def op (i : Instr) : Scheme := fun _ c t c' => t = .op i ∧ c' = c.emit i

/-- One scheme after the other. -/
def seq (x y : Scheme) : Scheme := fun k c t c' =>
  ∃ t1 c1 t2, x k c t1 c1 ∧ y k c1 t2 c' ∧ t = .seq t1 t2

instance : Append Scheme := ⟨seq⟩

/-- A jump that is aimed at a label around it. -/
def jump (kind : JumpKind) (l : Label) : Scheme := fun _ c t c' =>
  t = .jump kind l ∧ c' = c.emit (kind.instr Instr.unpatched)

/-- The jump back to the start of the loop around. -/
def back : Scheme := fun _ c t c' => t = .back ∧ c' = c

/-- Code at whose end a label stands. -/
def block (l : Label) (x : Scheme) : Scheme := fun k c t c' => ∃ t1, x k c t1 c' ∧ t = .block l t1

/-- A loop whose exit is at its end, and where a forward `continue` goes if nothing
inside takes it. Its iterations start at the height that the stack has now, and so does
what follows it. -/
def looped (continuesBack : Bool) (x : Scheme) : Scheme := fun k c t c' =>
  ∃ t1 c1, x k { c with loop := some ⟨c.height, continuesBack⟩ } t1 c1 ∧
    t = .loop t1 ∧ c' = { c1 with loop := c.loop, height := c.height }

/-- The code of a node. -/
def marked (e : Expr) (x : Scheme) : Scheme := fun k c t c' => ∃ t1, x k c t1 c' ∧ t = .node e t1

/-- No code, but another scene. -/
def change (f : Scene → Scene) : Scheme := fun _ c t c' => t = .nil ∧ c' = f c

/-- From here on the stack is known to have this height, however it was reached. -/
abbrev atHeight (n : Nat) : Scheme := change fun c => c.setHeight n

/-- No code, but the scene satisfies a condition. -/
def requires (P : Scene → Prop) : Scheme := fun _ c t c' => t = .nil ∧ c' = c ∧ P c

/-- The stack has this height. -/
abbrev heightIs (n : Nat) : Scheme := requires fun c => c.height = n

/-- Where a constant stands in the pool. -/
def pooled (constant : Constant) (index : UInt16) : Scheme := fun k c t c' =>
  t = .nil ∧ c' = c ∧ k[index.toNat]? = some constant

/-- The scheme for some choice of what is not fixed, such as a slot or an index. -/
def choose {α : Type} (x : α → Scheme) : Scheme := fun k c t c' => ∃ a, x a k c t c'

/-- One of several schemes. -/
def oneOf (xs : List Scheme) : Scheme := fun k c t c' => ∃ x ∈ xs, x k c t c'

/-- A scheme that depends on the scene. -/
def reading (x : Scene → Scheme) : Scheme := fun k c t c' => x c k c t c'

/-- Nothing may be laid down: what leads here is refused. -/
def impossible : Scheme := fun _ _ _ _ => False

/-- The schemes of all items in their order. -/
def each {α : Type} (x : α → Scheme) : List α → Scheme
  | [] => skip
  | a :: rest => x a ++ each x rest

/-- The same instruction so many times. -/
def times (i : Instr) : Nat → Scheme
  | 0 => skip
  | n + 1 => op i ++ times i n

/-! ## Constants and names -/

/-- Push a constant. -/
abbrev constant (k : Constant) : Scheme := choose fun i : UInt16 => pooled k i ++ op (.constant i)

/-- An instruction that takes `n` values. -/
abbrev counted (mk : UInt16 → Instr) (n : Nat) : Scheme :=
  requires (fun _ => n < 65536) ++ op (mk (UInt16.ofNat n))

/-- The value on top of the stack becomes a local. -/
def declare (name : String) (slot : UInt16) : Scheme := fun _ c t c' =>
  t = .nil ∧ slot.toNat = c.height - 1 ∧ c' = c.declare name slot

/-- The value on top of the stack becomes a local in whatever slot it is in. -/
abbrev declared (name : String) : Scheme := choose fun slot => declare name slot

/-- The name is that of a local. -/
abbrev found (name : String) (v : Var) : Scheme := requires fun c => c.findLocal? name = some v

/-- There is no local of this name. -/
abbrev unfound (name : String) : Scheme := requires fun c => c.findLocal? name = none

/-- The end of a block: one value goes for each local declared in it. -/
abbrev leave (carry : Bool) : Scheme := reading fun c =>
  times (if carry then .popUnder else .pop) c.closeCount ++ change Scene.leave

/-- Push the receiver. -/
abbrev receiver : Scheme :=
  oneOf
    [choose fun v => found "this" v ++ op (.getLocal v.slot),
      choose fun i : UInt16 => unfound "this" ++ op (.getUpvalue i)]

/-- Push the receiver for an attribute that is named without it. There may be none only
if some method gives it up. -/
abbrev implicitReceiver (p : Program) : Scheme :=
  oneOf [receiver, requires fun _ => ¬ KeepsReceiver p]

/-! ## Places -/

/-- Make room for what is going to be declared: a global needs none, a local a slot. -/
def reserve (name : String) : Place → Scheme
  | .global i => requires (fun c => c.isModuleLevel = true) ++ pooled (.str name) i
  | .onStack slot =>
    requires (fun c => c.isModuleLevel = false) ++ op .pushNull ++ declare name slot

/-- Put the value on top of the stack in its place. -/
def store : Place → Scheme
  | .global i => op (.defineGlobal i)
  | .onStack slot => op (.setLocal slot) ++ op .pop

/-- Push what is in the place. -/
def load : Place → Scheme
  | .global i => op (.getGlobal i)
  | .onStack slot => op (.getLocal slot)

end Scheme

open Scheme

/-- The scheme of each node, by its standing and position. -/
abbrev NodeScheme := Standing → Expr → Position → Scheme

section

variable (p : Program) (node : NodeScheme) {a : Argument}

/-- A node for its value, inside another. -/
abbrev NodeScheme.value (e : Expr) : Scheme := node .operand e .value

/-! ## Bodies -/

/-- All nodes of a body for their effects. -/
abbrev effectsScheme (body : List Expr) : Scheme := each (fun e => node .element e .effect) body

/-- A body for the value of its last node. -/
def sequenceScheme : List Expr → Scheme
  | [] => op .pushNull
  | [last] => node .element last .value
  | e :: rest => node .element e .effect ++ sequenceScheme rest

/-- A body in a scope of its own, for its value. -/
abbrev blockScheme (body : List Expr) : Scheme :=
  change Scene.openScope ++ sequenceScheme node body ++ leave true

/-- A body in a scope of its own, for its effects. -/
abbrev blockEffectsScheme (body : List Expr) : Scheme :=
  change Scene.openScope ++ effectsScheme node body ++ leave false

/-- The branch that is taken when no other is. -/
def otherwiseScheme : Option (List Expr) → Scheme
  | some body => blockScheme node body
  | none => op .pushNull

/-! ## Reading, assigning and dropping -/

/-- Read what a name denotes: the value of a macro, a local, a capture, a global or an attribute
of the receiver. -/
abbrev variableScheme (name : String) : Scheme :=
  oneOf
    [choose fun value => requires (fun _ => Expands p name value) ++ node.value value,
      choose fun v => found name v ++ op (.getLocal v.slot),
      choose fun i : UInt16 => unfound name ++ op (.getUpvalue i),
      choose fun i => unfound name ++ pooled (.str name) i ++ op (.getGlobal i),
      choose fun i =>
        unfound name ++ implicitReceiver p ++ pooled (.str name) i ++ op (.getAttr i)]

/-- Object and value of an assignment to an attribute; a weak one evaluates the value
first. -/
abbrev attributeOperands (isWeak : Bool) (object : Scheme) (value : Expr) : Scheme :=
  if isWeak then node.value value ++ object ++ op .swap else object ++ node.value value

/-- Assign to what a name denotes. -/
abbrev assignNameScheme (isWeak : Bool) (name : String) (value : Expr) : Scheme :=
  oneOf
    [choose fun v => found name v ++ node.value value ++ op (.setLocal v.slot),
      choose fun i : UInt16 => unfound name ++ node.value value ++ op (.setUpvalue i),
      choose fun i =>
        unfound name ++ node.value value ++ pooled (.str name) i ++ op (.setGlobal i),
      choose fun i =>
        unfound name ++ pooled (.str name) i ++
          attributeOperands node isWeak (implicitReceiver p) value ++ op (.setAttr i)]

/-- Assign to a name, an attribute or an item. -/
def assignScheme (isWeak : Bool) (target value : Expr) : Scheme :=
  match target.kind with
  | .var name => assignNameScheme p node isWeak name value
  | .member object name =>
    choose fun i =>
      pooled (.str name) i ++ attributeOperands node isWeak (node.value object) value ++
        op (.setAttr i)
  | .index object index =>
    node.value object ++ node.value index ++ node.value value ++ op .setIndex
  | _ => impossible

/-- Read an attribute of an object. -/
abbrev memberScheme (object : Expr) (name : String) : Scheme :=
  choose fun i => node.value object ++ pooled (.str name) i ++ op (.getAttr i)

/-- Give up what a name denotes. For a macro there is nothing to do. -/
abbrev dropNameScheme (name : String) : Scheme :=
  oneOf
    [choose fun v => found name v ++ op (.dropLocal v.slot) ++ change fun c => c.dropSlot v.slot,
      choose fun i : UInt16 => unfound name ++ op (.dropUpvalue i),
      choose fun i => unfound name ++ pooled (.str name) i ++ op (.dropGlobal i),
      choose fun i =>
        unfound name ++ implicitReceiver p ++ pooled (.str name) i ++ op (.dropAttr i),
      skip]

/-- Give up what a name denotes, or an attribute. -/
def dropScheme (target : Expr) : Scheme :=
  match target.kind with
  | .var name => dropNameScheme p name
  | .member object name =>
    choose fun i => node.value object ++ pooled (.str name) i ++ op (.dropAttr i)
  | _ => impossible

/-! ## Collections, operators and calls -/

/-- All items for their values. -/
abbrev valuesScheme (items : List Expr) : Scheme := each node.value items

/-- A part of an interpolated text. -/
def textPartScheme : TextPart → Scheme
  | .literal text => constant (.str text)
  | .expr e => node.value e

/-- A key and its value. -/
abbrev pairScheme (e : Expr × Expr) : Scheme := node.value e.1 ++ node.value e.2

/-- The right side is evaluated only if the left one does not decide. -/
abbrev logicalScheme (left : Expr) (op' : LogicalOp) (right : Expr) : Scheme :=
  block .done
    (node.value left ++ jump (match op' with | .and => .ifFalse | .or => .ifTrue) .done ++
      op .pop ++ node.value right)

/-- The argument, if it is passed by its position. -/
def positional? : Argument → Option Expr
  | .positional e => some e
  | .keyword _ _ => none

/-- The name and the argument, if it is passed by name. -/
def keyword? : Argument → Option (String × Expr)
  | .positional _ => none
  | .keyword name e => some (name, e)

theorem value_of_positional {e : Expr} (h : positional? a = some e) : a.value = e := by
  cases a <;> cases h
  rfl

theorem value_of_keyword {name : String} {e : Expr} (h : keyword? a = some (name, e)) :
    a.value = e := by
  cases a <;> cases h
  rfl

/-- The name of an argument and its value. -/
abbrev keywordScheme (e : String × Expr) : Scheme := constant (.str e.1) ++ node.value e.2

/-- The function first, then what is passed by position, then what is passed by name. -/
abbrev callScheme (callee : Expr) (args : List Argument) : Scheme :=
  let passed := args.filterMap positional?
  let keywords := args.filterMap keyword?
  node.value callee ++ valuesScheme node passed ++ each (keywordScheme node) keywords ++
    requires (fun _ => passed.length ≤ 255 ∧ keywords.length ≤ 255) ++
    op (.call (UInt8.ofNat passed.length) (UInt8.ofNat keywords.length))

/-! ## Branches -/

/-- A condition and its body, which ends with a jump to where all branches meet. -/
abbrev branchScheme (base : Nat) (b : Branch) : Scheme :=
  block .skip
      (node.value b.condition ++ jump .ifFalse .skip ++ op .pop ++ blockScheme node b.body ++
        jump .always .done) ++
    atHeight (base + 1) ++ op .pop

/-- The branches one after the other, each skipped if its condition fails. -/
abbrev ifScheme (branches : List Branch) (otherwise : Option (List Expr)) : Scheme :=
  choose fun base =>
    block .done
        (heightIs base ++ each (branchScheme node base) branches ++
          otherwiseScheme node otherwise) ++
      atHeight (base + 1)

/-- One of two values, as a condition decides. -/
abbrev ternaryScheme (condition thenValue elseValue : Expr) : Scheme :=
  choose fun base =>
    block .done
        (block .skip
            (heightIs base ++ node.value condition ++ jump .ifFalse .skip ++ op .pop ++
              node.value thenValue ++ jump .always .done) ++
          atHeight (base + 1) ++ op .pop ++ node.value elseValue) ++
      atHeight (base + 1)

/-- Compare the subject with the values of the case of a given index. -/
abbrev caseTestsScheme (slot : UInt16) (index : Nat) (values : List Expr) : Scheme :=
  each (fun value =>
    op (.getLocal slot) ++ node.value value ++ op (.binary .equal) ++
      jump .ifTrue (.case index) ++ op .pop) values

/-- The tests of the cases from a given index on. -/
def testsScheme (slot : UInt16) : (index : Nat) → List SwitchCase → Scheme
  | _, [] => skip
  | i, c :: rest => caseTestsScheme node slot i c.values ++ testsScheme slot (i + 1) rest

/-- The bodies of the cases from a given index on, after the code `before`. -/
def caseBodiesScheme (base : Nat) : (index : Nat) → List SwitchCase → (before : Scheme) → Scheme
  | _, [], before => before
  | i, c :: rest, before =>
    caseBodiesScheme base (i + 1) rest
      (block (.case i) before ++ atHeight (base + 1) ++ op .pop ++
        blockEffectsScheme node c.body ++ jump .always .done)

/-- The body that is run when no case matches. -/
def defaultScheme : Option (List Expr) → Scheme
  | some body => blockEffectsScheme node body
  | none => skip

/-- All tests come first, then the bodies, to which the tests jump. -/
abbrev switchScheme (subject : Expr) (cases : List SwitchCase) (otherwise : Option (List Expr)) :
    Scheme :=
  choose fun slot => choose fun base =>
    block .done
        (block .otherwise
            (caseBodiesScheme node base 0 cases
              (node.value subject ++ declare "$switch" slot ++ heightIs base ++
                testsScheme node slot 0 cases ++ jump .always .otherwise)) ++
          atHeight base ++ defaultScheme node otherwise) ++
      atHeight base ++ op .pushNull

/-! ## Pattern matching -/

/-- The test of a pattern: whether it can fail, and the names it binds. -/
def patternScheme (slot : UInt16) (pattern : Pattern) (fails : Bool)
    (binders : List (String × Option String)) : Scheme :=
  match pattern with
  | .wildcard => requires fun _ => fails = false ∧ binders = []
  | .value e =>
    oneOf
      [requires fun _ => fails = false ∧ ∃ name, e.kind = .var name ∧ binders = [(name, none)],
        requires (fun _ => fails = true ∧ binders = []) ++ op (.getLocal slot) ++ node.value e ++
          op (.binary .equal) ++ jump .ifFalse .failed ++ op .pop]
  | .destructure target names =>
    op (.getLocal slot) ++ node.value target ++ op .matchType ++ jump .ifFalse .failed ++ op .pop ++
      requires (fun _ => fails = true ∧ binders.map Prod.fst = names)

/-- A name of a pattern: the subject itself, or a member of it. -/
def binderScheme (slot : UInt16) (b : String × Option String) : Scheme :=
  op (.getLocal slot) ++
    (match b.2 with
      | some member => choose fun i => pooled (.str member) i ++ op (.getAttr i)
      | none => skip) ++
    declared b.1

/-- The guard of an arm, if it has one. -/
def guardScheme : Option Expr → Scheme
  | none => skip
  | some e => node.value e ++ jump .ifFalse .unguarded ++ op .pop

/-- Where an arm goes on that did not match: after a failed guard, `count` names and its
result are taken off the stack, after a failed test its result. -/
def fallThroughScheme (base count : Nat) (guarded fails : Bool) (arm : Scheme) : Scheme :=
  let afterGuard :=
    if guarded then
      block .unguarded arm ++ atHeight (base + count + 1) ++ times .pop (count + 1) ++
        (if fails then jump .always .next else skip)
    else arm
  let afterTest :=
    if fails then block .failed afterGuard ++ atHeight (base + 1) ++ op .pop else afterGuard
  (if guarded && fails then block .next afterTest else afterTest) ++ atHeight base

/-- An arm of a match: the test, the names, the guard and the body, each left if it fails. -/
abbrev armScheme (slot : UInt16) (base : Nat) (a : Arm) : Scheme :=
  choose fun fails => choose fun binders =>
    fallThroughScheme base binders.length a.guard.isSome fails
      (change Scene.openScope ++ patternScheme node slot a.pattern fails binders ++
        each (binderScheme slot) binders ++ guardScheme node a.guard ++
        sequenceScheme node a.body ++ leave true ++ jump .always .done)

/-- The arms one after the other, up to the first one that matches. -/
abbrev matchScheme (subject : Expr) (arms : List Arm) (otherwise : Option (List Expr)) : Scheme :=
  choose fun slot => choose fun base =>
    block .done
        (node.value subject ++ declare "$match" slot ++ heightIs base ++
          each (armScheme node slot base) arms ++ otherwiseScheme node otherwise) ++
      atHeight (base + 1)

/-! ## Loops -/

/-- A loop that is wanted for its value collects the values of its rounds. -/
def openAccumulatorScheme : Position → Scheme
  | .value => op .accStart
  | .effect => skip

/-- What was collected becomes the value of the loop. -/
def closeAccumulatorScheme : Position → Scheme
  | .value => op .accFlush
  | .effect => skip

/-- The value of a round is collected or dropped. -/
def finishScheme : Position → Scheme
  | .value => op .accCollect
  | .effect => op .pop

/-- A loop that is left where its condition was tested. -/
abbrev conditionLoop (continuesBack : Bool) (base : Nat) (iteration : Scheme) : Scheme :=
  looped continuesBack (block .done iteration ++ atHeight (base + 1) ++ op .pop)

/-- A loop that tests before each round. Its `continue` goes back to the test. -/
abbrev whileScheme (condition : Expr) (body : List Expr) (position : Position) : Scheme :=
  choose fun base =>
    openAccumulatorScheme position ++ change Scene.openScope ++ heightIs base ++
      conditionLoop true base
        (node.value condition ++ jump .ifFalse .done ++ op .pop ++ blockScheme node body ++
          finishScheme position ++ back) ++
      leave false ++ closeAccumulatorScheme position

/-- A loop that tests after each round. Its `continue` goes forward to the test. -/
abbrev doWhileScheme (body : List Expr) (condition : Expr) (position : Position) : Scheme :=
  choose fun base =>
    openAccumulatorScheme position ++ change Scene.openScope ++ heightIs base ++
      conditionLoop false base
        (block .again (blockScheme node body ++ finishScheme position) ++ node.value condition ++
          jump .ifFalse .done ++ op .pop ++ back) ++
      leave false ++ closeAccumulatorScheme position

/-- The step of a range, which is inferred from its ends if it is not given. -/
def stepScheme (counter last : UInt16) : Option Expr → Scheme
  | some e => node.value e
  | none => op (.getLocal counter) ++ op (.getLocal last) ++ op .inferStep

/-- One iteration of a range, up to where `continue` goes. -/
abbrev rangeIteration (variableName : String) (counter : UInt16) (body : List Expr)
    (position : Position) : Scheme :=
  op (.rangeCheck counter) ++ jump .ifFalse .done ++ op .pop ++ change Scene.openScope ++
    op (.getLocal counter) ++ op .copy ++ declared variableName ++ sequenceScheme node body ++
    leave true ++ finishScheme position

/-- A range keeps its counter, end and step in hidden locals. Its `continue` goes to where the
counter is advanced. -/
abbrev rangeScheme (variableName : String) (first last : Expr) (step : Option Expr)
    (body : List Expr) (position : Position) : Scheme :=
  choose fun counter => choose fun lastSlot => choose fun stepSlot => choose fun base =>
    openAccumulatorScheme position ++ change Scene.openScope ++
      node.value first ++ declare "$counter" counter ++
      node.value last ++ declare "$end" lastSlot ++
      stepScheme node counter lastSlot step ++ declare "$step" stepSlot ++ heightIs base ++
      conditionLoop false base
        (block .again (rangeIteration node variableName counter body position) ++
          op (.getLocal counter) ++ op (.getLocal stepSlot) ++ op (.binary .add) ++
          op (.setLocal counter) ++ op .pop ++ back) ++
      leave false ++ closeAccumulatorScheme position

/-- A loop over what an iterator gives, which is kept in a hidden local. -/
abbrev forEachScheme (variableName : String) (iterable : Expr) (body : List Expr)
    (position : Position) : Scheme :=
  choose fun base =>
    openAccumulatorScheme position ++ change Scene.openScope ++
      node.value iterable ++ op .getIter ++ declared "$iter" ++ heightIs base ++
      looped true
        (block .done
            (jump .atEnd .done ++ change Scene.openScope ++ declared variableName ++
              sequenceScheme node body ++ leave true ++ finishScheme position ++ back) ++
          atHeight base) ++
      leave false ++ closeAccumulatorScheme position

/-- Leave the loop around with the stack as it was when the loop began. -/
abbrev breakScheme : Scheme := reading fun c => choose fun l =>
  requires (fun c => c.loop = some l) ++ times .pop (c.height - l.baseHeight) ++
    jump .always .exit ++ atHeight c.height

/-- Go on with the next round, back to its start or forward to its end. -/
abbrev continueScheme : Scheme := reading fun c => choose fun l =>
  requires (fun c => c.loop = some l) ++ times .pop (c.height - l.baseHeight) ++
    (if l.continuesBack then back else jump .always .again) ++ atHeight c.height

/-! ## Leaving and checking -/

/-- What is returned: the receiver from a constructor, whatever its value. -/
def returnedScheme (kind : UnitKind) (value : Option Expr) : Scheme :=
  if kind = .constructor then
    (match value with
      | some e => node .operand e .effect
      | none => skip) ++ op (.getLocal 0)
  else
    match value with
    | some e => node.value e
    | none => op .pushNull

/-- Return from the unit. What follows is never reached, so the height stays. -/
abbrev returnScheme (value : Option Expr) : Scheme := reading fun c =>
  returnedScheme node c.kind value ++ op .ret ++ atHeight c.height

/-- Throw a value. What follows is never reached either. -/
abbrev throwScheme (value : Expr) : Scheme := reading fun c =>
  node.value value ++ op .throw ++ atHeight c.height

/-- A condition and the message for the case that it fails. -/
def assertScheme (condition : Expr) (message : Option Expr) : Scheme :=
  node.value condition ++
    (match message with
      | some e => node.value e
      | none => op .pushNull) ++
    op .assert

/-! ## Units -/

/-- What a unit is made from. -/
inductive Source where
  | main (body : List Expr)
  | function (decl : FunctionDecl) (kind : UnitKind)
  | scope (body : List Expr)
  | switch (subject : Expr) (cases : List SwitchCase) (otherwise : Option (List Expr))
  | patternMatch (subject : Expr) (arms : List Arm) (otherwise : Option (List Expr))

/-- The kind of the unit. -/
def Source.kind : Source → UnitKind
  | .main _ => .module
  | .function _ kind => kind
  | .scope _ | .switch _ _ _ | .patternMatch _ _ _ => .block

/-- What the unit says about itself. -/
def Source.header : Source → UnitHeader
  | .main _ => { name := "<main>" }
  | .function decl kind => functionHeader decl kind
  | .scope _ => { name := "<scope>" }
  | .switch _ _ _ => { name := "<switch>" }
  | .patternMatch _ _ _ => { name := "<match>" }

/-- An argument, which is on the stack already. -/
abbrev paramScheme (name : String) : Scheme :=
  change (fun c => c.setHeight (c.height + 1)) ++ declared name

/-- All parameters of a function become locals, in the order in which they are passed. -/
abbrev paramsScheme (decl : FunctionDecl) : Scheme :=
  each paramScheme (decl.params.map Param.name) ++
    each paramScheme (decl.varargs.toList.map Param.name) ++ each paramScheme decl.kwargs.toList

/-- The body of a function. Only one that declares a result may drop the value of its
body. -/
abbrev functionBodyScheme (decl : FunctionDecl) (kind : UnitKind) : Scheme :=
  if kind = .constructor then effectsScheme node decl.body ++ op (.getLocal 0)
  else
    oneOf
      [sequenceScheme node decl.body,
        requires (fun _ => decl.returnType.isSome) ++ effectsScheme node decl.body ++ op .pushNull]

/-- All code of the unit, up to where it returns. -/
def Source.scheme : Source → Scheme
  | .main body => effectsScheme node body ++ op .pushNull ++ op .ret
  | .function decl kind =>
    paramsScheme decl ++ (functionBodyScheme node decl kind ++ op .ret)
  | .scope body => change Scene.openScope ++ sequenceScheme node body ++ op .ret
  | .switch subject cases otherwise =>
    change Scene.openScope ++ switchScheme node subject cases otherwise ++ op .ret
  | .patternMatch subject arms otherwise =>
    change Scene.openScope ++ matchScheme node subject arms otherwise ++ op .ret

/-- The unit has the code that a scheme gives from a scene on, and nothing else. -/
def Encloses (u : CodeUnit) (c : Scene) (x : Scheme) : Prop :=
  ∃ t c', x u.constants c t c' ∧ t.At u.code .none 0 ∧ t.size = u.code.size ∧
    ∀ l, t.uses l 0 = []

/-- The unit is the code of a source. -/
def CodeOf (source : Source) (u : CodeUnit) : Prop :=
  u.header = source.header ∧ Encloses u (Scene.start source.kind) (source.scheme node)

/-- Push a closure over the unit of a source. -/
abbrev closureScheme (source : Source) (defaults : UInt8) : Scheme :=
  choose fun u => choose fun i =>
    requires (fun _ => CodeOf node source u) ++ pooled (.function u) i ++
      op (.closure i defaults)

/-- A unit that is called where it stands. -/
abbrev calledScheme (source : Source) : Scheme := closureScheme node source 0 ++ op (.call 0 0)

/-! ## Declarations -/

/-- The default of a parameter, if there is one. -/
def paramDefaultScheme (p : Param) : Scheme :=
  match p.default with
  | some e => node.value e
  | none => skip

/-- The defaults are pushed before the closure that takes them. -/
abbrev functionScheme (decl : FunctionDecl) (kind : UnitKind) : Scheme :=
  each (paramDefaultScheme node) decl.params ++
    closureScheme node (.function decl kind) (functionHeader decl kind).defaultCount

/-- A value becomes a global or a local. -/
def letScheme (name : String) (value : Option Expr) : Scheme :=
  (match value with
    | some e => node.value e
    | none => op .pushNull) ++
    oneOf
      [choose fun i =>
          requires (fun c => c.isModuleLevel = true) ++ pooled (.str name) i ++ op (.defineGlobal i),
        requires (fun c => c.isModuleLevel = false) ++ declared name]

/-- The place of a function is reserved before its body, which may name it. -/
abbrev functionDeclScheme (decl : FunctionDecl) : Scheme :=
  choose fun place => reserve decl.name place ++ functionScheme node decl .function ++ store place

/-- The decorator is called with the function, and what it returns is stored. -/
def decoratedScheme (decorator target : Expr) : Scheme :=
  match target.kind with
  | .functionDecl decl =>
    choose fun place =>
      reserve decl.name place ++ node.value decorator ++ functionScheme node decl .function ++
        op (.call 1 0) ++ store place
  | _ => impossible

/-- The value of a field, or the closure of a method. -/
def memberValueScheme : MemberDecl → Scheme
  | .field f =>
    match f.initializer with
    | some e => node.value e
    | none => op .pushNull
  | .method m => functionScheme node m.function m.unitKind

/-- The constructor of a class, if it has one. -/
def constructorScheme : Option FunctionDecl → Scheme
  | some decl => functionScheme node decl .constructor
  | none => op .pushNull

/-- The class that a class inherits from, if any. -/
def parentScheme : Option String → Scheme
  | some name => variableScheme p node name
  | none => skip

/-- What a class is made of, and the instruction that makes it. -/
abbrev classValueScheme (decl : ClassDecl) : Scheme :=
  choose fun i : UInt16 =>
    parentScheme p node decl.parent ++ each (memberValueScheme node) decl.members.reverse ++
      constructorScheme node decl.constructor ++ each (fun g => constant (.str g)) decl.generics ++
      pooled (.classType (classDescriptor decl)) i ++
      counted (.makeClass i) (classDescriptor decl).stackInputs

/-- The place of a class is reserved before its members, which may name it. -/
abbrev classScheme (decl : ClassDecl) : Scheme :=
  choose fun place => reserve decl.name place ++ classValueScheme p node decl ++ store place

/-- A variant of a public enum becomes a global of its own. -/
abbrev publishScheme (place : Place) (v : VariantDecl) : Scheme :=
  choose fun i =>
    load place ++ pooled (.str v.name) i ++ op (.getAttr i) ++ op (.defineGlobal i)

/-- An enum is made of its descriptor alone. -/
abbrev enumScheme (decl : EnumDecl) : Scheme :=
  choose fun place => choose fun i =>
    reserve decl.name place ++ pooled (.enumType (enumDescriptor decl)) i ++ op (.makeEnum i) ++
      store place ++
      (if decl.isPublic then each (publishScheme place) decl.variants else skip)

/-- A directive, with a constant if it needs one. -/
abbrev useScheme : Scheme :=
  oneOf
    [op (.directive .optimize 0),
      choose fun d => choose fun k => choose fun i => pooled k i ++ op (.directive d i)]

/-! ## Nodes -/

/-- What the code of a node leaves on the stack before the position is looked at. -/
inductive Leaving where
  | value
  | nothing
  | asWanted

/-- What nodes of a kind leave. -/
def leaving : ExprKind → Leaving
  | .drop _ | .breakLoop | .continueLoop | .ret _ | .letDecl _ _ _ _ | .inlineDecl _ _
  | .functionDecl _ | .decorated _ _ | .classDecl _ | .enumDecl _ | .typedef _ _ | .use _
  | .throw _ | .assert _ _ => .nothing
  | .whileLoop _ _ | .doWhile _ _ | .rangeFor _ _ _ _ _ _ | .forEach _ _ _ => .asWanted
  | _ => .value

/-- What is left on the stack is brought in line with what is wanted. -/
def settleScheme : Leaving → Position → Scheme
  | .value, .effect => op .pop
  | .nothing, .value => op .pushNull
  | _, _ => skip

/-- The code of a node of a given kind, with `node` for the nodes inside. -/
def kindScheme (position : Position) : ExprKind → Scheme
  | .int n => constant (.int n)
  | .float bits => constant (.float bits)
  | .str s => constant (.str s)
  | .bool b => op (if b then .pushTrue else .pushFalse)
  | .null => op .pushNull
  | .interpolated parts => each (textPartScheme node) parts ++ counted .buildString parts.length
  | .array items => valuesScheme node items ++ counted .array items.length
  | .map pairs => each (pairScheme node) pairs ++ counted .map pairs.length
  | .tuple items => valuesScheme node items ++ counted .tuple items.length
  | .var name => variableScheme p node name
  | .assign isWeak target value => assignScheme p node isWeak target value
  | .member object name => memberScheme node object name
  | .index object index => node.value object ++ node.value index ++ op .getIndex
  | .this => receiver
  | .drop target => dropScheme p node target
  | .binary left b right => node.value left ++ node.value right ++ op (.binary b)
  | .logical left b right => logicalScheme node left b right
  | .unary u operand => node.value operand ++ op (.unary u)
  | .reference target => node.value target ++ op .ref
  | .deref target => node.value target ++ op .deref
  | .call callee args => callScheme node callee args
  | .lambda decl => functionScheme node decl .lambda
  | .cond branches otherwise => ifScheme node branches otherwise
  | .ternary condition thenValue elseValue => ternaryScheme node condition thenValue elseValue
  | .whileLoop condition body => whileScheme node condition body position
  | .doWhile body condition => doWhileScheme node body condition position
  | .rangeFor variableName _ first last step body =>
    rangeScheme node variableName first last step body position
  | .forEach variableName iterable body =>
    forEachScheme node variableName iterable body position
  | .breakLoop => breakScheme
  | .continueLoop => continueScheme
  | .ret value => returnScheme node value
  | .switch subject cases otherwise => calledScheme node (.switch subject cases otherwise)
  | .patternMatch subject arms otherwise =>
    calledScheme node (.patternMatch subject arms otherwise)
  | .scope body => calledScheme node (.scope body)
  | .letDecl name _ value _ => letScheme node name value
  | .inlineDecl _ _ | .typedef _ _ => skip
  | .functionDecl decl => functionDeclScheme node decl
  | .decorated decorator target => decoratedScheme node decorator target
  | .classDecl decl => classScheme p node decl
  | .enumDecl decl => enumScheme decl
  | .use _ => useScheme
  | .throw value => throwScheme node value
  | .assert condition message => assertScheme node condition message

end

/-- Only names of the pattern are bound. -/
theorem mem_names_of_pattern {node : NodeScheme} {slot : UInt16} {pattern : Pattern} {fails : Bool}
    {binders : List (String × Option String)} {k : List Constant} {t : Tree} {c c' : Scene}
    (h : patternScheme node slot pattern fails binders k c t c') :
    ∀ b ∈ binders, b.1 ∈ pattern.names := by
  intro b hb
  cases pattern with
  | wildcard =>
    obtain ⟨-, -, -, rfl⟩ := h
    exact absurd hb List.not_mem_nil
  | value e =>
    obtain ⟨kind, span⟩ := e
    obtain ⟨x, hx, h⟩ := h
    simp only [List.mem_cons, List.not_mem_nil, or_false] at hx
    rcases hx with rfl | rfl
    · obtain ⟨-, -, -, name, hkind, rfl⟩ := h
      subst hkind
      cases List.mem_singleton.mp hb
      exact .head _
    · obtain ⟨_, _, _, ⟨_, _, _, ⟨_, _, _, ⟨_, _, _, ⟨_, _, _, hnone, -⟩, -⟩, -⟩, -⟩, -⟩ := h
      obtain ⟨-, -, -, rfl⟩ := hnone
      exact absurd hb List.not_mem_nil
  | destructure target names =>
    obtain ⟨_, _, _, _, ⟨-, -, -, hnames⟩, -⟩ := h
    rw [Pattern.names, ← hnames]
    exact List.mem_map.mpr ⟨b, hb, rfl⟩

/-- The code of a node with at most `budget` levels of nodes. It is a node of the
program, or stands in for the name of a macro. -/
def nodeScheme (p : Program) : (budget : Nat) → NodeScheme
  | 0 => fun _ _ _ => impossible
  | budget + 1 => fun st e position k c t c' =>
    Occurs p st e ∧
      marked e (kindScheme p (nodeScheme p budget) position e.kind ++
        settleScheme (leaving e.kind) position) k c t c'

/-- A source is the program itself, a function that it declares, or a node of it that is
called where it stands. -/
def Source.DeclaredIn (p : Program) : Source → Prop
  | .main body => body = p.body
  | .function decl kind => Declares p decl kind
  | .scope body => ∃ st span, Occurs p st ⟨.scope body, span⟩
  | .switch subject cases otherwise =>
    ∃ st span, Occurs p st ⟨.switch subject cases otherwise, span⟩
  | .patternMatch subject arms otherwise =>
    ∃ st span, Occurs p st ⟨.patternMatch subject arms otherwise, span⟩

/-- The unit is the code of a source that was compiled as a part of the program. -/
def Translated (p : Program) (u : CodeUnit) : Prop :=
  ∃ budget source, source.DeclaredIn p ∧ CodeOf (nodeScheme p budget) source u

end Strand.Codegen
