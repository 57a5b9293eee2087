import Strand.Codegen.Block
import Strand.Proofs.Meaning.Machine
import Strand.Proofs.Nodes

/-!
# What plain bodies mean

The meaning of a body without reference to code: names have values, a block forgets the
names that it declares, operands are evaluated from left to right, and what does not
have to be evaluated is not. `break` ends the innermost loop and `continue` its current
iteration, from wherever they stand, and what was declared inside the loop is forgotten.
The evaluator uses the interpretation that the machine uses, so the two can be compared
whatever the values are.

An expression has no meaning where it uses a name that is not declared, and a node of
a kind that is not dealt with here has none at all. Neither has a loop that does not end:
a loop is given a number of rounds, and has no meaning if these do not suffice. `Plain` is
the syntactic condition under which nothing else can go wrong.
-/

namespace Strand

open Codegen (Position)

namespace Machine

variable {V σ E α β : Type}

/-! ## Evaluations -/

/-- Values by name, innermost first. -/
abbrev Env (V : Type) := List (String × V)

namespace Env

/-- The names that have a value, with repetitions. -/
def names (env : Env V) : List String := env.map Prod.fst

/-- Give the innermost variable of a name another value. -/
def assign (name : String) (v : V) : Env V → Env V
  | [] => []
  | (n, w) :: env => if n = name then (n, v) :: env else (n, w) :: assign name v env

/-- The `n` outermost variables. -/
def outermost (n : Nat) (env : Env V) : Env V := env.drop (env.length - n)

end Env

/-- How an evaluation ends that does not come to its end. -/
inductive Exit (V σ E : Type) where
  | fail (e : E)
  | ret (v : V) (s : σ)
  /-- By `break`. -/
  | leave (env : Env V) (s : σ)
  /-- By `continue`. -/
  | next (env : Env V) (s : σ)

/-- Evaluation changes the values of names and the store. It may end early, and it may be
undefined. -/
abbrev Eval (V σ E : Type) := StateT (Env V × σ) (ExceptT (Exit V σ E) Option)

/-- End early. -/
def exit (x : Env V → σ → Exit V σ E) : Eval V σ E α := fun s => some (.error (x s.1 s.2))

/-- No value, and no end either. -/
def undefined : Eval V σ E α := fun _ => none

/-- What the interpretation computes, which leaves the names alone. -/
def ofResult (env : Env V) : Except E (α × σ) → Except (Exit V σ E) (α × Env V × σ)
  | .ok (a, s) => .ok (a, env, s)
  | .error e => .error (.fail e)

section

variable (I : Interp V σ E)

/-- Compute a value. -/
def compute (o : Operation) (args : List V) : Eval V σ E V := fun s =>
  some (ofResult s.1 (I.apply o args s.2))

/-- The value of the innermost variable of a name, which has to exist. -/
def readName (name : String) : Eval V σ E V := fun s =>
  (s.1.lookup name).map fun v => .ok (v, s)

/-- Assign to the innermost variable of a name, which has to exist. -/
def assignName (name : String) (v : V) : Eval V σ E Unit := fun s =>
  if name ∈ s.1.names then some (.ok ((), s.1.assign name v, s.2)) else none

/-- One more variable, which hides those of the same name. -/
def declareName (name : String) (v : V) : Eval V σ E Unit := fun s =>
  some (.ok ((), (name, v) :: s.1, s.2))

/-- Evaluate one of two, by the truth of a value. -/
def select (v : V) (yes no : Eval V σ E α) : Eval V σ E α := fun s =>
  if I.truthy s.2 v then yes s else no s

/-- Forget what is declared inside. -/
def inBlock (act : Eval V σ E α) : Eval V σ E α := do
  let outside := (← get).1.length
  let v ← act
  modify fun s => (s.1.outermost outside, s.2)
  pure v

/-! ## Loops -/

/-- What the body of a loop has come to. -/
inductive Turn (V : Type) where
  | value (v : V)
  | next
  | left

/-- The body of a loop ends where `break` or `continue` is evaluated. -/
def attempt (body : Eval V σ E V) : Eval V σ E (Turn V) := fun s =>
  match body s with
  | none => none
  | some (.ok (v, s')) => some (.ok (.value v, s'))
  | some (.error (.leave env s')) => some (.ok (.left, env.outermost s.1.length, s'))
  | some (.error (.next env s')) => some (.ok (.next, env.outermost s.1.length, s'))
  | some (.error x) => some (.error x)

/-- What a loop has collected after a further value. Only one that is there for its value
collects anything. -/
def gather (position : Position) (acc : List V) (v : V) : Eval V σ E (List V) := fun s =>
  match position with
  | .value => some (.ok (collect I s.2 acc v, s))
  | .effect => some (.ok (acc, s))

/-- Whether the loop goes on after a turn of its body, and what it has collected then. -/
def turn (position : Position) (acc : List V) (body : Eval V σ E V) :
    Eval V σ E (Bool × List V) := do
  match ← attempt body with
  | .value v => (true, ·) <$> gather I position acc v
  | .next => pure (true, acc)
  | .left => pure (false, acc)

/-- Repeat a round until it says that it was the last one. -/
def repeating (round : α → Eval V σ E (α ⊕ β)) : (rounds : Nat) → α → Eval V σ E β
  | 0, _ => undefined
  | n + 1, a => do (← round a).elim (repeating round n) pure

/-- Go on, or end with the same. -/
def proceed (on : Bool) (a : α) : α ⊕ α := if on then .inl a else .inr a

/-- A round that is preceded by its test. -/
def whileRound (position : Position) (condition body : Eval V σ E V) (acc : List V) :
    Eval V σ E (List V ⊕ List V) := do
  let v ← condition
  select I v
    (do
      let r ← turn I position acc body
      pure (proceed r.1 r.2))
    (pure (.inr acc))

/-- A round that is followed by its test, unless it was left by `break`. -/
def doWhileRound (position : Position) (body condition : Eval V σ E V) (acc : List V) :
    Eval V σ E (List V ⊕ List V) := do
  let r ← turn I position acc body
  if r.1 then
    let v ← condition
    select I v (pure (.inl r.2)) (pure (.inr r.2))
  else pure (.inr r.2)

/-- The variable of a range is a copy of its counter. -/
def rangeRound (position : Position) (name : String) (last step : V) (body : Eval V σ E V)
    (state : V × List V) : Eval V σ E ((V × List V) ⊕ List V) := do
  let inside ← compute I .inRange [state.1, last, step]
  select I inside
    (do
      let item ← compute I .copy [state.1]
      let r ← turn I position state.2 (inBlock do
        declareName name item
        body)
      if r.1 then
        let counter ← compute I (.binary .add) [state.1, step]
        pure (.inl (counter, r.2))
      else pure (.inr r.2))
    (pure (.inr state.2))

/-- The next item of an iterator. -/
def advance (iter : V) : Eval V σ E (Option V) := fun s => some (ofResult s.1 (I.next iter s.2))

/-- A round with the next item of an iterator, as long as there is one. -/
def forEachRound (position : Position) (name : String) (iter : V) (body : Eval V σ E V)
    (acc : List V) : Eval V σ E (List V ⊕ List V) := do
  match ← advance I iter with
  | some item =>
    let r ← turn I position acc (inBlock do
      declareName name item
      body)
    pure (proceed r.1 r.2)
  | none => pure (.inr acc)

variable (rounds : Nat)

/-- What a loop collects that tests before each round. -/
def whileLoop (position : Position) (condition body : Eval V σ E V) : Eval V σ E (List V) :=
  repeating (whileRound I position condition (inBlock body)) rounds []

/-- What a loop collects that tests after each round. -/
def doWhileLoop (position : Position) (body condition : Eval V σ E V) : Eval V σ E (List V) :=
  repeating (doWhileRound I position (inBlock body) condition) rounds []

/-- The ends and the step of a range are evaluated once, in this order. -/
def rangeLoop (position : Position) (name : String) (first last : Eval V σ E V)
    (step : V → V → Eval V σ E V) (body : Eval V σ E V) : Eval V σ E (List V) := do
  let counter ← first
  let last ← last
  let step ← step counter last
  repeating (rangeRound I position name last step body) rounds (counter, [])

/-- What a loop collects that goes through the items of a value. -/
def forEachLoop (position : Position) (name : String) (iterable body : Eval V σ E V) :
    Eval V σ E (List V) := do
  let v ← iterable
  let iter ← compute I .iterator [v]
  repeating (forEachRound I position name iter body) rounds []

/-! ## Expressions -/

mutual

/-- The value of an expression. -/
def evalExpr : Expr → Eval V σ E V
  | ⟨kind, _⟩ => evalKind kind

/-- What its kind alone decides. Kinds that are left out are undefined. -/
def evalKind : ExprKind → Eval V σ E V
  | .int n => compute I (.constant (.int n)) []
  | .float bits => compute I (.constant (.float bits)) []
  | .str s => compute I (.constant (.str s)) []
  | .bool b => compute I (.bool b) []
  | .null => compute I .null []
  | .interpolated parts => do compute I .text (← evalParts parts)
  | .array items => do compute I .array (← evalItems items)
  | .tuple items => do compute I .tuple (← evalItems items)
  | .map pairs => do compute I .map (← evalPairs pairs)
  | .var name => readName name
  | .assign _ ⟨.var name, _⟩ value => do
    let v ← evalExpr value
    assignName name v
    pure v
  | .index object index => do compute I .index [← evalExpr object, ← evalExpr index]
  | .binary left op right => do compute I (.binary op) [← evalExpr left, ← evalExpr right]
  | .unary op operand => do compute I (.unary op) [← evalExpr operand]
  | .logical left .and right => do
    let v ← evalExpr left
    select I v (evalExpr right) (pure v)
  | .logical left .or right => do
    let v ← evalExpr left
    select I v (pure v) (evalExpr right)
  | .ternary condition thenValue elseValue => do
    let v ← evalExpr condition
    select I v (evalExpr thenValue) (evalExpr elseValue)
  | .cond branches otherwise => evalBranches branches (evalOtherwise otherwise)
  | .whileLoop condition body => do
    compute I .collected (← whileLoop I rounds .value (evalExpr condition) (evalBody body))
  | .doWhile body condition => do
    compute I .collected (← doWhileLoop I rounds .value (evalBody body) (evalExpr condition))
  | .rangeFor name _ first last step body => do
    compute I .collected (← rangeLoop I rounds .value name (evalExpr first) (evalExpr last)
      (evalStep step) (evalBody body))
  | .forEach name iterable body => do
    compute I .collected (← forEachLoop I rounds .value name (evalExpr iterable) (evalBody body))
  | .breakLoop => exit .leave
  | .continueLoop => exit .next
  | .ret value => do
    let v ← evalInit value
    exit fun _ => .ret v
  | _ => undefined

/-- Several values from left to right. -/
def evalItems : List Expr → Eval V σ E (List V)
  | [] => pure []
  | e :: rest => do
    let v ← evalExpr e
    let vs ← evalItems rest
    pure (v :: vs)

/-- The value of a part of a text. -/
def evalPart : TextPart → Eval V σ E V
  | .literal text => compute I (.constant (.str text)) []
  | .expr e => evalExpr e

/-- The values of all parts from left to right. -/
def evalParts : List TextPart → Eval V σ E (List V)
  | [] => pure []
  | part :: rest => do
    let v ← evalPart part
    let vs ← evalParts rest
    pure (v :: vs)

/-- Keys and values in turn. -/
def evalPairs : List (Expr × Expr) → Eval V σ E (List V)
  | [] => pure []
  | (key, value) :: rest => do
    let k ← evalExpr key
    let v ← evalExpr value
    let vs ← evalPairs rest
    pure (k :: v :: vs)

/-- The body of the first branch whose condition holds, or else `otherwise`. -/
def evalBranches : List Branch → (otherwise : Eval V σ E V) → Eval V σ E V
  | [], otherwise => otherwise
  | ⟨condition, body⟩ :: rest, otherwise => do
    let v ← evalExpr condition
    select I v (inBlock (evalBody body)) (evalBranches rest otherwise)

/-- The branch that is taken when no other is, or null. -/
def evalOtherwise : Option (List Expr) → Eval V σ E V
  | some body => inBlock (evalBody body)
  | none => compute I .null []

/-- The step of a range, given its ends. -/
def evalStep : Option Expr → (first last : V) → Eval V σ E V
  | some e, _, _ => evalExpr e
  | none, first, last => compute I .inferStep [first, last]

/-- The value of a body is that of its last element. -/
def evalBody : List Expr → Eval V σ E V
  | [] => compute I .null []
  | [e] => evalLast e
  | e :: rest => do
    evalEffect e
    evalBody rest

/-- An element whose value is not used. A loop does not collect anything then. -/
def evalEffect : Expr → Eval V σ E Unit
  | ⟨.letDecl name _ value _, _⟩ => do declareName name (← evalInit value)
  | ⟨.whileLoop condition body, _⟩ =>
    (fun _ => ()) <$> whileLoop I rounds .effect (evalExpr condition) (evalBody body)
  | ⟨.doWhile body condition, _⟩ =>
    (fun _ => ()) <$> doWhileLoop I rounds .effect (evalBody body) (evalExpr condition)
  | ⟨.rangeFor name _ first last step body, _⟩ =>
    (fun _ => ()) <$> rangeLoop I rounds .effect name (evalExpr first) (evalExpr last)
      (evalStep step) (evalBody body)
  | ⟨.forEach name iterable body, _⟩ =>
    (fun _ => ()) <$> forEachLoop I rounds .effect name (evalExpr iterable) (evalBody body)
  | ⟨kind, _⟩ => (fun _ => ()) <$> evalKind kind

/-- The last element of a body. A declaration has no value of its own. -/
def evalLast : Expr → Eval V σ E V
  | ⟨.letDecl name _ value _, _⟩ => do
    declareName name (← evalInit value)
    compute I .null []
  | ⟨kind, _⟩ => evalKind kind

/-- A value that may be left out. -/
def evalInit : Option Expr → Eval V σ E V
  | some e => evalExpr e
  | none => compute I .null []

end

/-- The result of a function: the value of its body, or what it returns before. -/
def resultOf : Except (Exit V σ E) (V × Env V × σ) → Option (Except E (V × σ))
  | .ok (v, _, s) => some (.ok (v, s))
  | .error (.ret v s) => some (.ok (v, s))
  | .error (.fail e) => some (.error e)
  | .error (.leave _ _) | .error (.next _ _) => none

/-- The result of a function for its arguments, in a store. -/
def evalFunction (decl : FunctionDecl) (args : List V) (store : σ) :
    Option (Except E (V × σ)) :=
  let outcome := (evalBody I rounds decl.body ((decl.slotNames.zip args).reverse, store)).run
  outcome.bind resultOf

end

/-! ## Which bodies are plain -/

/-- Where a node stands: in code without loops and returns, in code with them, or in the body of
a loop, which can be left. -/
inductive Region where
  | straight
  | looping
  | inLoop
deriving DecidableEq

/-- The names of the locals that keep the state of a loop. -/
def hiddenNames : List String := ["$counter", "$end", "$step", "$iter"]

mutual

/-- Literals, operators, branches, loops, and variables of the function itself. The `scope`
holds the names that are declared where the expression stands, innermost first. -/
inductive Plain : Region → (scope : List String) → Expr → Prop where
  | int {r scope n span} : Plain r scope ⟨.int n, span⟩
  | float {r scope bits span} : Plain r scope ⟨.float bits, span⟩
  | str {r scope s span} : Plain r scope ⟨.str s, span⟩
  | bool {r scope b span} : Plain r scope ⟨.bool b, span⟩
  | null {r scope span} : Plain r scope ⟨.null, span⟩
  | interpolated {r scope parts span} (h : ∀ e, .expr e ∈ parts → Plain r scope e) :
      Plain r scope ⟨.interpolated parts, span⟩
  | array {r scope items span} (h : ∀ e ∈ items, Plain r scope e) :
      Plain r scope ⟨.array items, span⟩
  | tuple {r scope items span} (h : ∀ e ∈ items, Plain r scope e) :
      Plain r scope ⟨.tuple items, span⟩
  | map {r scope pairs span} (hkeys : ∀ e ∈ pairs, Plain r scope e.1)
      (hvalues : ∀ e ∈ pairs, Plain r scope e.2) : Plain r scope ⟨.map pairs, span⟩
  | var {r scope name span} (hname : name ≠ "") (h : name ∈ scope) : Plain r scope ⟨.var name, span⟩
  | assign {r scope isWeak name target value span} (hname : name ≠ "") (h : name ∈ scope)
      (hvalue : Plain r scope value) :
      Plain r scope ⟨.assign isWeak ⟨.var name, target⟩ value, span⟩
  | index {r scope object index span} (hobject : Plain r scope object)
      (hindex : Plain r scope index) : Plain r scope ⟨.index object index, span⟩
  | binary {r scope left op right span} (hleft : Plain r scope left) (hright : Plain r scope right) :
      Plain r scope ⟨.binary left op right, span⟩
  | unary {r scope op operand span} (h : Plain r scope operand) :
      Plain r scope ⟨.unary op operand, span⟩
  | logical {r scope left op right span} (hleft : Plain r scope left)
      (hright : Plain r scope right) : Plain r scope ⟨.logical left op right, span⟩
  | ternary {r scope condition thenValue elseValue span} (hcondition : Plain r scope condition)
      (hthen : Plain r scope thenValue) (helse : Plain r scope elseValue) :
      Plain r scope ⟨.ternary condition thenValue elseValue, span⟩
  | cond {r scope branches otherwise span} (hconditions : ∀ b ∈ branches, Plain r scope b.condition)
      (hbodies : ∀ b ∈ branches, PlainBody r scope b.body)
      (helse : ∀ body, otherwise = some body → PlainBody r scope body) :
      Plain r scope ⟨.cond branches otherwise, span⟩
  | whileLoop {r scope condition body span} (hr : r ≠ .straight)
      (hcondition : Plain .looping scope condition) (hbody : PlainBody .inLoop scope body) :
      Plain r scope ⟨.whileLoop condition body, span⟩
  | doWhile {r scope body condition span} (hr : r ≠ .straight)
      (hbody : PlainBody .inLoop scope body) (hcondition : Plain .looping scope condition) :
      Plain r scope ⟨.doWhile body condition, span⟩
  | rangeFor {r scope name typeExpr first last step body span} (hr : r ≠ .straight)
      (hfree : ∀ n ∈ hiddenNames, n ∉ scope) (hfirst : Plain .looping scope first)
      (hlast : Plain .looping scope last) (hstep : ∀ e, step = some e → Plain .looping scope e)
      (hbody : PlainBody .inLoop (name :: scope) body) :
      Plain r scope ⟨.rangeFor name typeExpr first last step body, span⟩
  | forEach {r scope name iterable body span} (hr : r ≠ .straight)
      (hfree : ∀ n ∈ hiddenNames, n ∉ scope) (hiterable : Plain .looping scope iterable)
      (hbody : PlainBody .inLoop (name :: scope) body) :
      Plain r scope ⟨.forEach name iterable body, span⟩
  | breakLoop {scope span} : Plain .inLoop scope ⟨.breakLoop, span⟩
  | continueLoop {scope span} : Plain .inLoop scope ⟨.continueLoop, span⟩
  | ret {r scope value span} (hr : r ≠ .straight) (hvalue : ∀ e, value = some e → Plain r scope e) :
      Plain r scope ⟨.ret value, span⟩

/-- Plain expressions, and declarations that those after them can use. -/
inductive PlainBody : Region → (scope : List String) → List Expr → Prop where
  | nil {r scope} : PlainBody r scope []
  | element {r scope e rest} (he : Plain r scope e) (hrest : PlainBody r scope rest) :
      PlainBody r scope (e :: rest)
  | declare {r scope name typeExpr value isConst span rest}
      (hvalue : ∀ e, value = some e → Plain r scope e) (hrest : PlainBody r (name :: scope) rest) :
      PlainBody r scope (⟨.letDecl name typeExpr value isConst, span⟩ :: rest)

end

end Machine

end Strand
