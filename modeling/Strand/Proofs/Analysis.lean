import Mathlib.Data.Set.Insert
import Strand.Proofs.Scheme

/-!
# What can be read off from how code is put together

The code of a node is made of instructions, of jumps to labels of the node, and of the code of
the nodes inside it, in sequences, blocks and loops. A property of code that is kept by all these
is an `Analysis`, and then it holds of the code of every node. That a scheme puts its code
together in no other way is found by going through the schemes once, for all properties:
`Scheme.Gives` is a class with an instance for each way of doing so. It also tells which nodes
and units are asked for and where, since a property may depend on them.
-/

set_option synthInstance.maxSize 1000

namespace Strand

variable {p : Program} {name : String} {slot : UInt16} {st : Standing} {position : Position} {e : Expr}
  {body : List Expr}

/-! ## Nodes that leave -/

/-- The functions of a member, for the defaults of their parameters, and the initialiser of
a field. -/
def MemberDecl.inline : MemberDecl → List Expr
  | .field f => f.initializer.toList
  | .method m => m.function.params.filterMap Param.default

theorem map_snd_operands (es : List Expr) : (operands es).map Prod.snd = es := by
  rw [operands, List.map_map]
  exact List.map_id es

namespace ExprKind

/-- The nodes that are compiled to a loop. -/
def isLoop : ExprKind → Bool
  | .whileLoop _ _ | .doWhile _ _ | .rangeFor _ _ _ _ _ _ | .forEach _ _ _ => true
  | _ => false

/-- The nodes directly inside whose code belongs to the unit of the node and to no loop of
its own. -/
def inline : ExprKind → List Expr
  | .whileLoop _ _ | .doWhile _ _ => []
  | .switch _ _ _ | .patternMatch _ _ _ | .scope _ | .inlineDecl _ _ => []
  | .rangeFor _ _ first last step _ => first :: last :: step.toList
  | .forEach _ iterable _ => [iterable]
  | .lambda decl | .functionDecl decl => decl.params.filterMap Param.default
  | .classDecl decl =>
    decl.members.flatMap MemberDecl.inline ++
      decl.constructor.toList.flatMap fun ctor => ctor.params.filterMap Param.default
  | kind => kind.nodes.map Prod.snd

/-- The nodes of a loop that are evaluated once, before the loop begins. -/
def header : ExprKind → List Expr
  | .rangeFor _ _ first last step _ => first :: last :: step.toList
  | .forEach _ iterable _ => [iterable]
  | _ => []

/-- The bodies of a node that are evaluated for the value of their last element. -/
def bodies : ExprKind → List (List Expr)
  | .cond branches otherwise => branches.map Branch.body ++ otherwise.toList
  | .whileLoop _ body | .doWhile body _ | .rangeFor _ _ _ _ _ body | .forEach _ _ body => [body]
  | .scope body => [body]
  | .patternMatch _ arms otherwise => arms.map Arm.body ++ otherwise.toList
  | kind => (kind.functions.filter fun f => f.2 ≠ .constructor).map fun f => f.1.body

end ExprKind

/-- The code of the node goes to the loop around it: there is a `break` or a `continue` in
it that belongs to no loop inside, possibly by a macro. -/
inductive Leaves (p : Program) : Expr → Prop where
  | breaks {span : Span} : Leaves p ⟨.breakLoop, span⟩
  | continues {span : Span} : Leaves p ⟨.continueLoop, span⟩
  | expands {name : String} {value : Expr} {span : Span} (hname : Expands p name value)
      (h : Leaves p value) : Leaves p ⟨.var name, span⟩
  | parent {decl : ClassDecl} {name : String} {value : Expr} {span : Span}
      (hparent : decl.parent = some name) (hname : Expands p name value) (h : Leaves p value) :
      Leaves p ⟨.classDecl decl, span⟩
  | inside {e c : Expr} (hc : c ∈ e.kind.inline) (h : Leaves p c) : Leaves p e

/-- The last element of a body that is evaluated for its value. -/
def EndsBody (p : Program) (e : Expr) : Prop :=
  ∃ st e', Occurs p st e' ∧ ∃ body ∈ e'.kind.bodies, body.getLast? = some e

/-- The instruction neither makes a closure nor has to do with accumulators. -/
@[reducible] def Instr.isOrdinary : Instr → Bool
  | .closure _ _ | .accStart | .accCollect | .accFlush => false
  | _ => true

namespace Codegen

open Scheme

/-! ## Analyses -/

/-- The labels of a loop. -/
abbrev loopLabels : List Label := [.start, .again, .exit]

/-- Where a piece of code stands in the code of a node. -/
inductive Spot where
  /-- The node is no loop. -/
  | plain
  /-- The node is a loop, and the piece is in front of it or behind. -/
  | around (position : Position)
  /-- It is repeated with the loop. -/
  | inside (position : Position)

/-- The piece is repeated with a loop. -/
def Spot.isInside : Spot → Bool
  | .inside _ => true
  | _ => false

/-- What a node asks for: a node inside it, or a closure over a unit. -/
inductive Ask where
  | node (w : Spot) (st : Standing) (e : Expr) (position : Position)
  | closure (source : Source)

namespace Ask

/-- Nodes that are operands. -/
def operands (w : Spot) (items : List Expr) : Set Ask := {q | ∃ e ∈ items, ∃ r, q = .node w .operand e r}

/-- The elements of a body, for their effects. -/
def effects (w : Spot) (body : List Expr) : Set Ask := {q | ∃ e ∈ body, q = .node w .element e .effect}

/-- The elements of a body, the last one for its value. -/
def sequence (w : Spot) (body : List Expr) : Set Ask :=
  effects w body ∪ {q | ∃ e, body.getLast? = some e ∧ q = .node w .element e .value}

variable {w : Spot} {items : List Expr} {q : Ask}

@[simp, grind =] theorem mem_operands : q ∈ operands w items ↔ ∃ e ∈ items, ∃ r, q = .node w .operand e r :=
  Iff.rfl

@[simp, grind =] theorem mem_effects : q ∈ effects w items ↔ ∃ e ∈ items, q = .node w .element e .effect :=
  Iff.rfl

@[simp, grind =] theorem mem_sequence : q ∈ sequence w items ↔
    q ∈ effects w items ∨ ∃ e, items.getLast? = some e ∧ q = .node w .element e .value := Iff.rfl

end Ask

/-- The code that makes a closure over the unit of a source: the default values of a function
are in front of it. -/
def Source.closed (node : NodeScheme) : Source → Scheme
  | .function decl kind => functionScheme node decl kind
  | source => closureScheme node source 0

/-- A property of code that holds if it is put together in the ways of schemes, from what is
allowed. -/
structure Analysis (node : NodeScheme) (allowed : Set Ask)
    (Good : List Constant → Spot → List Label → Tree → Prop) : Prop where
  nil : ∀ {k w ls}, Good k w ls .nil
  op : ∀ {k w ls i}, i.isOrdinary = true → Good k w ls (.op i)
  jump : ∀ {k w ls kind l}, l ∈ ls → Good k w ls (.jump kind l)
  back : ∀ {k w ls}, .start ∈ ls → Good k w ls .back
  seq : ∀ {k w ls t u}, Good k w ls t → Good k w ls u → Good k w ls (.seq t u)
  block : ∀ {k w l ls t}, Good k w (l :: ls) t → Good k w ls (.block l t)
  loop : ∀ {k r ls t}, Good k (.inside r) (loopLabels ++ ls) t → Good k (.around r) ls (.loop t)
  finish : ∀ {k r ls s t s'}, finishScheme r k s t s' → Good k (.inside r) ls t
  asked : ∀ {k w ls st e r s t s'}, .node w st e r ∈ allowed → node st e r k s t s' → Good k w ls t
  closed : ∀ {k w ls source s t s'}, .closure source ∈ allowed →
    source.closed node = closureScheme node source 0 → source.closed node k s t s' → Good k w ls t
  function : ∀ {k w ls decl kind s t u s1 s'}, .closure (.function decl kind) ∈ allowed →
    Good k w ls t → each (paramDefaultScheme node) decl.params k s t s1 →
    closureScheme node (.function decl kind) (functionHeader decl kind).defaultCount k s1 u s' →
    Good k w ls (.seq t u)

/-- The scheme puts its code together in the ways of schemes, and asks for these. -/
class Scheme.Gives (node : NodeScheme) (w : Spot) (ls : List Label) (x : Scheme)
    (asks : outParam (Set Ask)) : Prop where
  good : ∀ {allowed Good}, Analysis node allowed Good → asks ⊆ allowed →
    ∀ {k s t s'}, x k s t s' → Good k w ls t

section

variable {node : NodeScheme} {w : Spot} {ls ms : List Label} {x y : Scheme} {P Q : Set Ask}
  {α : Type} {l : Label} {i : Instr} {kind : UnitKind} {place : Place} {target : Expr} {base : Nat}
  {source : Source} {k : Constant} {decl : FunctionDecl} {fails : Bool} {cases : List SwitchCase}
  {value : Option Expr}

/-! ## Putting schemes together -/

/-- What a scheme asks for may be overestimated. -/
theorem gives_of [hx : x.Gives node w ls P] (h : ∀ q ∈ P, q ∈ Q) : x.Gives node w ls Q where
  good hgood hallowed := hx.good hgood (Set.Subset.trans h hallowed)

/-- A scheme that lays down nothing. -/
theorem gives_nothing (h : ∀ {k s t s'}, x k s t s' → t = .nil) : x.Gives node w ls ∅ where
  good hgood _ := by
    intro k s t s' hcode
    rw [h hcode]
    exact hgood.nil

instance : skip.Gives node w ls ∅ := gives_nothing And.left

instance {f : Scene → Scene} : (change f).Gives node w ls ∅ := gives_nothing And.left

instance {R : Scene → Prop} : (requires R).Gives node w ls ∅ := gives_nothing And.left

instance {i : UInt16} : (pooled k i).Gives node w ls ∅ := gives_nothing And.left

instance : (declare name slot).Gives node w ls ∅ := gives_nothing And.left

instance : impossible.Gives node w ls ∅ := gives_nothing False.elim

instance [hi : Same i.isOrdinary true] : (op i).Gives node w ls ∅ where
  good hgood _ := by
    rintro k s _ _ ⟨rfl, -⟩
    exact hgood.op hi.eq

/-- The label is in sight. -/
class Among (l : Label) (ls : List Label) : Prop where
  mem : l ∈ ls

instance : Among l (l :: ls) := ⟨.head _⟩

instance {m : Label} [h : Among l ls] : Among l (m :: ls) := ⟨.tail _ h.mem⟩

instance [h : Among l ms] : Among l (ms ++ ls) :=
  ⟨List.mem_append_left _ h.mem⟩

instance [h : Among l ls] : Among l (ms ++ ls) :=
  ⟨List.mem_append_right _ h.mem⟩

instance {kind : JumpKind} [hl : Among l ls] : (jump kind l).Gives node w ls ∅ where
  good hgood _ := by
    rintro k s _ _ ⟨rfl, -⟩
    exact hgood.jump hl.mem

instance [hl : Among .start ls] : back.Gives node w ls ∅ where
  good hgood _ := by
    rintro k s _ _ ⟨rfl, -⟩
    exact hgood.back hl.mem

instance : (finishScheme position).Gives node (.inside position) ls ∅ where
  good hgood _ := hgood.finish

instance : (node st e position).Gives node w ls {.node w st e position} where
  good hgood hallowed := hgood.asked (hallowed rfl)

instance [hx : x.Gives node w ls P] [hy : y.Gives node w ls Q] : (x ++ y).Gives node w ls (P ∪ Q) where
  good hgood hallowed := by
    rintro k s _ s' ⟨t1, s1, t2, h1, h2, rfl⟩
    obtain ⟨hP, hQ⟩ := Set.union_subset_iff.mp hallowed
    exact hgood.seq (hx.good hgood hP h1) (hy.good hgood hQ h2)

instance [hx : x.Gives node w (l :: ls) P] : (block l x).Gives node w ls P where
  good hgood hallowed := by
    rintro k s _ s' ⟨t1, h, rfl⟩
    exact hgood.block (hx.good hgood hallowed h)

instance {back : Bool} [hx : x.Gives node (.inside position) (loopLabels ++ ls) P] :
    (looped back x).Gives node (.around position) ls P where
  good hgood hallowed := by
    rintro k s _ _ ⟨t1, s1, h, rfl, -⟩
    exact hgood.loop (hx.good hgood hallowed h)

instance {x : α → Scheme} {P : α → Set Ask} [h : ∀ a, (x a).Gives node w ls (P a)] :
    (choose x).Gives node w ls {q | ∃ a, q ∈ P a} where
  good hgood hallowed := by
    rintro k s t s' ⟨a, hx⟩
    exact (h a).good hgood (fun q hq => hallowed ⟨a, hq⟩) hx

instance {x : Scene → Scheme} {P : Scene → Set Ask} [h : ∀ s, (x s).Gives node w ls (P s)] :
    (reading x).Gives node w ls {q | ∃ s, q ∈ P s} where
  good hgood hallowed := by
    intro k s t s' hx
    exact (h s).good hgood (fun q hq => hallowed ⟨s, hq⟩) hx

instance : (oneOf []).Gives node w ls ∅ := by
  refine gives_nothing ?_
  rintro k s t s' ⟨_, hmem, -⟩
  cases hmem

instance {xs : List Scheme} [hx : x.Gives node w ls P] [hxs : (oneOf xs).Gives node w ls Q] :
    (oneOf (x :: xs)).Gives node w ls (P ∪ Q) where
  good hgood hallowed := by
    rintro k s t s' ⟨y, hmem, hy⟩
    obtain ⟨hP, hQ⟩ := Set.union_subset_iff.mp hallowed
    rcases List.mem_cons.mp hmem with rfl | hmem
    · exact hx.good hgood hP hy
    · exact hxs.good hgood hQ ⟨y, hmem, hy⟩

instance {R : Prop} [Decidable R] [hx : x.Gives node w ls P] [hy : y.Gives node w ls Q] :
    (if R then x else y).Gives node w ls (P ∪ Q) := by
  split
  · exact gives_of fun _ => .inl
  · exact gives_of fun _ => .inr

instance {x : α → Scheme} {P : α → Set Ask} [h : ∀ a, (x a).Gives node w ls (P a)] {items : List α} :
    (each x items).Gives node w ls {q | ∃ a ∈ items, q ∈ P a} := by
  induction items with
  | nil =>
    change skip.Gives node w ls _
    exact gives_of (by simp)
  | cons a items ih =>
    change (x a ++ each x items).Gives node w ls _
    exact gives_of (by simp)

instance [Same i.isOrdinary true] {n : Nat} : (times i n).Gives node w ls ∅ := by
  induction n with
  | zero => exact gives_nothing And.left
  | succ n _ =>
    change (op i ++ times i n).Gives node w ls _
    exact gives_of (by simp)

instance {R : Prop} [Decidable R] {j : Instr} [Same i.isOrdinary true] [Same j.isOrdinary true] :
    Same (if R then i else j).isOrdinary true := by
  split <;> infer_instance

instance (priority := 1100) : (constant k).Gives node w ls ∅ := gives_of (by simp)

instance (priority := 1100) {carry : Bool} : (leave carry).Gives node w ls ∅ := gives_of (by simp)

/-! ## Units -/

instance {q : Param} : (paramDefaultScheme node q).Gives node w ls (Ask.operands w q.default.toList) := by
  unfold paramDefaultScheme
  split <;> exact gives_of (by simp_all)

/-- A function asks for its default values, and for a closure over its unit. -/
instance (priority := 1100) : (functionScheme node decl kind).Gives node w ls
      ({.closure (.function decl kind)} ∪ Ask.operands w (decl.params.filterMap Param.default)) where
  good hgood hallowed := by
    rintro k s _ s' ⟨t1, s1, t2, h1, h2, rfl⟩
    obtain ⟨hclosure, hdefaults⟩ := Set.union_subset_iff.mp hallowed
    have hvalues : (each (paramDefaultScheme node) decl.params).Gives node w ls
        (Ask.operands w (decl.params.filterMap Param.default)) := gives_of (by simp; grind)
    exact hgood.function (hclosure rfl) (hvalues.good hgood hdefaults h1) h1 h2

/-! ## Constructs -/

instance : (reserve name place).Gives node w ls ∅ := by
  cases place <;> unfold reserve <;> exact gives_of (by simp)

instance : (store place).Gives node w ls ∅ := by
  cases place <;> unfold store <;> exact gives_of (by simp)

instance : (load place).Gives node w ls ∅ := by
  cases place <;> unfold load <;> infer_instance

instance {left : Leaving} : (settleScheme left position).Gives node w ls ∅ := by
  cases left <;> cases position <;> unfold settleScheme <;> infer_instance

instance {b : String × Option String} : (binderScheme slot b).Gives node w ls ∅ := by
  obtain ⟨name, _ | member⟩ := b <;> unfold binderScheme <;> exact gives_of (by simp)

instance : (sequenceScheme node body).Gives node w ls (Ask.sequence w body) := by
  induction body with
  | nil =>
    change (op .pushNull).Gives node w ls _
    exact gives_of (by simp)
  | cons e rest ih =>
    cases rest with
    | nil =>
      change (node .element e .value).Gives node w ls _
      exact gives_of (by simp)
    | cons e' rest =>
      change (node .element e .effect ++ sequenceScheme node (e' :: rest)).Gives node w ls _
      exact gives_of (by simp; grind)

instance {body : Option (List Expr)} : (otherwiseScheme node body).Gives node w ls (Ask.sequence w (body.getD [])) := by
  cases body <;> unfold otherwiseScheme <;> exact gives_of (by simp)

instance {body : Option (List Expr)} : (defaultScheme node body).Gives node w ls (Ask.effects w (body.getD [])) := by
  cases body <;> unfold defaultScheme <;> exact gives_of (by simp)

instance {part : TextPart} : (textPartScheme node part).Gives node w ls (Ask.operands w part.exprs) := by
  cases part <;> unfold textPartScheme <;> exact gives_of (by simp [TextPart.exprs])

instance {counter last : UInt16} {step : Option Expr} :
    (stepScheme node counter last step).Gives node w ls (Ask.operands w step.toList) := by
  cases step <;> unfold stepScheme <;> exact gives_of (by simp)

instance {condition : Expr} {message : Option Expr} :
    (assertScheme node condition message).Gives node w ls (Ask.operands w (condition :: message.toList)) := by
  cases message <;> unfold assertScheme <;> exact gives_of (by simp)

instance : (letScheme node name value).Gives node w ls (Ask.operands w value.toList) := by
  cases value <;> unfold letScheme <;> exact gives_of (by simp)

instance : (returnedScheme node kind value).Gives node w ls (Ask.operands w value.toList) := by
  cases value <;> unfold returnedScheme <;> exact gives_of (by simp)

instance {isWeak : Bool} {value : Expr} : (assignScheme p node isWeak target value).Gives
    node w ls (Ask.operands w (value :: target.kind.inline)) := by
  unfold assignScheme
  split <;> exact gives_of (by simp_all [ExprKind.inline, ExprKind.nodes, operands])

instance : (dropScheme p node target).Gives node w ls (Ask.operands w target.kind.inline) := by
  unfold dropScheme
  split <;> exact gives_of (by simp_all [ExprKind.inline, ExprKind.nodes, operands])

/-- A name that stands for a macro asks for its tree. -/
instance : (variableScheme p node name).Gives node w ls
    {q | ∃ e, Expands p name e ∧ q = .node w .operand e .value} := by
  have hvalue : (choose fun value => requires (fun _ => Expands p name value) ++ node.value value).Gives
      node w ls {q | ∃ e, Expands p name e ∧ q = .node w .operand e .value} := by
    refine ⟨fun hgood hallowed => ?_⟩
    rintro k s _ s' ⟨e, _, _, t, ⟨rfl, rfl, he⟩, h, rfl⟩
    exact hgood.seq hgood.nil (hgood.asked (hallowed ⟨e, he, rfl⟩) h)
  exact gives_of (by simp)

/-! ## Switch and match -/

/-- Each test jumps to the body of its case, whose label has to be around. -/
theorem gives_tests {index : Nat} (h : ∀ i < cases.length, .case (index + i) ∈ ls) :
    (testsScheme node slot index cases).Gives node w ls (Ask.operands w (cases.flatMap SwitchCase.values)) := by
  induction cases generalizing index with
  | nil =>
    change skip.Gives node w ls _
    exact gives_of (by simp)
  | cons c rest ih =>
    have hlabel : Among (.case index) ls := ⟨h 0 (Nat.succ_pos _)⟩
    have hrest : (testsScheme node slot (index + 1) rest).Gives node w ls _ := ih fun i hi => by
      rw [Nat.add_right_comm]
      exact h (i + 1) (Nat.succ_lt_succ hi)
    unfold testsScheme
    exact gives_of (by simp; grind)

/-- The labels of some cases, from an index on. -/
def caseLabels (index : Nat) (cases : List SwitchCase) : List Label :=
  (List.range' index cases.length).map .case

/-- The bodies of the cases, each behind its label. -/
instance {index : Nat} [Among .done ls]
    [h : x.Gives node w (caseLabels index cases ++ ls) P] : (caseBodiesScheme node base index cases x).Gives node w ls
      (P ∪ Ask.effects w (cases.flatMap SwitchCase.body)) := by
  induction cases generalizing index x P with
  | nil =>
    unfold caseBodiesScheme
    have hx : x.Gives node w ls P := h
    exact gives_of fun _ => .inl
  | cons c rest ih =>
    have hx : x.Gives node w (.case index :: (caseLabels (index + 1) rest ++ ls)) P := h
    unfold caseBodiesScheme
    exact gives_of (by simp; grind)

instance {subject : Expr} {otherwise : Option (List Expr)} :
    (switchScheme node subject cases otherwise).Gives node w ls
      (Ask.operands w (subject :: cases.flatMap SwitchCase.values) ∪
        Ask.effects w (cases.flatMap SwitchCase.body ++ otherwise.getD [])) := by
  have htests (slot : UInt16) : (testsScheme node slot 0 cases).Gives node w
      (caseLabels 0 cases ++ .otherwise :: .done :: ls) _ :=
    gives_tests (by simp +contextual [caseLabels])
  exact gives_of (by simp; grind)

/-- The labels that an arm may go to when it does not match. -/
def armLabels (guarded fails : Bool) : List Label :=
  (if guarded then [.unguarded] else []) ++ (if fails then [.failed] else []) ++
    if guarded && fails then [.next] else []

instance {count : Nat} {guarded : Bool} [h : x.Gives node w (armLabels guarded fails ++ ls) P] :
    (fallThroughScheme base count guarded fails x).Gives node w ls P := by
  cases guarded <;> cases fails <;> simp only [armLabels, fallThroughScheme, Bool.and_self, Bool.and_false,
    Bool.and_true, Bool.false_eq_true, reduceIte, List.append_nil, List.nil_append, List.cons_append] at h ⊢ <;>
    exact gives_of (by simp)

/-- Only a pattern that can fail jumps. -/
theorem gives_pattern {pattern : Pattern} {binders : List (String × Option String)}
    (h : fails = true → .failed ∈ ls) :
    (patternScheme node slot pattern fails binders).Gives node w ls (Ask.operands w pattern.exprs) := by
  cases fails with
  | true =>
    have hlabel : Among .failed ls := ⟨h rfl⟩
    cases pattern <;> unfold patternScheme <;> exact gives_of (by simp [Pattern.exprs])
  | false =>
    -- a pattern that cannot fail is not tested
    have hnothing : (patternScheme node slot pattern false binders).Gives node w ls ∅ := by
      refine gives_nothing fun {k s t s'} hcode => ?_
      cases pattern with
      | wildcard => exact hcode.1
      | value e =>
        obtain ⟨x, hx, hcode⟩ := hcode
        simp only [List.mem_cons, List.not_mem_nil, or_false] at hx
        rcases hx with rfl | rfl
        · exact hcode.1
        · obtain ⟨_, _, _, ⟨_, _, _, ⟨_, _, _, ⟨_, _, _, ⟨_, _, _, ⟨-, -, hfails, -⟩, -⟩, -⟩, -⟩, -⟩, -⟩ := hcode
          cases hfails
      | destructure target names =>
        obtain ⟨_, _, _, -, ⟨-, -, hfails, -⟩, -⟩ := hcode
        cases hfails
    exact gives_of (by simp)

theorem gives_guard {guard : Option Expr} (h : guard.isSome = true → .unguarded ∈ ls) :
    (guardScheme node guard).Gives node w ls (Ask.operands w guard.toList) := by
  cases guard with
  | none =>
    unfold guardScheme
    exact gives_of (by simp)
  | some e =>
    have hlabel : Among .unguarded ls := ⟨h rfl⟩
    unfold guardScheme
    exact gives_of (by simp)

instance {a : Arm} [Among .done ls] : (armScheme node slot base a).Gives node w ls
    (Ask.operands w (a.pattern.exprs ++ a.guard.toList) ∪ Ask.sequence w a.body) := by
  have hpattern (fails : Bool) (binders : List (String × Option String)) :
      (patternScheme node slot a.pattern fails binders).Gives node w
        (armLabels a.guard.isSome fails ++ ls) _ := gives_pattern (by simp +contextual [armLabels])
  have hguard (fails : Bool) : (guardScheme node a.guard).Gives node w
      (armLabels a.guard.isSome fails ++ ls) _ := gives_guard (by simp +contextual [armLabels])
  exact gives_of (by simp; grind)

/-! ## Declarations -/

instance {decorator : Expr} : (decoratedScheme node decorator target).Gives node w ls
    (Ask.operands w (decorator :: target.kind.inline) ∪
      {q | ∃ f ∈ target.kind.functions, q = .closure (.function f.1 f.2)}) := by
  unfold decoratedScheme
  split
  · rename_i decl hkind
    rw [hkind]
    exact gives_of (by simp [ExprKind.inline, ExprKind.functions]; grind)
  · exact gives_of (by simp)

instance {m : MemberDecl} : (memberValueScheme node m).Gives node w ls
    (Ask.operands w m.inline ∪ {q | ∃ f ∈ m.functions, q = .closure (.function f.1 f.2)}) := by
  cases m with
  | field f =>
    unfold memberValueScheme
    dsimp only
    split <;> exact gives_of (by simp_all [MemberDecl.inline])
  | method m =>
    unfold memberValueScheme
    exact gives_of (by simp [MemberDecl.inline, MemberDecl.functions])

instance {ctor : Option FunctionDecl} : (constructorScheme node ctor).Gives node w ls
    {q | ∃ decl ∈ ctor, q = .closure (.function decl .constructor) ∨
      q ∈ Ask.operands w (decl.params.filterMap Param.default)} := by
  cases ctor <;> unfold constructorScheme <;> exact gives_of (by simp)

instance {parent : Option String} : (parentScheme p node parent).Gives node w ls
    {q | ∃ name ∈ parent, ∃ e, Expands p name e ∧ q = .node w .operand e .value} := by
  cases parent <;> unfold parentScheme <;> exact gives_of (by simp)

/-! ## Loops -/

/-- Code that opens an accumulator if its value is wanted, and goes on with it open. -/
inductive Opening (position : Position) (Good : Tree → Prop) : Tree → Prop where
  | start {k : List Constant} {s s' : Scene} {t : Tree} (h : openAccumulatorScheme position k s t s') :
      Opening position Good t
  | seq {t u : Tree} (h : Opening position Good t) (h' : Good u) : Opening position Good (.seq t u)

/-- The scheme opens an accumulator first, if its value is wanted. -/
class Scheme.Opens (node : NodeScheme) (position : Position) (x : Scheme) (asks : outParam (Set Ask)) :
    Prop where
  good : ∀ {allowed Good}, Analysis node allowed Good → asks ⊆ allowed →
    ∀ {k s t s'}, x k s t s' → Opening position (Good k (.around position) []) t

instance : (openAccumulatorScheme position).Opens node position ∅ where
  good _ _ := .start

instance [hx : x.Opens node position P] [hy : y.Gives node (.around position) [] Q] :
    (x ++ y).Opens node position (P ∪ Q) where
  good hgood hallowed := by
    rintro k s _ s' ⟨t1, s1, t2, h1, h2, rfl⟩
    obtain ⟨hP, hQ⟩ := Set.union_subset_iff.mp hallowed
    exact .seq (hx.good hgood hP h1) (hy.good hgood hQ h2)

/-- The scheme is that of a loop: what it opens first it closes in the end. -/
class Scheme.Loops (node : NodeScheme) (position : Position) (x : Scheme) (asks : outParam (Set Ask)) :
    Prop where
  good : ∀ {allowed Good}, Analysis node allowed Good → asks ⊆ allowed → ∀ {k s t s'}, x k s t s' →
    ∃ t1 t2 s1, t = .seq t1 t2 ∧ Opening position (Good k (.around position) []) t1 ∧
      closeAccumulatorScheme position k s1 t2 s'

instance [hx : x.Opens node position P] : (x ++ closeAccumulatorScheme position).Loops node position P where
  good hgood hallowed := by
    rintro k s _ s' ⟨t1, s1, t2, h1, h2, rfl⟩
    exact ⟨t1, t2, s1, rfl, hx.good hgood hallowed h1, h2⟩

instance {x : α → Scheme} {P : α → Set Ask} [h : ∀ a, (x a).Loops node position (P a)] :
    (choose x).Loops node position {q | ∃ a, q ∈ P a} where
  good hgood hallowed := by
    rintro k s t s' ⟨a, hx⟩
    exact (h a).good hgood (fun q hq => hallowed ⟨a, hq⟩) hx

theorem loops_of [hx : x.Loops node position P] (h : ∀ q ∈ P, q ∈ Q) : x.Loops node position Q where
  good hgood hallowed := hx.good hgood (Set.Subset.trans h hallowed)

/-! ## Nodes -/

/-- What may be asked for belongs to the program: a value is wanted of operands and at the end
of bodies, and outside loops nodes leave only where that is said. -/
def Ask.suited (p : Program) (exits : Prop) : Set Ask
  | .node w st e position =>
    (position = .value → st = .operand ∨ EndsBody p e) ∧ (w.isInside = false → Leaves p e → exits)
  | .closure source => source.DeclaredIn p

variable {exits : Prop} {kind : ExprKind} {span : Span}

@[simp, grind =] theorem Ask.node_mem_suited : .node w st e position ∈ Ask.suited p exits ↔
    (position = .value → st = .operand ∨ EndsBody p e) ∧ (w.isInside = false → Leaves p e → exits) := Iff.rfl

@[simp, grind =] theorem Ask.closure_mem_suited :
    .closure source ∈ Ask.suited p exits ↔ source.DeclaredIn p := Iff.rfl

/-- A unit that is called where it stands. -/
theorem gives_called (h : source.closed node = closureScheme node source 0)
    (hsource : source.DeclaredIn p) : (calledScheme node source).Gives node w ls (Ask.suited p exits) where
  good hgood hallowed := by
    rintro k s _ s' ⟨t1, s1, _, h1, ⟨rfl, -⟩, rfl⟩
    rw [← h] at h1
    exact hgood.seq (hgood.closed (hallowed hsource) h h1) (hgood.op rfl)

theorem Ask.sequence_suited (hlast : ∀ e, body.getLast? = some e → EndsBody p e)
    (h : w.isInside = false → ∀ e ∈ body, Leaves p e → exits) :
    ∀ q ∈ Ask.sequence w body, q ∈ Ask.suited p exits := by
  rintro _ (⟨e, he, rfl⟩ | ⟨e, he, rfl⟩)
  · exact ⟨fun hvalue => (by cases hvalue), fun hw => h hw e he⟩
  · exact ⟨fun _ => .inr (hlast e he), fun hw => h hw e (List.mem_of_getLast? he)⟩

/-- The value of a function is that of its last node, unless it is a constructor. -/
theorem endsBody_of_declares {kind : UnitKind} (h : Declares p decl kind)
    (hkind : kind ≠ .constructor) (hlast : decl.body.getLast? = some e) : EndsBody p e := by
  obtain ⟨st, ⟨k, span⟩, he, hdecl⟩ := h
  refine ⟨st, _, he, decl.body, ?_, hlast⟩
  have hmem : decl.body ∈ (k.functions.filter fun f => f.2 ≠ .constructor).map fun f => f.1.body :=
    List.mem_map.mpr ⟨(decl, kind), List.mem_filter.mpr ⟨hdecl, by simpa using hkind⟩, rfl⟩
  cases k with
  | lambda _ | functionDecl _ | classDecl _ => exact hmem
  | _ => exact absurd hdecl List.not_mem_nil

/-- The labels that a node goes to in the loop around it. -/
def loopExits : ExprKind → List Label
  | .breakLoop | .continueLoop => loopLabels
  | _ => []

/-- Whatever a node asks for stands inside it, and leaves a loop only if the node does. -/
theorem gives_kind (hoccurs : Occurs p st ⟨kind, span⟩) (hloop : kind.isLoop = false) :
    (kindScheme p node position kind).Gives node .plain (loopExits kind)
      (Ask.suited p (Leaves p ⟨kind, span⟩)) := by
  have hinline : ∀ q ∈ Ask.operands .plain kind.inline, q ∈ Ask.suited p (Leaves p ⟨kind, span⟩) := by
    rintro q ⟨e, he, r, rfl⟩
    exact ⟨fun _ => .inl rfl, fun _ => .inside he⟩
  have hdeep {c : Expr} (hc : c ∈ kind.inline) : ∀ q ∈ Ask.operands .plain c.kind.inline,
      q ∈ Ask.suited p (Leaves p ⟨kind, span⟩) := by
    rintro q ⟨e, he, r, rfl⟩
    exact ⟨fun _ => .inl rfl, fun _ h => .inside hc (.inside he h)⟩
  have hfunction {f : FunctionDecl × UnitKind} (hf : f ∈ kind.functions) :
      .closure (.function f.1 f.2) ∈ Ask.suited p (Leaves p ⟨kind, span⟩) := ⟨st, _, hoccurs, hf⟩
  cases kind with
  | whileLoop _ _ | doWhile _ _ | rangeFor _ _ _ _ _ _ | forEach _ _ _ => cases hloop
  | switch _ _ _ | patternMatch _ _ _ | scope _ => exact gives_called rfl ⟨st, span, hoccurs⟩
  | var name =>
    dsimp only [kindScheme, loopExits]
    refine gives_of ?_
    rintro _ ⟨e, he, rfl⟩
    exact ⟨fun _ => .inl rfl, fun _ => .expands he⟩
  | lambda decl =>
    dsimp only [kindScheme, loopExits]
    refine gives_of ?_
    rintro q (rfl | hq)
    · exact hfunction (.head _)
    · exact hinline q hq
  | functionDecl decl =>
    dsimp only [kindScheme, loopExits]
    refine gives_of ?_
    simp only [Set.empty_union, Set.union_empty]
    rintro q ⟨_, rfl | hq⟩
    · exact hfunction (.head _)
    · exact hinline q hq
  | assign isWeak target value =>
    dsimp only [kindScheme, loopExits]
    refine gives_of ?_
    rintro _ ⟨e, he, r, rfl⟩
    rcases List.mem_cons.mp he with rfl | he
    · exact hinline _ ⟨_, by simp [ExprKind.inline, ExprKind.nodes, operands], r, rfl⟩
    · exact hdeep (.head _) _ ⟨_, he, r, rfl⟩
  | drop target =>
    dsimp only [kindScheme, loopExits]
    exact gives_of (hdeep (.head _))
  | classDecl decl =>
    dsimp only [kindScheme, loopExits]
    refine gives_of ?_
    simp only [Set.empty_union, Set.union_empty, Set.mem_empty_iff_false, and_false, exists_false, Set.ofPred_false]
    rintro q ⟨_, _, (⟨name, hname, e, he, rfl⟩ | ⟨m, hm, ⟨e, he, r, rfl⟩ | ⟨f, hf, rfl⟩⟩) |
      ⟨ctor, hctor, rfl | ⟨e, he, r, rfl⟩⟩⟩
    · exact ⟨fun _ => .inl rfl, fun _ => .parent hname he⟩
    · refine hinline _ ⟨e, List.mem_append_left _ ?_, r, rfl⟩
      exact List.mem_flatMap.mpr ⟨m, List.mem_reverse.mp hm, he⟩
    · exact hfunction (List.mem_append_left _ (List.mem_flatMap.mpr ⟨m, List.mem_reverse.mp hm, hf⟩))
    · refine hfunction (f := (ctor, .constructor)) (List.mem_append_right _ ?_)
      exact List.mem_map.mpr ⟨ctor, Option.mem_toList.mpr hctor, rfl⟩
    · refine hinline _ ⟨e, List.mem_append_right _ ?_, r, rfl⟩
      exact List.mem_flatMap.mpr ⟨ctor, Option.mem_toList.mpr hctor, he⟩
  | cond branches otherwise =>
    have hnode {s : Standing} {c : Expr} (hc : (s, c) ∈ (ExprKind.cond branches otherwise).nodes) :
        Leaves p c → Leaves p ⟨.cond branches otherwise, span⟩ := .inside (List.mem_map.mpr ⟨_, hc, rfl⟩)
    have hends {body : List Expr} (hmem : body ∈ (ExprKind.cond branches otherwise).bodies) (e : Expr)
        (hlast : body.getLast? = some e) : EndsBody p e := ⟨st, _, hoccurs, body, hmem, hlast⟩
    dsimp only [kindScheme, loopExits]
    refine gives_of ?_
    simp only [Set.empty_union, Set.union_empty]
    rintro q ⟨_, ⟨b, hb, rfl | hq⟩ | hq⟩
    · refine ⟨fun _ => .inl rfl, fun _ => hnode (s := .operand) (List.mem_append_left _ ?_)⟩
      exact List.mem_flatMap.mpr ⟨b, hb, List.mem_append_left _ (.head _)⟩
    · refine Ask.sequence_suited (hends (List.mem_append_left _ (List.mem_map.mpr ⟨b, hb, rfl⟩)))
        (fun _ e he => hnode (s := .element) (List.mem_append_left _ ?_)) q hq
      exact List.mem_flatMap.mpr ⟨b, hb, List.mem_append_right _ (List.mem_map.mpr ⟨e, he, rfl⟩)⟩
    · cases otherwise with
      | none => exact Ask.sequence_suited (by simp) (by simp) q hq
      | some body =>
        refine Ask.sequence_suited (hends (List.mem_append_right _ (.head _)))
          (fun _ e he => hnode (s := .element) (List.mem_append_right _ ?_)) q hq
        exact List.mem_map.mpr ⟨e, he, rfl⟩
  | decorated decorator target =>
    dsimp only [kindScheme, loopExits]
    refine gives_of ?_
    rintro _ (⟨e, he, r, rfl⟩ | ⟨f, hf, rfl⟩)
    · rcases List.mem_cons.mp he with rfl | he
      · exact hinline _ ⟨_, .head _, r, rfl⟩
      · exact hdeep (.tail _ (.head _)) _ ⟨_, he, r, rfl⟩
    · exact ⟨_, _, hoccurs.inside (.tail _ (.head _)), hf⟩
  | _ =>
    dsimp only [kindScheme, loopExits]
    refine gives_of fun q hq => hinline q ?_
    revert q
    simp only [ExprKind.inline, ExprKind.nodes, map_snd_operands]
    simp <;> grind [→ value_of_positional, → value_of_keyword]

/-- The same for a loop, whose body may be left by what stands in it. -/
theorem loops_kind (hoccurs : Occurs p st ⟨kind, span⟩) (hloop : kind.isLoop = true)
    (hheader : ∀ e ∈ kind.header, Leaves p e → exits) :
    (kindScheme p node position kind).Loops node position (Ask.suited p exits) := by
  have hbody {body : List Expr} (h : body ∈ kind.bodies) :
      ∀ q ∈ Ask.sequence (.inside position) body, q ∈ Ask.suited p exits :=
    Ask.sequence_suited (fun e hlast => ⟨st, _, hoccurs, body, h, hlast⟩) fun hinside => by cases hinside
  cases kind with
  | whileLoop _ body | doWhile body _ | rangeFor _ _ _ _ _ body | forEach _ _ body =>
    have hlast := hbody (.head _)
    dsimp only [kindScheme]
    refine loops_of ?_
    simp only [ExprKind.header] at hheader
    simp [Spot.isInside] at hheader ⊢
    grind
  | _ => cases hloop

/-- A unit can leave no loop. -/
theorem gives_source (h : source.DeclaredIn p) :
    (source.scheme node).Gives node .plain [] (Ask.suited p True) := by
  -- the values of a unit are those of its bodies, each given by its last node
  have hbody {body : List Expr} (hends : ∀ e, body.getLast? = some e → EndsBody p e) :
      ∀ q ∈ Ask.sequence .plain body, q ∈ Ask.suited p True :=
    Ask.sequence_suited hends fun _ _ _ _ => trivial
  cases source with
  | main body | switch subject cases otherwise =>
    unfold Source.scheme
    exact gives_of (by simp; grind)
  | function decl kind =>
    have hfunction : (functionBodyScheme node decl kind).Gives node .plain [] (Ask.suited p True) := by
      unfold functionBodyScheme
      split
      · exact gives_of (by simp; grind)
      · rename_i hkind
        have hsequence := hbody fun e hlast => endsBody_of_declares h hkind hlast
        exact gives_of (by simp; grind)
    unfold Source.scheme
    exact gives_of (by simp)
  | scope body =>
    obtain ⟨st, span, he⟩ := h
    have hsequence := hbody fun e hlast => ⟨st, _, he, body, .head _, hlast⟩
    unfold Source.scheme
    exact gives_of (by simp; grind)
  | patternMatch subject arms otherwise =>
    obtain ⟨st, span, he⟩ := h
    have harms (a : Arm) (ha : a ∈ arms) := hbody fun e hlast => ⟨st, _, he, a.body,
      List.mem_append_left _ (List.mem_map.mpr ⟨a, ha, rfl⟩), hlast⟩
    have hotherwise : ∀ q ∈ Ask.sequence .plain (otherwise.getD []), q ∈ Ask.suited p True := by
      cases otherwise with
      | none => exact hbody (by simp)
      | some body => exact hbody fun e hlast => ⟨st, _, he, body,
          List.mem_append_right _ (.head _), hlast⟩
    unfold Source.scheme
    exact gives_of (by simp; grind)

end

end Codegen

end Strand
