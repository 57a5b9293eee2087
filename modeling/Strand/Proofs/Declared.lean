import Strand.Proofs.JumpIntegrity

/-!
# Every function that is declared has a unit

A scheme says what is laid down for a node, and a unit that it needs is in the pool. Read
the other way round, nothing is left out: whatever stands inside a node is laid down with
it, in the same unit or in one of the units in its pool. So each function that a program
declares is compiled to a unit of its module, and somewhere in the module a closure over
that unit is made. Only what a macro stands for may be left out, since the macro may not
be used.
-/

set_option synthInstance.maxSize 1000

namespace Strand

open Codegen (UnitKind)

variable {decl : FunctionDecl} {kind : UnitKind} {st : Standing} {u v : CodeUnit} {m : Module}
  {α : Type} {slot : UInt16} {base : Nat} {p : Program} {e : Expr}

/-- The function is declared by the node or by one below it, and by no part of a macro. -/
inductive Expr.Contains : Expr → FunctionDecl → UnitKind → Prop where
  | here {e : Expr} {decl : FunctionDecl} {kind : UnitKind}
      (h : (decl, kind) ∈ e.kind.functions) : Contains e decl kind
  | inside {st : Standing} {e c : Expr} {decl : FunctionDecl} {kind : UnitKind}
      (hinline : ∀ name value, e.kind ≠ .inlineDecl name value) (hc : (st, c) ∈ e.kind.nodes)
      (h : Contains c decl kind) : Contains e decl kind

/-- The function is declared in the program, and not in a macro. -/
def Program.Contains (p : Program) (decl : FunctionDecl) (kind : UnitKind) : Prop :=
  ∃ e ∈ p.body, e.Contains decl kind

theorem Expr.Contains.declares
    (h : e.Contains decl kind) (he : Occurs p st e) : Declares p decl kind := by
  induction h generalizing st with
  | here h => exact ⟨_, _, he, h⟩
  | inside _ hc _ ih => exact ih (he.inside hc)

theorem Program.Contains.declares (h : p.Contains decl kind) : Declares p decl kind := by
  obtain ⟨e, he, hcontains⟩ := h
  exact hcontains.declares (.top he)

/-- What a node below another contains, that one contains too, if there are no macros. -/
theorem Occurs.contains (hmacros : ∀ value, ¬ IsMacro p value)
    (h : Occurs p st e) (hdecl : e.Contains decl kind) : p.Contains decl kind := by
  induction h with
  | top h => exact ⟨_, h, hdecl⟩
  | @inside st _ e _ h hc ih =>
    refine ih (.inside (fun name value hkind => ?_) hc hdecl)
    obtain ⟨_, span⟩ := e
    cases hkind
    exact hmacros value ⟨st, name, span, h⟩

namespace CodeUnit

theorem mem_unitsBackwards_of_mem {pool : List Constant}
    (hu : .function u ∈ pool) (hv : v ∈ u.units) : v ∈ unitsBackwards pool :=
  mem_unitsBackwards.mpr ⟨u, hu, hv⟩

theorem mem_units_self (u : CodeUnit) : u ∈ u.units := by
  rw [units_eq]
  exact .head _

theorem mem_units_of_mem (h : v ∈ unitsBackwards u.constants) : v ∈ u.units := by
  rw [units_eq]
  exact .tail _ h

theorem sizeOf_lt_of_mem (h : .function v ∈ u.constants) : sizeOf v < sizeOf u := by
  have hpool := List.sizeOf_lt_of_mem h
  cases u
  simp only [Constant.function.sizeOf_spec, mk.sizeOf_spec] at hpool ⊢
  omega

/-- What is inside a unit inside another is inside that, too. -/
theorem mem_units_trans {w : CodeUnit} (hv : v ∈ w.units) (hu : u ∈ v.units) : u ∈ w.units := by
  rw [units_eq] at hv
  rcases List.mem_cons.mp hv with rfl | hinside
  · exact hu
  · -- by induction on the outermost unit: `v` is in a unit of its pool
    obtain ⟨x, hx, hvx⟩ := mem_unitsBackwards.mp hinside
    have hlt := sizeOf_lt_of_mem hx
    exact mem_units_of_mem (mem_unitsBackwards_of_mem hx (mem_units_trans hvx hu))
termination_by sizeOf w

theorem mem_units_of_pool {w : CodeUnit} (hv : v ∈ w.units) (hu : .function u ∈ v.constants) :
    u ∈ w.units :=
  mem_units_trans hv (mem_units_of_mem (mem_unitsBackwards_of_mem hu u.mem_units_self))

end CodeUnit

theorem Module.mem_units_of_pool (hv : v ∈ m.units) (hu : .function u ∈ v.constants) : u ∈ m.units := by
  rw [m.units_eq] at hv ⊢
  exact CodeUnit.mem_units_of_pool hv hu

namespace Codegen

/-! ## What stands in a tree -/

/-- All parts of a tree are parts of another. -/
def Tree.Inside (t t' : Tree) : Prop := ∀ s a, ∃ s' a', ∀ q ∈ t.parts s' a', q ∈ t'.parts s a

namespace Tree.Inside

variable {t t' t'' : Tree}

theorem trans (h : t.Inside t') (h' : t'.Inside t'') : t.Inside t'' := by
  intro s a
  obtain ⟨s', a', h'⟩ := h' s a
  obtain ⟨s'', a'', h⟩ := h s' a'
  exact ⟨s'', a'', fun q hq => h' q (h q hq)⟩

theorem first (x y : Tree) : x.Inside (.seq x y) :=
  fun s a => ⟨s, a, fun _ hq => .tail _ (List.mem_append_left _ hq)⟩

theorem second (x y : Tree) : y.Inside (.seq x y) :=
  fun s a => ⟨s, a + x.size, fun _ hq => .tail _ (List.mem_append_right _ hq)⟩

theorem inBlock (l : Label) (t : Tree) : t.Inside (.block l t) :=
  fun _ _ => ⟨_, _, fun _ hq => .tail _ hq⟩

theorem inLoop (t : Tree) : t.Inside (.loop t) :=
  fun _ _ => ⟨_, _, fun _ hq => .tail _ hq⟩

theorem inNode (e : Expr) (t : Tree) : t.Inside (.node e t) :=
  fun _ _ => ⟨_, _, fun _ hq => .tail _ hq⟩

end Tree.Inside

/-- Somewhere in the tree a closure over a function is made: the code of its default values
stands there, and the instruction that takes them. -/
def Tree.Makes (p : Program) (decl : FunctionDecl) (kind : UnitKind) (k : List Constant)
    (t : Tree) : Prop :=
  ∀ s a, ∃ q ∈ t.parts s a, ∃ budget c c',
    functionScheme (nodeScheme p budget) decl kind k c q.tree c'

/-- The closure over a function is made in the tree, or in one of the units of a pool or
inside them. -/
def HasFunction (p : Program) (decl : FunctionDecl) (kind : UnitKind) (k : List Constant)
    (t : Tree) : Prop :=
  t.Makes p decl kind k ∨ ∃ u ∈ CodeUnit.unitsBackwards k, ∃ layout, LaidOut p u layout ∧
    layout.Makes p decl kind u.constants

/-- The closures over all functions in a node. -/
def HasFunctions (p : Program) (e : Expr) (k : List Constant) (t : Tree) : Prop :=
  ∀ decl kind, e.Contains decl kind → HasFunction p decl kind k t

variable {p : Program} {k : List Constant} {t t' : Tree}

theorem HasFunction.around (h : HasFunction p decl kind k t) (hin : t.Inside t') :
    HasFunction p decl kind k t' := by
  refine h.imp_left fun hmakes s a => ?_
  obtain ⟨s', a', hparts⟩ := hin s a
  obtain ⟨q, hq, hscheme⟩ := hmakes s' a'
  exact ⟨q, hparts q hq, hscheme⟩

theorem HasFunctions.around (h : HasFunctions p e k t) (hin : t.Inside t') :
    HasFunctions p e k t' :=
  fun decl kind hdecl => (h decl kind hdecl).around hin

/-- What is made in a unit is made where the unit is in the pool. -/
theorem HasFunctions.outside (hu : .function u ∈ k) (hlaid : LaidOut p u t)
    (h : HasFunctions p e u.constants t) (t' : Tree) : HasFunctions p e k t' := by
  intro decl kind hdecl
  rcases h decl kind hdecl with hmakes | ⟨v, hv, hrest⟩
  · exact .inr ⟨u, CodeUnit.mem_unitsBackwards_of_mem hu u.mem_units_self, t, hlaid, hmakes⟩
  · exact .inr ⟨v, CodeUnit.mem_unitsBackwards_of_mem hu (CodeUnit.mem_units_of_mem hv), hrest⟩

theorem hasFunctions_of
    (hfunctions : ∀ decl kind, (decl, kind) ∈ e.kind.functions → HasFunction p decl kind k t)
    (hnodes : (∀ name value, e.kind ≠ .inlineDecl name value) →
      ∀ st c, (st, c) ∈ e.kind.nodes → HasFunctions p c k t) : HasFunctions p e k t := by
  intro decl kind hdecl
  cases hdecl with
  | here h => exact hfunctions decl kind h
  | inside hinline hc h => exact hnodes hinline _ _ hc decl kind h

/-! ## What a scheme lays down -/

/-- What can be laid down: the nodes of a program, and the closures over its functions. -/
inductive Piece where
  | node (e : Expr)
  | function (decl : FunctionDecl) (kind : UnitKind)

/-- The code has what a piece calls for. -/
def Piece.StandsIn (p : Program) (k : List Constant) (t : Tree) : Piece → Prop
  | .node e => HasFunctions p e k t
  | .function decl kind => HasFunction p decl kind k t

theorem Piece.StandsIn.around {i : Piece} (h : i.StandsIn p k t) (hin : t.Inside t') :
    i.StandsIn p k t' := by
  cases i with
  | node e => exact HasFunctions.around h hin
  | function decl kind => exact HasFunction.around h hin

/-- The pieces that some nodes are. -/
def pieces (nodes : List (Standing × Expr)) : List Piece := nodes.map fun e => .node e.2

@[simp, grind =] theorem pieces_nil : pieces [] = [] := rfl

@[simp, grind =] theorem pieces_operands (es : List Expr) : pieces (operands es) = es.map .node :=
  List.map_map

@[simp, grind =] theorem pieces_elements (es : List Expr) : pieces (elements es) = es.map .node :=
  List.map_map

@[simp, grind =] theorem pieces_append (xs ys : List (Standing × Expr)) :
    pieces (xs ++ ys) = pieces xs ++ pieces ys :=
  List.map_append

@[simp, grind =] theorem pieces_flatMap (f : α → List (Standing × Expr)) (l : List α) :
    pieces (l.flatMap f) = l.flatMap fun a => pieces (f a) :=
  List.map_flatMap

/-- Wherever the scheme is followed, these are laid down. -/
class Scheme.Lays (p : Program) (x : Scheme) (items : outParam (List Piece)) : Prop where
  stands : ∀ {k c t c'}, x k c t c' → ∀ i ∈ items, i.StandsIn p k t

open Scheme

section

variable {x y : Scheme} {items items' : List Piece} {f : α → List Piece}

/-- Of what is laid down, some may be left unsaid. -/
theorem lays_of [hx : x.Lays p items'] (h : ∀ i ∈ items, i ∈ items') : x.Lays p items :=
  ⟨fun hcode i hi => hx.stands hcode i (h i hi)⟩

theorem lays_nothing : x.Lays p [] := ⟨fun _ _ hi => absurd hi List.not_mem_nil⟩

/-- Where nothing else is known of a scheme, nothing is said. -/
instance (priority := low) : x.Lays p [] := lays_nothing

instance [hx : x.Lays p items] [hy : y.Lays p items'] : (x ++ y).Lays p (items ++ items') where
  stands := by
    rintro k c _ c' ⟨t1, c1, t2, h1, h2, rfl⟩ i hi
    rcases List.mem_append.mp hi with hi | hi
    · exact (hx.stands h1 i hi).around (.first t1 t2)
    · exact (hy.stands h2 i hi).around (.second t1 t2)

instance {l : Label} [hx : x.Lays p items] : (block l x).Lays p items where
  stands := by
    rintro k c _ c' ⟨t1, h, rfl⟩ i hi
    exact (hx.stands h i hi).around (.inBlock l t1)

instance {back : Bool} [hx : x.Lays p items] : (looped back x).Lays p items where
  stands := by
    rintro k c _ c' ⟨t1, c1, h, rfl, -⟩ i hi
    exact (hx.stands h i hi).around (.inLoop t1)

instance {x : α → Scheme} [h : ∀ a, (x a).Lays p items] : (choose x).Lays p items where
  stands := by
    rintro k c t c' ⟨a, hx⟩
    exact (h a).stands hx

instance {x : Scene → Scheme} [h : ∀ c, (x c).Lays p items] : (reading x).Lays p items :=
  ⟨fun {_ c _ _} hx => (h c).stands hx⟩

theorem lays_each {x : α → Scheme} : ∀ {l : List α},
    (∀ a ∈ l, (x a).Lays p (f a)) → (each x l).Lays p (l.flatMap f)
  | [], _ => lays_nothing
  | a :: l, h => by
    have hfirst := h a (.head _)
    have hrest := lays_each fun a ha => h a (.tail _ ha)
    exact inferInstanceAs ((x a ++ each x l).Lays p (f a ++ l.flatMap f))

instance {x : α → Scheme} [h : ∀ a, (x a).Lays p (f a)]
    {l : List α} : (each x l).Lays p (l.flatMap f) := lays_each fun a _ => h a

theorem lays_impossible : impossible.Lays p items := ⟨False.elim⟩

theorem lays_oneOf {xs : List Scheme} (h : ∀ x ∈ xs, x.Lays p items) : (oneOf xs).Lays p items where
  stands := by
    rintro k c t c' ⟨x, hmem, hx⟩
    exact (h x hmem).stands hx

end

/-- The schemes of nodes leave nothing out. -/
class NodeScheme.Complete (p : Program) (node : NodeScheme) : Prop where
  lays : ∀ st e position, (node st e position).Lays p [.node e]
  scheme : ∃ budget, node = nodeScheme p budget

section

variable {node : NodeScheme} [hnode : node.Complete p] {e target value : Expr} {position : Position}
  {source : Source} {name : String} {isWeak fails : Bool} {items : List Piece}
  {cases : List SwitchCase} {body : Option (List Expr)} {nodes : List (Standing × Expr)}

instance (priority := mid) : (node st e position).Lays p [.node e] :=
  hnode.lays st e position

/-! ## Bodies -/

instance {body : List Expr} : (sequenceScheme node body).Lays p (body.map .node) := by
  induction body with
  | nil => exact lays_nothing
  | cons a rest ih =>
    cases rest with
    | nil => exact inferInstanceAs ((node .element a .value).Lays p [.node a])
    | cons b rest =>
      have hseq : (node .element a .effect ++ sequenceScheme node (b :: rest)).Lays p _ :=
        inferInstance
      exact hseq

instance : (otherwiseScheme node body).Lays p ((body.getD []).map .node) := by
  cases body <;> unfold otherwiseScheme <;> exact lays_of (by simp)

instance : (defaultScheme node body).Lays p ((body.getD []).map .node) := by
  cases body <;> unfold defaultScheme <;> exact lays_of (by simp)

/-! ## Units -/

/-- What is laid down in a unit is laid down where its closure is made. -/
theorem lays_closure (hsource : source.DeclaredIn p)
    (h : (source.scheme node).Lays p (pieces nodes)) {defaults : UInt8} :
    (closureScheme node source defaults).Lays p (pieces nodes) where
  stands := by
    -- the code of the unit is in no part of this tree, only the unit is in the pool
    rintro k c t c' ⟨u, i, _, _, _, ⟨_, _, _, ⟨-, -, hheader, layout, c1, hscheme, hcode, hsize,
      hclosed⟩, ⟨-, -, hpool⟩, -⟩, -⟩ j hj
    have hstands := h.stands hscheme j hj
    obtain ⟨e, -, rfl⟩ := List.mem_map.mp hj
    obtain ⟨budget, rfl⟩ := hnode.scheme
    have hlaid : LaidOut p u layout :=
      ⟨⟨budget, source, c1, hsource, hheader, hscheme⟩, hcode, hsize, hclosed⟩
    exact HasFunctions.outside (List.mem_of_getElem? hpool) hlaid hstands t

theorem lays_called (hsource : source.DeclaredIn p)
    (h : (source.scheme node).Lays p (pieces nodes)) :
    (calledScheme node source).Lays p (pieces nodes) := by
  have hclosure : (closureScheme node source 0).Lays p _ := lays_closure hsource h
  exact lays_of (by simp)

theorem lays_functionBody :
    ((Source.function decl kind).scheme node).Lays p (pieces (elements decl.body)) := by
  have hbody : (functionBodyScheme node decl kind).Lays p (decl.body.map .node) := by
    unfold functionBodyScheme
    split
    · exact lays_of (by simp)
    · refine lays_oneOf (List.forall_mem_cons.mpr ⟨inferInstance, List.forall_mem_singleton.mpr ?_⟩)
      exact lays_of (by simp)
  unfold Source.scheme
  exact lays_of (by simp)

instance {q : Param} : (paramDefaultScheme node q).Lays p (q.default.toList.map .node) := by
  unfold paramDefaultScheme
  cases q.default <;> exact lays_of (by simp)

/-- Default values belong to the code around, and the body to the unit. -/
theorem lays_function (hdecl : Declares p decl kind) :
    (functionScheme node decl kind).Lays p (.function decl kind :: pieces decl.nodes) := by
  have hsource : (Source.function decl kind).DeclaredIn p := hdecl
  have hclosure : (closureScheme node (.function decl kind)
      (functionHeader decl kind).defaultCount).Lays p _ := lays_closure hsource lays_functionBody
  have hnodes : (functionScheme node decl kind).Lays p (pieces decl.nodes) :=
    lays_of (by grind [FunctionDecl.nodes])
  refine ⟨fun {k c t c'} hx => List.forall_mem_cons.mpr ⟨?_, hnodes.stands hx⟩⟩
  obtain ⟨budget, rfl⟩ := hnode.scheme
  exact .inl fun s a => ⟨⟨s, a, t⟩, Tree.mem_parts_self s a t, budget, c, c', hx⟩

/-! ## Assigning and dropping -/

/-- A name holds no functions. -/
theorem hasFunctions_var (h : e.kind = .var name) : HasFunctions p e k t :=
  hasFunctions_of (by rw [h]; exact fun _ _ h => absurd h List.not_mem_nil)
    (by rw [h]; exact fun _ _ _ h => absurd h List.not_mem_nil)

/-- With all nodes inside it, a node that declares no function itself is laid down. -/
theorem lays_whole {x : Scheme} {items' : List Piece} [h : x.Lays p items']
    (hfunctions : e.kind.functions = []) (hnodes : ∀ i ∈ pieces e.kind.nodes, i ∈ items')
    (hitems : ∀ i ∈ items, i ∈ items') : x.Lays p (.node e :: items) := by
  refine ⟨fun hx => List.forall_mem_cons.mpr ⟨hasFunctions_of (fun decl kind hdecl => ?_)
    (fun _ st c hc => ?_), fun i hi => h.stands hx i (hitems i hi)⟩⟩
  · rw [hfunctions] at hdecl
    cases hdecl
  · exact h.stands hx (.node c) (hnodes _ (List.mem_map.mpr ⟨_, hc, rfl⟩))

instance {object : Scheme} [object.Lays p items] :
    (attributeOperands node isWeak object value).Lays p (items ++ [.node value]) := by
  unfold attributeOperands
  split <;> exact lays_of (by simp +contextual [or_comm])

instance : (assignScheme p node isWeak target value).Lays p [.node target, .node value] := by
  unfold assignScheme
  split
  · rename_i name hkind
    have hvalue : (assignNameScheme p node isWeak name value).Lays p [.node value] := by
      refine lays_oneOf fun x hx => ?_
      simp only [List.mem_cons, List.not_mem_nil, or_false] at hx
      rcases hx with rfl | rfl | rfl | rfl <;> exact lays_of (by simp)
    exact lays_whole (by rw [hkind]; rfl) (by simp [hkind, ExprKind.nodes]) (by simp)
  · rename_i hkind
    exact lays_whole (by rw [hkind]; rfl) (by simp [hkind, ExprKind.nodes]) (by simp)
  · rename_i hkind
    exact lays_whole (by rw [hkind]; rfl) (by simp [hkind, ExprKind.nodes]) (by simp)
  · exact lays_impossible

instance : (dropScheme p node target).Lays p [.node target] := by
  unfold dropScheme
  split
  · rename_i hkind
    exact lays_whole (by rw [hkind]; rfl) (by simp [hkind, ExprKind.nodes]) (by simp)
  · rename_i hkind
    exact lays_whole (by rw [hkind]; rfl) (by simp [hkind, ExprKind.nodes]) (by simp)
  · exact lays_impossible

/-! ## Options and branches -/

instance {part : TextPart} : (textPartScheme node part).Lays p (part.exprs.map .node) := by
  cases part <;> unfold textPartScheme <;> exact lays_of (by simp [TextPart.exprs])

instance {counter last : UInt16} {step : Option Expr} :
    (stepScheme node counter last step).Lays p (step.toList.map .node) := by
  cases step <;> unfold stepScheme <;> exact lays_of (by simp)

instance {value : Option Expr} : (returnedScheme node kind value).Lays p (value.toList.map .node) := by
  unfold returnedScheme
  split <;> cases value <;> exact lays_of (by simp)

instance {condition : Expr} {message : Option Expr} :
    (assertScheme node condition message).Lays p ((condition :: message.toList).map .node) := by
  cases message <;> unfold assertScheme <;> exact lays_of (by simp)

instance {value : Option Expr} : (letScheme node name value).Lays p (value.toList.map .node) := by
  cases value <;> unfold letScheme <;> exact lays_of (by simp)

instance {guard : Option Expr} : (guardScheme node guard).Lays p (guard.toList.map .node) := by
  cases guard <;> unfold guardScheme <;> exact lays_of (by simp)

instance {index : Nat} : (testsScheme node slot index cases).Lays p
      (cases.flatMap fun c => c.values.map .node) := by
  induction cases generalizing index <;> unfold testsScheme <;> exact lays_of (by grind)

instance {index : Nat} {before : Scheme}
    [before.Lays p items] : (caseBodiesScheme node base index cases before).Lays p
      (items ++ cases.flatMap fun c => c.body.map .node) := by
  induction cases generalizing index before items with
  | nil =>
    unfold caseBodiesScheme
    exact lays_of (by simp)
  | cons c rest ih =>
    unfold caseBodiesScheme
    exact lays_of (by grind)

/-- A name that is bound is not laid down, but it holds no functions. -/
instance {pattern : Pattern} {binders : List (String × Option String)} :
    (patternScheme node slot pattern fails binders).Lays p (pattern.exprs.map .node) := by
  cases pattern with
  | wildcard => exact lays_nothing
  | value e =>
    refine lays_oneOf (List.forall_mem_cons.mpr ⟨?_,
      List.forall_mem_singleton.mpr (lays_of (by simp [Pattern.exprs]))⟩)
    refine ⟨fun hx => List.forall_mem_singleton.mpr ?_⟩
    obtain ⟨-, -, -, name, hkind, -⟩ := hx
    exact hasFunctions_var hkind
  | destructure target names =>
    unfold patternScheme
    exact lays_of (by simp [Pattern.exprs])

instance {count : Nat} {guarded : Bool} {arm : Scheme}
    [arm.Lays p items] : (fallThroughScheme base count guarded fails arm).Lays p items := by
  cases guarded <;> cases fails <;>
    simp only [fallThroughScheme, Bool.and_self, Bool.and_false, Bool.and_true, Bool.false_eq_true,
      reduceIte] <;>
    exact lays_of (by simp)

instance {arms : List Arm} :
    (each (armScheme node slot base) arms).Lays p (pieces (arms.flatMap Arm.nodes)) := by
  rw [pieces_flatMap]
  exact lays_each fun a _ => lays_of (by simp [Arm.nodes])

instance {branches : List Branch} :
    (each (branchScheme node base) branches).Lays p (pieces (branches.flatMap Branch.nodes)) :=
  lays_of (by simp [Branch.nodes])

/-! ## Declarations -/

/-- A function with a decorator is laid down with it, and not as a node. -/
theorem lays_decorated {decorator : Expr} (htarget : Occurs p st target) :
    (decoratedScheme node decorator target).Lays p [.node decorator, .node target] := by
  unfold decoratedScheme
  split
  · rename_i decl hkind
    have hfunction : (functionScheme node decl .function).Lays p _ :=
      lays_function ⟨st, target, htarget, by rw [hkind]; exact .head _⟩
    have hwhole : (functionScheme node decl .function).Lays p [.node target] := by
      refine ⟨fun hx => List.forall_mem_singleton.mpr (hasFunctions_of (fun d kind hd => ?_)
        (fun _ st' c hc => ?_))⟩
      · rw [hkind] at hd
        cases List.mem_singleton.mp hd
        exact hfunction.stands hx _ (.head _)
      · rw [hkind] at hc
        exact hfunction.stands hx (.node c) (.tail _ (List.mem_map.mpr ⟨_, hc, rfl⟩))
    exact lays_of (by simp)
  · exact lays_impossible

theorem lays_class {decl : ClassDecl}
    (hdecl : ∀ f ∈ (ExprKind.classDecl decl).functions, Declares p f.1 f.2) :
    (classScheme p node decl).Lays p
      ((ExprKind.classDecl decl).functions.map (fun f => .function f.1 f.2) ++ pieces decl.nodes) := by
  -- the members are laid down in reverse, which makes no difference to what is laid down
  have hmembers : (each (memberValueScheme node) decl.members.reverse).Lays p
      (decl.members.reverse.flatMap fun m =>
        m.functions.map (fun f => .function f.1 f.2) ++ pieces m.nodes) := by
    refine lays_each fun m hm => ?_
    cases m with
    | field f =>
      unfold memberValueScheme
      dsimp only
      split <;> exact lays_of (by simp_all [MemberDecl.functions, MemberDecl.nodes])
    | method m =>
      refine lays_function (hdecl (m.function, m.unitKind) (List.mem_append_left _ ?_))
      exact List.mem_flatMap.mpr ⟨_, List.mem_reverse.mp hm, .head _⟩
  have hconstructor : (constructorScheme node decl.constructor).Lays p
      (decl.constructor.toList.flatMap fun f => .function f .constructor :: pieces f.nodes) := by
    cases hctor : decl.constructor with
    | none => exact lays_nothing
    | some f =>
      have hfunction : (functionScheme node f .constructor).Lays p _ :=
        lays_function (hdecl (f, .constructor) (List.mem_append_right _
          (List.mem_map.mpr ⟨f, Option.mem_toList.mpr hctor, rfl⟩)))
      unfold constructorScheme
      exact lays_of (by simp)
  refine lays_of fun i hi => ?_
  simp only [ExprKind.functions, ClassDecl.nodes, pieces_append, pieces_flatMap] at hi
  grind

/-! ## Nodes -/

theorem lays_nodes {kind : ExprKind} {span : Span} (hoccurs : Occurs p st ⟨kind, span⟩)
    (hkind : ∀ name value, kind ≠ .inlineDecl name value) : (kindScheme p node position kind).Lays p
      (kind.functions.map (fun f => .function f.1 f.2) ++ pieces kind.nodes) := by
  have hdecl (f : FunctionDecl × UnitKind) (hf : f ∈ kind.functions) : Declares p f.1 f.2 :=
    ⟨_, _, hoccurs, hf⟩
  cases kind with
  | lambda decl => exact lays_function (hdecl _ (.head _))
  | functionDecl decl =>
    have hfunction : (functionScheme node decl .function).Lays p _ :=
      lays_function (hdecl _ (.head _))
    dsimp only [kindScheme]
    exact lays_of (by simp [ExprKind.functions, ExprKind.nodes])
  | classDecl decl => exact lays_class hdecl
  | decorated decorator target =>
    have htarget := hoccurs.inside (.tail _ (.head _))
    exact lays_decorated htarget
  | switch subject cases otherwise =>
    have hsource : (Source.switch subject cases otherwise).DeclaredIn p := ⟨_, _, hoccurs⟩
    refine lays_called hsource ?_
    unfold Source.scheme
    exact lays_of (by simp [ExprKind.nodes, SwitchCase.nodes, optionalBody]; grind)
  | patternMatch subject arms otherwise =>
    have hsource : (Source.patternMatch subject arms otherwise).DeclaredIn p := ⟨_, _, hoccurs⟩
    refine lays_called hsource ?_
    unfold Source.scheme
    exact lays_of (by simp [ExprKind.nodes, optionalBody])
  | scope body =>
    have hsource : (Source.scope body).DeclaredIn p := ⟨_, _, hoccurs⟩
    refine lays_called hsource ?_
    unfold Source.scheme
    exact lays_of (by simp [ExprKind.nodes])
  | inlineDecl name value => exact absurd rfl (hkind name value)
  | call callee args =>
    -- positional and keyword arguments are laid down apart, and each argument is one of them
    have harg (a : Argument) (ha : a ∈ args) : a.value ∈ args.filterMap positional? ∨
        ∃ name, (name, a.value) ∈ args.filterMap keyword? := by
      cases a with
      | positional e => exact .inl (List.mem_filterMap.mpr ⟨_, ha, rfl⟩)
      | keyword name e => exact .inr ⟨name, List.mem_filterMap.mpr ⟨_, ha, rfl⟩⟩
    dsimp only [kindScheme]
    refine lays_of fun i hi => ?_
    simp only [ExprKind.functions, ExprKind.nodes, pieces_operands, List.map_nil,
      List.nil_append] at hi
    grind
  | var _ | this | breakLoop | continueLoop | use _ | enumDecl _ | typedef _ _ => exact lays_nothing
  | int _ | float _ | str _ | bool _ | null => exact lays_nothing
  | _ =>
    dsimp only [kindScheme]
    exact lays_of (by simp +contextual [ExprKind.functions, ExprKind.nodes,
      optionalBody, List.map_flatMap])

end

/-- Nothing is left out. -/
theorem complete_nodeScheme (p : Program) : ∀ budget : Nat, (nodeScheme p budget).Complete p
  | 0 => ⟨fun _ _ _ => lays_impossible, 0, rfl⟩
  | budget + 1 => by
    have hnode := complete_nodeScheme p budget
    refine ⟨fun st e position => ⟨?_⟩, budget + 1, rfl⟩
    rintro k c _ c' ⟨hoccurs, t, ⟨t1, _, t2, hx, -, rfl⟩, rfl⟩
    obtain ⟨kind, span⟩ := e
    -- what settles the node after its code declares nothing
    have hstands : HasFunctions p ⟨kind, span⟩ k t1 := by
      refine hasFunctions_of (fun decl unitKind hdecl => ?_) (fun hinline st' e' he => ?_)
      · have hinline (name : String) (value : Expr) : kind ≠ .inlineDecl name value := by
          rintro rfl
          cases hdecl
        exact (lays_nodes hoccurs hinline).stands hx (.function decl unitKind)
          (List.mem_append_left _ (List.mem_map.mpr ⟨_, hdecl, rfl⟩))
      · exact (lays_nodes hoccurs hinline).stands hx (.node e')
          (List.mem_append_right _ (List.mem_map.mpr ⟨_, he, rfl⟩))
    exact List.forall_mem_singleton.mpr (hstands.around (.trans (.first t1 t2) (.inNode _ _)))

end Codegen

open Codegen

/-- Over each function that a program declares outside of macros, a closure is made in some
unit of its module. -/
theorem exists_makes_of_contains {o : Options} (h : compile p o = .ok m)
    (hdecl : p.Contains decl kind) :
    ∃ v ∈ m.units, ∃ layout, LaidOut p v layout ∧ layout.Makes p decl kind v.constants := by
  obtain ⟨e, he, hcontains⟩ := hdecl
  obtain ⟨hheader, layout, c', hscheme, hcode, hsize, hclosed⟩ := (compile_translated h).1
  have hlaid : LaidOut p m.main layout :=
    ⟨⟨_, .main p.body, c', rfl, hheader, hscheme⟩, hcode, hsize, hclosed⟩
  have hnode := complete_nodeScheme p (o.maxNestingDepth.toNat + 1)
  have hbody : ((Source.main p.body).scheme (nodeScheme p (o.maxNestingDepth.toNat + 1))).Lays p
      (p.body.map .node) := by
    unfold Source.scheme
    exact lays_of (by simp)
  have hall : HasFunctions p e m.main.constants layout :=
    hbody.stands hscheme _ (List.mem_map_of_mem he)
  rcases hall decl kind hcontains with hmakes | ⟨v, hv, hrest⟩
  · exact ⟨m.main, m.units_eq ▸ m.main.mem_units_self, layout, hlaid, hmakes⟩
  · exact ⟨v, m.units_eq ▸ CodeUnit.mem_units_of_mem hv, hrest⟩

/-- Each function that a program without macros declares is compiled to a unit of its
module. -/
theorem exists_unit_of_declares {o : Options} (h : compile p o = .ok m)
    (hmacros : ∀ value, ¬ IsMacro p value) (hdecl : Declares p decl kind) :
    ∃ u ∈ m.units, ∃ budget, CodeOf (nodeScheme p budget) (.function decl kind) u := by
  obtain ⟨st, e, hoccurs, hfunction⟩ := hdecl
  obtain ⟨v, hv, layout, -, hmakes⟩ :=
    exists_makes_of_contains h (hoccurs.contains hmacros (.here hfunction))
  obtain ⟨q, -, budget, c, c', _, _, _, -, hclosure, -⟩ := hmakes {} 0
  obtain ⟨u, i, _, _, _, ⟨_, _, _, ⟨-, -, hcode⟩, ⟨-, -, hpool⟩, -⟩, -⟩ := hclosure
  exact ⟨u, Module.mem_units_of_pool hv (List.mem_of_getElem? hpool), budget, hcode⟩

end Strand
