import Strand.Proofs.Declared
import Strand.Proofs.StackDiscipline

/-!
# The headers of functions

A header tells a caller how many arguments a function takes, and the instruction that makes
a closure over the function takes as many default values as the header counts. Both go by
the declaration: where a closure is made, the code of the default values stands in front of
it, one value for each parameter that has one, and the instruction puts the closure in
their place. Every such instruction of a module is accounted for, and every function that
the program declares.

A count in a header is a byte, and stops at 255. Up to there it is exact. A function with
more parameters compiles all the same, and then its header is wrong.
-/

namespace Strand

open Codegen

variable {q : Part} {v : CodeUnit} {layout : Tree}

/-- The header counts the parameters of a function, each number as far as a byte goes. -/
structure UnitHeader.Counts (header : UnitHeader) (decl : FunctionDecl) : Prop where
  arity : header.arity.toNat = min (decl.params.filter fun p => p.default.isNone).length 255
  defaultCount : header.defaultCount.toNat = min decl.defaults.length 255
  totalArity : header.totalArity.toNat =
    min (decl.params.length + decl.varargs.isSome.toNat + decl.kwargs.isSome.toNat) 255

/-- A default value leaves no local, wherever the function is declared. -/
theorem DeclaresFirst.defaults {p : Program} (h : DeclaresFirst p) {decl : FunctionDecl}
    {kind : UnitKind} (hdecl : Declares p decl kind) : ∀ e ∈ decl.defaults, ¬ LeavesLocal p e := by
  obtain ⟨st, ⟨k, span⟩, hoccurs, hmem⟩ := hdecl
  intro e he
  refine h st _ hoccurs e (?_ : e ∈ k.later)
  cases k with
  | lambda d | functionDecl d =>
    cases List.mem_singleton.mp hmem
    exact he
  | classDecl d =>
    rcases List.mem_append.mp hmem with hmember | hctor
    · obtain ⟨m, hm, hmember⟩ := List.mem_flatMap.mp hmember
      refine List.mem_append_left _ (List.mem_flatMap.mpr ⟨m, hm, ?_⟩)
      cases m with
      | field f => cases hmember
      | method m =>
        cases List.mem_singleton.mp hmember
        exact he
    · obtain ⟨ctor, hmade, heq⟩ := List.mem_map.mp hctor
      cases heq
      exact List.mem_append_right _ (List.mem_flatMap.mpr ⟨_, hmade, he⟩)
  | _ => cases hmem

namespace Codegen

variable {source : Source}

theorem length_defaults (decl : FunctionDecl) :
    decl.defaults.length = (decl.params.filter fun p => p.default.isSome).length := by
  rw [FunctionDecl.defaults, List.length_filterMap_eq_countP, List.countP_eq_length_filter]

theorem counts_functionHeader (decl : FunctionDecl) (kind : UnitKind) :
    (functionHeader decl kind).Counts decl where
  arity := toNat_headerCount_eq_min _
  defaultCount := by
    rw [length_defaults]
    exact (congrArg UInt8.toNat (countDefaults_eq _)).trans (toNat_headerCount_eq_min _)
  totalArity := toNat_headerCount_eq_min _

/-- The default values that a closure over the unit of a source takes. -/
def Source.defaults : Source → List Expr
  | .function decl _ => decl.defaults
  | _ => []

theorem Source.toNat_defaultCount {p : Program} (hparams : FewParameters p)
    (hsource : source.DeclaredIn p) : source.header.defaultCount.toNat = source.defaults.length := by
  cases source with
  | function decl kind =>
    have hfew := hparams decl kind hsource
    have hcount := (counts_functionHeader decl kind).defaultCount
    have hle : decl.defaults.length ≤ decl.params.length := List.length_filterMap_le ..
    simp only [FunctionDecl.slotNames, List.length_append, List.length_map] at hfew
    rwa [Nat.min_eq_left (by omega)] at hcount
  | _ => rfl

/-! ## The values of nodes -/

/-- The tree is the code of some nodes that leave their values, one after the other. -/
inductive Tree.Values (p : Program) : Tree → List Expr → Prop where
  | nil : Values p .nil []
  | node {budget : Nat} {e : Expr} {t : Tree} {k : List Constant} {c c' : Scene}
      (h : nodeScheme p budget .operand e .value k c (.node e t) c') : Values p (.node e t) [e]
  | seq {x y : Tree} {es es' : List Expr} (hx : Values p x es) (hy : Values p y es') :
      Values p (.seq x y) (es ++ es')

section

variable {p : Program} {budget : Nat} {k k' : List Constant} {c c' : Scene} {t : Tree}

theorem values_value {e : Expr} (h : (nodeScheme p budget).value e k c t c') : t.Values p [e] := by
  cases budget with
  | zero => exact h.elim
  | succ budget =>
    have hmarked := h
    obtain ⟨-, t, -, rfl⟩ := hmarked
    exact .node h

theorem values_defaults : ∀ {params : List Param} {c : Scene} {t : Tree},
    Scheme.each (paramDefaultScheme (nodeScheme p budget)) params k c t c' →
      t.Values p (params.filterMap Param.default)
  | [], _, _, h => by
    obtain ⟨rfl, -⟩ := h
    exact .nil
  | ⟨_, _, none, _⟩ :: _, _, _, h => by
    obtain ⟨_, _, _, ⟨rfl, -⟩, hrest, rfl⟩ := h
    exact .seq .nil (values_defaults hrest)
  | ⟨_, _, some _, _⟩ :: _, _, _, h => by
    obtain ⟨_, _, _, hvalue, hrest, rfl⟩ := h
    exact .seq (values_value hvalue) (values_defaults hrest)

/-- Only code that was laid down for a value ends with flushing an accumulator. -/
theorem not_closesAccumulator {x y : Scheme} {d d' : Scene}
    (h : (x ++ closeAccumulatorScheme .value) k c t c')
    (h' : (y ++ closeAccumulatorScheme .effect) k' d t d') : False := by
  obtain ⟨_, _, _, -, ⟨rfl, -⟩, rfl⟩ := h
  obtain ⟨_, _, _, -, ⟨rfl, -⟩, heq⟩ := h'
  cases heq

/-- The code of a node shows whether it was laid down for its value. -/
theorem not_effect_of_value {budget' : Nat} {st st' : Standing} {e : Expr}
    {d d' : Scene} (h : nodeScheme p budget st e .value k c t c')
    (h' : nodeScheme p budget' st' e .effect k' d t d') : False := by
  cases budget with
  | zero => exact h
  | succ budget =>
  cases budget' with
  | zero => exact h'
  | succ budget' =>
    obtain ⟨-, _, ⟨t1, _, t2, hkind, hsettle, rfl⟩, rfl⟩ := h
    obtain ⟨-, _, ⟨_, _, _, hkind', hsettle', rfl⟩, heq⟩ := h'
    cases heq
    obtain ⟨kind, span⟩ := e
    -- what is left over is taken off at the end and what is missing is added there, except
    -- after a loop
    cases kind with
    | whileLoop condition body | doWhile body condition | forEach name iterable body =>
      obtain ⟨_, hkind⟩ := hkind
      obtain ⟨_, hkind'⟩ := hkind'
      exact not_closesAccumulator hkind hkind'
    | rangeFor name ty first last step body =>
      obtain ⟨_, _, _, _, hkind⟩ := hkind
      obtain ⟨_, _, _, _, hkind'⟩ := hkind'
      exact not_closesAccumulator hkind hkind'
    | _ =>
      obtain ⟨rfl, -⟩ := hsettle
      obtain ⟨htree, -⟩ := hsettle'
      cases htree

/-- Code for values raises the stack by one for each of them. -/
theorem Tree.Values.height {es : List Expr} (h : t.Values p es) {view : Nat → View}
    {places : List (Nat × Expr × Tree)} (hnodes : Tree.NodesKept (LeavesWanted p) view places)
    (hplain : ∀ e ∈ es, ¬ LeavesLocal p e) : ∀ {a : Nat}, (∀ x ∈ t.marks a, x ∈ places) →
      (view (a + t.size)).height = (view a).height + es.length := by
  induction h with
  | nil => exact fun _ => rfl
  | @node budget e t k c c' h =>
    intro a hmarks
    obtain ⟨budget', st, position, k', d, d', h', hheight⟩ :=
      hnodes (a, e, t) (hmarks _ (.head _))
    have hleft := hheight (hplain e (.head _))
    -- the mark does not tell what the node was laid down for, but its code does
    cases position with
    | value => exact hleft
    | effect => exact (not_effect_of_value h h').elim
  | @seq x y es es' _ _ ihx ihy =>
    intro a hmarks
    have hx := ihx (fun e he => hplain e (List.mem_append_left _ he))
      fun z hz => hmarks z (List.mem_append_left _ hz)
    have hy := ihy (fun e he => hplain e (List.mem_append_right _ he))
      fun z hz => hmarks z (List.mem_append_right _ hz)
    rw [Tree.size, List.length_append, ← Nat.add_assoc, hy, hx, Nat.add_assoc]

/-- A part of a part of a tree is a part of the tree. -/
theorem Tree.mem_parts_of_part {q' : Part} : ∀ {t : Tree} {s : Surroundings} {a : Nat},
    q ∈ t.parts s a → q' ∈ q.tree.parts q.around q.offset → q' ∈ t.parts s a
  | .nil, _, _, hq, h | .op _, _, _, hq, h | .jump _ _, _, _, hq, h | .back, _, _, hq, h => by
    cases List.mem_singleton.mp hq
    exact h
  | .seq _ _, _, _, hq, h => by
    rcases List.mem_cons.mp hq with rfl | hq
    · exact h
    · refine .tail _ (List.mem_append.mpr ((List.mem_append.mp hq).imp ?_ ?_))
      · exact fun hq => mem_parts_of_part hq h
      · exact fun hq => mem_parts_of_part hq h
  | .block _ t, _, _, hq, h | .loop t, _, _, hq, h | .node _ t, _, _, hq, h => by
    rcases List.mem_cons.mp hq with rfl | hq
    · exact h
    · exact .tail _ (mem_parts_of_part (t := t) hq h)

/-- What is marked in a part of a tree is marked in the tree. -/
theorem Tree.mem_marks_of_part {x : Nat × Expr × Tree} :
    ∀ {t : Tree} {s : Surroundings} {a : Nat}, q ∈ t.parts s a → x ∈ q.tree.marks q.offset →
      x ∈ t.marks a
  | .nil, _, _, hq, hx | .op _, _, _, hq, hx | .jump _ _, _, _, hq, hx | .back, _, _, hq, hx => by
    cases List.mem_singleton.mp hq
    exact hx
  | .seq _ _, _, _, hq, hx => by
    rcases List.mem_cons.mp hq with rfl | hq
    · exact hx
    · refine List.mem_append.mpr ((List.mem_append.mp hq).imp ?_ ?_)
      · exact fun hq => mem_marks_of_part hq hx
      · exact fun hq => mem_marks_of_part hq hx
  | .block _ t, _, _, hq, hx | .loop t, _, _, hq, hx => by
    rcases List.mem_cons.mp hq with rfl | hq
    · exact hx
    · exact mem_marks_of_part (t := t) hq hx
  | .node _ t, _, _, hq, hx => by
    rcases List.mem_cons.mp hq with rfl | hq
    · exact hx
    · exact .tail _ (mem_marks_of_part (t := t) hq hx)

/-! ## Closures -/

/-- The code that makes a closure is that of the default values and the one instruction that
takes them. -/
theorem ClosureCode.split (h : ClosureCode p k source t) :
    ∃ budget u index values rest, CodeOf (nodeScheme p budget) source u ∧
      k[index.toNat]? = some (.function u) ∧ t = .seq values rest ∧
      values.Values p source.defaults ∧ rest.size = 1 ∧ ∀ {code sites a}, rest.At code sites a →
        code[a]? = some (.closure index u.header.defaultCount) := by
  obtain ⟨-, budget, c, c', h⟩ := h
  cases source with
  | function decl kind =>
    obtain ⟨values, _, _, hvalues, hclosure, rfl⟩ := h
    obtain ⟨u, index, _, _, _, ⟨_, _, _, ⟨rfl, -, hcode⟩, ⟨rfl, -, hpool⟩, rfl⟩, ⟨rfl, -⟩, rfl⟩ :=
      hclosure
    refine ⟨budget, u, index, values, _, hcode, hpool, rfl, values_defaults hvalues, rfl, fun hat => ?_⟩
    rw [hcode.1]
    exact hat.2.1
  | _ =>
    obtain ⟨u, index, _, _, _, ⟨_, _, _, ⟨rfl, -, hcode⟩, ⟨rfl, -, hpool⟩, rfl⟩, ⟨rfl, -⟩, rfl⟩ := h
    refine ⟨budget, u, index, _, _, hcode, hpool, rfl, .seq .nil .nil, rfl, fun hat => ?_⟩
    rw [hcode.1]
    exact hat.1

/-- Where an instruction makes a closure, the code of one ends. -/
theorem Tree.Supplied.exists_closure {code : Array Instr} {o : Nat} {index : UInt16} {count : UInt8}
    (ho : code[o]? = some (.closure index count)) : ∀ {t : Tree} {sites : Sites} {a : Nat}
      (s : Surroundings), t.Supplied p k → t.At code sites a → a ≤ o → o < a + t.size →
        ∃ q ∈ t.parts s a, ∃ source, ClosureCode p k source q.tree ∧ q.offset + q.tree.size = o + 1
  | .nil, _, _, _, _, _, hlo, hhi => by
    simp only [Tree.size] at hhi
    omega
  | .op i, _, a, _, h, hat, hlo, hhi => by
    obtain rfl : o = a := by simp only [Tree.size] at hhi; omega
    -- by itself no instruction makes a closure
    cases ho.symm.trans hat.1
    cases h
  | .jump kind l, _, a, _, _, hat, hlo, hhi => by
    obtain rfl : o = a := by simp only [Tree.size] at hhi; omega
    simp only [Tree.At] at hat
    split at hat
    · obtain ⟨d, hd, -⟩ := hat
      cases kind <;> cases ho.symm.trans hd
    · cases kind <;> cases ho.symm.trans hat
  | .back, _, a, _, _, hat, hlo, hhi => by
    obtain rfl : o = a := by simp only [Tree.size] at hhi; omega
    obtain ⟨_, d, _, hd, _⟩ := hat
    cases ho.symm.trans hd
  | .seq x y, _, a, s, h, hat, hlo, hhi => by
    simp only [Tree.size] at hhi
    -- the instruction may be what the two halves together are the code of
    rcases Nat.lt_or_ge o (a + x.size) with hx | hy
    · obtain ⟨q, hq, hcode⟩ := exists_closure ho s h.1 hat.1 hlo hx
      exact ⟨q, .tail _ (List.mem_append_left _ hq), hcode⟩
    · rcases h.2 with hsupplied | ⟨source, hclosure⟩
      · obtain ⟨q, hq, hcode⟩ := exists_closure (t := y) ho s hsupplied hat.2 hy (by omega)
        exact ⟨q, .tail _ (List.mem_append_right _ hq), hcode⟩
      · refine ⟨_, Tree.mem_parts_self .., source, hclosure, ?_⟩
        obtain ⟨_, _, _, _, _, -, -, heq, -, hsize, -⟩ := hclosure.split
        cases heq
        simp only [Tree.size]
        omega
  | .block l t, _, a, s, h, hat, hlo, hhi => by
    obtain ⟨q, hq, hcode⟩ := exists_closure (t := t) ho (s.inBlock l (a + t.size)) h hat.2 hlo hhi
    exact ⟨q, .tail _ hq, hcode⟩
  | .loop t, _, a, s, h, hat, hlo, hhi => by
    obtain ⟨q, hq, hcode⟩ := exists_closure (t := t) ho (s.inLoop a (a + t.size)) h hat hlo hhi
    exact ⟨q, .tail _ hq, hcode⟩
  | .node e t, _, _, s, h, hat, hlo, hhi => by
    obtain ⟨q, hq, hcode⟩ := exists_closure (t := t) ho (s.inNode e) h hat hlo hhi
    exact ⟨q, .tail _ hq, hcode⟩

theorem LaidOut.supplied (h : LaidOut p v layout) : layout.Supplied p v.constants := by
  obtain ⟨budget, source, c', hsource, -, hscheme⟩ := h.source
  exact (nests_source hsource hscheme).2

end

end Codegen

/-! ## Units -/

/-- From `start` to `stop` the unit has the code of some nodes, which leave their values one
after the other. -/
def CodeUnit.HasValues (p : Program) (v : CodeUnit) (nodes : List Expr) (start stop : Nat) : Prop :=
  ∃ layout around t, LaidOut p v layout ∧ ⟨around, start, t⟩ ∈ layout.parts {} 0 ∧
    t.Values p nodes ∧ stop = start + t.size

/-- In `v` a closure over `u`, the unit of a source, is made: at `start` the code of the
default values starts, and at `stop` is the instruction that takes them. -/
structure CodeUnit.MakesClosure (p : Program) (v u : CodeUnit) (source : Source)
    (start stop : Nat) : Prop where
  declared : source.DeclaredIn p
  code : ∃ budget, CodeOf (nodeScheme p budget) source u
  values : v.HasValues p source.defaults start stop
  closure : ∃ index, v.code[stop]? = some (.closure index u.header.defaultCount) ∧
    v.constants[index.toNat]? = some (.function u)

section

variable {p : Program} {v u : CodeUnit} {source : Source} {start stop : Nat} {before : Int}

theorem exists_makesClosure (hlaid : LaidOut p v layout)
    (hq : q ∈ layout.parts {} 0) (hcode : ClosureCode p v.constants source q.tree)
    (hstop : q.offset + q.tree.size = stop + 1) : ∃ u, v.MakesClosure p u source q.offset stop := by
  obtain ⟨sites, b, hstands⟩ := hlaid.stands.parts q hq
  have hat := hstands.code
  obtain ⟨around, start, t⟩ := q
  obtain ⟨budget, u, index, values, rest, hunit, hpool, rfl, hvalues, hsize, hinstr⟩ := hcode.split
  simp only [Tree.size] at hstop
  obtain rfl : stop = start + values.size := by omega
  have hpart : ⟨around, start, values⟩ ∈ layout.parts {} 0 :=
    Tree.mem_parts_of_part hq (.tail _ (List.mem_append_left _ (Tree.mem_parts_self ..)))
  exact ⟨u, hcode.1, ⟨budget, hunit⟩, ⟨layout, around, values, hlaid, hpart, hvalues, rfl⟩, index,
    hinstr hat.2, hpool⟩

/-- Where a closure is made, there are the default values on top of what was there before
them. -/
theorem CodeUnit.MakesClosure.height (h : v.MakesClosure p u source start stop)
    (hfirst : DeclaresFirst p) (hreceiver : KeepsReceiver p) (hparams : FewParameters p)
    {after : Int} (hstart : v.Reaches start before) (hstop : v.Reaches stop after) :
    after = before + source.defaults.length := by
  obtain ⟨layout, around, t, hlaid, hpart, hvalues, rfl⟩ := h.values
  -- the source of the unit around, not the one that the closure is over
  obtain ⟨budget, source', c', hsource, hheader, hscheme⟩ := hlaid.source
  have hnode := balances_of_plain hfirst.plainOperands hreceiver hparams budget
  obtain ⟨entry, view, hfollows⟩ := follows_of_scheme hnode hparams hsource
    (source'.later_plain hfirst.plainOperands hsource) hheader hscheme hlaid.code hlaid.closed
  have hplain : ∀ e ∈ source.defaults, ¬ LeavesLocal p e := by
    have hdeclared := h.declared
    cases source with
    | function decl kind => exact hfirst.defaults hdeclared
    | _ => exact fun _ he => absurd he List.not_mem_nil
  have hraised := hvalues.height hfollows.nodes hplain fun _ hx => Tree.mem_marks_of_part hpart hx
  rw [hfollows.chart.height hstart, hfollows.chart.height hstop, hraised]
  exact Int.natCast_add ..

/-- The instruction that makes a closure puts it in the place of the default values. -/
theorem CodeUnit.MakesClosure.edge (h : v.MakesClosure p u source start stop)
    (hparams : FewParameters p) {o : Nat} {height : Int}
    (hedge : Edge v.code stop (before + source.defaults.length) o height) :
    o = stop + 1 ∧ height = before + 1 := by
  obtain ⟨index, hinstr, -⟩ := h.closure
  obtain ⟨budget, hheader, -⟩ := h.code
  have hcount := source.toNat_defaultCount hparams h.declared
  rw [← hheader] at hcount
  -- the instruction is no jump, so control goes to the next one
  cases hedge with
  | next hi _ =>
    cases hinstr.symm.trans hi
    refine ⟨rfl, ?_⟩
    simp only [Instr.stackEffect]
    omega
  | taken hi htarget =>
    rw [jumpTarget_of_not_jump hinstr rfl] at htarget
    cases htarget

end

/-- Over every function that a program declares outside of macros a closure is made, and every
instruction that makes one makes it over something that the program declares. Where one is
made, the header of its unit counts the parameters of the function, and the instruction
takes the default values that were pushed for it and leaves the closure in their place. -/
theorem compile_countsParameters {p : Program} {o : Options} {m : Module}
    (h : compile p o = .ok m) :
    (∀ decl kind, p.Contains decl kind →
      ∃ v ∈ m.units, ∃ u start stop, v.MakesClosure p u (.function decl kind) start stop) ∧
    (∀ v ∈ m.units, ∀ stop index count, v.code[stop]? = some (.closure index count) →
      ∃ u source start, v.MakesClosure p u source start stop) ∧
    ∀ v ∈ m.units, ∀ u source start stop, v.MakesClosure p u source start stop →
      u ∈ m.units ∧ (∀ decl kind, source = .function decl kind → u.header.Counts decl) ∧
      (DeclaresFirst p → KeepsReceiver p → FewParameters p → ∀ before after : Int,
        v.Reaches start before → v.Reaches stop after →
          after = before + source.defaults.length ∧
          ∀ o height, Edge v.code stop after o height → o = stop + 1 ∧ height = before + 1) := by
  refine ⟨fun decl kind hdecl => ?_, fun v hv stop index count hinstr => ?_,
    fun v hv u source start stop hmakes => ⟨?_, ?_, ?_⟩⟩
  · obtain ⟨v, hv, layout, hlaid, hmakes⟩ := exists_makes_of_contains h hdecl
    obtain ⟨q, hq, budget, c, c', hscheme⟩ := hmakes {} 0
    have hcode : ClosureCode p v.constants (.function decl kind) q.tree :=
      ⟨hdecl.declares, budget, c, c', hscheme⟩
    obtain ⟨_, _, _, values, rest, -, -, htree, -, hsize, -⟩ := hcode.split
    have hstop : q.offset + q.tree.size = q.offset + values.size + 1 := by
      rw [htree, Tree.size, hsize, Nat.add_assoc]
    obtain ⟨u, hmade⟩ := exists_makesClosure hlaid hq hcode hstop
    exact ⟨v, hv, u, _, _, hmade⟩
  -- the other way round, every closure instruction was laid down for some source
  · obtain ⟨layout, hlaid⟩ := ((compile_translated h).2 v hv).laidOut
    have hsize : stop < v.code.size := (Array.getElem?_eq_some_iff.mp hinstr).1
    obtain ⟨q, hq, source, hcode, hstop⟩ := hlaid.supplied.exists_closure hinstr {} hlaid.code
      (Nat.zero_le stop) (by rw [Nat.zero_add, hlaid.size]; exact hsize)
    obtain ⟨u, hmade⟩ := exists_makesClosure hlaid hq hcode hstop
    exact ⟨u, source, _, hmade⟩
  · obtain ⟨index, -, hpool⟩ := hmakes.closure
    exact Module.mem_units_of_pool hv (List.mem_of_getElem? hpool)
  · rintro decl kind rfl
    obtain ⟨budget, hheader, -⟩ := hmakes.code
    rw [hheader]
    exact counts_functionHeader decl kind
  · intro hfirst hreceiver hparams before after hstart hstop
    have hheight := hmakes.height hfirst hreceiver hparams hstart hstop
    refine ⟨hheight, fun o height hedge => hmakes.edge hparams ?_⟩
    rwa [← hheight]

/-- A method with two default values, one of them a closure with a default value of its own. -/
def getter : FunctionDecl :=
  let node (kind : ExprKind) : Expr := ⟨kind, .zero⟩
  let add : FunctionDecl :=
    { name := "<lambda>", generics := []
      params := [⟨"x", none, none, .zero⟩, ⟨"y", none, some (node (.int 1)), .zero⟩]
      varargs := none, kwargs := none, returnType := none, isAsync := false
      catchesResult := false, span := .zero, body := [node (.var "x")] }
  { name := "get", generics := []
    params := [⟨"key", none, none, .zero⟩, ⟨"then", none, some (node (.lambda add)), .zero⟩,
      ⟨"otherwise", none, some (node .null), .zero⟩]
    varargs := some ⟨"rest", none, none, .zero⟩, kwargs := some "options", returnType := none
    isAsync := false, catchesResult := false, span := .zero, body := [node (.var "key")] }

/-- A class with the method, and a constructor with a default value. -/
def withDefaults : Program :=
  let node (kind : ExprKind) : Expr := ⟨kind, .zero⟩
  let make : FunctionDecl :=
    { getter with
      name := "Box", params := [⟨"size", none, some (node (.int 2)), .zero⟩]
      varargs := none, kwargs := none, body := [] }
  ⟨[node (.classDecl
    { name := "Box", generics := [], parent := none, constructor := some make
      members := [.method ⟨getter, false, false, false⟩], span := .zero })]⟩

theorem compile_countsParameters_withDefaults : ∃ m, compile withDefaults {} = .ok m ∧
    DeclaresFirst withDefaults ∧ KeepsReceiver withDefaults ∧ FewParameters withDefaults ∧
    m.units.length = 4 ∧ getter.defaults.length = 2 ∧ withDefaults.Contains getter .method ∧
    ∃ v ∈ m.units, ∃ u ∈ m.units, ∃ start stop,
      v.MakesClosure withDefaults u (.function getter .method) start stop ∧
        u.header.Counts getter ∧ ∀ before after : Int, v.Reaches start before →
          v.Reaches stop after → after = before + 2 ∧
            ∀ o height, Edge v.code stop after o height → o = stop + 1 ∧ height = before + 1 := by
  have hend : (withDefaults.nodesAt 7).isEmpty = true := by decide +kernel
  have hfirst : DeclaresFirst withDefaults := declaresFirst_of_nodesAt hend
    (not_isMacro_of_nodesAt hend (by decide +kernel)) (by decide +kernel)
  have hkeeps : KeepsReceiver withDefaults := keepsReceiver_of_nodesAt hend (by decide +kernel)
  have hparams : FewParameters withDefaults := fewParameters_of_nodesAt hend (by decide +kernel)
  have hcontains : withDefaults.Contains getter .method :=
    ⟨_, .head _, .here (List.mem_append_left _ (.head _))⟩
  have hcount : (compile withDefaults {}).toOption.map (fun m => m.units.length) = some 4 := by
    decide +kernel
  cases hm : compile withDefaults {} with
  | error e =>
    rw [hm] at hcount
    cases hcount
  | ok m =>
    rw [hm] at hcount
    obtain ⟨hmade, -, hcloses⟩ := compile_countsParameters hm
    obtain ⟨v, hv, u, start, stop, hmakes⟩ := hmade getter .method hcontains
    obtain ⟨hu, hheader, hheights⟩ := hcloses v hv u _ start stop hmakes
    exact ⟨m, rfl, hfirst, hkeeps, hparams, Option.some.inj hcount, rfl, hcontains, v, hv, u, hu,
      start, stop, hmakes, hheader getter .method rfl, hheights hfirst hkeeps hparams⟩

/-- A function with more default values than a byte can count. -/
def wide : FunctionDecl :=
  { name := "wide", generics := []
    params := (List.range 256).map fun i => ⟨toString i, none, some ⟨.null, .zero⟩, .zero⟩
    varargs := none, kwargs := none, returnType := none, isAsync := false
    catchesResult := false, span := .zero, body := [] }

/-- Control gets past the nulls that a unit without arguments starts with. -/
theorem CodeUnit.reaches_nulls (harity : v.header.totalArity = 0) : ∀ {n : Nat},
    (∀ i ∈ List.range n, v.code[i]? = some .pushNull) → v.Reaches n (n + 1)
  | 0, _ => by
    have hentry := CodeUnit.Reaches.entry (u := v)
    rw [harity] at hentry
    exact hentry
  | n + 1, h => by
    have hreaches := reaches_nulls harity (n := n) fun i hi =>
      h i (List.mem_range.mpr (Nat.lt_succ_of_lt (List.mem_range.mp hi)))
    exact .step hreaches (.next (h n List.self_mem_range_succ) rfl)

/-- The function compiles, though its header tells one parameter too few; and when the
closure has been made, two values are there in place of one. -/
theorem compile_wide : ∃ m u, compile ⟨[⟨.functionDecl wide, .zero⟩]⟩ {} = .ok m ∧ u ∈ m.units ∧
    u.header.paramNames.length = 256 ∧ u.header.totalArity = 255 ∧ u.header.defaultCount = 255 ∧
    m.main.Reaches 0 1 ∧ m.main.Reaches 257 3 := by
  have hcode : (compile ⟨[⟨.functionDecl wide, .zero⟩]⟩ {}).toOption.map (fun m =>
      (m.units[1]?.map fun u =>
        (u.header.paramNames.length, u.header.totalArity, u.header.defaultCount),
       m.main.header.totalArity, (List.range 256).all fun i => m.main.code[i]? == some .pushNull,
       m.main.code[256]?)) =
      some (some (256, 255, 255), 0, true, some (.closure 1 255)) := by decide +kernel
  cases hm : compile ⟨[⟨.functionDecl wide, .zero⟩]⟩ {} with
  | error e =>
    rw [hm] at hcode
    cases hcode
  | ok m =>
    rw [hm] at hcode
    obtain ⟨hunit, hmain⟩ := Prod.mk.inj (Option.some.inj hcode)
    obtain ⟨harity, hrest⟩ := Prod.mk.inj hmain
    obtain ⟨hnulls, hclosure⟩ := Prod.mk.inj hrest
    obtain ⟨u, hu, hcounts⟩ := Option.map_eq_some_iff.mp hunit
    obtain ⟨hnames, hheader⟩ := Prod.mk.inj hcounts
    obtain ⟨htotal, hdefaults⟩ := Prod.mk.inj hheader
    have hreaches : m.main.Reaches 256 257 := CodeUnit.reaches_nulls harity fun i hi =>
      eq_of_beq (List.all_eq_true.mp hnulls i hi)
    exact ⟨m, u, rfl, List.mem_of_getElem? hu, hnames, htotal, hdefaults,
      CodeUnit.reaches_nulls (n := 0) harity fun _ hi => absurd hi List.not_mem_nil,
      .step hreaches (.next hclosure rfl)⟩

end Strand
