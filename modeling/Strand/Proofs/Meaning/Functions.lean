import Mathlib.Algebra.Ring.Int.Defs
import Strand.Proofs.Declared
import Strand.Proofs.Meaning.Straight

/-!
# What the unit of a function computes

The arguments are on the stack when a unit is entered, above the callee, and they are its
first locals. From there on its code goes as its body does.
-/

namespace Strand.Machine

open Codegen
open Codegen.Scheme (op)

variable {V σ E : Type} {I : Interp V σ E} {scope names : List String} {args : List V}

variable {kind : UnitKind} {decl : FunctionDecl}

/-! ## Parameters -/

/-- Without any code, a scheme makes locals of the values that lie above those of the
scene. -/
def Binds (I : Interp V σ E) (x : Scheme) (names : List String) : Prop :=
  ∀ ⦃pool c t c' scope⦄, Orderly scope c → x pool c t c' →
    Orderly (names.reverse ++ scope) c' ∧ (∀ w, Runs I pool t w (.fall w)) ∧
      ∀ ⦃accs cells env⦄ ⦃args : List V⦄, Fits false (.closed accs) c cells env →
        args.length = names.length →
        ∃ cells', Fits false (.closed accs) c' cells' ((names.zip args).reverse ++ env) ∧
          fill cells' ((names.zip args).reverse ++ env) = args.reverse ++ fill cells env

theorem Binds.append {x y : Scheme} {names' : List String} (hx : Binds I x names)
    (hy : Binds I y names') : Binds I (x ++ y) (names ++ names') := by
  rintro pool c _ c' scope hc ⟨t1, c1, t2, h1, h2, rfl⟩
  obtain ⟨hc1, hrun1, hfits1⟩ := hx hc h1
  obtain ⟨hc2, hrun2, hfits2⟩ := hy hc1 h2
  refine ⟨?_, fun w => .seq (hrun1 w) (hrun2 w), fun accs cells env args hfits hlen => ?_⟩
  · rw [List.reverse_append, List.append_assoc]
    exact hc2
  · rw [List.length_append] at hlen
    obtain ⟨first, last, rfl, hfirst⟩ : ∃ first last, args = first ++ last ∧
        first.length = names.length :=
      ⟨args.take names.length, args.drop names.length, (List.take_append_drop ..).symm,
        by rw [List.length_take]; omega⟩
    rw [List.length_append] at hlen
    obtain ⟨cells1, hplaced1, hfill1⟩ := hfits1 hfits hfirst
    have hlast : last.length = names'.length := by omega
    obtain ⟨cells2, hplaced2, hfill2⟩ := hfits2 hplaced1 hlast
    rw [List.zip_append hfirst.symm, List.reverse_append, List.append_assoc]
    refine ⟨cells2, hplaced2, ?_⟩
    rw [hfill2, hfill1, List.reverse_append, List.append_assoc]

theorem binds_param (name : String) : Binds I (paramScheme name) [name] := by
  rintro pool c _ c' scope hc ⟨_, _, _, ⟨rfl, rfl⟩, ⟨slot, rfl, hslot, rfl⟩, rfl⟩
  refine ⟨hc.declaring (fresh_local c name slot), fun w => .seq .nil .nil, ?_⟩
  intro accs cells env args hfits hlen
  obtain ⟨v, rfl⟩ := List.length_eq_one_iff.mp hlen
  exact ⟨none :: cells, hfits.declare name hslot v, rfl⟩

theorem binds_each (names : List String) : Binds I (Scheme.each paramScheme names) names := by
  induction names with
  | nil =>
    rintro pool c _ _ scope hc ⟨rfl, rfl⟩
    refine ⟨hc, fun w => .nil, fun accs cells env args hfits hlen => ⟨cells, hfits, ?_⟩⟩
    cases List.length_eq_zero_iff.mp hlen
    rfl
  | cons name rest ih => exact (binds_param name).append ih

theorem binds_params (decl : FunctionDecl) : Binds I (paramsScheme decl) decl.slotNames :=
  ((binds_each _).append (binds_each _)).append (binds_each _)

/-! ## Units -/

/-- A unit starts with no names and nothing but the callee on the stack. -/
theorem orderly_start (hmodule : kind ≠ .module) (hkind : kind ≠ .constructor) :
    Orderly [] (Scene.start kind) where
  notModule := hmodule
  notConstructor := hkind
  depth l hl := by
    cases List.mem_singleton.mp hl
    exact Nat.le_refl _
  bound _ hname := absurd hname List.not_mem_nil

theorem fits_start (kind : UnitKind) (callee : V) :
    Fits false (.closed []) (Scene.start kind) [some callee] [] where
  placed := .callee
  height := rfl
  ring _ ha := by cases ha
  inside hb := by cases hb

theorem names_zip (hlen : args.length = names.length) :
    Env.names (names.zip args).reverse = names.reverse := by
  rw [Env.names, List.map_reverse, List.map_fst_zip (Nat.le_of_eq hlen.symm)]

/-- The unit of a function returns what its body evaluates to. -/
theorem yields_of_codeOf {p : Program} (hmacros : ∀ value, ¬ IsMacro p value) {budget : Nat}
    {u : CodeUnit}
    (hcode : CodeOf (nodeScheme p budget) (.function decl kind) u) (hmodule : kind ≠ .module)
    (hkind : kind ≠ .constructor) (hresult : decl.returnType = none) {region : Region}
    (hregion : region.leaves = false) (hbody : PlainBody region decl.slotNames.reverse decl.body)
    (callee : V) (hargs : args.length = decl.slotNames.length) {s : σ} {rounds : Nat}
    {r : Except E (V × σ)} (heval : evalFunction I rounds decl args s = some r) :
    Yields I u 0 ⟨args.reverse ++ [callee], [], s⟩ r := by
  obtain ⟨-, _, c', ⟨t1, c1, _, h1, ⟨t2, c2, _, h2, ⟨rfl, rfl⟩, rfl⟩, rfl⟩, hat, -, -⟩ := hcode
  -- the form of a body that ends without a value needs a result type
  have h3 : sequenceScheme (nodeScheme p budget) decl.body u.constants c1 t2 c2 := by
    rw [functionBodyScheme, if_neg hkind] at h2
    obtain ⟨x, hx, h2⟩ := h2
    simp only [List.mem_cons, List.not_mem_nil, or_false] at hx
    rcases hx with rfl | rfl
    · exact h2
    · obtain ⟨_, _, _, ⟨_, _, _, ⟨-, -, hsome⟩, -⟩, -⟩ := h2
      rw [hresult] at hsome
      exact absurd hsome Bool.false_ne_true
  obtain ⟨hc, hrun1, hfits1⟩ := binds_params (I := I) decl (orderly_start hmodule hkind) h1
  obtain ⟨cells, hfits, hfill⟩ := hfits1 (fits_start kind callee) hargs
  rw [List.append_nil] at hc hfits hfill
  obtain ⟨scope', hturns⟩ := exists_turns_sequence (simulates_nodeScheme I rounds hmacros budget) hbody
  rw [hregion] at hturns
  obtain ⟨news, -, -, -, hrun2⟩ := hturns hc h3
  have hfollows := follows_map.mp (hrun2 (s := s) hfits (names_zip hargs) List.length_nil)
  rw [List.nil_append, hfill] at hfollows
  unfold evalFunction at heval
  generalize evalBody I rounds decl.body _ = outcome at hfollows heval
  -- a body is left by a failure, by a return or at its end, never by a jump out of a loop
  cases hfollows with
  | undefined => cases heval
  | exits hrun hx =>
    cases hx with
    | fail | ret =>
      cases heval
      exact ((hrun1 _).seq hrun.halt).yields hat rfl
    | leave ha _ | next ha _ => cases ha
  | gives hrun hq =>
    cases heval
    cases hq.falls
    exact ((hrun1 _).seq (hrun.seq .ret)).yields hat rfl

/-- Without loops and returns the body evaluates to something. -/
theorem exists_evalFunction (hbody : PlainBody .straight decl.slotNames.reverse decl.body)
    (hargs : args.length = decl.slotNames.length) (s : σ) (rounds : Nat) :
    ∃ r, evalFunction I rounds decl args s = some r := by
  obtain ⟨news, htotal⟩ := total_of_plainBody hbody
  unfold evalFunction
  rcases htotal (s := s) (names_zip hargs) with ⟨v, env, s', hv, -⟩ | ⟨e, he⟩
  · exact ⟨.ok (v, s'), by rw [hv]; rfl⟩
  · exact ⟨.error e, by rw [he]; rfl⟩

/-! ## Compiled functions -/

/-- A function that takes its arguments one by one: at most 255 of them, none with a default,
and no more than it names. -/
structure Simple (decl : FunctionDecl) : Prop where
  required : ∀ q ∈ decl.params, q.default = none
  noVarargs : decl.varargs = none
  noKwargs : decl.kwargs = none
  noResult : decl.returnType = none
  few : decl.params.length ≤ 255

theorem Simple.slotNames (h : Simple decl) : decl.slotNames = decl.params.map Param.name := by
  rw [FunctionDecl.slotNames, h.noVarargs, h.noKwargs]
  simp

theorem Simple.arity (h : Simple decl) (kind : UnitKind) :
    (functionHeader decl kind).arity.toNat = decl.params.length := by
  have hall : decl.params.filter (fun q => q.default.isNone) = decl.params :=
    List.filter_eq_self.mpr fun q hq => by rw [h.required q hq]; rfl
  rw [functionHeader, hall]
  exact toNat_headerCount h.few

/-- The unit that a function of the program was compiled to. -/
def IsUnitOf (p : Program) (decl : FunctionDecl) (kind : UnitKind) (u : CodeUnit) : Prop :=
  ∃ budget, CodeOf (nodeScheme p budget) (.function decl kind) u

theorem ne_module_of_declares {p : Program} (h : Declares p decl kind) : kind ≠ .module := by
  obtain ⟨_, ⟨k, _⟩, -, hdecl⟩ := h
  rintro rfl
  cases k with
  | lambda d | functionDecl d => cases List.mem_singleton.mp hdecl
  | classDecl d =>
    rcases List.mem_append.mp hdecl with hmember | hctor
    · obtain ⟨m, -, hmember⟩ := List.mem_flatMap.mp hmember
      cases m with
      | field f => cases hmember
      | method m =>
        have hkind : UnitKind.module = m.unitKind := congrArg Prod.snd (List.mem_singleton.mp hmember)
        rw [MethodDecl.unitKind] at hkind
        split at hkind <;> cases hkind
    · obtain ⟨_, -, heq⟩ := List.mem_map.mp hctor
      cases heq
  | _ => cases hdecl

end Strand.Machine

namespace Strand

open Codegen (UnitKind)
open Machine

/-- A function whose body has neither loops nor returns has a unit, and the unit returns what the
body evaluates to: its value, or its error, for any arguments and any interpretation of the
values. -/
theorem compile_plainFunction {p : Program} {o : Options} {m : Module} (h : compile p o = .ok m)
    (hmacros : ∀ value, ¬ IsMacro p value) {decl : FunctionDecl} {kind : UnitKind}
    (hdecl : Declares p decl kind) (hkind : kind ≠ .constructor) (hsimple : Simple decl)
    (hbody : PlainBody .straight (decl.params.map Param.name).reverse decl.body) :
    (∃ u ∈ m.units, IsUnitOf p decl kind u) ∧
      ∀ u, IsUnitOf p decl kind u → u.header.arity.toNat = decl.params.length ∧
        ∀ {V σ E : Type} (I : Interp V σ E) (callee : V) (args : List V) (s : σ),
          args.length = decl.params.length →
          ∃ r, (∀ rounds, evalFunction I rounds decl args s = some r) ∧
            Yields I u 0 ⟨args.reverse ++ [callee], [], s⟩ r := by
  refine ⟨exists_unit_of_declares h hmacros hdecl, ?_⟩
  rintro u ⟨budget, hcode⟩
  refine ⟨by rw [hcode.1]; exact hsimple.arity kind, fun I callee args s hargs => ?_⟩
  rw [← hsimple.slotNames] at hbody
  have hlength : args.length = decl.slotNames.length := by
    rw [hargs, hsimple.slotNames, List.length_map]
  have hyields {rounds r} (heval : evalFunction I rounds decl args s = some r) :=
    yields_of_codeOf hmacros hcode (ne_module_of_declares hdecl) hkind hsimple.noResult rfl hbody
      callee hlength heval
  obtain ⟨r, hr⟩ := exists_evalFunction (I := I) hbody hlength s 0
  refine ⟨r, fun rounds => ?_, hyields hr⟩
  obtain ⟨r', hr'⟩ := exists_evalFunction (I := I) hbody hlength s rounds
  rw [hr', (hyields hr).unique (hyields hr')]

/-- A function with locals of the same name in different blocks:
`let y = x + 1`, `if y < limit then (let y = y * 2; x = y) else x = limit`, `y < x && x / y`. -/
def shadowing : FunctionDecl :=
  let node (kind : ExprKind) : Expr := ⟨kind, .zero⟩
  let binary (left : String) (op : BinaryOp) (right : Expr) := node (.binary (node (.var left)) op right)
  let assign (name : String) (value : Expr) := node (.assign false (node (.var name)) value)
  let declare (value : Expr) := node (.letDecl "y" none (some value) false)
  { name := "shadowing", generics := [], params := [⟨"x", none, none, .zero⟩, ⟨"limit", none, none, .zero⟩]
    varargs := none, kwargs := none, returnType := none, isAsync := false, catchesResult := false
    span := .zero
    body :=
      [declare (binary "x" .add (node (.int 1))),
        node (.cond
          [⟨binary "y" .less (node (.var "limit")),
            [declare (binary "y" .multiply (node (.int 2))), assign "x" (node (.var "y"))]⟩]
          (some [assign "x" (node (.var "limit"))])),
        node (.logical (binary "y" .less (node (.var "x"))) .and
          (binary "x" .divide (node (.var "y"))))] }

/-- Integers, with a store that counts the operations. -/
def counting : Interp Int Nat String where
  truthy _ v := v != 0
  isNull _ _ := false
  next _ _ := .error "not an iterator"
  apply o args s :=
    match o, args with
    | .constant (.int n), [] => .ok (n.toInt, s + 1)
    | .binary .add, [a, b] => .ok (a + b, s + 1)
    | .binary .multiply, [a, b] => .ok (a * b, s + 1)
    | .binary .less, [a, b] => .ok (if a < b then 1 else 0, s + 1)
    | .binary .divide, [a, b] => if b = 0 then .error "division by zero" else .ok (a / b, s + 1)
    | _, _ => .error "not an operation"

theorem plainBody_shadowing : PlainBody .straight ["limit", "x"] shadowing.body := by
  have hread {scope : List String} {name : String} (hname : name ≠ "") (hmem : name ∈ scope) :
      Plain .straight scope ⟨.var name, .zero⟩ := .var hname hmem
  refine .declare ?_ (.element (.cond ?_ ?_ ?_) (.element (.logical ?_ ?_) .nil))
  · rintro _ ⟨⟩
    exact .binary (hread (by decide) (by decide)) .int
  · intro b hb
    cases List.mem_singleton.mp hb
    exact .binary (hread (by decide) (by decide)) (hread (by decide) (by decide))
  · intro b hb
    cases List.mem_singleton.mp hb
    refine .declare ?_ (.element (.assign (by decide) (by decide) (hread (by decide) (by decide))) .nil)
    rintro _ ⟨⟩
    exact .binary (hread (by decide) (by decide)) .int
  · rintro _ ⟨⟩
    exact .element (.assign (by decide) (by decide) (hread (by decide) (by decide))) .nil
  · exact .binary (hread (by decide) (by decide)) (hread (by decide) (by decide))
  · exact .binary (hread (by decide) (by decide)) (hread (by decide) (by decide))

theorem simple_shadowing : Simple shadowing where
  required := by decide
  noVarargs := rfl
  noKwargs := rfl
  noResult := rfl
  few := by decide

/-- The program that consists of a function. -/
def alone (decl : FunctionDecl) : Program := ⟨[⟨.functionDecl decl, .zero⟩]⟩

theorem declares_alone (decl : FunctionDecl) : Declares (alone decl) decl .function :=
  ⟨.element, _, .top List.mem_cons_self, List.mem_cons_self⟩

theorem compile_plainFunction_shadowing :
    ∃ m, compile (alone shadowing) {} = .ok m ∧ (∀ value, ¬ IsMacro (alone shadowing) value) ∧
      Declares (alone shadowing) shadowing .function ∧ Simple shadowing ∧
      PlainBody .straight ["limit", "x"] shadowing.body ∧
      ∃ u ∈ m.units, u.header.arity.toNat = 2 ∧
        Yields counting u 0 ⟨[10, 3, 0], [], 0⟩ (.ok (2, 7)) ∧
        Yields counting u 0 ⟨[-5, -1, 0], [], 0⟩ (.ok (0, 4)) := by
  have hend : ((alone shadowing).nodesAt 6).isEmpty = true := by decide +kernel
  have hmacros := not_isMacro_of_nodesAt hend (by decide +kernel)
  have hok : (compile (alone shadowing) {}).toOption.isSome = true := by decide +kernel
  cases hm : compile (alone shadowing) {} with
  | error e =>
    rw [hm] at hok
    cases hok
  | ok m =>
    obtain ⟨⟨u, hu, hunit⟩, hall⟩ := compile_plainFunction hm hmacros (declares_alone shadowing)
      (by decide) simple_shadowing plainBody_shadowing
    obtain ⟨harity, hrun⟩ := hall u hunit
    obtain ⟨r, hr, hyields⟩ := hrun counting 0 [3, 10] 0 rfl
    obtain ⟨r', hr', hyields'⟩ := hrun counting 0 [-1, -5] 0 rfl
    have heval : evalFunction counting 0 shadowing [3, 10] 0 = some (.ok (2, 7)) := rfl
    have heval' : evalFunction counting 0 shadowing [-1, -5] 0 = some (.ok (0, 4)) := rfl
    cases (hr 0).symm.trans heval
    cases (hr' 0).symm.trans heval'
    exact ⟨m, rfl, hmacros, declares_alone shadowing, simple_shadowing, plainBody_shadowing, u, hu,
      harity, hyields, hyields'⟩

/-- A function with loops has a unit, and if the evaluation of its body ends, the unit returns
what it comes to. -/
theorem compile_loopingFunction {p : Program} {o : Options} {m : Module} (h : compile p o = .ok m)
    (hmacros : ∀ value, ¬ IsMacro p value) {decl : FunctionDecl} {kind : UnitKind}
    (hdecl : Declares p decl kind) (hkind : kind ≠ .constructor) (hsimple : Simple decl)
    (hbody : PlainBody .looping (decl.params.map Param.name).reverse decl.body) :
    (∃ u ∈ m.units, IsUnitOf p decl kind u) ∧
      ∀ u, IsUnitOf p decl kind u → u.header.arity.toNat = decl.params.length ∧
        ∀ {V σ E : Type} (I : Interp V σ E) (callee : V) (args : List V) (s : σ),
          args.length = decl.params.length →
          ∀ rounds r, evalFunction I rounds decl args s = some r →
            Yields I u 0 ⟨args.reverse ++ [callee], [], s⟩ r := by
  refine ⟨exists_unit_of_declares h hmacros hdecl, ?_⟩
  rintro u ⟨budget, hcode⟩
  refine ⟨by rw [hcode.1]; exact hsimple.arity kind, fun I callee args s hargs rounds r heval => ?_⟩
  rw [← hsimple.slotNames] at hbody
  have hlength : args.length = decl.slotNames.length := by
    rw [hargs, hsimple.slotNames, List.length_map]
  exact yields_of_codeOf hmacros hcode (ne_module_of_declares hdecl) hkind hsimple.noResult rfl hbody
    callee hlength heval

/-- A function with all four loops, one inside another:
`let total = 0`,
`for i in 0..limit (if i < 1 then continue; i = i * 2; total = total + i;
  do (if 6 < total then break; total = total + 1) while total < 3)`,
`limit = for x in limit (while x < 2 (x = x + 1); x)`,
`while total < 100 (if 50 < total then return total + limit; total = total * 2)`. -/
def weaving : FunctionDecl :=
  let node (kind : ExprKind) : Expr := ⟨kind, .zero⟩
  let read (name : String) := node (.var name)
  let int (n : Int64) := node (.int n)
  let less (left right : Expr) := node (.binary left .less right)
  let set (name : String) (op : BinaryOp) (value : Expr) :=
    node (.assign false (read name) (node (.binary (read name) op value)))
  let when (condition body : Expr) := node (.cond [⟨condition, [body]⟩] none)
  { name := "weaving", generics := [], params := [⟨"limit", none, none, .zero⟩], varargs := none
    kwargs := none, returnType := none, isAsync := false, catchesResult := false, span := .zero
    body :=
      [node (.letDecl "total" none (some (int 0)) false),
        node (.rangeFor "i" none (int 0) (read "limit") none
          [when (less (read "i") (int 1)) (node .continueLoop),
            set "i" .multiply (int 2),
            set "total" .add (read "i"),
            node (.doWhile
              [when (less (int 6) (read "total")) (node .breakLoop), set "total" .add (int 1)]
              (less (read "total") (int 3)))]),
        node (.assign false (read "limit") (node (.forEach "x" (read "limit")
          [node (.whileLoop (less (read "x") (int 2)) [set "x" .add (int 1)]), read "x"]))),
        node (.whileLoop (less (read "total") (int 100))
          [when (less (int 50) (read "total"))
              (node (.ret (some (node (.binary (read "total") .add (read "limit")))))),
            set "total" .multiply (int 2)])] }

/-- Integers, where the store says how many items an iterator still has, and the value of a loop
is the sum of what it has collected. -/
def ticking : Interp Int Int String where
  truthy _ v := v != 0
  isNull _ _ := false
  next _ s := .ok (if s ≤ 0 then (none, s) else (some s, s - 1))
  apply o args s :=
    match o, args with
    | .constant (.int n), [] => .ok (n.toInt, s)
    | .null, [] => .ok (0, s)
    | .binary .add, [a, b] => .ok (a + b, s)
    | .binary .multiply, [a, b] => .ok (a * b, s)
    | .binary .less, [a, b] => .ok (if a < b then 1 else 0, s)
    | .copy, [a] => .ok (a, s)
    | .inferStep, [_, _] => .ok (1, s)
    | .inRange, [a, b, _] => .ok (if a < b then 1 else 0, s)
    | .iterator, [a] => .ok (a, a)
    | .collected, items => .ok (items.sum, s)
    | _, _ => .error "not an operation"

theorem plainBody_weaving : PlainBody .looping ["limit"] weaving.body := by
  have hread {r : Region} {scope : List String} {name : String} (hname : name ≠ "")
      (hmem : name ∈ scope) : Plain r scope ⟨.var name, .zero⟩ := .var hname hmem
  have hset {r : Region} {scope : List String} {name : String} (hname : name ≠ "")
      (hmem : name ∈ scope) {op : BinaryOp} {value : Expr} (hvalue : Plain r scope value) :
      Plain r scope ⟨.assign false ⟨.var name, .zero⟩ ⟨.binary ⟨.var name, .zero⟩ op value, .zero⟩, .zero⟩ :=
    .assign hname hmem (.binary (hread hname hmem) hvalue)
  have hwhen {r : Region} {scope : List String} {condition body : Expr}
      (hcondition : Plain r scope condition) (hbody : Plain r scope body) :
      Plain r scope ⟨.cond [⟨condition, [body]⟩] none, .zero⟩ := by
    refine .cond (fun b hb => ?_) (fun b hb => ?_) fun body hnone => by cases hnone
    · cases List.mem_singleton.mp hb
      exact hcondition
    · cases List.mem_singleton.mp hb
      exact .element hbody .nil
  refine .declare ?_ (.element (.rangeFor ?_ ?_ .int (hread ?_ ?_) (fun e hnone => by cases hnone) (.element (hwhen
    (.binary (hread ?_ ?_) .int) .continueLoop) (.element (hset ?_ ?_ .int) (.element (hset ?_ ?_ (hread ?_ ?_))
    (.element (.doWhile ?_ (.element (hwhen (.binary .int (hread ?_ ?_)) .breakLoop)
      (.element (hset ?_ ?_ .int) .nil)) (.binary (hread ?_ ?_) .int)) .nil)))))
    (.element (.assign ?_ ?_ (.forEach ?_ ?_ (hread ?_ ?_) (.element (.whileLoop ?_ (.binary
      (hread ?_ ?_) .int) (.element (hset ?_ ?_ .int) .nil)) (.element (hread ?_ ?_) .nil))))
    (.element (.whileLoop ?_ (.binary (hread ?_ ?_) .int) (.element (hwhen
      (.binary .int (hread ?_ ?_)) (.ret ?_ ?_)) (.element (hset ?_ ?_ .int) .nil))) .nil))) <;>
    try decide
  · rintro _ ⟨⟩
    exact .int
  · rintro _ ⟨⟩
    exact .binary (hread (by decide) (by decide)) (hread (by decide) (by decide))

theorem compile_loopingFunction_weaving :
    ∃ m, compile (alone weaving) {} = .ok m ∧ (∀ value, ¬ IsMacro (alone weaving) value) ∧
      Declares (alone weaving) weaving .function ∧ Simple weaving ∧
      PlainBody .looping ["limit"] weaving.body ∧
      evalFunction ticking 8 weaving [4] 0 = some (.ok (63, 0)) ∧
      ∃ u ∈ m.units, u.header.arity.toNat = 1 ∧ Yields ticking u 0 ⟨[4, 0], [], 0⟩ (.ok (63, 0)) := by
  have hsimple : Simple weaving := ⟨by decide, rfl, rfl, rfl, by decide⟩
  have hend : ((alone weaving).nodesAt 8).isEmpty = true := by decide +kernel
  have hmacros := not_isMacro_of_nodesAt hend (by decide +kernel)
  have hok : (compile (alone weaving) {}).toOption.isSome = true := by decide +kernel
  cases hm : compile (alone weaving) {} with
  | error e =>
    rw [hm] at hok
    cases hok
  | ok m =>
    obtain ⟨⟨u, hu, hunit⟩, hall⟩ := compile_loopingFunction hm hmacros (declares_alone weaving)
      (by decide) hsimple plainBody_weaving
    obtain ⟨harity, hrun⟩ := hall u hunit
    have hresult : (evalFunction ticking 8 weaving [4] 0).map Except.toOption =
        some (some (63, 0)) := by decide +kernel
    have heval : evalFunction ticking 8 weaving [4] 0 = some (.ok (63, 0)) := by
      rcases hr : evalFunction ticking 8 weaving [4] 0 with _ | _ | r
      · rw [hr] at hresult
        cases hresult
      · rw [hr] at hresult
        cases hresult
      · rw [hr] at hresult
        cases hresult
        rfl
    exact ⟨m, rfl, hmacros, declares_alone weaving, hsimple, plainBody_weaving, heval, u, hu, harity,
      hrun ticking 0 [4] 0 rfl 8 _ heval⟩

end Strand
