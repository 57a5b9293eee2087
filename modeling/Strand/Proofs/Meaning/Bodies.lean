import Strand.Proofs.Meaning.Branches

/-!
# The code of bodies

A declaration makes a local of the value on top of the stack. The locals of a block pile
up below the value that its body leaves in the end, and where the block is left they are
taken off from under it: what the evaluator forgets, the code removes.
-/

namespace Strand.Machine

open Codegen
open Codegen.Scheme (op)

variable {V σ E : Type} {I : Interp V σ E} {rounds : Nat} {b : Bool} {scope scope' : List String}
  {pool : List Constant} {node : NodeScheme} {c' : Scene} {t : Tree} {body : List Expr}

variable {r : Region} {c : Scene} {news : List Var}

/-! ## Declarations -/

theorem turns_declared {name : String} :
    Turns I b scope (name :: scope) (Scheme.declared name) 1 0 (fun vs =>
      (fun _ => []) <$> vs.forM (declareName name)) := by
  rintro pool c _ c' hc ⟨slot, rfl, hslot, rfl⟩
  refine ⟨_, fresh_local c name slot, rfl, rfl, fun S cells env s vs hfits hnames hlen => ?_⟩
  obtain ⟨v, rfl⟩ := List.length_eq_one_iff.mp hlen
  exact .gives .nil ⟨hfits.declare name hslot v, congrArg (name :: ·) hnames, rfl, rfl⟩

/-- Inside a function a declaration is one of a local. -/
theorem turns_place (name : String) :
    Turns I b scope (name :: scope)
      (Scheme.oneOf
        [Scheme.choose fun i => Scheme.requires (fun c => c.isModuleLevel = true) ++
            Scheme.pooled (.str name) i ++ op (.defineGlobal i),
          Scheme.requires (fun c => c.isModuleLevel = false) ++ Scheme.declared name])
      1 0 (fun vs => (fun _ => []) <$> vs.forM (declareName name)) := by
  rintro pool c t c' hc ⟨y, hy, hcode⟩
  simp only [List.mem_cons, List.not_mem_nil, or_false] at hy
  rcases hy with rfl | rfl
  · obtain ⟨_, _, _, _, ⟨_, _, _, ⟨-, -, hmodule⟩, -⟩, -⟩ := hcode
    have hkind : (c.kind == .module) = true := (Bool.and_eq_true_iff.mp hmodule).1
    exact absurd (eq_of_beq hkind) hc.notModule
  · obtain ⟨_, _, t2, ⟨rfl, rfl, -⟩, hcode, rfl⟩ := hcode
    obtain ⟨news, hfresh, hscope, hshift, hrun⟩ := turns_declared (I := I) (b := b) hc hcode
    exact ⟨news, hfresh, hscope, hshift, fun _ _ _ _ _ hfits hnames hlen =>
      (hrun hfits hnames hlen).before .nil⟩

theorem turns_let (name : String) {value : Option Expr}
    (h : ∀ e, value = some e → Pushes I b scope (node.value e) (evalExpr I rounds e)) :
    Turns I b scope (name :: scope) (letScheme node name value) 0 0
      (fun vs => (fun _ => vs) <$> (evalInit I rounds value >>= declareName name)) := by
  have hplaced {x : Scheme} {m : Eval V σ E V} (hx : Pushes I b scope x m) :=
    ((hx.turns 0).append (turns_place name)).congr
      (g := fun vs => (fun _ => vs) <$> (m >>= declareName name)) fun vs hlen => by
        cases List.length_eq_zero_iff.mp hlen
        simp [pushing]
  cases value with
  | some e => exact hplaced (h e rfl)
  | none => exact hplaced (pushes_op (fun _ => rfl) rfl)

/-! ## Bodies -/

/-- Whether the loop around may be left. -/
def Region.leaves : Region → Bool
  | .inLoop => true
  | .straight | .looping => false

/-- The code of the nodes inside goes as their evaluation does. -/
structure Simulates (I : Interp V σ E) (rounds : Nat) (node : NodeScheme) : Prop where
  value : ∀ {r scope e}, Plain r scope e →
    Pushes I r.leaves scope (node.value e) (evalExpr I rounds e)
  /-- An element of a body, before others and as the last one. -/
  element : ∀ {r scope e rest}, PlainBody r scope (e :: rest) → ∃ scope', PlainBody r scope' rest ∧
    Turns I r.leaves scope scope' (node .element e .effect) 0 0
      (fun vs => (fun _ => vs) <$> evalEffect I rounds e) ∧
    Turns I r.leaves scope scope' (node .element e .value) 0 1 (pushing (evalLast I rounds e))

/-- The names that a body declares are in scope for what follows. -/
theorem exists_turns_sequence (h : Simulates I rounds node) : ∀ {scope}, PlainBody r scope body →
      ∃ scope', Turns I r.leaves scope scope' (sequenceScheme node body) 0 1
        (pushing (evalBody I rounds body)) := by
  induction body with
  | nil =>
    intro scope _
    exact ⟨scope, (pushes_op (fun _ => rfl) rfl).turns 0⟩
  | cons e rest ih =>
    intro scope hbody
    obtain ⟨scope1, hrest, heffect, hvalue⟩ := h.element hbody
    cases rest with
    | nil => exact ⟨scope1, hvalue⟩
    | cons e' rest =>
      obtain ⟨scope2, hturns⟩ := ih hrest
      refine ⟨scope2, (heffect.append hturns).congr fun vs _ => ?_⟩
      simp [pushing, evalBody]

/-! ## Blocks -/

theorem times_height {i : Instr} (hi : i.stackEffect = -1) {n : Nat}
    (hcode : Scheme.times i n pool c t c') : c' = c.setHeight (c.height - n) := by
  induction n generalizing c t with
  | zero =>
    obtain ⟨-, rfl⟩ := hcode
    rfl
  | succ n ih =>
    obtain ⟨_, _, t2, ⟨rfl, rfl⟩, hcode, rfl⟩ := hcode
    rw [ih hcode, Scene.emit, hi]
    have hheight : ((c.height : Int) + -1).toNat - n = c.height - (n + 1) := by omega
    exact congrArg c.setHeight hheight

/-- The locals of a block are taken off from under its value. -/
theorem runs_popUnder {cells : List (Option V)} {env : Env V}
    (hnames : env.names = news.map Var.name ++ scope)
    (hcode : Scheme.times .popUnder news.length pool c t c') (v : V) (accs : List (List V)) (s : σ) :
    Runs I pool t ⟨v :: fill (opening news cells) env, accs, s⟩
      (.fall ⟨v :: fill cells (env.drop news.length), accs, s⟩) := by
  induction news generalizing env c t with
  | nil =>
    obtain ⟨rfl, rfl⟩ := hcode
    exact .nil
  | cons l news ih =>
    obtain ⟨_, _, t2, ⟨rfl, rfl⟩, hcode, rfl⟩ := hcode
    obtain ⟨u, env, rfl, hrest⟩ := Env.names_cons_inv hnames
    exact .seq (.op rfl) (ih hrest hcode)

/-- As many cells are taken off at the end of a block as names were declared in it. -/
theorem closeCount_declaring (hc : Orderly scope c) (hnews : Fresh c.openScope news) (n : Nat) :
    ((declaring c.openScope news).setHeight n).closeCount = news.length := by
  have hnew (l : Var) (hl : l ∈ news) : decide (c.depth < l.depth) = true := by
    rw [(hnews l hl).1]
    exact decide_eq_true (Nat.lt_succ_self _)
  have hold : c.locals.takeWhile (fun l => decide (c.depth < l.depth)) = [] := by
    cases hlocals : c.locals with
    | nil => rfl
    | cons l rest =>
      have hle := hc.depth l (by simp [hlocals])
      exact List.takeWhile_cons_of_neg (by simpa using hle)
  have hlist : (news ++ c.locals).takeWhile (fun l => decide (c.depth < l.depth)) = news := by
    rw [List.takeWhile_append_of_pos hnew, hold, List.append_nil]
  exact congrArg List.length hlist

theorem leave_declaring (hc : Orderly scope c) (hnews : Fresh c.openScope news) (n : Nat) :
    ((declaring c.openScope news).setHeight n).leave = c.setHeight n := by
  have hlocals : (news ++ c.locals).drop news.length = c.locals := List.drop_left
  rw [Scene.leave, closeCount_declaring hc hnews]
  simp only [declaring, Scene.openScope, Scene.setHeight, hlocals, Nat.add_sub_cancel]

theorem inBlock_apply {α : Type} (act : Eval V σ E α) (env : Env V) (s : σ) :
    inBlock act (env, s) =
      (act >>= fun v s' => some (.ok (v, s'.1.outermost env.length, s'.2))) (env, s) :=
  rfl

/-- A block is left with the value that the code inside has come to. -/
theorem pushes_leave {x : Scheme} {n : Nat} {f : List V → Eval V σ E V}
    (hx : Turns I b scope scope' x n 1 fun vs => pushing (f vs) []) (hc : Orderly scope c)
    (hcode : (x ++ Scheme.leave true) pool (c.openScope.setHeight (c.height + n)) t c') :
    c' = c.setHeight (c.height + 1) ∧
      ∀ ⦃S cells env s vs⦄, Fits b S c cells env → env.names = scope → vs.length = n →
        Follows I S pool t ⟨vs ++ fill cells env, S.accs, s⟩ (Pushed S scope cells)
          (inBlock (f vs) (env, s)) := by
  obtain ⟨t1, _, _, h1, ⟨t2, _, _, h2, ⟨rfl, rfl⟩, rfl⟩, rfl⟩ := hcode
  obtain ⟨news, hfresh, rfl, rfl, hrun⟩ := hx hc.openScope h1
  rw [closeCount_declaring hc hfresh] at h2
  have hheight : c.height + news.length + 1 - news.length = c.height + 1 := by omega
  refine ⟨?_, fun S cells env s vs hfits hnames hlen => ?_⟩
  · rw [times_height rfl h2]
    exact (leave_declaring hc hfresh _).trans (congrArg c.setHeight hheight)
  · have hbody := follows_map.mp (hrun (s := s) hfits.openScope hnames hlen)
    rw [inBlock_apply]
    refine hbody.bind fun v env' s' o hq => ?_
    cases hq.falls
    -- the names of the block are as many as its locals
    have hcount : env'.length - env.length = news.length := by
      have hlength := congrArg List.length hq.names
      have hlength' := congrArg List.length hnames
      simp only [Env.names, List.length_map, List.length_append] at hlength hlength'
      omega
    have hnames' : Env.names (env'.drop news.length) = scope := by
      have hdrop := congrArg (List.drop news.length) hq.names
      rwa [List.drop_left' (List.length_map _), Env.names, ← List.map_drop] at hdrop
    rw [Env.outermost, hcount]
    exact .on (.gives (.seq (runs_popUnder hq.names h2 v S.accs s') .nil) ⟨hnames', rfl⟩)

theorem pushes_block (h : Simulates I rounds node) (hbody : PlainBody r scope body) :
    Pushes I r.leaves scope (blockScheme node body) (inBlock (evalBody I rounds body)) := by
  obtain ⟨scope', hturns⟩ := exists_turns_sequence h hbody
  have hinside : Turns I r.leaves scope scope' (sequenceScheme node body) 0 1
      fun _ => pushing (evalBody I rounds body) [] :=
    hturns.congr fun vs hlen => by rw [List.length_eq_zero_iff.mp hlen]
  rintro pool c _ c' hc ⟨_, _, t2, ⟨_, _, t1, ⟨rfl, rfl⟩, h1, rfl⟩, h2, rfl⟩
  obtain ⟨rfl, hrun⟩ := pushes_leave hinside hc ⟨t1, _, t2, h1, h2, rfl⟩
  exact ⟨rfl, fun S cells env s hfits hnames =>
    ((hrun hfits hnames List.length_nil).before .nil).assoc⟩

theorem pushes_otherwise (h : Simulates I rounds node) {otherwise : Option (List Expr)}
    (hbody : ∀ body, otherwise = some body → PlainBody r scope body) :
    Pushes I r.leaves scope (otherwiseScheme node otherwise) (evalOtherwise I rounds otherwise) := by
  cases otherwise with
  | some body => exact pushes_block h (hbody body rfl)
  | none => exact pushes_op (fun _ => rfl) rfl

end Strand.Machine
