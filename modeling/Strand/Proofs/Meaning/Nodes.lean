import Strand.Proofs.Meaning.LoopForms

/-!
# The code of nodes

A node is compiled for its value or for its effect. Most kinds push a value, which is taken
off again where it is not wanted. Loops know what is wanted. What leaves a loop or the
function has no value, and the code after it is never reached.
-/

namespace Strand.Machine

open Codegen
open Codegen.Scheme (op jump back)

variable {V σ E : Type} {I : Interp V σ E} {rounds n k : Nat} {b : Bool}
  {scope scope' : List String} {pool : List Constant} {node : NodeScheme} {p : Program} {x : Scheme}
  {e : Expr} {m : Eval V σ E V} {f : List V → Eval V σ E (List V)}

/-! ## Leaving a loop or the function -/

/-- The code of a scheme goes as an evaluation that does not come to its end. -/
def Leaves (I : Interp V σ E) (b : Bool) (scope : List String) (x : Scheme) (m : Eval V σ E V) :
    Prop :=
  ∀ ⦃pool c t c'⦄, Orderly scope c → x pool c t c' →
    c' = c ∧ ∀ ⦃S cells env s⦄, Fits b S c cells env → env.names = scope →
      Follows I S pool t ⟨fill cells env, S.accs, s⟩ (fun _ _ _ _ => False) (m (env, s))

/-- Where a loop is left, the stack is what it was when its iteration started. -/
theorem Fits.unwind {S : Setting V} {c : Scene} {cells : List (Option V)} {env : Env V}
    (h : Fits true S c cells env) :
    ∃ a, S.ring = some a ∧ c.loop = some a.scene ∧
      (env.outermost a.names.length).names = a.names ∧
      ∀ {c1 t c2} (s : σ), Scheme.times .pop (c.height - a.cells.length) pool c1 t c2 →
        Runs I pool t ⟨fill cells env, S.accs, s⟩
          (.fall ⟨fill a.cells (env.outermost a.names.length), S.accs, s⟩) := by
  obtain ⟨a, ha⟩ := Option.ne_none_iff_exists'.mp (h.inside rfl)
  obtain ⟨hloop, ⟨above, rfl⟩, hnames, hholes⟩ := h.ring a ha
  refine ⟨a, ha, hloop, Env.names_outermost hnames, fun {c1 t c2} s hcode => ?_⟩
  have hcount : c.height - a.cells.length = above.length := by
    rw [h.height, List.length_append]
    omega
  have hlength : ((fill (above ++ a.cells) env).take above.length).length = above.length := by
    rw [List.length_take, length_fill h.placed rfl, List.length_append]
    omega
  have hcells : holes (above ++ a.cells) = env.length := by
    rw [h.placed.holes, Env.names, List.length_map]
  have hdrop := drop_fill above a.cells hcells
  rw [hholes] at hdrop
  rw [hcount, ← hlength] at hcode
  rw [← List.take_append_drop above.length (fill (above ++ a.cells) env), hdrop]
  exact runs_pop hcode _ _ _

/-- The cells of the loop are taken off before the jump. -/
theorem leaves_break : Leaves I true scope breakScheme (exit .leave) := by
  rintro pool c _ c' hc ⟨l, _, _, _, ⟨_, _, _, ⟨_, _, t, ⟨rfl, rfl, hl⟩, hcode, rfl⟩, ⟨rfl, rfl⟩, rfl⟩,
    ⟨rfl, rfl⟩, rfl⟩
  rw [times_height rfl hcode]
  refine ⟨rfl, fun S cells env s hfits hnames => ?_⟩
  obtain ⟨a, ha, hloop, hnames', hrun⟩ := hfits.unwind (I := I)
  cases hl.symm.trans hloop
  have hjump : Runs I pool (.jump .always .exit)
      ⟨fill a.cells (env.outermost a.names.length), S.accs, s⟩ (.goto .exit _) :=
    .jump fun _ => rfl
  exact .exits (.leave (.seq (.seq .nil (hrun s hcode)) hjump)) (.leave ha hnames')

theorem leaves_continue : Leaves I true scope continueScheme (exit .next) := by
  rintro pool _ _ c' hc ⟨l, _, c2, _, ⟨_, c1, t2, ⟨_, c, t, ⟨rfl, rfl, hl⟩, hcode, rfl⟩, hnext, rfl⟩,
    ⟨rfl, rfl⟩, rfl⟩
  have hscene : c2.setHeight c.height = c := by
    rw [times_height rfl hcode] at hnext
    split at hnext <;> obtain ⟨rfl, rfl⟩ := hnext <;> rfl
  refine ⟨hscene, fun S cells env s hfits hnames => ?_⟩
  obtain ⟨a, ha, hloop, hnames', hrun⟩ := hfits.unwind (I := I)
  cases hl.symm.trans hloop
  have hgoto : Runs I pool t2 ⟨fill a.cells (env.outermost a.names.length), S.accs, s⟩
      (.goto a.nextLabel ⟨fill a.cells (env.outermost a.names.length), S.accs, s⟩) := by
    rw [Ring.nextLabel]
    by_cases hback : a.continuesBack = true
    · rw [Ring.scene, if_pos hback] at hnext
      obtain ⟨rfl, -⟩ := hnext
      rw [if_pos hback]
      exact .back
    · rw [Ring.scene, if_neg hback] at hnext
      obtain ⟨rfl, -⟩ := hnext
      rw [if_neg hback]
      exact .jump fun _ => rfl
  exact .exits (.leave (.seq (.seq .nil (hrun s hcode)) hgoto)) (.next ha hnames')

/-- A unit is left from any depth. -/
theorem leaves_return {value : Option Expr}
    (h : ∀ e, value = some e → Pushes I b scope (node.value e) (evalExpr I rounds e)) :
    Leaves I b scope (returnScheme node value) (do
      let v ← evalInit I rounds value
      exit fun _ => .ret v) := by
  rintro pool c _ c' hc ⟨_, _, _, ⟨t, c1, _, hcode, ⟨rfl, rfl⟩, rfl⟩, ⟨rfl, rfl⟩, rfl⟩
  unfold returnedScheme at hcode
  rw [if_neg hc.notConstructor] at hcode
  have hpushes : ∃ x, Pushes I b scope x (evalInit I rounds value) ∧ x pool c t c1 := by
    cases value with
    | some e => exact ⟨_, h e rfl, hcode⟩
    | none => exact ⟨_, pushes_op (fun _ => rfl) rfl, hcode⟩
  obtain ⟨x, hx, hcode⟩ := hpushes
  obtain ⟨rfl, hrun⟩ := hx hc hcode
  refine ⟨rfl, fun S cells env s hfits hnames => .assoc ((hrun hfits hnames).bind ?_)⟩
  intro v env' s' o hq
  obtain ⟨-, rfl⟩ := hq
  exact .on (.exits (.halt .ret) .ret)

/-! ## Positions -/

/-- The code for each position goes as an evaluation: one for the value of the node, one for
its effect. -/
structure Delivers (I : Interp V σ E) (b : Bool) (scope : List String) (x : Position → Scheme)
    (m : Eval V σ E V) (m' : Eval V σ E Unit) : Prop where
  value : Turns I b scope scope (x .value) 0 1 (pushing m)
  effect : Turns I b scope scope (x .effect) 0 0 (fun vs => (fun _ => vs) <$> m')

theorem turns_pop : Turns I b scope scope (op .pop) (n + 1) n (fun vs => pure vs.tail) := by
  rintro pool c _ _ - ⟨rfl, rfl⟩
  refine ⟨[], fresh_nil c, rfl, ?_, fun S cells env s vs hfits hnames hlen => ?_⟩
  · have hheight : ((c.height + (n + 1) : Nat) + (-1 : Int)).toNat = c.height + n := by omega
    exact congrArg c.setHeight hheight
  · obtain ⟨v, vs, rfl⟩ := List.exists_cons_of_length_eq_add_one hlen
    exact .gives (.op rfl) ⟨hfits, hnames, Nat.succ.inj hlen, rfl⟩

/-- A value that is not wanted is dropped. -/
theorem Pushes.delivers (h : Pushes I b scope x m) :
    Delivers I b scope (fun position => x ++ settleScheme .value position) m
      ((fun _ => ()) <$> m) where
  value := ((h.turns 0).append turns_skip).congr fun _ _ => bind_pure _
  effect := ((h.turns 0).append turns_pop).congr fun _ _ => by simp [pushing]

theorem Leaves.turns {y : Scheme} (h : Leaves I b scope x m)
    (hy : ∀ pool c t c', y pool c t c' → c' = c.setHeight (c.height + k)) (f : List V → V → List V) :
    Turns I b scope scope (x ++ y) 0 k (fun vs => f vs <$> m) := by
  rintro pool c _ c' hc ⟨t1, c1, t2, h1, h2, rfl⟩
  obtain ⟨rfl, hrun⟩ := h hc h1
  refine ⟨[], fresh_nil _, rfl, hy _ _ _ _ h2, fun S cells env s vs hfits hnames hlen => ?_⟩
  cases List.length_eq_zero_iff.mp hlen
  exact follows_map.mpr ((hrun hfits hnames).after fun _ _ _ _ hq => hq.elim)

/-- What is never reached may stand for anything. -/
theorem Leaves.delivers (h : Leaves I b scope x m) :
    Delivers I b scope (fun position => x ++ settleScheme .nothing position) m
      ((fun _ => ()) <$> m) where
  value := h.turns (fun _ _ _ _ hcode => hcode.2) fun vs v => v :: vs
  effect := (h.turns (fun _ _ _ _ hcode => hcode.2) fun vs _ => vs).congr fun _ _ => by simp

theorem Turns.choose {α : Type} {x : α → Scheme} (h : ∀ a, Turns I b scope scope' (x a) n k f) :
    Turns I b scope scope' (Scheme.choose x) n k f := by
  rintro pool c t c' hc ⟨a, hcode⟩
  exact h a hc hcode

/-- A loop collects what its body gives only where its value is wanted. -/
theorem delivers_loop {x : Position → Scheme} {m : Position → Eval V σ E (List V)}
    (h : ∀ position, Turns I b scope scope (x position) 0 (width position)
      (fun _ => m position >>= yielded I position)) :
    Delivers I b scope (fun position => x position ++ settleScheme .asWanted position)
      (m .value >>= compute I .collected) ((fun _ => ()) <$> m .effect) where
  value := ((h .value).append turns_skip).congr fun vs hlen => by
    have hyielded : yielded I .value = fun acc => (fun v => [v]) <$> compute I .collected acc := rfl
    cases List.length_eq_zero_iff.mp hlen
    simp [pushing, hyielded]
  effect := ((h .effect).append turns_skip).congr fun vs hlen => by
    have hyielded : yielded I .effect = fun _ => pure [] := rfl
    cases List.length_eq_zero_iff.mp hlen
    simp [hyielded]

/-! ## Kinds -/

theorem Pushes.congr {m' : Eval V σ E V} (h : Pushes I b scope x m) (hm : m = m') :
    Pushes I b scope x m' :=
  hm ▸ h

/-- The code of a kind for each position. -/
def settledScheme (p : Program) (node : NodeScheme) (kind : ExprKind) (position : Position) : Scheme :=
  kindScheme p node position kind ++ settleScheme (leaving kind) position

/-- One case for each kind of node that is evaluated. -/
theorem delivers_kind (h : Simulates I rounds node) (hmacros : ∀ value, ¬ IsMacro p value)
    {r : Region} (he : Plain r scope e) :
    Delivers I r.leaves scope (settledScheme p node e.kind) (evalKind I rounds e.kind)
      (evalEffect I rounds e) := by
  cases he with
  | int | float | str => exact (pushes_constant _).delivers
  | @bool _ _ b _ =>
    cases b with
    | true => exact (pushes_op (fun _ => rfl) rfl).delivers
    | false => exact (pushes_op (fun _ => rfl) rfl).delivers
  | null => exact (pushes_op (fun _ => rfl) rfl).delivers
  | interpolated hparts =>
    exact ((turns_parts fun e he => h.value (hparts e he)).operation
      (turns_counted (fun i _ hi => hi ▸ rfl) fun i hi => by
        rw [Instr.stackEffect, hi])).delivers
  | array hitems =>
    exact ((turns_items fun e he => h.value (hitems e he)).operation
      (turns_counted (fun i _ hi => hi ▸ rfl) fun i hi => by
        rw [Instr.stackEffect, hi])).delivers
  | tuple hitems =>
    exact ((turns_items fun e he => h.value (hitems e he)).operation
      (turns_counted (fun i _ hi => hi ▸ rfl) fun i hi => by
        rw [Instr.stackEffect, hi])).delivers
  | map hkeys hvalues =>
    refine ((turns_pairs (fun e he => h.value (hkeys e he)) fun e he =>
      h.value (hvalues e he)).operation (turns_counted (fun i _ hi => hi ▸ rfl) ?_)).delivers
    intro i hi
    rw [Instr.stackEffect, hi, Int.natCast_mul]
    rfl
  | var hname hmem => exact (pushes_variable hmacros hname hmem).delivers
  | assign hname hmem hvalue => exact (pushes_assign hname hmem (h.value hvalue)).delivers
  | index hobject hindex =>
    refine ((((h.value hobject).pair (h.value hindex) 0).operation
      (turns_op (fun _ => rfl) rfl)).congr ?_).delivers
    simp [evalKind]
  | binary hleft hright =>
    refine ((((h.value hleft).pair (h.value hright) 0).operation
      (turns_op (fun _ => rfl) rfl)).congr ?_).delivers
    simp [evalKind]
  | unary hoperand =>
    refine ((((h.value hoperand).single 0).operation (turns_op (fun _ => rfl) rfl)).congr ?_).delivers
    simp [evalKind]
  | @logical _ _ _ b _ _ hleft hright =>
    cases b with
    | and => exact (pushes_and (h.value hleft) (h.value hright)).delivers
    | or => exact (pushes_or (h.value hleft) (h.value hright)).delivers
  | ternary hcondition hthen helse =>
    exact (pushes_ternary (h.value hcondition) (h.value hthen) (h.value helse)).delivers
  | cond hconditions hbodies helse =>
    exact (pushes_if (fun b hb => h.value (hconditions b hb))
      (fun b hb => pushes_block h (hbodies b hb)) (pushes_otherwise h helse)).delivers
  | whileLoop hr hcondition hbody =>
    exact delivers_loop fun position => .choose fun base =>
      (loops_while (h.value hcondition) (pushes_block h hbody)).turns
  | doWhile hr hbody hcondition =>
    exact delivers_loop fun position => .choose fun base =>
      (loops_doWhile (pushes_block h hbody) (h.value hcondition)).turns
  | rangeFor hr hfree hfirst hlast hstep hbody =>
    obtain ⟨scope', hturns⟩ := exists_turns_sequence h hbody
    exact delivers_loop fun position => .choose fun counter => .choose fun lastSlot =>
      .choose fun stepSlot => .choose fun base =>
        (loops_range hfree (h.value hfirst) (h.value hlast) (fun e he => h.value (hstep e he))
          hturns).turns
  | forEach hr hfree hiterable hbody =>
    obtain ⟨scope', hturns⟩ := exists_turns_sequence h hbody
    exact delivers_loop fun position => .choose fun base =>
      (loops_forEach (hfree "$iter" (by simp [hiddenNames])) (h.value hiterable) hturns).turns
  | breakLoop => exact leaves_break.delivers
  | continueLoop => exact leaves_continue.delivers
  | ret hr hvalue => exact (leaves_return fun e he => h.value (hvalue e he)).delivers

/-! ## Nodes -/

/-- A node goes as its kind does, and then as its position requires. -/
theorem Turns.ofKind {budget : Nat} {st : Standing} {position : Position}
    (h : Turns I b scope scope' (settledScheme p (nodeScheme p budget) e.kind position) n k f) :
    Turns I b scope scope' (nodeScheme p (budget + 1) st e position) n k f := by
  rintro pool c _ c' hc ⟨-, t, hcode, rfl⟩
  obtain ⟨news, hfresh, hscope, hshift, hrun⟩ := h hc hcode
  exact ⟨news, hfresh, hscope, hshift, fun _ _ _ _ _ hfits hnames hlen =>
    (hrun hfits hnames hlen).node e⟩

theorem turns_impossible : Turns I b scope scope' Scheme.impossible n k f :=
  fun _ _ _ _ _ hcode => hcode.elim

theorem evalExpr_eq (e : Expr) : evalExpr I rounds e = evalKind I rounds e.kind := by
  cases e
  rfl

theorem evalLast_of_plain {r : Region} (he : Plain r scope e) :
    evalLast I rounds e = evalKind I rounds e.kind := by
  cases he <;> rfl

/-- The nodes of a program without macros go as their evaluation does. -/
theorem simulates_nodeScheme (I : Interp V σ E) (rounds : Nat) (hmacros : ∀ value, ¬ IsMacro p value)
    (budget : Nat) : Simulates I rounds (nodeScheme p budget) := by
  induction budget with
  | zero =>
    refine ⟨fun {r scope e} _ => fun _ _ _ _ _ hcode => hcode.elim, fun {r scope e rest} hbody => ?_⟩
    cases hbody with
    | element _ hrest => exact ⟨_, hrest, turns_impossible, turns_impossible⟩
    | declare _ hrest => exact ⟨_, hrest, turns_impossible, turns_impossible⟩
  | succ budget ih =>
    refine ⟨fun {r scope e} he => ?_, fun {r scope e rest} hbody => ?_⟩
    · refine (Turns.ofKind (delivers_kind ih hmacros he).value).pushes ?_
      rw [evalExpr_eq]
    · cases hbody with
      | element he hrest =>
        have hkind := delivers_kind ih hmacros he
        refine ⟨scope, hrest, .ofKind hkind.effect, ?_⟩
        rw [evalLast_of_plain he]
        exact .ofKind hkind.value
      | declare hvalue hrest =>
        have hlet (name : String) := turns_let name fun e he => ih.value (hvalue e he)
        refine ⟨_, hrest, ?_, ?_⟩
        · refine .ofKind (((hlet _).append turns_skip).congr fun vs _ => ?_)
          simp [evalEffect]
        · refine .ofKind (((hlet _).append ((pushes_op (fun _ => rfl) rfl).turns 0)).congr
            fun vs _ => ?_)
          simp [evalLast, pushing]

end Strand.Machine
