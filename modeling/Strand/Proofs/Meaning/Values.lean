import Strand.Proofs.Meaning.Agreement

/-!
# The code of plain expressions

Scheme by scheme: the code turns the values on top of the stack into others, those that
an evaluation computes from them, and changes below them only the locals, as the
environment says. Where schemes are put together, so are the evaluations. The nodes
inside a node are taken to push their values already.
-/

namespace Strand.Machine

open Codegen
open Codegen.Scheme (op)

variable {V σ E : Type}

/-! ## Turning values into others -/

/-- What a piece of code has come to: some values above the locals. -/
structure Turned (b : Bool) (S : Setting V) (c : Scene) (scope : List String)
    (cells : List (Option V)) (k : Nat) (vs : List V) (env : Env V) (s : σ) (o : Outcome V σ E) :
    Prop where
  fits : Fits b S c cells env
  names : env.names = scope
  length : vs.length = k
  falls : o = .fall ⟨vs ++ fill cells env, S.accs, s⟩

/-- Where the names in `scope` are declared, the code of a scheme turns `n` values into `k`
values as `f` says, and it leaves new locals below them so that the names in `scope'` are
declared. The last value is the first in the list. Whether it may leave a loop is `b`. -/
def Turns (I : Interp V σ E) (b : Bool) (scope scope' : List String) (x : Scheme) (n k : Nat)
    (f : List V → Eval V σ E (List V)) : Prop :=
  ∀ ⦃pool c t c'⦄, Orderly scope c → x pool (c.setHeight (c.height + n)) t c' →
    ∃ news : List Var, Fresh c news ∧ news.map Var.name ++ scope = scope' ∧
      c' = (declaring c news).setHeight ((declaring c news).height + k) ∧
      ∀ ⦃S cells env s vs⦄, Fits b S c cells env → env.names = scope → vs.length = n →
        Follows I S pool t ⟨vs ++ fill cells env, S.accs, s⟩
          (Turned b S (declaring c news) scope' (opening news cells) k) (f vs (env, s))

/-- The value that a piece of code has pushed. -/
def Pushed (S : Setting V) (scope : List String) (cells : List (Option V)) (v : V) (env : Env V)
    (s : σ) (o : Outcome V σ E) : Prop :=
  env.names = scope ∧ o = .fall ⟨v :: fill cells env, S.accs, s⟩

/-- Where the names in `scope` are declared, the code of a scheme pushes the value of an
evaluation. -/
def Pushes (I : Interp V σ E) (b : Bool) (scope : List String) (x : Scheme) (m : Eval V σ E V) :
    Prop :=
  ∀ ⦃pool c t c'⦄, Orderly scope c → x pool c t c' →
    c' = c.setHeight (c.height + 1) ∧
      ∀ ⦃S cells env s⦄, Fits b S c cells env → env.names = scope →
        Follows I S pool t ⟨fill cells env, S.accs, s⟩ (Pushed S scope cells) (m (env, s))

/-- Push what is computed. -/
def pushing (m : Eval V σ E V) (vs : List V) : Eval V σ E (List V) := (· :: vs) <$> m

section

variable {I : Interp V σ E} {b : Bool} {scope scope1 scope2 : List String} {x y : Scheme}
  {n k j : Nat} {f g : List V → Eval V σ E (List V)} {m : Eval V σ E V}

namespace Turns

theorem congr (h : Turns I b scope scope1 x n k f) (hfg : ∀ vs, vs.length = n → f vs = g vs) :
    Turns I b scope scope1 x n k g := by
  intro pool c t c' hc hx
  obtain ⟨news, hfresh, hscope, hshift, hrun⟩ := h hc hx
  refine ⟨news, hfresh, hscope, hshift, fun S cells env s vs hfits hnames hlen => ?_⟩
  rw [← hfg _ hlen]
  exact hrun hfits hnames hlen

theorem append (hx : Turns I b scope scope1 x n k f) (hy : Turns I b scope1 scope2 y k j g) :
    Turns I b scope scope2 (x ++ y) n j (fun vs => f vs >>= g) := by
  rintro pool c _ c' hc ⟨t1, c1, t2, h1, h2, rfl⟩
  obtain ⟨news, hfresh, hscope, rfl, hrun⟩ := hx hc h1
  subst hscope
  obtain ⟨news', hfresh', rfl, rfl, hrun'⟩ := hy (hc.declaring hfresh) h2
  refine ⟨news' ++ news, ?_, ?_, ?_, fun S cells env s vs hfits hnames hlen => ?_⟩
  · intro l hl
    exact (List.mem_append.mp hl).elim (hfresh' l) (hfresh l)
  · rw [List.map_append, List.append_assoc]
  · rw [declaring_append]
  · rw [declaring_append, opening_append]
    refine (hrun hfits hnames hlen).bind fun ws env' s' o hq => ?_
    cases hq.falls
    exact .on (hrun' hq.fits hq.names hq.length)

end Turns

theorem Pushes.turns (h : Pushes I b scope x m) (n : Nat) :
    Turns I b scope scope x n (n + 1) (pushing m) := by
  intro pool c t c' hc hx
  obtain ⟨rfl, hrun⟩ := h (hc.setHeight (c.height + n)) hx
  refine ⟨[], fresh_nil c, rfl, rfl, fun S cells env s vs hfits hnames hlen => ?_⟩
  have hpush := hfits.push vs
  rw [hlen] at hpush
  have hfollows := hrun (s := s) hpush hnames
  rw [fill_append] at hfollows
  rw [pushing, follows_map]
  refine hfollows.imp fun v env' s' o hq => ?_
  obtain ⟨hnames', rfl⟩ := hq
  exact ⟨hfits.congr (hnames'.trans hnames.symm), hnames', by rw [List.length_cons, hlen],
    by rw [fill_append]; rfl⟩

theorem Turns.pushes (h : Turns I b scope scope x 0 1 f) (hf : f [] = pushing m []) :
    Pushes I b scope x m := by
  intro pool c t c' hc hx
  obtain ⟨news, -, hscope, rfl, hrun⟩ := h hc hx
  obtain rfl : news = [] := List.map_eq_nil_iff.mp (List.append_left_eq_self.mp hscope)
  refine ⟨rfl, fun S cells env s hfits hnames => ?_⟩
  have hfollows := hrun (s := s) hfits hnames List.length_nil
  rw [hf, pushing, follows_map] at hfollows
  exact hfollows.imp fun v env' s' o hq => ⟨hq.names, hq.falls⟩

end

/-! ## Instructions -/

section

variable {I : Interp V σ E} {b : Bool} {scope : List String} {pool : List Constant} {i : Instr}
  {o : Operation} {n k : Nat}

/-- What the interpretation computes goes with a failing or a passing instruction. -/
theorem follows_ofResult {S : Setting V} {α : Type} {t : Tree} {w : World V σ}
    {x : Except E (α × σ)} (next : α × σ → Outcome V σ E) (env : Env V)
    (hfail : ∀ e, x = .error e → Runs I pool t w (.stop (.error e)))
    (hrun : ∀ r, x = .ok r → Runs I pool t w (next r)) :
    Follows I S pool t w (fun a env' s' o => env' = env ∧ o = next (a, s'))
      (some (ofResult env x)) := by
  cases x with
  | error e => exact .exits (hfail e rfl) .fail
  | ok r => exact .gives (hrun r rfl) ⟨rfl, rfl⟩

/-- An instruction that computes a value goes as the operation does. -/
theorem follows_operation (hop : operation? pool i = some (o, n)) (vs : List V)
    (hlen : vs.length = n) (S : Setting V) (rest : List V) (env : Env V) (s : σ) :
    Follows I S pool (.op i) ⟨vs ++ rest, S.accs, s⟩
      (fun v env' s' x => env' = env ∧ x = .fall ⟨v :: rest, S.accs, s'⟩)
      (compute I o vs.reverse (env, s)) := by
  have hperform : perform I pool i ⟨vs ++ rest, S.accs, s⟩ =
      some ((I.apply o vs.reverse s).map fun r => ⟨r.1 :: rest, S.accs, r.2⟩) := by
    have hle : n ≤ (vs ++ rest).length := by
      rw [List.length_append]
      omega
    rw [perform_operation I pool _ _ _ hop hle, operate, List.take_left' hlen, List.drop_left' hlen]
  refine follows_ofResult (fun r => .fall ⟨r.1 :: rest, S.accs, r.2⟩) env (fun e he => ?_)
    (fun r hr => ?_)
  · rw [he] at hperform
    exact .fail hperform
  · rw [hr] at hperform
    exact .op hperform

theorem emit_setHeight (c : Scene) (h : Nat) (i : Instr) :
    (c.setHeight h).emit i = c.setHeight ((h : Int) + i.stackEffect).toNat := rfl

theorem turns_op (hop : ∀ pool, operation? pool i = some (o, n))
    (heffect : i.stackEffect = 1 - (n : Int)) :
    Turns I b scope scope (op i) n 1 (fun vs => pushing (compute I o vs.reverse) []) := by
  rintro pool c _ _ - ⟨rfl, rfl⟩
  refine ⟨[], fresh_nil c, rfl, ?_, fun S cells env s vs hfits hnames hlen => ?_⟩
  · rw [emit_setHeight, heffect]
    have hheight : ((c.height + n : Nat) + (1 - n : Int)).toNat = c.height + 1 := by omega
    rw [hheight]
    rfl
  · refine follows_map.mpr ?_
    refine (follows_operation (hop pool) vs hlen S _ env s).imp fun v env' s' o hq => ?_
    obtain ⟨rfl, rfl⟩ := hq
    exact ⟨hfits, hnames, rfl, rfl⟩

/-- An instruction that computes a value from nothing. -/
theorem pushes_op (hop : ∀ pool, operation? pool i = some (o, 0)) (heffect : i.stackEffect = 1) :
    Pushes I b scope (op i) (compute I o []) :=
  (turns_op hop heffect).pushes rfl

theorem turns_counted {mk : UInt16 → Instr} {count : Nat}
    (hop : ∀ i pool, i.toNat = count → operation? pool (mk i) = some (o, n))
    (heffect : ∀ i, i.toNat = count → (mk i).stackEffect = 1 - (n : Int)) :
    Turns I b scope scope (Scheme.counted mk count) n 1
      (fun vs => pushing (compute I o vs.reverse) []) := by
  rintro pool c _ c' hc ⟨_, _, t, ⟨rfl, rfl, hcount⟩, hop', rfl⟩
  have hi : (UInt16.ofNat count).toNat = count := UInt16.toNat_ofNat_of_lt hcount
  have hturns : Turns I b scope scope (op (mk (.ofNat count))) n 1 _ :=
    turns_op (fun pool => hop _ pool hi) (heffect _ hi)
  obtain ⟨news, hfresh, hscope, hshift, hrun⟩ := hturns hc hop'
  exact ⟨news, hfresh, hscope, hshift, fun _ _ _ _ _ hfits hnames hlen =>
    (hrun hfits hnames hlen).before .nil⟩

theorem pushes_constant (k : Constant) :
    Pushes I b scope (Scheme.constant k) (compute I (.constant k) []) := by
  rintro pool c _ c' - ⟨i, _, _, _, ⟨rfl, rfl, hk⟩, ⟨rfl, rfl⟩, rfl⟩
  refine ⟨rfl, fun S cells env s hfits hnames => ?_⟩
  have hop : operation? pool (.constant i) = some (.constant k, 0) := by
    have hpool : operation? pool (.constant i) = pool[i.toNat]?.map fun k => (.constant k, 0) := rfl
    rw [hpool, hk]
    rfl
  have hrun := follows_operation (I := I) hop [] List.length_nil S (fill cells env) env s
  refine (hrun.imp fun v env' s' o hq => ?_).before .nil
  obtain ⟨rfl, rfl⟩ := hq
  exact ⟨hnames, rfl⟩

end

/-! ## Several values -/

/-- Push what is computed, one after the other. -/
def spreading (m : Eval V σ E (List V)) (vs : List V) : Eval V σ E (List V) :=
  (fun ws => ws.reverse ++ vs) <$> m

section

variable {I : Interp V σ E} {b : Bool} {scope : List String} {x y : Scheme} {o : Operation} {n : Nat}
  {l r m : Eval V σ E V}

theorem turns_skip : Turns I b scope scope Scheme.skip n n pure := by
  rintro pool c _ _ - ⟨rfl, rfl⟩
  exact ⟨[], fresh_nil c, rfl, rfl, fun _ _ _ _ _ hfits hnames hlen =>
    .gives .nil ⟨hfits, hnames, hlen, rfl⟩⟩

theorem Pushes.single (h : Pushes I b scope x m) (n : Nat) :
    Turns I b scope scope x n (n + 1) (spreading ((fun v => [v]) <$> m)) :=
  (h.turns n).congr fun vs _ => by simp [pushing, spreading]

theorem Pushes.pair (hx : Pushes I b scope x l) (hy : Pushes I b scope y r) (n : Nat) :
    Turns I b scope scope (x ++ y) n (n + 2)
      (spreading do
        let v ← l
        let w ← r
        pure [v, w]) :=
  ((hx.turns n).append (hy.turns (n + 1))).congr fun vs _ => by
    simp [pushing, spreading]

/-- What each item of a list pushes, from the first one to the last. -/
theorem turns_each {α : Type} {x : α → Scheme} {width : Nat} {m : α → Eval V σ E (List V)}
    {f : List α → Eval V σ E (List V)} (hnil : f [] = pure [])
    (hcons : ∀ a rest, f (a :: rest) = do
      let vs ← m a
      let ws ← f rest
      pure (vs ++ ws))
    {items : List α} (h : ∀ a ∈ items, ∀ n, Turns I b scope scope (x a) n (n + width) (spreading (m a)))
    (n : Nat) :
    Turns I b scope scope (Scheme.each x items) n (n + width * items.length) (spreading (f items)) := by
  induction items generalizing n with
  | nil => exact turns_skip.congr fun vs _ => by simp [spreading, hnil]
  | cons a rest ih =>
    have hrest := ih (fun b hb => h b (.tail _ hb)) (n + width)
    have hturns := (h a List.mem_cons_self n).append hrest
    rw [List.length_cons, Nat.mul_succ, Nat.add_comm (width * _), ← Nat.add_assoc]
    exact hturns.congr fun vs _ => by simp [spreading, hcons]

/-- Values that are pushed and then taken by an operation. -/
theorem Turns.operation {m : Eval V σ E (List V)} (hx : Turns I b scope scope x 0 n (spreading m))
    (hy : Turns I b scope scope y n 1 (fun vs => pushing (compute I o vs.reverse) [])) :
    Pushes I b scope (x ++ y) (m >>= compute I o) :=
  (hx.append hy).pushes (by simp [spreading, pushing])

end

section

variable {I : Interp V σ E} {rounds : Nat} {b : Bool} {scope : List String} {node : NodeScheme}

theorem turns_items {items : List Expr}
    (h : ∀ e ∈ items, Pushes I b scope (node.value e) (evalExpr I rounds e)) :
    Turns I b scope scope (valuesScheme node items) 0 items.length (spreading (evalItems I rounds items)) := by
  have heach := turns_each (f := evalItems I rounds) rfl (fun e rest => by
    simp [evalItems]) (fun e he n => (h e he).single n) 0
  rwa [Nat.zero_add, Nat.one_mul] at heach

theorem pushes_textPart {part : TextPart}
    (h : ∀ e, part = .expr e → Pushes I b scope (node.value e) (evalExpr I rounds e)) :
    Pushes I b scope (textPartScheme node part) (evalPart I rounds part) := by
  cases part with
  | literal text => exact pushes_constant _
  | expr e => exact h e rfl

theorem turns_parts {parts : List TextPart}
    (h : ∀ e, .expr e ∈ parts → Pushes I b scope (node.value e) (evalExpr I rounds e)) :
    Turns I b scope scope (Scheme.each (textPartScheme node) parts) 0 parts.length
      (spreading (evalParts I rounds parts)) := by
  have hpart (part : TextPart) (hmem : part ∈ parts) :
      Pushes I b scope (textPartScheme node part) (evalPart I rounds part) :=
    pushes_textPart fun e he => h e (he ▸ hmem)
  have heach := turns_each (f := evalParts I rounds) rfl (fun part rest => by
    simp [evalParts]) (fun part hmem n => (hpart part hmem).single n) 0
  rwa [Nat.zero_add, Nat.one_mul] at heach

theorem turns_pairs {pairs : List (Expr × Expr)}
    (hkeys : ∀ e ∈ pairs, Pushes I b scope (node.value e.1) (evalExpr I rounds e.1))
    (hvalues : ∀ e ∈ pairs, Pushes I b scope (node.value e.2) (evalExpr I rounds e.2)) :
    Turns I b scope scope (Scheme.each (pairScheme node) pairs) 0 (2 * pairs.length)
      (spreading (evalPairs I rounds pairs)) := by
  have heach := turns_each (x := pairScheme node) (f := evalPairs I rounds) rfl (fun e rest => by
    simp [evalPairs]) (fun e he n => (hkeys e he).pair (hvalues e he) n) 0
  rwa [Nat.zero_add] at heach

end

/-! ## Names -/

section

variable {I : Interp V σ E} {b : Bool} {scope : List String} {p : Program} {node : NodeScheme}
  {name : String}

/-- A local is read from its slot. -/
theorem pushes_variable (hmacros : ∀ value, ¬ IsMacro p value) (hname : name ≠ "")
    (hmem : name ∈ scope) : Pushes I b scope (variableScheme p node name) (readName name) := by
  rintro pool c t c' hc ⟨x, hx, hcode⟩
  have hbound := hc.findLocal?_ne_none hmem hname
  simp only [List.mem_cons, List.not_mem_nil, or_false] at hx
  rcases hx with rfl | rfl | rfl | rfl | rfl
  · obtain ⟨value, _, _, _, ⟨-, -, hvalue⟩, -⟩ := hcode
    exact absurd hvalue.isMacro (hmacros value)
  · obtain ⟨l, _, _, _, ⟨rfl, rfl, hfound⟩, ⟨rfl, rfl⟩, rfl⟩ := hcode
    refine ⟨rfl, fun S cells env s hfits hnames => ?_⟩
    obtain ⟨v, l', hlookup, hfind, -, hslot⟩ := hfits.placed.read rfl (hnames ▸ hmem)
    rw [findLocal?_eq _ hname, hfind] at hfound
    cases hfound
    have hread : readName (σ := σ) (E := E) name (env, s) = some (.ok (v, env, s)) := by
      rw [readName, hlookup]
      rfl
    rw [hread]
    refine .gives (.seq .nil (.op ?_)) ⟨hnames, rfl⟩
    rw [perform_getLocal, hslot]
    rfl
  · obtain ⟨_, _, _, _, ⟨-, -, hunfound⟩, -⟩ := hcode
    exact absurd hunfound hbound
  · obtain ⟨_, _, _, _, ⟨_, _, _, ⟨-, -, hunfound⟩, -⟩, -⟩ := hcode
    exact absurd hunfound hbound
  · obtain ⟨_, _, _, _, ⟨_, _, _, ⟨_, _, _, ⟨-, -, hunfound⟩, -⟩, -⟩, -⟩ := hcode
    exact absurd hunfound hbound

/-- A local is assigned by way of its slot, and the value stays on the stack. -/
theorem pushes_assign {isWeak : Bool} {value : Expr} (hname : name ≠ "") (hmem : name ∈ scope)
    {m : Eval V σ E V} (hvalue : Pushes I b scope (node.value value) m) :
    Pushes I b scope (assignNameScheme p node isWeak name value) (do
      let v ← m
      assignName name v
      pure v) := by
  rintro pool c t c' hc ⟨x, hx, hcode⟩
  -- a name in scope is found as a local, which rules out the other three forms
  have hbound := hc.findLocal?_ne_none hmem hname
  simp only [List.mem_cons, List.not_mem_nil, or_false] at hx
  rcases hx with rfl | rfl | rfl | rfl
  · obtain ⟨l, _, _, _, ⟨_, _, t, ⟨rfl, rfl, hfound⟩, hcode, rfl⟩, ⟨rfl, rfl⟩, rfl⟩ := hcode
    obtain ⟨rfl, hrun⟩ := hvalue hc hcode
    refine ⟨rfl, fun S cells env s hfits hnames => ?_⟩
    refine ((hrun hfits hnames).before .nil).bind fun v env' s' o hq => ?_
    obtain ⟨hnames', rfl⟩ := hq
    have hfits' := hfits.congr (hnames'.trans hnames.symm)
    obtain ⟨l', hfind, hlt, hset⟩ := hfits'.placed.write rfl (hnames' ▸ hmem) v
    rw [findLocal?_eq _ hname, hfind] at hfound
    cases hfound
    have hassign : (assignName (E := E) name v >>= fun _ => pure v) (env', s') =
        some (.ok (v, env'.assign name v, s')) := by
      rw [bind_of_ok (m := assignName name v) (if_pos (hnames' ▸ hmem))]
      rfl
    have hne := hfits'.placed.slot_ne rfl hlt
    rw [hassign]
    refine .on (.gives (.op ?_) ⟨(env'.names_assign name v).trans hnames', rfl⟩)
    rw [perform_setLocal, setSlot?, if_neg hne, hset]
    rfl
  · obtain ⟨_, _, _, _, ⟨_, _, _, ⟨-, -, hunfound⟩, -⟩, -⟩ := hcode
    exact absurd hunfound hbound
  · obtain ⟨_, _, _, _, ⟨_, _, _, ⟨_, _, _, ⟨-, -, hunfound⟩, -⟩, -⟩, -⟩ := hcode
    exact absurd hunfound hbound
  · obtain ⟨_, _, _, _, ⟨_, _, _, ⟨_, _, _, ⟨-, -, hunfound⟩, -⟩, -⟩, -⟩ := hcode
    exact absurd hunfound hbound

end

end Strand.Machine
