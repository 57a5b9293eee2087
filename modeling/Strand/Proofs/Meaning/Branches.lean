import Strand.Proofs.Meaning.Values

/-!
# The code of choices

A choice is made by a conditional jump, which leaves the tested value on the stack. Where
it is made, code and evaluation part: one way leads on, the other to a label. In the end
both ways meet, at the same height of the stack, and so the code as a whole pushes one
value.
-/

namespace Strand.Machine

open Codegen
open Codegen.Scheme (op jump block atHeight heightIs)

variable {V σ E α : Type} {I : Interp V σ E} {b : Bool} {S : Setting V} {scope : List String}
  {pool : List Constant} {cells : List (Option V)} {t : Tree} {k : JumpKind} {jumps : Bool → Bool}
  {s : Env V × σ} {m' : Eval V σ E V} {yes no : Eval V σ E α}

/-- A value has been pushed, and control is at the end of the code or at `done`. -/
def Settled (S : Setting V) (scope : List String) (cells : List (Option V)) (v : V) (env : Env V)
    (s : σ) (o : Outcome V σ E) : Prop :=
  env.names = scope ∧ (o = .fall ⟨v :: fill cells env, S.accs, s⟩ ∨
    o = .goto .done ⟨v :: fill cells env, S.accs, s⟩)

section

variable {t : Tree} {w : World V σ} {r : Option (Except (Exit V σ E) (V × Env V × σ))}

theorem Follows.settled (h : Follows I S pool t w (Pushed S scope cells) r) :
    Follows I S pool t w (Settled S scope cells) r :=
  h.imp fun _ _ _ _ hq => ⟨hq.1, .inl hq.2⟩

/-- Where the label is closed, both ways have met. -/
theorem Follows.meet (h : Follows I S pool t w (Settled S scope cells) r) :
    Follows I S pool (.block .done t) w (Pushed S scope cells) r := by
  refine (h.block rfl).imp fun v env s o hq => ?_
  obtain ⟨_, ⟨hnames, rfl | rfl⟩, rfl⟩ := hq
  · exact ⟨hnames, rfl⟩
  · exact ⟨hnames, rfl⟩

/-- How a conditional jump goes by the truth of the tested value. -/
def JumpsOn (I : Interp V σ E) (k : JumpKind) (jumps : Bool → Bool) : Prop :=
  ∀ d v stack accs s, branch? I ⟨v :: stack, accs, s⟩ (k.instr d) =
    some (.ok (jumps (I.truthy s v), ⟨v :: stack, accs, s⟩))

/-- After a test the value is there only where it was jumped to. -/
theorem Follows.test (hk : JumpsOn I k jumps) (l : Label)
    (h : Follows I S pool t w (Pushed S scope cells) r) :
    Follows I S pool (.seq (.seq t (.jump k l)) (.op .pop)) w
      (fun v env s o => env.names = scope ∧
        o = if jumps (I.truthy s v) then .goto l ⟨v :: fill cells env, S.accs, s⟩
          else .fall ⟨fill cells env, S.accs, s⟩)
      r := by
  cases h with
  | undefined => exact .undefined
  | exits h hx => exact .exits ((h.skip hx).skip hx) hx
  | @gives v env s o h hq =>
    obtain ⟨hnames, rfl⟩ := hq
    cases hjumps : jumps (I.truthy s v) with
    | true =>
      have hrun : Runs I pool (.jump k l) ⟨v :: fill cells env, S.accs, s⟩ (.goto l _) :=
        .jump fun d => by rw [hk, hjumps]
      exact .gives (.leave (.seq h hrun)) ⟨hnames, by rw [hjumps]; rfl⟩
    | false =>
      have hrun : Runs I pool (.jump k l) ⟨v :: fill cells env, S.accs, s⟩ (.fall _) :=
        .pass fun d => by rw [hk, hjumps]
      exact .gives (.seq (.seq h hrun) (.op rfl)) ⟨hnames, by rw [hjumps]; rfl⟩

end

theorem jumpsOn_ifFalse (I : Interp V σ E) : JumpsOn I .ifFalse not := fun _ _ _ _ _ => rfl

theorem jumpsOn_ifTrue (I : Interp V σ E) : JumpsOn I .ifTrue id := fun _ _ _ _ _ => rfl

theorem emit_test (c : Scene) {i : Instr} (hi : i.stackEffect = 0) :
    ((c.setHeight (c.height + 1)).emit i).emit .pop = c := by
  have hheight : ((((c.height + 1 : Nat) : Int) + 0).toNat + (-1 : Int)).toNat = c.height := by omega
  rw [emit_setHeight, hi, emit_setHeight]
  exact congrArg c.setHeight hheight

theorem select_of_true {v : V} (h : I.truthy s.2 v = true) : select I v yes no s = yes s :=
  if_pos h

theorem select_of_false {v : V} (h : I.truthy s.2 v = false) : select I v yes no s = no s :=
  if_neg (by rw [h]; exact Bool.false_ne_true)

/-! ## Operators that do not always need their right operand -/

section

variable {x y : Scheme} {l r : Eval V σ E V}

theorem pushes_shortCircuit (hk : JumpsOn I k jumps)
    (heffect : (k.instr Instr.unpatched).stackEffect = 0) {f : V → Eval V σ E V}
    (hstay : ∀ v s, jumps (I.truthy s.2 v) = true → f v s = some (.ok (v, s)))
    (hgo : ∀ v s, jumps (I.truthy s.2 v) = false → f v s = r s)
    (hx : Pushes I b scope x l) (hy : Pushes I b scope y r) :
    Pushes I b scope (block .done (x ++ jump k .done ++ op .pop ++ y)) (l >>= f) := by
  rintro pool c _ c' hc ⟨_, ⟨_, _, t2, ⟨_, _, _, ⟨t1, c1, _, h1, ⟨rfl, rfl⟩, rfl⟩, ⟨rfl, rfl⟩, rfl⟩,
    h2, rfl⟩, rfl⟩
  obtain ⟨rfl, hrun1⟩ := hx hc h1
  rw [emit_test c heffect] at h2
  obtain ⟨rfl, hrun2⟩ := hy hc h2
  refine ⟨rfl, fun S cells env s hfits hnames => .meet ?_⟩
  refine ((hrun1 hfits hnames).test hk .done).bind fun v env' s' o hq => ?_
  obtain ⟨hnames', rfl⟩ := hq
  cases hjumps : jumps (I.truthy s' v) with
  | true =>
    rw [hstay v (env', s') hjumps]
    exact .out ⟨hnames', .inr rfl⟩
  | false =>
    rw [hgo v (env', s') hjumps]
    exact .on (hrun2 (hfits.congr (hnames'.trans hnames.symm)) hnames').settled

variable {node : NodeScheme} {left right : Expr}

theorem pushes_and (hx : Pushes I b scope (node.value left) l)
    (hy : Pushes I b scope (node.value right) r) :
    Pushes I b scope (logicalScheme node left .and right) (l >>= fun v => select I v r (pure v)) :=
  pushes_shortCircuit (jumpsOn_ifFalse I) rfl
    (fun _ _ h => select_of_false (by simpa using h))
    (fun _ _ h => select_of_true (by simpa using h)) hx hy

theorem pushes_or (hx : Pushes I b scope (node.value left) l)
    (hy : Pushes I b scope (node.value right) r) :
    Pushes I b scope (logicalScheme node left .or right) (l >>= fun v => select I v (pure v) r) :=
  pushes_shortCircuit (jumpsOn_ifTrue I) rfl
    (fun _ _ h => select_of_true h) (fun _ _ h => select_of_false h) hx hy

end

/-! ## Branches -/

section

variable {x y : Scheme} {l m : Eval V σ E V}

theorem select_bind {β : Type} (v : V) (yes no : Eval V σ E α) (f : α → Eval V σ E β) :
    select I v yes no >>= f = select I v (yes >>= f) (no >>= f) := by
  funext s
  simp only [bind, StateT.bind, select]
  split
  · rfl
  · rfl

/-- A condition has been tested: where it holds there is a value, and where it does not
the tested one is still there. -/
inductive Parted (yes no : World V σ → Outcome V σ E) (S : Setting V) (scope : List String)
    (cells : List (Option V)) : Option V → Env V → σ → Outcome V σ E → Prop where
  | holds {env : Env V} {s : σ} (hnames : env.names = scope) (v : V) :
      Parted yes no S scope cells (some v) env s (yes ⟨v :: fill cells env, S.accs, s⟩)
  | fails {env : Env V} {s : σ} (hnames : env.names = scope) (u : V) :
      Parted yes no S scope cells none env s (no ⟨u :: fill cells env, S.accs, s⟩)

/-- What a branch has come to: at `done` with the value of its body, or, if its condition
does not hold, at its end and with nothing. -/
inductive Branched (S : Setting V) (scope : List String) (cells : List (Option V)) :
    Option V → Env V → σ → Outcome V σ E → Prop where
  | taken {env : Env V} {s : σ} (hnames : env.names = scope) (v : V) :
      Branched S scope cells (some v) env s (.goto .done ⟨v :: fill cells env, S.accs, s⟩)
  | passed {env : Env V} {s : σ} (hnames : env.names = scope) :
      Branched S scope cells none env s (.fall ⟨fill cells env, S.accs, s⟩)

/-- A condition, what is done where it holds, and the way to `done`. -/
def guardedScheme (base : Nat) (condition body : Scheme) : Scheme :=
  block .skip (condition ++ jump .ifFalse .skip ++ op .pop ++ body ++ jump .always .done) ++
    atHeight (base + 1) ++ op .pop

/-- The body is run if the condition holds, and nothing is left on the stack if not. -/
theorem branches_guarded (hx : Pushes I b scope x l) (hy : Pushes I b scope y m) {c c' : Scene}
    (hc : Orderly scope c) (hcode : guardedScheme c.height x y pool c t c') :
    c' = c ∧ ∀ ⦃S cells env s⦄, Fits b S c cells env → env.names = scope →
      Follows I S pool t ⟨fill cells env, S.accs, s⟩ (Branched S scope cells)
        ((l >>= fun v => select I v (some <$> m) (pure none)) (env, s)) := by
  obtain ⟨_, _, _, ⟨_, _, _, ⟨_, ⟨_, _, _, ⟨_, _, t2, ⟨_, _, _, ⟨t1, c1, _, h1, ⟨rfl, rfl⟩, rfl⟩,
    ⟨rfl, rfl⟩, rfl⟩, h2, rfl⟩, ⟨rfl, rfl⟩, rfl⟩, rfl⟩, ⟨rfl, rfl⟩, rfl⟩, ⟨rfl, rfl⟩, rfl⟩ := hcode
  obtain ⟨rfl, hrun1⟩ := hx hc h1
  rw [emit_test c rfl] at h2
  obtain ⟨rfl, hrun2⟩ := hy hc h2
  refine ⟨emit_test c (i := .jump 0) rfl, fun S cells env s hfits hnames => ?_⟩
  -- the code is followed from the inside out: the test and the body, the jump to the end, the block
  -- that a failed test leaves, and the pop behind it
  have hbody : Follows I S pool (.seq (.seq (.seq t1 (.jump .ifFalse .skip)) (.op .pop)) t2)
      ⟨fill cells env, S.accs, s⟩ (Parted .fall (.goto .skip) S scope cells)
      ((l >>= fun v => select I v (some <$> m) (pure none)) (env, s)) := by
    refine ((hrun1 hfits hnames).test (jumpsOn_ifFalse I) .skip).bind fun v env' s' o hq => ?_
    obtain ⟨hnames', rfl⟩ := hq
    cases htruthy : I.truthy s' v with
    | true =>
      rw [select_of_true (s := (env', s')) htruthy]
      have hfits' := hfits.congr (hnames'.trans hnames.symm)
      refine .on (follows_map.mpr ((hrun2 hfits' hnames').imp fun v env s o hq => ?_))
      obtain ⟨hnames, rfl⟩ := hq
      exact .holds hnames v
    | false =>
      rw [select_of_false (s := (env', s')) htruthy]
      exact .out (.fails hnames' v)
  have hdone : Follows I S pool (.seq _ (.jump .always .done)) ⟨fill cells env, S.accs, s⟩
      (Parted (.goto .done) (.goto .skip) S scope cells)
      ((l >>= fun v => select I v (some <$> m) (pure none)) (env, s)) :=
    hbody.after fun v env s o hq => by
      cases hq with
      | holds hnames v => exact .on (.gives (.jump fun _ => rfl) (.holds hnames v))
      | fails hnames u => exact .out (.fails hnames u)
  have hended : Follows I S pool _ ⟨fill cells env, S.accs, s⟩ (Parted (.goto .done) .fall S scope cells)
      ((l >>= fun v => select I v (some <$> m) (pure none)) (env, s)) :=
    (hdone.block (l := .skip) rfl).imp fun v env s o hq => by
      obtain ⟨_, hq, rfl⟩ := hq
      cases hq with
      | holds hnames v => exact .holds hnames v
      | fails hnames u => exact .fails hnames u
  have hpop : Follows I S pool (.seq _ (.seq .nil (.op .pop))) ⟨fill cells env, S.accs, s⟩
      (Branched S scope cells) ((l >>= fun v => select I v (some <$> m) (pure none)) (env, s)) :=
    hended.after fun v env s o hq => by
      cases hq with
      | holds hnames v => exact .out (.taken hnames v)
      | fails hnames u => exact .on (.gives (.seq .nil (.op rfl)) (.passed hnames))
  exact hpop.assoc

/-- What follows a branch is run where its condition does not hold. -/
theorem Follows.orElse {t' : Tree} {w : World V σ}
    (h : Follows I S pool t w (Branched S scope cells)
      ((l >>= fun v => select I v (some <$> m) (pure none)) s))
    (hrest : ∀ env s', env.names = scope →
      Follows I S pool t' ⟨fill cells env, S.accs, s'⟩ (Settled S scope cells) (m' (env, s'))) :
    Follows I S pool (.seq t t') w (Settled S scope cells) ((l >>= fun v => select I v m m') s) := by
  have heval : (l >>= fun v => select I v m m') =
      (l >>= fun v => select I v (some <$> m) (pure none)) >>= fun v => v.elim m' pure := by
    rw [bind_assoc]
    refine congrArg (l >>= ·) (funext fun v => ?_)
    rw [select_bind]
    simp
  rw [heval]
  refine h.bind fun v env s' o hq => ?_
  cases hq with
  | taken hnames v => exact .out ⟨hnames, .inr rfl⟩
  | passed hnames => exact .on (hrest env s' hnames)

end

section

variable {rounds : Nat} {node : NodeScheme} {branches : List Branch}

theorem pushes_ternary {condition thenValue elseValue : Expr} {l m : Eval V σ E V}
    (hcondition : Pushes I b scope (node.value condition) l)
    (hthen : Pushes I b scope (node.value thenValue) m)
    (helse : Pushes I b scope (node.value elseValue) m') :
    Pushes I b scope (ternaryScheme node condition thenValue elseValue)
      (l >>= fun v => select I v m m') := by
  rintro pool c _ c' hc ⟨base, _, _, _, ⟨_, ⟨t1, c1, t2, h1, h2, rfl⟩, rfl⟩, ⟨rfl, rfl⟩, rfl⟩
  obtain rfl : c.height = base := by
    obtain ⟨_, _, _, ⟨_, _, _, ⟨_, ⟨_, _, _, ⟨_, _, _, ⟨_, _, _, ⟨_, _, _, ⟨_, _, _,
      ⟨-, -, hbase⟩, -⟩, -⟩, -⟩, -⟩, -⟩, -⟩, -⟩, -⟩ := h1
    exact hbase
  have hcondition' : Pushes I b scope (heightIs c.height ++ node.value condition) l := by
    rintro pool c _ c' hc ⟨_, _, _, ⟨rfl, rfl, -⟩, hcode, rfl⟩
    obtain ⟨rfl, hrun⟩ := hcondition hc hcode
    exact ⟨rfl, fun _ _ _ _ hfits hnames => (hrun hfits hnames).before .nil⟩
  obtain ⟨rfl, hrun1⟩ := branches_guarded hcondition' hthen hc h1
  obtain ⟨rfl, hrun2⟩ := helse hc h2
  refine ⟨rfl, fun S cells env s hfits hnames => ?_⟩
  have hmeet := Follows.meet <| (hrun1 (s := s) hfits hnames).orElse fun env' s' hnames' =>
    (hrun2 (s := s') (hfits.congr (hnames'.trans hnames.symm)) hnames').settled
  refine hmeet.after fun v env s o hq => ?_
  obtain ⟨hnames, rfl⟩ := hq
  exact .on (.gives .nil ⟨hnames, rfl⟩)

/-- The first branch whose condition holds is taken. -/
theorem follows_branches (hconditions : ∀ a ∈ branches,
      Pushes I b scope (node.value a.condition) (evalExpr I rounds a.condition))
    (hbodies : ∀ a ∈ branches,
      Pushes I b scope (blockScheme node a.body) (inBlock (evalBody I rounds a.body)))
    {c c' : Scene} (hc : Orderly scope c)
    (hcode : Scheme.each (branchScheme node c.height) branches pool c t c') :
    c' = c ∧ ∀ ⦃S cells env s t' m⦄, Fits b S c cells env → env.names = scope →
      (∀ env' s', env'.names = scope →
        Follows I S pool t' ⟨fill cells env', S.accs, s'⟩ (Settled S scope cells) (m (env', s'))) →
      Follows I S pool (.seq t t') ⟨fill cells env, S.accs, s⟩ (Settled S scope cells)
        (evalBranches I rounds branches m (env, s)) := by
  induction branches generalizing t with
  | nil =>
    obtain ⟨rfl, rfl⟩ := hcode
    exact ⟨rfl, fun S cells env s t' m _ hnames hrest => (hrest env s hnames).before .nil⟩
  | cons b rest ih =>
    obtain ⟨condition, body⟩ := b
    obtain ⟨t1, c1, t2, h1, h2, rfl⟩ := hcode
    obtain ⟨rfl, hrun1⟩ := branches_guarded (hconditions _ List.mem_cons_self)
      (hbodies _ List.mem_cons_self) hc h1
    obtain ⟨rfl, hrun2⟩ := ih (fun b hb => hconditions b (.tail _ hb))
      (fun b hb => hbodies b (.tail _ hb)) h2
    refine ⟨rfl, fun S cells env s t' m hfits hnames hrest => .assoc ?_⟩
    exact (hrun1 hfits hnames).orElse fun env' s' hnames' =>
      hrun2 (hfits.congr (hnames'.trans hnames.symm)) hnames' hrest

theorem pushes_if {otherwise : Option (List Expr)} (hconditions : ∀ a ∈ branches,
      Pushes I b scope (node.value a.condition) (evalExpr I rounds a.condition))
    (hbodies : ∀ a ∈ branches,
      Pushes I b scope (blockScheme node a.body) (inBlock (evalBody I rounds a.body)))
    (helse : Pushes I b scope (otherwiseScheme node otherwise) (evalOtherwise I rounds otherwise)) :
    Pushes I b scope (ifScheme node branches otherwise)
      (evalBranches I rounds branches (evalOtherwise I rounds otherwise)) := by
  rintro pool c _ c' hc ⟨base, _, _, _, ⟨_, ⟨_, c1, t2, ⟨_, _, t1, ⟨rfl, rfl, rfl⟩, h1, rfl⟩, h2, rfl⟩,
    rfl⟩, ⟨rfl, rfl⟩, rfl⟩
  obtain ⟨rfl, hrun1⟩ := follows_branches hconditions hbodies hc h1
  obtain ⟨rfl, hrun2⟩ := helse hc h2
  refine ⟨rfl, fun S cells env s hfits hnames => ?_⟩
  have hchoice := hrun1 (s := s) hfits hnames fun env' s' hnames' =>
    (hrun2 (hfits.congr (hnames'.trans hnames.symm)) hnames').settled
  refine (Follows.meet (hchoice.before .nil).assoc).after fun v env s o hq => ?_
  obtain ⟨hnames, rfl⟩ := hq
  exact .on (.gives .nil ⟨hnames, rfl⟩)

end

end Strand.Machine
