import Strand.Proofs.Meaning.Bodies

/-!
# The code of loops

One round of a loop is evaluated and its code is run: in the end control is back at the
start of the loop, with the stack and the accumulator as the next round finds them, or the
loop is over. What a loop as a whole does follows by induction on its rounds, for all four
forms at once.

The body of a loop can be left from anywhere inside. The code then takes off the stack what
the body has put there, and so an early end of the body looks from outside like an end of
its own.
-/

namespace Strand.Machine

open Codegen
open Codegen.Scheme (op jump back block atHeight heightIs change looped declare declared leave)

variable {V σ E : Type} {I : Interp V σ E} {rounds : Nat} {b : Bool} {scope : List String}
  {pool : List Constant} {accs : List (List V)} {env : Env V} {w : World V σ} {m : Eval V σ E V}

variable {t : Tree} {position : Position} {c c' : Scene}

/-! ## Rounds -/

section

variable {α β : Type} {W : α → Env V → σ → World V σ} {R : β → Env V → σ → World V σ → Prop}

/-- What a round has come to: the start of the next one, or the end of the loop. -/
inductive Rounded (scope : List String) (W : α → Env V → σ → World V σ)
    (R : β → Env V → σ → World V σ → Prop) : α ⊕ β → Env V → σ → Outcome V σ E → Prop where
  | again {a : α} {env : Env V} {s : σ} (hnames : env.names = scope) :
      Rounded scope W R (.inl a) env s (.goto .start (W a env s))
  | ended {x : β} {env : Env V} {s : σ} {w : World V σ} (h : R x env s w) :
      Rounded scope W R (.inr x) env s (.fall w)
  | left {x : β} {env : Env V} {s : σ} {w : World V σ} (h : R x env s w) :
      Rounded scope W R (.inr x) env s (.goto .exit w)

/-- The code of a loop goes as the repetition of what its inside goes as. -/
theorem follows_repeating {round : α → Eval V σ E (α ⊕ β)} (hround : ∀ a env s, env.names = scope →
      Follows I (.closed accs) pool t (W a env s) (Rounded scope W R) (round a (env, s)))
    (n : Nat) : ∀ {a : α} {env : Env V} {s : σ}, env.names = scope →
      Follows I (.closed accs) pool (.loop t) (W a env s)
        (fun x env' s' o => ∃ w, R x env' s' w ∧ o = .fall w) (repeating round n a (env, s)) := by
  induction n with
  | zero => exact fun _ => .undefined
  | succ n ih =>
    intro a env s hnames
    rw [repeating]
    have hfollows := hround a env s hnames
    generalize hr : round a (env, s) = r at hfollows
    cases hfollows with
    | undefined =>
      rw [bind_of_none hr]
      exact .undefined
    | exits h hx =>
      rw [bind_of_error hr]
      cases hx with
      | fail => exact .exits (.loop h fun _ => by rintro ⟨⟩) .fail
      | ret => exact .exits (.loop h fun _ => by rintro ⟨⟩) .ret
      | leave ha _ | next ha _ => cases ha
    | @gives _ env' s' _ h hq =>
      rw [bind_of_ok hr]
      cases hq with
      | ended hR => exact .gives (.loop h fun _ => by rintro ⟨⟩) ⟨_, hR, rfl⟩
      | left hR => exact .gives (.loop h fun _ => by rintro ⟨⟩) ⟨_, hR, rfl⟩
      -- the rounds that follow start from the state that this one ended in
      | @again a' _ _ hnames' =>
        have hrest := ih (a := a') (s := s') hnames'
        rw [Sum.elim_inl]
        generalize repeating round n a' (env', s') = r at hrest
        cases hrest with
        | undefined => exact .undefined
        | exits hrest hx => exact .exits (.again h hrest) hx
        | gives hrest hq => exact .gives (.again h hrest) hq

end

/-! ## Turns of the body -/

/-- The accumulators inside a loop. -/
def held (position : Position) (acc : List V) (accs : List (List V)) : List (List V) :=
  match position with
  | .value => acc :: accs
  | .effect => accs

/-- What an attempt at the body has come to. -/
inductive Attempted (a : Ring V) (accs : List (List V)) :
    Turn V → Env V → σ → Outcome V σ E → Prop where
  | value {v : V} {env : Env V} {s : σ} (hnames : env.names = a.names) :
      Attempted a accs (.value v) env s (.fall ⟨v :: fill a.cells env, accs, s⟩)
  | next {env : Env V} {s : σ} (hnames : env.names = a.names) :
      Attempted a accs .next env s (.goto a.nextLabel ⟨fill a.cells env, accs, s⟩)
  | left {env : Env V} {s : σ} (hnames : env.names = a.names) :
      Attempted a accs .left env s (.goto .exit ⟨fill a.cells env, accs, s⟩)

/-- From outside, an early end of the body is an end of its own. -/
theorem Follows.attempt {a : Ring V} {s : σ} (hnames : env.names = a.names)
    (h : Follows I ⟨some a, accs⟩ pool t w (Pushed ⟨some a, accs⟩ a.names a.cells) (m (env, s))) :
    Follows I (.closed accs) pool t w (Attempted a accs) (attempt m (env, s)) := by
  have hlen : env.length = a.names.length := by
    rw [← hnames, Env.names, List.length_map]
  unfold Machine.attempt
  dsimp only
  rw [hlen]
  generalize m (env, s) = r at h
  cases h with
  | undefined => exact .undefined
  | exits h hx =>
    cases hx with
    | fail => exact .exits h .fail
    | ret => exact .exits h .ret
    | leave ha hnames' =>
      cases ha
      exact .gives h (.left hnames')
    | next ha hnames' =>
      cases ha
      exact .gives h (.next hnames')
  | gives h hq =>
    obtain ⟨hnames', rfl⟩ := hq
    exact .gives h (.value hnames')

/-- What a turn has come to. If the loop goes on, control is at the end of the body or where
`continue` goes. -/
inductive Turning (a : Ring V) (position : Position) (accs : List (List V)) :
    Bool × List V → Env V → σ → Outcome V σ E → Prop where
  | on {acc : List V} {env : Env V} {s : σ} {w : World V σ} (hnames : env.names = a.names)
      (hw : w = ⟨fill a.cells env, held position acc accs, s⟩) :
      Turning a position accs (true, acc) env s (.fall w)
  | next {acc : List V} {env : Env V} {s : σ} {w : World V σ} (hnames : env.names = a.names)
      (hw : w = ⟨fill a.cells env, held position acc accs, s⟩) :
      Turning a position accs (true, acc) env s (.goto a.nextLabel w)
  | left {acc : List V} {env : Env V} {s : σ} {w : World V σ} (hnames : env.names = a.names)
      (hw : w = ⟨fill a.cells env, held position acc accs, s⟩) :
      Turning a position accs (false, acc) env s (.goto .exit w)

theorem follows_finish (hcode : finishScheme position pool c t c') (a : Ring V) (acc : List V) (v : V)
    (hnames : env.names = a.names) (s : σ) : Follows I (.closed (held position acc accs)) pool t
      ⟨v :: fill a.cells env, held position acc accs, s⟩ (Turning a position accs)
      (((true, ·) <$> gather I position acc v) (env, s)) := by
  cases position with
  | value =>
    obtain ⟨rfl, rfl⟩ := hcode
    exact .gives (.op rfl) (.on hnames rfl)
  | effect =>
    obtain ⟨rfl, rfl⟩ := hcode
    exact .gives (.op rfl) (.on hnames rfl)

/-- The body of a loop and what is done with its value. -/
theorem Follows.turn {a : Ring V} {acc : List V} {t' : Tree} {s : σ}
    (hfinish : finishScheme position pool c t' c') (hnames : env.names = a.names)
    (h : Follows I ⟨some a, held position acc accs⟩ pool t w
      (Pushed ⟨some a, held position acc accs⟩ a.names a.cells) (m (env, s))) :
    Follows I (.closed (held position acc accs)) pool (.seq t t') w (Turning a position accs)
      (turn I position acc m (env, s)) := by
  refine (h.attempt hnames).bind fun r env' s' o hq => ?_
  cases hq with
  | value hnames' => exact .on (follows_finish hfinish a acc _ hnames' s')
  | next hnames' => exact .out (.next hnames' rfl)
  | left hnames' => exact .out (.left hnames' rfl)

/-- What is left of a loop that is over: the values of its hidden locals, and what it has
collected. -/
def Over (position : Position) (k : Nat) (cells : List (Option V)) (scope : List String)
    (accs : List (List V)) (acc : List V) (env : Env V) (s : σ) (w : World V σ) : Prop :=
  env.names = scope ∧
    ∃ hs : List V, hs.length = k ∧ w = ⟨hs ++ fill cells env, held position acc accs, s⟩

/-! ## Loops that are left where their condition is tested -/

section

variable {α β : Type} {W : α → Env V → σ → World V σ} {R : β → Env V → σ → World V σ → Prop}

/-- What an iteration has come to. Where the condition did not hold, it is still on the
stack. -/
inductive Iterated (scope : List String) (W : α → Env V → σ → World V σ)
    (R : β → Env V → σ → World V σ → Prop) : α ⊕ β → Env V → σ → Outcome V σ E → Prop where
  | again {a : α} {env : Env V} {s : σ} (hnames : env.names = scope) :
      Iterated scope W R (.inl a) env s (.goto .start (W a env s))
  | left {x : β} {env : Env V} {s : σ} {w : World V σ} (h : R x env s w) :
      Iterated scope W R (.inr x) env s (.goto .exit w)
  | done {x : β} {env : Env V} {s s' : σ} {stack : List V} {accs : List (List V)} (v : V)
      (h : R x env s ⟨stack, accs, s'⟩) :
      Iterated scope W R (.inr x) env s (.goto .done ⟨v :: stack, accs, s'⟩)

theorem Follows.rounded {r : Option (Except (Exit V σ E) ((α ⊕ β) × Env V × σ))}
    (h : Follows I (.closed accs) pool t w (Iterated scope W R) r) :
    Follows I (.closed accs) pool (.seq (.seq (.block .done t) .nil) (.op .pop)) w
      (Rounded scope W R) r := by
  cases h with
  | undefined => exact .undefined
  | exits h hx =>
    have hblock : Runs I pool (.block .done t) w _ := .block h
    rw [hx.land rfl] at hblock
    exact .exits ((hblock.skip hx).skip hx) hx
  | gives h hq =>
    cases hq with
    | again hnames =>
      have hblock : Runs I pool (.block .done t) w (.goto .start _) := .block h
      exact .gives (.leave (.leave hblock)) (.again hnames)
    | left hR =>
      have hblock : Runs I pool (.block .done t) w (.goto .exit _) := .block h
      exact .gives (.leave (.leave hblock)) (.left hR)
    | done v hR =>
      have hblock : Runs I pool (.block .done t) w (.fall _) := .block h
      exact .gives (.seq (.seq hblock .nil) (.op rfl)) (.ended hR)

end

/-! ## Before and after a loop -/

/-- How many values a loop leaves. -/
def width : Position → Nat
  | .value => 1
  | .effect => 0

/-- What a loop leaves of what it has collected. -/
def yielded (I : Interp V σ E) (position : Position) (acc : List V) : Eval V σ E (List V) :=
  match position with
  | .value => (fun v => [v]) <$> compute I .collected acc
  | .effect => pure []

theorem runs_open (hcode : openAccumulatorScheme position pool c t c') :
    c' = c ∧ ∀ (stack : List V) (accs : List (List V)) (s : σ),
      Runs I pool t ⟨stack, accs, s⟩ (.fall ⟨stack, held position [] accs, s⟩) := by
  cases position with
  | value =>
    obtain ⟨rfl, rfl⟩ := hcode
    exact ⟨by simp [Scene.emit, Instr.stackEffect], fun _ _ _ => .op rfl⟩
  | effect =>
    obtain ⟨rfl, rfl⟩ := hcode
    exact ⟨rfl, fun _ _ _ => .nil⟩

theorem follows_yielded (hcode : closeAccumulatorScheme position pool c t c') (S : Setting V)
    (acc stack : List V) (env : Env V) (s : σ) : Follows I S pool t ⟨stack, held position acc S.accs, s⟩
      (fun vs env' s' o => env' = env ∧ vs.length = width position ∧
        o = .fall ⟨vs ++ stack, S.accs, s'⟩) (yielded I position acc (env, s)) := by
  cases position with
  | value =>
    obtain ⟨rfl, rfl⟩ := hcode
    have hperform : perform I pool .accFlush ⟨stack, acc :: S.accs, s⟩ =
        some ((I.apply .collected acc s).map fun r => ⟨r.1 :: stack, S.accs, r.2⟩) := rfl
    refine follows_map.mpr ?_
    refine (follows_ofResult (fun r => .fall ⟨r.1 :: stack, S.accs, r.2⟩) env
      (fun e he => ?_) (fun r hr => ?_)).imp fun v env' s' o hq => ⟨hq.1, rfl, hq.2⟩
    · rw [he] at hperform
      exact .fail hperform
    · rw [hr] at hperform
      exact .op hperform
  | effect =>
    obtain ⟨rfl, rfl⟩ := hcode
    exact .gives .nil ⟨rfl, rfl, rfl⟩

/-- The scene after a loop is closed. -/
theorem close_scene (hcode : closeAccumulatorScheme position pool c t c') :
    c' = c.setHeight (c.height + width position) := by
  cases position with
  | value =>
    obtain ⟨-, rfl⟩ := hcode
    rfl
  | effect =>
    obtain ⟨-, rfl⟩ := hcode
    rfl

theorem runs_pop {hs : List V}
    (hcode : Scheme.times .pop hs.length pool c t c') (stack : List V) (accs : List (List V)) (s : σ) :
    Runs I pool t ⟨hs ++ stack, accs, s⟩ (.fall ⟨stack, accs, s⟩) := by
  induction hs generalizing c t with
  | nil =>
    obtain ⟨rfl, rfl⟩ := hcode
    exact .nil
  | cons v hs ih =>
    obtain ⟨_, _, t2, ⟨rfl, rfl⟩, hcode, rfl⟩ := hcode
    exact .seq (.op rfl) (ih hcode)

/-- The code of a scheme opens a block and runs a loop in it, with some hidden locals. -/
def Loops (I : Interp V σ E) (b : Bool) (scope : List String) (position : Position) (x : Scheme)
    (m : Eval V σ E (List V)) : Prop :=
  ∀ ⦃pool c t c'⦄, Orderly scope c → x pool c t c' →
    ∃ hidden : List Var, Fresh c.openScope hidden ∧ c' = declaring c.openScope hidden ∧
      ∀ ⦃S cells env s⦄, Fits b S c cells env → env.names = scope →
        Follows I S pool t ⟨fill cells env, S.accs, s⟩
          (fun acc env' s' o => ∃ w,
            Over position hidden.length cells scope S.accs acc env' s' w ∧ o = .fall w)
          (m (env, s))

/-- After a loop its locals are taken off the stack, and what it has collected is pushed. -/
theorem Loops.turns {x : Scheme} {m : Eval V σ E (List V)} (h : Loops I b scope position x m) :
    Turns I b scope scope (x ++ leave false ++ closeAccumulatorScheme position) 0 (width position)
      (fun _ => m >>= yielded I position) := by
  rintro pool c _ c' hc ⟨_, _, t3, ⟨t1, _, _, h1, ⟨t2, _, _, h2, ⟨rfl, rfl⟩, rfl⟩, rfl⟩, h3, rfl⟩
  obtain ⟨hidden, hfresh, rfl, hrun⟩ := h hc h1
  have hcount : (declaring c.openScope hidden).closeCount = hidden.length :=
    closeCount_declaring hc hfresh (c.height + hidden.length)
  rw [hcount] at h2
  have hheight : c.height + hidden.length - hidden.length = c.height := by omega
  have hleave := (congrArg Scene.leave (times_height rfl h2)).trans (leave_declaring hc hfresh _)
  refine ⟨[], fresh_nil c, rfl, ?_, fun S cells env s vs hfits hnames hlen => ?_⟩
  · rw [close_scene h3, hleave]
    exact congrArg (fun n => c.setHeight (n + width position)) hheight
  · cases List.length_eq_zero_iff.mp hlen
    refine .assoc ((hrun hfits hnames).bind fun acc env' s' o hq => ?_)
    obtain ⟨w, ⟨hnames', hs, hlength, rfl⟩, rfl⟩ := hq
    rw [← hlength] at h2
    have hyield := follows_yielded (I := I) h3 S acc (fill cells env') env' s'
    refine .on ((hyield.imp fun ws env2 s2 o hq => ?_).before (.seq (runs_pop h2 _ _ _) .nil))
    obtain ⟨rfl, hwidth, rfl⟩ := hq
    exact ⟨hfits.congr (hnames'.trans hnames.symm), hnames', hwidth, rfl⟩

end Strand.Machine
