import Strand.Compile
import Strand.Proofs.Entering
import Strand.Proofs.Growth

/-!
# Dialogues

A part of the code generator is given the compiler of the nodes inside as a function, and
its result does not show what the function was asked. As a dialogue it does: a part ends,
or it asks for a node to be compiled in some state and goes on with the answer. Which
nodes are reached, in which states and in which order, are then questions about a tree.

A step that compiles no nodes never says that nodes are nested too deeply, does not note that
one was refused, and leaves the choice of diagnostics alone.
-/

namespace Strand

variable {span : Span} {name : String}

/-- The cause says that nodes are nested too deeply. -/
@[reducible] def Cause.isNesting : Cause → Bool
  | .nestingTooDeep _ => true
  | _ => false

/-- How often it is said that nodes are nested too deeply. -/
def nestings (reports : List Diagnostic) : Nat := reports.countP fun r => r.cause.isNesting

theorem nestings_append (a b : List Diagnostic) : nestings (a ++ b) = nestings a + nestings b :=
  List.countP_append

namespace Codegen

variable {α β γ : Type} {s s' : State} {cause : Cause} {act : Build α} {f : α → Build β}

/-! ## Type checking -/

/-- The same state without type checking. -/
@[reducible] def State.unchecked (s : State) : State := { s with typeCheck := false }

/-- The same outcome without type checking. -/
def Logged.unchecked (r : Logged (α × State)) : Logged (α × State) :=
  ⟨(r.answer.1, r.answer.2.unchecked), r.reports.filter fun d => d.kind != .type⟩

/-- Type checking changes nothing about a step but which type errors it reports. -/
class Blind (act : Build α) : Prop where
  unchecked (s : State) : act s.unchecked = (act s).unchecked

/-- Two steps that do not see whether types are checked make one that does not. -/
theorem Blind.bind (h : Blind act) (hf : ∀ a, Blind (f a)) : Blind (act >>= f) where
  unchecked s := by
    have hstep : (act >>= f) s.unchecked =
        ⟨(f (act s.unchecked).answer.1 (act s.unchecked).answer.2).answer,
          (act s.unchecked).reports ++
            (f (act s.unchecked).answer.1 (act s.unchecked).answer.2).reports⟩ := rfl
    rw [hstep, h.unchecked, Logged.unchecked, (hf _).unchecked, Logged.unchecked,
      ← List.filter_append]
    rfl

/-- Looking at the state, but not at whether types are checked. -/
theorem Blind.ofGet {f : State → Build β} (h : ∀ s, Blind (f s))
    (hsame : ∀ s : State, f s.unchecked = f s) : Blind (get >>= f) where
  unchecked s := by
    have hstep : (get >>= f) s.unchecked = ⟨(f s.unchecked s.unchecked).answer,
        [] ++ (f s.unchecked s.unchecked).reports⟩ := rfl
    rw [hstep, hsame, (h s).unchecked]
    rfl

/-! ## Steps that compile no nodes -/

/-- What only entering, leaving and refusing a node changes, and what nothing changes. -/
def State.marks (s : State) : Nat × Bool × Bool := (s.nesting, s.refused, s.typeCheck)

theorem State.nesting_of_marks (h : s'.marks = s.marks) : s'.nesting = s.nesting :=
  congrArg Prod.fst h

theorem State.refused_of_marks (h : s'.marks = s.marks) : s'.refused = s.refused :=
  congrArg (fun m => m.2.1) h

theorem State.typeCheck_of_marks (h : s'.marks = s.marks) : s'.typeCheck = s.typeCheck :=
  congrArg (fun m => m.2.2) h

/-- The step enters, leaves and refuses no node, and says nothing about nesting. -/
class Steady (act : Build α) : Prop extends Blind act where
  marks (s : State) : (act s).answer.2.marks = s.marks
  silent (s : State) : nestings (act s).reports = 0

theorem Steady.bind (h : Steady act) (hf : ∀ a, Steady (f a)) : Steady (act >>= f) where
  unchecked := (h.toBlind.bind fun a => (hf a).toBlind).unchecked
  marks s := ((hf _).marks _).trans (h.marks s)
  silent s := by
    have hreports : ((act >>= f) s).reports =
      (act s).reports ++ (f (act s).answer.1 (act s).answer.2).reports := rfl
    rw [hreports, nestings_append, h.silent, (hf _).silent]

instance [h : Steady act] [hf : ∀ a, Steady (f a)] : Steady (act >>= f) := h.bind hf

instance {a : α} : Steady (pure a) := { unchecked _ := rfl, marks _ := rfl, silent _ := rfl }

instance {c : Prop} [Decidable c] {act' : Build α} [Steady act] [Steady act'] :
    Steady (if c then act else act') := by
  split <;> infer_instance

/-- A change of the state is steady if it keeps the marks and does not look at them. -/
theorem Steady.ofModifyGet {g : State → α × State} (h : ∀ s : State, (g s).2.marks = s.marks)
    (hblind : ∀ s : State, g s.unchecked = ((g s).1, (g s).2.unchecked)) :
    Steady (modifyGet g : Build α) where
  unchecked s := by
    have hstep : (modifyGet g : Build α) s.unchecked = ⟨g s.unchecked, []⟩ := rfl
    rw [hstep, hblind]
    rfl
  marks := h
  silent _ := rfl

instance {g : Frame → Frame} : Steady (modifyFrame g) :=
  { unchecked _ := rfl, marks _ := rfl, silent _ := rfl }

instance {g : Declarations → Declarations} : Steady (modifyDecls g) :=
  { unchecked _ := rfl, marks _ := rfl, silent _ := rfl }

instance : Blind (report cause span) where
  unchecked s := by
    by_cases hkind : cause.kind = .type
    · cases hcheck : s.typeCheck <;>
        simp [report, State.unchecked, Logged.unchecked, Diagnostic.kind, hkind, hcheck]
    · simp [report, State.unchecked, Logged.unchecked, Diagnostic.kind, hkind]

instance [h : Same cause.isNesting false] : Steady (report cause span) where
  marks _ := rfl
  silent s := by
    unfold report
    dsimp only
    split
    · simp only [nestings, List.countP_cons, h.eq, List.countP_nil]
      rfl
    · rfl

instance {tokens : List TypeExpr.Token} {fault : TypeExpr.Fault} :
    Same (Cause.ofTypeFault tokens fault).isNesting false := by
  cases fault <;> exact ⟨rfl⟩

instance {k : Constant} : Steady (addConstant k span) := by
  refine .bind (.ofModifyGet (fun _ => rfl) fun _ => rfl) fun index => ?_
  cases index <;> infer_instance

instance : Steady (captureName name) := by
  refine .ofModifyGet (fun s => ?_) fun s => ?_
  · cases capture? name s.frame s.outer <;> rfl
  · unfold State.unchecked
    cases capture? name s.frame s.outer <;> rfl

instance : Steady (dropInline name) := by
  refine .ofModifyGet (fun s => ?_) fun s => ?_
  · dsimp only
    cases eraseInline name s.chain <;> rfl
  · have hchain : s.unchecked.chain = s.chain := rfl
    dsimp only
    rw [hchain]
    cases eraseInline name s.chain <;> rfl

instance {kind : UnitKind} {receiver : Ty} : Steady (beginUnit name kind receiver) :=
  { unchecked _ := rfl, marks _ := rfl, silent _ := rfl }

instance : Steady endUnit := by
  refine .ofModifyGet (fun s => ?_) fun s => ?_
  all_goals
    obtain ⟨frame, outer, decls, nesting, refused, typeCheck⟩ := s
    cases outer <;> rfl

instance {decl : ClassDecl} {parent : Option ClassRef} : Steady (enterClass decl parent) :=
  .ofModifyGet (fun _ => rfl) fun _ => rfl

instance : Steady (enterEnum name) := .ofModifyGet (fun _ => rfl) fun _ => rfl

/-! ## Parts that do -/

/-- What a part of the code generator does, up to how the nodes inside are compiled. -/
inductive Dialogue (α : Type) where
  /-- It ends. -/
  | done (r : Logged (α × State))
  /-- It has reported `said`, asks for a node in a state, and goes on with the answer. -/
  | asks (said : List Diagnostic) (e : Expr) (position : Position) (s : State)
      (next : Ty × State → Dialogue α)

namespace Dialogue

variable {d : Dialogue α}

/-- The result when `node` compiles the nodes inside. -/
def run (node : NodeCompiler) : Dialogue α → Logged (α × State)
  | done r => r
  | asks said e position s next =>
    let x := node e position s
    let y := (next x.answer).run node
    ⟨y.answer, said ++ (x.reports ++ y.reports)⟩

/-- When `node` compiles the nodes inside, it is asked for this one in this state. -/
inductive Reaches (node : NodeCompiler) (e : Expr) (position : Position) (s : State) :
    Dialogue α → Prop where
  | here {said : List Diagnostic} {next : Ty × State → Dialogue α} :
      Reaches node e position s (asks said e position s next)
  | later {said : List Diagnostic} {e' : Expr} {position' : Position} {s' : State}
      {next : Ty × State → Dialogue α}
      (h : Reaches node e position s (next (node e' position' s').answer)) :
      Reaches node e position s (asks said e' position' s' next)

/-- From `s` on, the dialogue by itself enters, leaves and refuses no node, and says nothing about
nesting. -/
inductive Steady : State → Dialogue α → Prop where
  | done {s : State} {r : Logged (α × State)} (hmarks : r.answer.2.marks = s.marks)
      (hsilent : nestings r.reports = 0) : Steady s (done r)
  | asks {s s' : State} {said : List Diagnostic} {e : Expr} {position : Position}
      {next : Ty × State → Dialogue α} (hmarks : s'.marks = s.marks) (hsilent : nestings said = 0)
      (hnext : ∀ x, Steady x.2 (next x)) : Steady s (asks said e position s' next)

/-- The dialogue is the one that `act` holds when it is started in `s`. -/
structure Of (act : NodeCompiler → Build α) (s : State) (d : Dialogue α) : Prop where
  steady : d.Steady s
  run_eq (node : NodeCompiler) : act node s = d.run node

/-! ## One after the other -/

/-- The same after something has been reported. -/
def after (said : List Diagnostic) : Dialogue α → Dialogue α
  | done r => done ⟨r.answer, said ++ r.reports⟩
  | asks said' e position s next => asks (said ++ said') e position s next

/-- Go on with another dialogue, from the answer and the state that the first one ends with. -/
def bind : Dialogue α → (α → State → Dialogue β) → Dialogue β
  | done r, f => (f r.answer.1 r.answer.2).after r.reports
  | asks said e position s next, f => asks said e position s fun x => (next x).bind f

variable {node : NodeCompiler} {s s' : State}

theorem run_after (said : List Diagnostic) (d : Dialogue α) :
    (d.after said).run node = ⟨(d.run node).answer, said ++ (d.run node).reports⟩ := by
  cases d with
  | done r => rfl
  | asks said' e position s next => simp only [after, run, List.append_assoc]

/-- To answer two dialogues one after the other is to answer what they make together. -/
theorem run_bind (f : α → State → Dialogue β) : ∀ d : Dialogue α,
    (d.bind f).run node =
      ⟨((f (d.run node).answer.1 (d.run node).answer.2).run node).answer,
        (d.run node).reports ++ ((f (d.run node).answer.1 (d.run node).answer.2).run node).reports⟩
  | done r => run_after r.reports _
  | asks said e position s next => by
    simp only [bind, run, run_bind f (next (node e position s).answer), List.append_assoc]

/-- Only the marks of a state count. -/
theorem Steady.of_marks (h : d.Steady s) (hmarks : s.marks = s'.marks) : d.Steady s' := by
  cases h with
  | done hd hsilent => exact .done (hd.trans hmarks) hsilent
  | asks hd hsilent hnext => exact .asks (hd.trans hmarks) hsilent hnext

theorem Steady.after {said : List Diagnostic} (h : d.Steady s)
    (hsaid : nestings said = 0) : (d.after said).Steady s := by
  cases h with
  | done hmarks hsilent => exact .done hmarks (by rw [nestings_append, hsaid, hsilent])
  | asks hmarks hsilent hnext => exact .asks hmarks (by rw [nestings_append, hsaid, hsilent]) hnext

theorem Steady.bind {f : α → State → Dialogue β} (h : d.Steady s)
    (hf : ∀ a s, (f a s).Steady s) : (d.bind f).Steady s := by
  induction h with
  | done hmarks hsilent => exact ((hf _ _).of_marks hmarks).after hsilent
  | asks hmarks hsilent _ ih => exact .asks hmarks hsilent fun x => ih x

end Dialogue

/-! ## Parts of the code generator -/

/-- In every state the part holds a dialogue with the compiler of the nodes inside. -/
class Speaks (act : NodeCompiler → Build α) : Prop where
  dialogue (s : State) : ∃ d : Dialogue α, d.Of act s

/-- A whole program, with `node` for its nodes. -/
def compileProgramWith (p : Program) (node : NodeCompiler) : Build CodeUnit := do
  (p.body.filterMap Expr.hoistedName?).forM hoist
  compileEffects node p.body
  let line := lastLine p.body .zero
  emit .pushNull line
  emit .ret line
  modifyFrame fun f =>
    { f with manifest := { f.manifest with globals := ownGlobals f.globals } }
  endUnit

end Codegen

end Strand
