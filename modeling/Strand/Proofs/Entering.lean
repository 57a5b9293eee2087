import Strand.Codegen.Node
import Strand.Proofs.Steps

/-!
# Entering and leaving a node

A node is entered when the counter of the state is below the limit, and left before the stack is
settled. To what comes in between it makes no difference when exactly it is left, so a node is
compiled as if by `compileEntered` one level deeper, and this is what most is proved about.
-/

namespace Strand.Codegen

variable {α : Type} {limit : Nat} {s : State}

/-- What compiling a node comes to when it is not refused, with `node` for those inside. -/
def compileEntered (e : Expr) (position : Position) (node : NodeCompiler) : Build Ty := do
  let left ← compileKind node e.kind position e.span
  settle left position e.span.line

theorem enterNesting_of_lt (h : s.nesting < limit) : enterNesting limit s = ⟨(true, s.enter), []⟩ := by
  show (⟨if s.nesting < limit then (true, s.enter) else (false, s), []⟩ : Logged (Bool × State)) = _
  rw [if_pos h]

theorem enterNesting_of_le (h : limit ≤ s.nesting) : enterNesting limit s = ⟨(false, s), []⟩ := by
  show (⟨if s.nesting < limit then (true, s.enter) else (false, s), []⟩ : Logged (Bool × State)) = _
  rw [if_neg (Nat.not_lt.mpr h)]

/-- The same outcome when a level of nesting is left. -/
def Logged.leaving (r : Logged (α × State)) : Logged (α × State) :=
  ⟨(r.answer.1, r.answer.2.leave), r.reports⟩

/-- It makes no difference whether the level is left before or after. -/
theorem settle_leave (left : Left) (position : Position) (line : UInt64) (s : State) :
    settle left position line s.leave = (settle left position line s).leaving := by
  cases left <;> cases position <;> rfl

/-- When no level of nesting is left a node is refused, however much fuel there is. -/
theorem compileNode_refused (h : limit ≤ s.nesting) (fuel : Nat) (e : Expr) (position : Position) :
    compileNode limit fuel e position s = refuseNode limit e.span position s := by
  cases fuel with
  | zero => rfl
  | succ fuel =>
    unfold compileNode
    rw [bind_run, enterNesting_of_le h]
    rfl

/-- Otherwise it is compiled one level deeper, and the level is left again. -/
theorem compileNode_entered (h : s.nesting < limit) (fuel : Nat) (e : Expr) (position : Position) :
    compileNode limit (fuel + 1) e position s =
      (compileEntered e position (compileNode limit fuel) s.enter).leaving := by
  conv => lhs; unfold compileNode
  rw [bind_run, enterNesting_of_lt h]
  have hleave (s' : State) : leaveNesting s' = ⟨((), s'.leave), []⟩ := rfl
  simp only [if_true, bind_run, compileEntered, hleave, settle_leave, Logged.leaving, List.nil_append]

end Strand.Codegen
