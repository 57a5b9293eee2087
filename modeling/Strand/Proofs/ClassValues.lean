import Strand.Codegen.Class
import Strand.Proofs.Steps

/-!
# The values that a class takes

The values of a class are counted one by one as they are pushed, and the class instruction is
told the count. It is the number that the descriptor of the class gives, whatever the members
are: each of them is declared first and pushed then, so that none is pushed twice or left out.
-/

namespace Strand.Codegen

variable {α β : Type}

/-- What comes after a step may rely on the answer of the step. -/
theorem bind_congr_answer {act : Build α} {f g : α → Build β}
    (h : ∀ s, f (act s).answer.1 = g (act s).answer.1) : act >>= f = act >>= g := by
  funext s
  show (⟨(f _ _).answer, _ ++ (f _ _).reports⟩ : Logged (β × State)) = ⟨(g _ _).answer, _⟩
  rw [h s]

/-- Counting makes no difference to what is pushed. -/
theorem pushCounted_eq (push : α → Build Unit) : ∀ (items : List α) (consumed : Nat),
    pushCounted push items consumed = (do
      items.forM push
      pure (consumed + items.length))
  | [], _ => rfl
  | item :: items, consumed => by
    show ((push item >>= fun _ => pure (consumed + 1)) >>= pushCounted push items) = _
    have hcount : consumed + 1 + items.length = consumed + (item :: items).length := by
      rw [List.length_cons, Nat.add_assoc, Nat.add_comm 1]
    have hitems : (item :: items).forM push = (push item >>= fun _ => items.forM push) := rfl
    rw [bind_assoc, hitems, bind_assoc]
    simp only [pure_bind, pushCounted_eq push items, hcount]

/-- There is an answer for every item. -/
theorem length_answer_mapM (act : α → Build β) : ∀ (items : List α) (s : State),
    (items.mapM act s).answer.1.length = items.length
  | [], _ => rfl
  | item :: items, s => by
    rw [List.mapM_cons]
    exact congrArg (· + 1) (length_answer_mapM act items _)

/-- There is a typed member for every one that is declared. -/
theorem length_declareMembers (decl : ClassDecl) (c : ClassRef) (s : State) :
    (declareMembers decl c s).answer.1.length = decl.members.length := by
  have hmembers : (declareMembers decl c s).answer.1 =
      (decl.members.mapM (declareMember c) s).answer.1 := by
    unfold declareMembers
    cases decl.constructor <;> rfl
  rw [hmembers, length_answer_mapM]

variable {node : NodeCompiler}

/-- **A class takes the values that were pushed for it.** The count that is kept on the way is
what the descriptor of the class says. -/
theorem compileClassValue_eq (decl : ClassDecl) (c : ClassRef) :
    compileClassValue node decl c = withPlaceholders decl.generics (do
      let members ← declareMembers decl c
      match decl.parent with
      | some name =>
        let _ ← compileVariable node name decl.span
      | none => pure ()
      members.reverse.forM (compileMemberValue node c)
      compileConstructor node c decl.constructor decl.span.line
      decl.generics.forM fun g => emitConstant (.str g) decl.span
      let index ← addConstant (.classType (classDescriptor decl)) decl.span
      let consumed ← countOperand (classDescriptor decl).stackInputs decl.span
      emit (.makeClass index consumed) decl.span.line) := by
  unfold compileClassValue
  refine congrArg (withPlaceholders decl.generics) (bind_congr_answer fun s => ?_)
  have hcount : decl.parent.isSome.toNat + (declareMembers decl c s).answer.1.reverse.length + 1 +
      decl.generics.length = (classDescriptor decl).stackInputs := by
    rw [List.length_reverse, length_declareMembers]
    simp only [classDescriptor, ClassDescriptor.stackInputs, List.length_map]
  cases hparent : decl.parent with
  | none =>
    have hzero : decl.parent.isSome.toNat = 0 := by rw [hparent]; rfl
    rw [hzero] at hcount
    simp only [compileParent, pushCounted_eq, bind_assoc, pure_bind, hcount]
  | some name =>
    have hone : decl.parent.isSome.toNat = 1 := by rw [hparent]; rfl
    rw [hone] at hcount
    simp only [compileParent, pushCounted_eq, bind_assoc, pure_bind, hcount]

end Strand.Codegen
