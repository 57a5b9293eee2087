import Mathlib.Data.List.Basic
import Strand.Codegen.State

/-!
# Reasoning about steps of code generation

A step cannot fail, but it can report, and a program that got a report other than a
type error is not handed out. So what has to be known about a step is what it does when
nothing else is reported: `Ensures s act Q`. Because reports are only ever added, a step
made of two is clean when both are, and this is all that the rule for sequencing needs.
-/

namespace Strand.Codegen

variable {α β : Type} {s : State} {act : Build α}

variable {Q : Unit → State → Prop} {cause : Cause} {span : Span}

instance : LawfulMonad Logged :=
  LawfulMonad.mk' Logged
    (fun x => by
      cases x
      simp only [Functor.map, Function.comp, id, List.append_nil])
    (fun _ _ => rfl)
    (fun x f g => by simp only [bind, List.append_assoc])

/-- Nothing was reported that makes a program fail whatever the options are. -/
def Clean (reports : List Diagnostic) : Prop := ∀ d ∈ reports, d.kind = .type

theorem clean_append {xs ys : List Diagnostic} (h : Clean (xs ++ ys)) : Clean xs ∧ Clean ys :=
  ⟨fun d hd => h d (List.mem_append_left _ hd), fun d hd => h d (List.mem_append_right _ hd)⟩

/-- If `act` reports nothing of consequence when it is run from `s`, its answer and the
state after it satisfy `Q`. -/
def Ensures (s : State) (act : Build α) (Q : α → State → Prop) : Prop :=
  Clean (act s).reports → Q (act s).answer.1 (act s).answer.2

theorem Ensures.imp {Q R : α → State → Prop} (h : Ensures s act Q)
    (himp : ∀ a s', Q a s' → R a s') : Ensures s act R :=
  fun hclean => himp _ _ (h hclean)

theorem ensures_pure {a : α} {Q : α → State → Prop} (h : Q a s) : Ensures s (pure a) Q :=
  fun _ => h

/-- What one step ensures the next one may rely on. Both are free of refusals if the whole is. -/
theorem Ensures.bind {f : α → Build β} {Q : α → State → Prop}
    {R : β → State → Prop} (h : Ensures s act Q) (hf : ∀ a s', Q a s' → Ensures s' (f a) R) :
    Ensures s (act >>= f) R := by
  intro hclean
  have hparts : Clean (act s).reports ∧ Clean (f (act s).answer.1 (act s).answer.2).reports :=
    clean_append hclean
  exact hf _ _ (h hparts.1) hparts.2

theorem Ensures.map {g : α → β} {Q : β → State → Prop}
    (h : Ensures s act fun a s' => Q (g a) s') : Ensures s (g <$> act) Q := by
  rw [map_eq_pure_bind]
  exact h.bind fun _ _ hq => ensures_pure hq

/-! ## Looking at the state and changing it -/

theorem answer_bind (act : Build α) (f : α → Build β) (s : State) :
    ((act >>= f) s).answer = (f (act s).answer.1 (act s).answer.2).answer := rfl

theorem answer_modifyGet (f : State → α × State) (s : State) :
    ((modifyGet f : Build α) s).answer = f s := rfl

/-- Two steps report one after the other. -/
theorem bind_run (act : Build α) (f : α → Build β) (s : State) : (act >>= f) s =
    ⟨(f (act s).answer.1 (act s).answer.2).answer,
      (act s).reports ++ (f (act s).answer.1 (act s).answer.2).reports⟩ := rfl

theorem get_bind_run (f : State → Build β) (s : State) : (get >>= f) s = f s s := rfl

theorem ensures_get {Q : State → State → Prop} (h : Q s s) : Ensures s get Q := fun _ => h

theorem ensures_modify {g : State → State} (h : Q () (g s)) : Ensures s (modify g) Q := fun _ => h

theorem ensures_modifyGet {g : State → α × State} {Q : α → State → Prop}
    (h : Q (g s).1 (g s).2) : Ensures s (modifyGet g) Q := fun _ => h

/-- The state with another frame. -/
def State.withFrame (s : State) (f : Frame) : State := { s with frame := f }

theorem ensures_modifyFrame {g : Frame → Frame}
    (h : Q () (s.withFrame (g s.frame))) : Ensures s (modifyFrame g) Q := fun _ => h

theorem ensures_height {Q : Nat → State → Prop} (h : Q s.frame.height s) :
    Ensures s height Q := fun _ => h

theorem ensures_here {Q : Nat → State → Prop} (h : Q s.frame.chunk.size s) :
    Ensures s here Q := fun _ => h

/-- Looking at the state first. -/
theorem Ensures.ofGet {f : State → Build β} {Q : β → State → Prop} (h : Ensures s (f s) Q) :
    Ensures s (get >>= f) Q :=
  (ensures_get (Q := fun a s' => a = s ∧ s' = s) ⟨rfl, rfl⟩).bind fun _ _ ⟨ha, hs⟩ => by
    rw [ha, hs]
    exact h

theorem Ensures.ofHeight {f : Nat → Build β} {Q : β → State → Prop}
    (h : Ensures s (f s.frame.height) Q) : Ensures s (height >>= f) Q :=
  (ensures_height (Q := fun n s' => n = s.frame.height ∧ s' = s) ⟨rfl, rfl⟩).bind
    fun _ _ ⟨hn, hs⟩ => by
      rw [hn, hs]
      exact h

theorem ensures_report (h : cause.kind = .type → Q () s) : Ensures s (report cause span) Q := by
  intro hclean
  by_cases hkind : cause.kind = .type
  · exact h hkind
  · have hreports : (report cause span s).reports = [⟨cause, span⟩] := by simp [report, hkind]
    rw [hreports] at hclean
    exact absurd (hclean _ (.head _)) hkind

/-- What reports something of consequence never gets any further. -/
theorem ensures_refused (h : cause.kind ≠ .type) : Ensures s (report cause span) Q :=
  ensures_report fun hkind => absurd hkind h

/-- Nothing has to be shown after something that is no matter of types was reported. -/
theorem ensures_refused_bind {f : Unit → Build β} {Q : β → State → Prop} (h : cause.kind ≠ .type) :
    Ensures s (report cause span >>= f) Q :=
  (ensures_refused (Q := fun _ _ => False) h).bind fun _ _ => False.elim

end Strand.Codegen
