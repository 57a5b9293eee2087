import Mathlib.Data.List.Forall2
import Strand.Proofs.Assignability
import Strand.Proofs.ClassValues
import Strand.Proofs.FunctionHeaders
import Strand.Proofs.Inference
import Strand.Proofs.Meaning.Functions

/-!
# The number of arguments of a call

A call is checked against a signature: that of a declared function, or that of any type which
the function may be stored under. Here the check is compared with the header of the unit of
the function, and with the check against another signature that the function is assignable to.

Two things are not counted where they should be. A signature does not tell that a function
collects keyword arguments, and two function types are compared without their default values.
-/

namespace Strand

open Codegen
open Machine (IsUnitOf)

variable {passed : List Passed} {keywords i : Nat} {span : Span} {b : Bindings} {cs : List ClassRef}
  {f g : Signature}

/-! ## What a check reports -/

namespace Codegen

variable {sig : Signature} {bindings : Bindings} {arg : Passed} {i : Nat} {s : State}

/-- Steps that leave the state as it is report one after the other. -/
theorem run_forM {γ : Type} {act : γ → Build Unit} (h : ∀ x, (act x s).answer = ((), s))
    (xs : List γ) : xs.forM act s = ⟨((), s), xs.flatMap fun x => (act x s).reports⟩ := by
  induction xs with
  | nil => rfl
  | cons x xs ih =>
    have hbind : (x :: xs).forM act s =
        ⟨(xs.forM act (act x s).answer.2).answer,
          (act x s).reports ++ (xs.forM act (act x s).answer.2).reports⟩ := rfl
    rw [hbind, h, ih]
    rfl

theorem reports_checkAssignable (found expected : Ty) (span : Span) :
    (checkAssignable found expected span s).reports =
      if found.assignableTo expected || !s.typeCheck then []
      else [⟨.typeMismatch expected.text found.text, span⟩] := by
  unfold checkAssignable
  cases hfits : found.assignableTo expected with
  | true => rfl
  | false => cases hcheck : s.typeCheck <;> simp [report, hcheck, Cause.kind]

theorem checkArgument_some {param : Ty} (h : sig.paramFor? i = some param) :
    checkArgument sig bindings arg i =
      checkAssignable arg.1 (param.substitute bindings) arg.2 := by
  rw [checkArgument, h]

theorem checkArgument_none (h : sig.paramFor? i = none) :
    checkArgument sig bindings arg i = pure () := by
  rw [checkArgument, h]

theorem answer_checkArgument : (checkArgument sig bindings arg i s).answer = ((), s) := by
  cases hparam : sig.paramFor? i with
  | none => rw [checkArgument_none hparam]; rfl
  | some param =>
    rw [checkArgument_some hparam]
    unfold checkAssignable
    split <;> rfl

/-- The arguments that do not fit are reported one by one. -/
theorem reports_checkArguments (sig : Signature) (passed : List Passed) (s : State) :
    ((do
      passed.zipIdx.forM fun (arg, i) => checkArgument sig (inferBindings sig passed) arg i
      pure (inferBindings sig passed) : Build Bindings) s).reports =
      passed.zipIdx.flatMap fun x =>
        (checkArgument sig (inferBindings sig passed) x.1 x.2 s).reports := by
  let act (x : Passed × Nat) : Build Unit := checkArgument sig (inferBindings sig passed) x.1 x.2
  have hargs : passed.zipIdx.forM act s =
      ⟨((), s), passed.zipIdx.flatMap fun x => (act x s).reports⟩ :=
    run_forM (fun _ => answer_checkArgument) _
  calc _ = (passed.zipIdx.forM act s).reports ++ [] := rfl
    _ = _ := by rw [hargs, List.append_nil]

/-- A check reports a wrong number of arguments, and the arguments that do not fit. -/
theorem reports_checkCall (sig : Signature) (passed : List Passed) (keywords : Nat) (span : Span)
    (s : State) : (checkCall sig passed keywords span s).reports =
      (if sig.accepts (passed.length + keywords) then []
        else [⟨.wrongArity sig.expectedArity (passed.length + keywords), span⟩]) ++
      passed.zipIdx.flatMap fun x =>
        (checkArgument sig (inferBindings sig passed) x.1 x.2 s).reports := by
  rw [← reports_checkArguments]
  unfold checkCall
  cases haccepts : sig.accepts (passed.length + keywords) with
  | true => rfl
  | false =>
    have hreport : (report (.wrongArity sig.expectedArity (passed.length + keywords)) span s) =
        ⟨((), s), [⟨.wrongArity sig.expectedArity (passed.length + keywords), span⟩]⟩ := by
      simp [report, Cause.kind]
    show (report _ span s).reports ++ _ = _
    rw [hreport]
    rfl

theorem reports_checkCall_eq_nil : (checkCall sig passed keywords span s).reports = [] ↔
      sig.accepts (passed.length + keywords) = true ∧ ∀ arg i, passed[i]? = some arg →
        (checkArgument sig (inferBindings sig passed) arg i s).reports = [] := by
  rw [reports_checkCall, List.append_eq_nil_iff, List.flatMap_eq_nil_iff]
  refine and_congr ?_ ⟨fun h arg i harg => ?_, fun h x hx => ?_⟩
  · cases sig.accepts (passed.length + keywords) <;> simp
  · exact h (arg, i) (List.mem_zipIdx_iff_getElem?.mpr harg)
  · exact h x.1 x.2 (List.mem_zipIdx_iff_getElem?.mp hx)

/-- Among the reports is one that the number of arguments is wrong. -/
def Logged.ReportsArity {α : Type} (r : Logged α) : Prop :=
  ∃ d ∈ r.reports, ∃ expected got, d.cause = .wrongArity expected got

theorem reportsArity_checkCall : (checkCall sig passed keywords span s).ReportsArity ↔
      sig.accepts (passed.length + keywords) = false := by
  unfold Logged.ReportsArity
  rw [reports_checkCall]
  constructor
  · rintro ⟨d, hd, expected, got, hcause⟩
    rcases List.mem_append.mp hd with hd | hd
    · split at hd
      · cases hd
      · rename_i h
        exact Bool.not_eq_true _ ▸ h
    · -- about an argument nothing but its type is reported
      obtain ⟨x, -, hd⟩ := List.mem_flatMap.mp hd
      cases hparam : sig.paramFor? x.2 with
      | none =>
        rw [checkArgument_none hparam] at hd
        cases hd
      | some param =>
        rw [checkArgument_some hparam, reports_checkAssignable] at hd
        split at hd
        · cases hd
        · rw [List.mem_singleton.mp hd] at hcause
          cases hcause
  · intro h
    exact ⟨_, List.mem_append_left _ (by rw [h]; exact .head _), _, _, rfl⟩

end Codegen

/-! ## Functions that stand for others -/

theorem Signature.accepts_iff {n : Nat} :
    f.accepts n = true ↔ f.requiredArity ≤ n ∧ (f.hasVarargs = true ∨ n ≤ f.params.length) := by
  simp [Signature.accepts]

theorem Signature.requiredArity_le (f : Signature) : f.requiredArity ≤ f.params.length :=
  Nat.le_trans (Nat.sub_le ..) (Nat.sub_le ..)

theorem Ty.fitsAll_iff {d : Direction} : ∀ {xs ys : List Ty},
    Ty.fitsAll d xs ys = true ↔ List.Forall₂ (fun x y => x.fits d y = true) xs ys
  | [], [] => by simp [Ty.fitsAll]
  | [], _ :: _ => by simp [Ty.fitsAll]
  | _ :: _, [] => by simp [Ty.fitsAll]
  | x :: xs, y :: ys => by
    rw [Ty.fitsAll, Bool.and_eq_true, List.forall₂_cons, Ty.fitsAll_iff]

theorem Signature.fits_co_iff : f.fits .co g = true ↔
    f.hasVarargs = g.hasVarargs ∧
      List.Forall₂ (fun p q => p.assignableTo q = true) g.params f.params ∧
      f.result.assignableTo g.result = true := by
  obtain ⟨result, params, generics, varargs, defaults⟩ := f
  have hparams : Ty.fitsAll .contra params g.params = Ty.fitsAll .co g.params params :=
    Ty.fitsAll_flip .co params g.params
  rw [Signature.fits, Direction.flip, hparams, Bool.and_eq_true, Bool.and_eq_true, beq_iff_eq,
    Ty.fitsAll_iff, and_assoc]
  rfl

/-- What stands at one place of two lists that go together. -/
theorem getElem?_of_forall₂ {α β : Type} {R : α → β → Prop} {xs : List α} {ys : List β}
    (h : List.Forall₂ R xs ys) {x : α} (hx : xs[i]? = some x) : ∃ y, ys[i]? = some y ∧ R x y := by
  obtain ⟨hi, rfl⟩ := List.getElem?_eq_some_iff.mp hx
  have hi' : i < ys.length := h.length_eq ▸ hi
  exact ⟨ys[i], List.getElem?_eq_getElem hi', h.get hi hi'⟩

section

variable {f g : Signature}

/-- A parameter that an argument is passed to stands among the parameters. -/
theorem Signature.exists_paramFor? (f : Signature) (i : Nat) :
    ∃ j : Nat, f.paramFor? i = f.params[j]? ∧
      ∀ g : Signature, f.hasVarargs = g.hasVarargs → f.params.length = g.params.length →
        g.paramFor? i = g.params[j]? := by
  unfold Signature.paramFor?
  by_cases hlast : (f.hasVarargs && decide (f.params.length ≤ i + 1)) = true
  · refine ⟨f.params.length - 1, ?_, fun g hvarargs hlength => ?_⟩
    · rw [if_pos hlast, List.getLast?_eq_getElem?]
    · rw [← hvarargs, ← hlength, if_pos hlast, List.getLast?_eq_getElem?, ← hlength]
  · refine ⟨i, if_neg hlast, fun g hvarargs hlength => ?_⟩
    rw [← hvarargs, ← hlength, if_neg hlast]

theorem Signature.paramFor?_of_fits (h : f.fits .co g = true) {p : Ty}
    (hp : g.paramFor? i = some p) : ∃ q, f.paramFor? i = some q ∧ p.assignableTo q = true := by
  obtain ⟨hvarargs, hparams, -⟩ := Signature.fits_co_iff.mp h
  obtain ⟨j, hg, hf⟩ := g.exists_paramFor? i
  rw [hf f hvarargs.symm hparams.length_eq]
  exact getElem?_of_forall₂ hparams (hg ▸ hp)

theorem Signature.accepts_of_fits (h : f.fits .co g = true) :
    (∀ n, g.accepts n = true → f.accepts n = true) ↔ f.requiredArity ≤ g.requiredArity := by
  obtain ⟨hvarargs, hparams, -⟩ := Signature.fits_co_iff.mp h
  have hlength : g.params.length = f.params.length := hparams.length_eq
  simp only [Signature.accepts_iff, hvarargs, ← hlength]
  constructor
  · intro haccepts
    exact (haccepts g.requiredArity ⟨Nat.le_refl _, .inr g.requiredArity_le⟩).1
  · intro hle n hn
    exact ⟨Nat.le_trans hle hn.1, hn.2⟩

end

mutual

/-- A type that nothing can be put into stays as it is. -/
theorem Ty.substitute_eq_self : ∀ {t : Ty}, t.placeholders = [] → t.substitute b = t
  | .generic _, h => by cases h
  | .tuple _, h => congrArg Ty.tuple (Ty.substituteAll_eq_self h)
  | .ref target, h => congrArg Ty.ref (Ty.substitute_eq_self (t := target) h)
  | .inst c _, h => congrArg (Ty.inst c) (Ty.substituteAll_eq_self h)
  | .fn _, h => congrArg Ty.fn (Signature.substitute_eq_self h)
  | .prim _, _ | .classObject _, _ | .enumObject _, _ | .variant _, _ => rfl

theorem Signature.substitute_eq_self : ∀ {f : Signature}, f.placeholders = [] → f.substitute b = f
  | ⟨_, _, _, _, _⟩, h => by
    obtain ⟨hresult, hparams⟩ := List.append_eq_nil_iff.mp h
    rw [Signature.substitute, Ty.substitute_eq_self hresult, Ty.substituteAll_eq_self hparams]

theorem Ty.substituteAll_eq_self : ∀ {ts : List Ty}, Ty.placeholdersAll ts = [] →
    Ty.substituteAll b ts = ts
  | [], _ => rfl
  | _ :: _, h => by
    obtain ⟨hhead, htail⟩ := List.append_eq_nil_iff.mp h
    rw [Ty.substituteAll, Ty.substitute_eq_self hhead, Ty.substituteAll_eq_self htail]

end

mutual

theorem Ty.GroundIn.placeholders : ∀ {t : Ty}, t.GroundIn cs → t.placeholders = []
  | .generic _, h => h.elim
  | .tuple _, h => Ty.AllGroundIn.placeholders h
  | .ref target, h => Ty.GroundIn.placeholders (t := target) h
  | .inst _ _, h => Ty.AllGroundIn.placeholders h.2
  | .fn _, h => Signature.GroundIn.placeholders h
  | .prim _, _ | .classObject _, _ | .enumObject _, _ | .variant _, _ => rfl

theorem Signature.GroundIn.placeholders : ∀ {f : Signature}, f.GroundIn cs → f.placeholders = []
  | ⟨_, _, _, _, _⟩, h => List.append_eq_nil_iff.mpr ⟨h.1.placeholders, Ty.AllGroundIn.placeholders h.2⟩

theorem Ty.AllGroundIn.placeholders : ∀ {ts : List Ty}, Ty.AllGroundIn cs ts → Ty.placeholdersAll ts = []
  | [], _ => rfl
  | _ :: _, h => List.append_eq_nil_iff.mpr ⟨h.1.placeholders, Ty.AllGroundIn.placeholders h.2⟩

end

theorem Signature.mem_of_paramFor? {t : Ty} (h : f.paramFor? i = some t) : t ∈ f.params := by
  obtain ⟨j, hj, -⟩ := f.exists_paramFor? i
  exact List.mem_of_getElem? (hj ▸ h)

/-- A call can be made of whatever stands for a function: if nothing is reported with the
signature that it is made through, nothing is with that of the function. -/
theorem Codegen.reports_checkCall_of_fits (hcs : Coherent cs)
    (hfits : f.fits .co g = true) (harity : f.requiredArity ≤ g.requiredArity)
    (hg : ∀ p ∈ g.params, p.GroundIn cs) (hf : ∀ q ∈ f.params, q.ClassesIn cs ∧ q.placeholders = [])
    (hpassed : ∀ arg ∈ passed, arg.1.ClassesIn cs) {s : State}
    (h : (checkCall g passed keywords span s).reports = []) :
    (checkCall f passed keywords span s).reports = [] := by
  rw [reports_checkCall_eq_nil] at h ⊢
  refine ⟨(Signature.accepts_of_fits hfits).mpr harity _ h.1, fun arg i harg => ?_⟩
  have hthrough := h.2 arg i harg
  obtain ⟨hvarargs, hparams, -⟩ := Signature.fits_co_iff.mp hfits
  obtain ⟨j, hgj, hfj⟩ := g.exists_paramFor? i
  cases hp : g.paramFor? i with
  | none =>
    -- where one signature has no parameter, the other has none
    have hnone : f.paramFor? i = none := by
      rw [hfj f hvarargs.symm hparams.length_eq, List.getElem?_eq_none_iff, ← hparams.length_eq]
      exact List.getElem?_eq_none_iff.mp (hgj ▸ hp)
    rw [checkArgument_none hnone]
    rfl
  | some p =>
    obtain ⟨q, hq, hpq⟩ := Signature.paramFor?_of_fits hfits hp
    have hpground := hg p (Signature.mem_of_paramFor? hp)
    obtain ⟨hqclasses, hqplaceholders⟩ := hf q (Signature.mem_of_paramFor? hq)
    rw [checkArgument_some hp, reports_checkAssignable,
      Ty.substitute_eq_self hpground.placeholders] at hthrough
    rw [checkArgument_some hq, reports_checkAssignable, Ty.substitute_eq_self hqplaceholders]
    cases hcheck : s.typeCheck with
    | false => rw [Bool.not_false, Bool.or_true, if_pos rfl]
    | true =>
      have hargp : arg.1.assignableTo p = true := by
        by_contra hnot
        rw [hcheck, Bool.eq_false_iff.mpr hnot] at hthrough
        cases hthrough
      have hargq : arg.1.assignableTo q = true :=
        Ty.fits_trans_through hcs .co (hpassed arg (List.mem_of_getElem? harg)) hpground.classesIn
          hqclasses hpground.fitsBehind hargp hpq
      rw [hargq, Bool.true_or, if_pos rfl]

/-- A function that may be stored under another function type takes every number of arguments
that the type does exactly if it requires no more of them. Each argument goes to a parameter
that whatever may be stored in that of the type may be stored in. So if it requires no more
arguments, and the parameters of the type are not dynamic in any part, it can be called with
whatever the type can be called with. -/
theorem Signature.calls_of_assignableTo (f g : Signature)
    (h : (Ty.fn f).assignableTo (.fn g) = true) :
    ((∀ n, g.accepts n = true → f.accepts n = true) ↔ f.requiredArity ≤ g.requiredArity) ∧
    (∀ i p, g.paramFor? i = some p → ∃ q, f.paramFor? i = some q ∧ p.assignableTo q = true) ∧
    (f.requiredArity ≤ g.requiredArity → ∀ cs passed keywords span s, Coherent cs →
      (∀ p ∈ g.params, p.GroundIn cs) →
      (∀ q ∈ f.params, q.ClassesIn cs ∧ q.placeholders = []) →
      (∀ arg ∈ passed, arg.1.ClassesIn cs) →
      (checkCall g passed keywords span s).reports = [] →
      (checkCall f passed keywords span s).reports = []) := by
  have hfits : f.fits .co g = true := h
  refine ⟨Signature.accepts_of_fits hfits, fun i p => Signature.paramFor?_of_fits hfits, ?_⟩
  intro harity cs passed keywords span s hcs hg hf hpassed
  exact reports_checkCall_of_fits hcs hfits harity hg hf hpassed

/-- A function of an integer and, if wanted, a list may be stored as one of a byte and, if
wanted, a pair. -/
theorem Signature.calls_of_assignableTo_default :
    let f : Signature := ⟨.int, [.int, .list], [], false, 1⟩
    let g : Signature := ⟨.int, [.prim .i8, .tuple [.str, .int]], [], false, 1⟩
    (Ty.fn f).assignableTo (.fn g) = true ∧ f.requiredArity ≤ g.requiredArity ∧
      (checkCall g [(.prim .i8, .zero)] 1 .zero default).reports = [] ∧
      (checkCall f [(.prim .i8, .zero)] 1 .zero default).reports = [] := by
  intro f g
  have hfits : (Ty.fn f).assignableTo (.fn g) = true := rfl
  have harity : f.requiredArity ≤ g.requiredArity := by decide
  have hcall : (checkCall g [(.prim .i8, .zero)] 1 .zero default).reports = [] := rfl
  refine ⟨hfits, harity, hcall, (Signature.calls_of_assignableTo f g hfits).2.2 harity [] _ 1 .zero
    default (by decide) ?_ ?_ ?_ hcall⟩
  · simp [g, Ty.GroundIn, Ty.AllGroundIn, Ty.str, Ty.int]
  · simp [f, Ty.ClassesIn, Ty.placeholders, Ty.list, Ty.int]
  · simp [Ty.ClassesIn]

/-- A function that requires an argument may be stored as one that does not. Called without
arguments it is called with too few, and nothing is reported. -/
theorem Signature.assignableTo_ignores_defaults :
    let f : Signature := ⟨.int, [.int], [], false, 0⟩
    let g : Signature := ⟨.int, [.int], [], false, 1⟩
    (Ty.fn f).assignableTo (.fn g) = true ∧ g.accepts 0 = true ∧ f.accepts 0 = false :=
  ⟨rfl, rfl, rfl⟩

/-! ## Declared functions -/

theorem exists_isUnitOf_of_contains {p : Program} {o : Options} {m : Module} (h : compile p o = .ok m)
    {decl : FunctionDecl} {kind : UnitKind} (hdecl : p.Contains decl kind) :
    ∃ u ∈ m.units, IsUnitOf p decl kind u := by
  obtain ⟨v, hv, layout, -, hmakes⟩ := exists_makes_of_contains h hdecl
  obtain ⟨q, -, budget, c, c', hscheme⟩ := hmakes {} 0
  have hcode : ClosureCode p v.constants (.function decl kind) q.tree :=
    ⟨hdecl.declares, budget, c, c', hscheme⟩
  obtain ⟨budget, u, index, _, _, hunit, hpool, -⟩ := hcode.split
  exact ⟨u, Module.mem_units_of_pool hv (List.mem_of_getElem? hpool), budget, hunit⟩

namespace Codegen

theorem length_params_functionSignature (decl : FunctionDecl) (s : State) :
    (functionSignature decl s).answer.1.params.length =
      decl.params.length + decl.varargs.isSome.toNat := by
  have hlength : (functionSignature decl s).answer.1.params.length =
      (decl.params ++ decl.varargs.toList).length := length_answer_mapM _ _ s
  rw [hlength, List.length_append]
  cases decl.varargs <;> rfl

theorem length_required_add_defaults (decl : FunctionDecl) :
    (decl.params.filter fun p => p.default.isNone).length +
      (decl.params.filter fun p => p.default.isSome).length = decl.params.length := by
  induction decl.params with
  | nil => rfl
  | cons p params ih =>
    cases hdefault : p.default <;> simp [hdefault] <;> omega

theorem requiredArity_functionSignature (decl : FunctionDecl) (s : State) :
    (functionSignature decl s).answer.1.requiredArity =
      (decl.params.filter fun p => p.default.isNone).length := by
  have hcount := length_required_add_defaults decl
  have hdefaults : (functionSignature decl s).answer.1.defaultCount =
      (decl.params.filter fun p => p.default.isSome).length := rfl
  have hvarargs : (functionSignature decl s).answer.1.hasVarargs = decl.varargs.isSome := rfl
  rw [Signature.requiredArity, length_params_functionSignature, hdefaults, hvarargs]
  omega

theorem accepts_functionSignature (decl : FunctionDecl) (s : State) (n : Nat) :
    (functionSignature decl s).answer.1.accepts n = false ↔
      n < (decl.params.filter fun p => p.default.isNone).length ∨
        decl.varargs.isSome = false ∧ decl.params.length < n := by
  have hvarargs : (functionSignature decl s).answer.1.hasVarargs = decl.varargs.isSome := rfl
  rw [← Bool.not_eq_true, Signature.accepts_iff, requiredArity_functionSignature, hvarargs,
    length_params_functionSignature]
  cases decl.varargs with
  | none =>
    simp only [Option.isSome_none, Bool.toNat_false, Bool.false_eq_true, false_or, true_and]
    omega
  | some _ =>
    simp only [Option.isSome_some, true_or, and_true, Bool.true_eq_false, false_and, or_false]
    omega

end Codegen

/-- The unit of a function takes as many arguments as the signature of the function requires, and
a call is reported for their number if it has fewer, or more than the parameters of a unit
that collects no further ones by position. Where a unit collects keyword arguments only
together with others, those are the calls that the unit cannot take. -/
theorem compile_checksArity {p : Program} {o : Options} {m : Module} (h : compile p o = .ok m)
    {decl : FunctionDecl} {kind : UnitKind} (hdecl : p.Contains decl kind)
    (hfew : decl.params.length ≤ 255) :
    (∃ u ∈ m.units, IsUnitOf p decl kind u) ∧
    ∀ u ∈ m.units, IsUnitOf p decl kind u → ∀ s,
      (functionSignature decl s).answer.1.requiredArity = u.header.arity.toNat ∧
      ∀ passed keywords span s',
        ((checkCall (functionSignature decl s).answer.1 passed keywords span s').ReportsArity ↔
          passed.length + keywords < u.header.arity.toNat ∨ u.header.hasVarargs = false ∧
            u.header.arity.toNat + u.header.defaultCount.toNat < passed.length + keywords) ∧
        ((u.header.hasKwargs = true → u.header.hasVarargs = true) →
          ((checkCall (functionSignature decl s).answer.1 passed keywords span s').ReportsArity ↔
            passed.length + keywords < u.header.arity.toNat ∨
              (u.header.hasVarargs = false ∧ u.header.hasKwargs = false) ∧
              u.header.arity.toNat + u.header.defaultCount.toNat < passed.length + keywords)) := by
  refine ⟨exists_isUnitOf_of_contains h hdecl, ?_⟩
  rintro u - ⟨budget, hheader, -⟩ s
  have hcounts := counts_functionHeader decl kind
  have hsum := length_required_add_defaults decl
  -- up to 255 parameters are counted exactly by one byte
  have harity : u.header.arity.toNat = (decl.params.filter fun p => p.default.isNone).length := by
    rw [hheader]
    exact hcounts.arity.trans (Nat.min_eq_left (by omega))
  have hdefaults : u.header.defaultCount.toNat =
      (decl.params.filter fun p => p.default.isSome).length := by
    rw [hheader, ← length_defaults]
    rw [← length_defaults] at hsum
    exact hcounts.defaultCount.trans (Nat.min_eq_left (by omega))
  have hvarargs : u.header.hasVarargs = decl.varargs.isSome := by rw [hheader]; rfl
  refine ⟨(requiredArity_functionSignature decl s).trans harity.symm, fun passed keywords span s' => ?_⟩
  have hreported : (checkCall (functionSignature decl s).answer.1 passed keywords span
      s').ReportsArity ↔ passed.length + keywords < u.header.arity.toNat ∨
        u.header.hasVarargs = false ∧
          u.header.arity.toNat + u.header.defaultCount.toNat < passed.length + keywords := by
    rw [reportsArity_checkCall, accepts_functionSignature, harity, hdefaults, hsum, hvarargs]
  refine ⟨hreported, fun hkwargs => hreported.trans ?_⟩
  -- without a rest parameter there is none for keywords either
  have hneither : u.header.hasVarargs = false ↔
      u.header.hasVarargs = false ∧ u.header.hasKwargs = false := by
    refine ⟨fun hnone => ⟨hnone, ?_⟩, And.left⟩
    by_contra hsome
    rw [hkwargs (Bool.not_eq_false _ ▸ hsome)] at hnone
    cases hnone
  rw [← hneither]

/-- A method that collects arguments by position and by name, after one that it requires. -/
theorem compile_checksArity_getter : ∃ m, compile withDefaults {} = .ok m ∧
    ∃ u ∈ m.units, IsUnitOf withDefaults getter .method u ∧ u.header.arity = 1 ∧
      u.header.hasKwargs = true ∧ u.header.hasVarargs = true ∧
      (checkCall (functionSignature getter default).answer.1 [] 0 .zero default).ReportsArity ∧
      ¬ (checkCall (functionSignature getter default).answer.1 [] 5 .zero default).ReportsArity := by
  have hcontains : withDefaults.Contains getter .method :=
    ⟨_, .head _, .here (List.mem_append_left _ (.head _))⟩
  have hcompiles : (compile withDefaults {}).toOption.isSome = true := by decide +kernel
  cases hm : compile withDefaults {} with
  | error e =>
    rw [hm] at hcompiles
    cases hcompiles
  | ok m =>
    obtain ⟨⟨u, hu, hcode⟩, hcalls⟩ := compile_checksArity hm hcontains (by decide)
    have hheader : u.header = functionHeader getter .method := hcode.choose_spec.1
    have harity : u.header.arity.toNat = 1 := by rw [hheader]; rfl
    have hvarargs : u.header.hasVarargs = true := by rw [hheader]; rfl
    refine ⟨m, rfl, u, hu, hcode, by rw [hheader]; rfl, by rw [hheader]; rfl, hvarargs, ?_, ?_⟩
    · rw [((hcalls u hu hcode default).2 [] 0 .zero default).1, harity]
      exact .inl (by decide)
    · rw [((hcalls u hu hcode default).2 [] 5 .zero default).2 fun _ => hvarargs, harity, hvarargs]
      simp

/-- A function that collects keyword arguments and takes nothing else. -/
def collector : FunctionDecl :=
  { name := "collect", generics := [], params := [], varargs := none, kwargs := some "options"
    returnType := none, isAsync := false, catchesResult := false, span := .zero, body := [] }

/-- Its unit collects keyword arguments, and a call with one is reported for their number. -/
theorem compile_collector : ∃ m, compile (alone collector) {} = .ok m ∧
    ∃ u ∈ m.units, IsUnitOf (alone collector) collector .function u ∧
      u.header.arity = 0 ∧ u.header.hasKwargs = true ∧
      (checkCall (functionSignature collector default).answer.1 [] 1 .zero default).ReportsArity := by
  have hcontains : Program.Contains (alone collector) collector .function :=
    ⟨_, .head _, .here (.head _)⟩
  have hcompiles : (compile (alone collector) {}).toOption.isSome = true := by decide +kernel
  cases hm : compile (alone collector) {} with
  | error e =>
    rw [hm] at hcompiles
    cases hcompiles
  | ok m =>
    obtain ⟨u, hu, hcode⟩ := exists_isUnitOf_of_contains hm hcontains
    have hheader : u.header = functionHeader collector .function := hcode.choose_spec.1
    refine ⟨m, rfl, u, hu, hcode, by rw [hheader]; rfl, by rw [hheader]; rfl, ?_⟩
    rw [reportsArity_checkCall]
    rfl

end Strand
