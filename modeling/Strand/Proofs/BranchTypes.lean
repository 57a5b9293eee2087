import Mathlib.Data.List.Basic
import Strand.Proofs.Assignability
import Strand.Proofs.FrameCondition.Brackets

/-!
# The type of several branches

An `if` chain and a match unify the types of their branches from left to right. The type of
two branches covers both. With a third one this may be lost: the type so far may give way to
the type of a later branch, and a dynamic part of it may have been what covered an earlier
branch. This is the only way, so every branch stays covered exactly if its parts fit wherever
something dynamic gives way.
-/

namespace Strand

variable {ts : List Ty} {cs : List ClassRef}

/-! ## Unifying a list of types -/

/-- The common type of branches, from left to right. -/
def Ty.unifyAll : List Ty → Ty
  | [] => .any
  | t :: ts => ts.foldl Ty.unify t

theorem Ty.unifyAll_concat (h : ts ≠ []) (t : Ty) :
    Ty.unifyAll (ts ++ [t]) = (Ty.unifyAll ts).unify t := by
  cases ts with
  | nil => exact absurd rfl h
  | cons x xs => exact List.foldl_concat ..

/-- One type may stand for the other, and not the other way round. -/
def Ty.Below (a b : Ty) : Prop := a.assignableTo b = true ∧ b.assignableTo a = false

/-- Of two types the second is taken if the first is below it. Otherwise the first one stays, or
nothing is known any more. -/
theorem Ty.unify_cases (a b : Ty) :
    a.Below b ∧ a.unify b = b ∨ ¬ a.Below b ∧ (a.unify b = a ∨ a.unify b = .any) := by
  have hnot (hba : b.assignableTo a = true) : ¬ a.Below b := by
    intro hbelow
    rw [hbelow.2] at hba
    cases hba
  unfold Ty.unify
  split
  · rename_i hsame
    have hba : b.fits .co a = true := by
      rw [← Ty.fits_flip .co a b]
      exact Ty.fits_of_same .contra hsame
    exact .inr ⟨hnot hba, .inl rfl⟩
  · split
    · rename_i hdynamic
      refine .inr ⟨hnot ?_, .inr rfl⟩
      rcases Bool.or_eq_true_iff.mp hdynamic with ha | hb
      · exact Ty.fits_of_isDynamic ha .co b
      · exact (Ty.fits_flip .contra b a).trans (Ty.fits_of_isDynamic hb .contra a)
    · split
      · rename_i hba
        exact .inr ⟨hnot hba, .inl rfl⟩
      · rename_i hba
        split
        · rename_i hab
          exact .inl ⟨⟨hab, Bool.not_eq_true _ ▸ hba⟩, rfl⟩
        · rename_i hab
          exact .inr ⟨fun hbelow => hab hbelow.1, .inr rfl⟩

theorem Ty.ClassesIn.unify {a b : Ty} (ha : a.ClassesIn cs)
    (hb : b.ClassesIn cs) : (a.unify b).ClassesIn cs := by
  rcases Ty.unify_cases a b with ⟨-, h⟩ | ⟨-, h | h⟩ <;> rw [h]
  · exact hb
  · exact ha
  · trivial

theorem Ty.ClassesIn.unifyAll (h : ∀ t ∈ ts, t.ClassesIn cs) : (Ty.unifyAll ts).ClassesIn cs := by
  induction ts using List.reverseRecOn with
  | nil => trivial
  | append_singleton xs x ih =>
    rw [List.forall_mem_append, List.forall_mem_singleton] at h
    by_cases hxs : xs = []
    · subst hxs
      exact h.2
    · rw [Ty.unifyAll_concat hxs]
      exact (ih h.1).unify h.2

/-- Wherever the type of the branches so far gives way to the type of the next one, the parts of
every one of them fit in the place of what is dynamic in it. -/
def Ty.GivesWaySafely (ts : List Ty) : Prop :=
  ∀ before next after, ts = before ++ next :: after → (Ty.unifyAll before).Below next →
    ∀ t ∈ before, (Ty.unifyAll before).FitsBehind .co t next

theorem Ty.GivesWaySafely.of_append {before after : List Ty} (h : Ty.GivesWaySafely (before ++ after)) :
    Ty.GivesWaySafely before := by
  intro first next rest hbefore
  refine h first next (rest ++ after) ?_
  rw [hbefore, List.append_assoc, List.cons_append]

/-- A branch that the type of the branches so far covers is covered with one more branch, unless
something dynamic gives way that it does not fit. -/
theorem Ty.covered_concat_iff (hcs : Coherent cs) {t x : Ty} (hclasses : ∀ u ∈ ts ++ [x], u.ClassesIn cs)
    (ht : t ∈ ts) (hcovered : t.assignableTo (Ty.unifyAll ts) = true) :
    t.assignableTo (Ty.unifyAll (ts ++ [x])) = true ↔
      ((Ty.unifyAll ts).Below x → (Ty.unifyAll ts).FitsBehind .co t x) := by
  rw [List.forall_mem_append, List.forall_mem_singleton] at hclasses
  rw [Ty.unifyAll_concat (List.ne_nil_of_mem ht)]
  rcases Ty.unify_cases (Ty.unifyAll ts) x with ⟨hbelow, h⟩ | ⟨hnot, h⟩
  · rw [h]
    refine ⟨fun hfits _ => Ty.fitsBehind_of_fits hfits, fun hbehind => ?_⟩
    exact Ty.fits_trans_through hcs .co (hclasses.1 t ht) (.unifyAll hclasses.1) hclasses.2
      (hbehind hbelow) hcovered hbelow.1
  · refine iff_of_true ?_ fun hbelow => absurd hbelow hnot
    rcases h with h | h <;> rw [h]
    · exact hcovered
    · exact Ty.fits_of_isDynamic rfl .co t

theorem Ty.covered_last (ts : List Ty) (x : Ty) : x.assignableTo (Ty.unifyAll (ts ++ [x])) = true := by
  by_cases hts : ts = []
  · subst hts
    exact x.fits_self .co
  · rw [Ty.unifyAll_concat hts]
    exact (Ty.assignableTo_unify _ x).2

theorem Ty.covered_unifyAll (hcs : Coherent cs) (hclasses : ∀ t ∈ ts, t.ClassesIn cs)
    (hways : Ty.GivesWaySafely ts) : ∀ t ∈ ts, t.assignableTo (Ty.unifyAll ts) = true := by
  induction ts using List.reverseRecOn with
  | nil => exact fun t ht => absurd ht List.not_mem_nil
  | append_singleton xs x ih =>
    intro t ht
    rcases List.mem_append.mp ht with ht | ht
    · have hcovered := ih (fun u hu => hclasses u (List.mem_append_left _ hu)) hways.of_append t ht
      exact (Ty.covered_concat_iff hcs hclasses ht hcovered).mpr fun hbelow => hways xs x [] rfl hbelow t ht
    · rw [List.mem_singleton.mp ht]
      exact Ty.covered_last xs x

/-- Every branch is covered by what it is unified to with those after it, one by one, exactly if
nothing dynamic gives way that a branch does not fit. -/
theorem Ty.covered_iff_givesWaySafely (hcs : Coherent cs) (hclasses : ∀ t ∈ ts, t.ClassesIn cs) :
    (∀ before after, ts = before ++ after → ∀ t ∈ before, t.assignableTo (Ty.unifyAll before) = true) ↔
      Ty.GivesWaySafely ts := by
  constructor
  · intro hcovered before next after hts hbelow t ht
    have hsplit : ts = (before ++ [next]) ++ after := by rw [hts, List.append_assoc]; rfl
    have hclasses' : ∀ u ∈ before ++ [next], u.ClassesIn cs :=
      fun u hu => hclasses u (hsplit ▸ List.mem_append_left _ hu)
    exact (Ty.covered_concat_iff hcs hclasses' ht (hcovered before _ hts t ht)).mp
      (hcovered _ _ hsplit t (List.mem_append_left _ ht)) hbelow
  · rintro hways before after rfl
    exact Ty.covered_unifyAll hcs (fun t ht => hclasses t (List.mem_append_left _ ht)) hways.of_append

namespace Codegen

/-! ## The branches each for itself -/

/-- The branches that ended with these types and jumps, in this order. -/
def Join.extend (join : Join) (sides : List (Ty × Nat)) : Join :=
  sides.foldl (fun j side => j.add side.1 side.2) join

theorem Join.withBranch_extend_some (acc : Ty) (jumps : List Nat) (sides : List (Ty × Nat))
    (last : Ty) : (Join.extend ⟨some acc, jumps⟩ sides).withBranch last =
      (sides.map Prod.fst ++ [last]).foldl Ty.unify acc := by
  induction sides generalizing acc jumps with
  | nil => rfl
  | cons side sides ih => exact ih (acc.unify side.1) (side.2 :: jumps)

theorem Join.withBranch_extend (sides : List (Ty × Nat)) (last : Ty) :
    (Join.extend {} sides).withBranch last = Ty.unifyAll (sides.map Prod.fst ++ [last]) := by
  cases sides with
  | nil => rfl
  | cons side sides => exact Join.withBranch_extend_some side.1 [side.2] sides last

/-- Adding branches one after the other to those so far, or all of them in the end. -/
theorem foldlM_sides {γ : Type} {f : Join → γ → Build Join} {g : γ → Build (Ty × Nat)}
    (h : ∀ join x, f join x = do
      let side ← g x
      pure (join.add side.1 side.2)) :
    ∀ (items : List γ) (join : Join), items.foldlM f join = do
      let sides ← items.mapM g
      pure (join.extend sides)
  | [], join => by simp only [List.foldlM_nil, List.mapM_nil, pure_bind, Join.extend, List.foldl_nil]
  | x :: items, join => by
    simp only [List.foldlM_cons, List.mapM_cons, h, foldlM_sides h items, bind_assoc, pure_bind,
      Join.extend, List.foldl_cons]

section

variable (node : NodeCompiler)

/-- One condition of an `if` chain with its body. The answer is the type of the body and the
jump at its end. -/
def compileBranchSide (base : Nat) (span : Span) (branch : Branch) : Build (Ty × Nat) := do
  let line := span.line
  let _ ← node branch.condition .value
  let skip ← emitJump .jumpIfFalse line
  emit .pop line
  let ty ← compileBlock node branch.body line
  let done ← emitJump .jump line
  patchJump skip span
  setHeight (base + 1)
  emit .pop line
  pure (ty, done)

/-- An arm of a match. The answer is the type of its body and the jump at its end. -/
def compileArmSide (slot : UInt16) (subject : Ty) (base : Nat) (arm : Arm) : Build (Ty × Nat) := do
  let r ← inScope true arm.span.line (compileMatched node slot subject arm)
  let done ← emitJump .jump arm.span.line
  fallThrough base r.1.binders.length r.2.1 r.1.failed arm.span
  pure (r.2.2, done)

/-- An `if` chain that answers with the types of all its branches. -/
def compileIfTypes (branches : List Branch) (otherwise : Option (List Expr)) (span : Span) :
    Build (List Ty) := do
  let base ← height
  let sides ← branches.mapM (compileBranchSide node base span)
  let last ← compileOtherwise node otherwise span.line
  patchJumps (Join.extend {} sides).jumps span
  setHeight (base + 1)
  pure (sides.map Prod.fst ++ [last])

/-- The unit of a match, which answers with the types of all arms and of the default. -/
def compileMatchTypes (subject : Expr) (arms : List Arm) (otherwise : Option (List Expr))
    (span : Span) : Build (List Ty) := do
  let subjectTy ← node subject .value
  let slot ← declareLocal "$match" subjectTy true subject.span
  let base ← height
  let sides ← arms.mapM (compileArmSide node slot subjectTy base)
  let last ← compileOtherwise node otherwise span.line
  patchJumps (Join.extend {} sides).jumps span
  setHeight (base + 1)
  pure (sides.map Prod.fst ++ [last])

theorem compileIf_eq_unifyAll (branches : List Branch) (otherwise : Option (List Expr))
    (span : Span) : compileIf node branches otherwise span =
      Ty.unifyAll <$> compileIfTypes node branches otherwise span := by
  have hside (base : Nat) (join : Join) (branch : Branch) :
      compileBranch node base span join branch = (do
        let side ← compileBranchSide node base span branch
        pure (join.add side.1 side.2)) := by
    simp only [compileBranch, compileBranchSide, bind_assoc, pure_bind]
  simp only [compileIf, compileIfTypes, foldlM_sides (hside _), Join.withBranch_extend,
    map_eq_pure_bind, bind_assoc, pure_bind]

theorem compileMatchBody_eq_unifyAll (subject : Expr) (arms : List Arm)
    (otherwise : Option (List Expr)) (span : Span) :
    compileMatchBody node subject arms otherwise span =
      Ty.unifyAll <$> compileMatchTypes node subject arms otherwise span := by
  have hside (slot : UInt16) (subjectTy : Ty) (base : Nat) (join : Join) (arm : Arm) :
      compileArm node slot subjectTy base join arm = (do
        let side ← compileArmSide node slot subjectTy base arm
        pure (join.add side.1 side.2)) := by
    simp only [compileArm_eq, compileArmSide, bind_assoc, pure_bind]
  simp only [compileMatchBody, compileMatchTypes, foldlM_sides (hside _ _ _), Join.withBranch_extend,
    map_eq_pure_bind, bind_assoc, pure_bind]

end

/-- **The branches that are covered.** An `if` chain and a match have the type that the types of
their branches unify to, from left to right. It covers the last branch and the type of all
branches before it. It covers every branch, and did so at each branch on the way, exactly if
wherever the type so far gave way to the type of a branch, the parts of the branches before fit
in the place of what was dynamic in it. For the last type this is only needed if it is not
dynamic itself. -/
theorem branches_covered :
    (∀ node branches otherwise span, compileIf node branches otherwise span =
      Ty.unifyAll <$> compileIfTypes node branches otherwise span) ∧
    (∀ node subject arms otherwise span, compileMatch node subject arms otherwise span =
      compileCalledUnit "<match>" span
        (Ty.unifyAll <$> compileMatchTypes node subject arms otherwise span)) ∧
    (∀ (ts : List Ty) (t : Ty), ts ≠ [] →
      (Ty.unifyAll ts).assignableTo (Ty.unifyAll (ts ++ [t])) = true ∧
        t.assignableTo (Ty.unifyAll (ts ++ [t])) = true) ∧
    ∀ (cs : List ClassRef) (ts : List Ty), Coherent cs → (∀ t ∈ ts, t.ClassesIn cs) →
      ((∀ before after, ts = before ++ after →
        ∀ t ∈ before, t.assignableTo (Ty.unifyAll before) = true) ↔ Ty.GivesWaySafely ts) ∧
      (((Ty.unifyAll ts).isDynamic = false → Ty.GivesWaySafely ts) →
        ∀ t ∈ ts, t.assignableTo (Ty.unifyAll ts) = true) := by
  refine ⟨compileIf_eq_unifyAll, ?_, ?_, ?_⟩
  · intro node subject arms otherwise span
    rw [compileMatch, compileMatchBody_eq_unifyAll]
  · intro ts t hts
    rw [Ty.unifyAll_concat hts]
    exact Ty.assignableTo_unify _ t
  · intro cs ts hcs hclasses
    refine ⟨Ty.covered_iff_givesWaySafely hcs hclasses, fun hways t ht => ?_⟩
    cases hdynamic : (Ty.unifyAll ts).isDynamic with
    | true => exact Ty.fits_of_isDynamic hdynamic .co t
    | false => exact Ty.covered_unifyAll hcs hclasses (hways hdynamic) t ht

/-- The types of three pairs. The first, which has a dynamic part, is wide enough for the second.
It gives way to the third, which has one in the same place. -/
def wideningPairs : List Ty :=
  [.tuple [.any, .prim .i8], .tuple [.str, .prim .i8], .tuple [.any, .prim .i16]]

theorem branches_covered_widening :
    Ty.unifyAll wideningPairs = .tuple [.any, .prim .i16] ∧
      (Ty.tuple [.str, .prim .i8]).assignableTo (Ty.unifyAll wideningPairs) = true := by
  refine ⟨by cbv, (branches_covered.2.2.2 [] wideningPairs (by decide) ?_).2 (fun _ => ?_) _
    (.tail _ (.head _))⟩
  · simp [wideningPairs, Ty.ClassesIn, Ty.AllClassesIn, Ty.any, Ty.str]
  · intro before next after hsplit _ t ht
    -- up to two branches come before one to whose type theirs could give way
    rcases before with _ | ⟨a, _ | ⟨b, _ | ⟨c, rest⟩⟩⟩
    · cases ht
    · simp only [wideningPairs, List.cons_append, List.nil_append, List.cons.injEq] at hsplit
      obtain ⟨rfl, rfl, -⟩ := hsplit
      rw [List.mem_singleton.mp ht]
      simp [Ty.unifyAll, Ty.FitsBehind, Ty.AllFitBehind, Ty.fits, Ty.any]
    · simp only [wideningPairs, List.cons_append, List.nil_append, List.cons.injEq] at hsplit
      obtain ⟨rfl, rfl, rfl, -⟩ := hsplit
      have hunified : Ty.unifyAll [.tuple [.any, .prim .i8], .tuple [.str, .prim .i8]] =
        .tuple [.any, .prim .i8] := by cbv
      rw [hunified]
      rcases List.mem_pair.mp ht with rfl | rfl
      · simp [Ty.FitsBehind, Ty.AllFitBehind, Ty.fits, Ty.any]
      · simp [Ty.FitsBehind, Ty.AllFitBehind, Ty.fits, Ty.any, Ty.str]
    · have hlength := congrArg List.length hsplit
      simp [wideningPairs] at hlength

/-- A pair of a text and a number is covered by a pair with a dynamic part before it. When that
gives way to a pair of numbers, it no longer is. Of two classes with the same name the first
stands for both. When it gives way to its parent, the other one is no longer covered. -/
theorem branch_uncovered :
    (Ty.tuple [.str, .prim .i8]).assignableTo (Ty.unifyAll
      [.tuple [.any, .prim .i8], .tuple [.str, .prim .i8], .tuple [.int, .prim .i16]]) = false ∧
    (Ty.inst ⟨2, "Crate", [], []⟩ []).assignableTo (Ty.unifyAll
      [.inst crateClass [], .inst ⟨2, "Crate", [], []⟩ [], .inst boxClass [.int]]) = false :=
  ⟨by decide +kernel, by decide +kernel⟩

end Codegen

end Strand
