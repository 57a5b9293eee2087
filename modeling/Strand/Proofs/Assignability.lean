import Mathlib.Data.List.Infix
import Strand.Ty.Assignable

/-!
# Assignability is a preorder

Every type is assignable to itself, and two types are assignable to the type that they
are unified to. Assignability is not transitive in general: a dynamic type fits
everywhere, so it would connect any two types. Among types nothing of which is dynamic
it is, if classes of one name have one lineage.

Cells and functions compare their parts in both directions. All statements are therefore
about `Ty.fits` in a direction that is left open.
-/

namespace Strand

variable {p : Primitive} {d : Direction} {α : Type} {b : Ty} {cs : List ClassRef}

/-! ## Primitives and classes -/

namespace Direction

variable {r : α → α → Bool}

/-- What can be chained in one direction can be chained in the other. -/
theorem ask_trans {a b c : α} (d : Direction) (hco : r a b = true → r b c = true → r a c = true)
    (hcontra : r c b = true → r b a = true → r c a = true)
    (hab : d.ask r a b = true) (hbc : d.ask r b c = true) : d.ask r a c = true := by
  cases d with
  | co => exact hco hab hbc
  | contra => exact hcontra hbc hab

theorem ask_self {a : α} (d : Direction) (h : r a a = true) : d.ask r a a = true := by
  cases d <;> exact h

end Direction

namespace Primitive

theorem widensTo_self (p : Primitive) : p.widensTo p = true := by
  cases p <;> rfl

theorem mem_all (p : Primitive) : p ∈ all := by
  cases p <;> decide

theorem widensTo_trans {q r : Primitive} (hpq : p.widensTo q = true)
    (hqr : q.widensTo r = true) : p.widensTo r = true := by
  have htable : ∀ p ∈ all, ∀ q ∈ all, p.widensTo q = true →
      ∀ r ∈ all, q.widensTo r = true → p.widensTo r = true := by
    decide
  exact htable p p.mem_all q q.mem_all hpq r r.mem_all hqr

/-- A list is not a number, so nothing else widens to or from it. -/
theorem widensTo_list (h : p.widensTo .list = true) : p = .list := by
  revert h
  cases p <;> decide

theorem list_widensTo (h : Primitive.list.widensTo p = true) : p = .list := by
  revert h
  cases p <;> decide

theorem ask_widensTo_list (h : d.ask widensTo p .list = true) : p = .list := by
  cases d with
  | co => exact widensTo_list h
  | contra => exact list_widensTo h

end Primitive

/-- The names of a class and of the classes it inherits from, nearest first. -/
def ClassRef.lineage (c : ClassRef) : List String := c.chain.map Prod.snd

/-- Equal names have equal parent chains: wherever two lineages pass through classes of
one name, they go on alike. In particular no name comes twice in a lineage. -/
def Coherent (cs : List ClassRef) : Prop :=
  ∀ c ∈ cs, ∀ d ∈ cs, ∀ l ∈ c.lineage.tails, ∀ m ∈ d.lineage.tails, l.head? = m.head? → l = m

instance (cs : List ClassRef) : Decidable (Coherent cs) := by
  unfold Coherent
  infer_instance

namespace ClassRef

variable {a : ClassRef}

theorem isSubclassOf_iff {b : ClassRef} : a.isSubclassOf b = true ↔ b.name ∈ a.lineage := by
  rw [isSubclassOf, lineage, List.any_eq_true, List.mem_map]
  simp only [beq_iff_eq]

theorem head?_lineage (c : ClassRef) : c.lineage.head? = some c.name := rfl

theorem ask_isSubclassOf_of_name_eq {b : ClassRef} (d : Direction) (h : a.name = b.name) :
    d.ask isSubclassOf a b = true := by
  have hab : b.name ∈ a.lineage := h ▸ List.mem_of_mem_head? (head?_lineage a)
  have hba : a.name ∈ b.lineage := h ▸ List.mem_of_mem_head? (head?_lineage b)
  cases d with
  | co => exact isSubclassOf_iff.mpr hab
  | contra => exact isSubclassOf_iff.mpr hba

end ClassRef

namespace Coherent

variable {cs : List ClassRef} {a b c : ClassRef}

/-- The lineage of a class goes on with that of any class in it. -/
theorem lineage_suffix (h : Coherent cs) (ha : a ∈ cs) (hb : b ∈ cs)
    (hab : a.isSubclassOf b = true) : b.lineage <:+ a.lineage := by
  obtain ⟨before, after, hsplit⟩ := List.append_of_mem (ClassRef.isSubclassOf_iff.mp hab)
  have hafter : b.name :: after <:+ a.lineage := ⟨before, hsplit.symm⟩
  have hsame : b.lineage = b.name :: after :=
    h b hb a ha _ ((List.mem_tails _ _).mpr (List.suffix_refl _)) _ ((List.mem_tails _ _).mpr hafter)
      (ClassRef.head?_lineage b)
  rw [hsame]
  exact hafter

theorem isSubclassOf_trans (h : Coherent cs) (ha : a ∈ cs) (hb : b ∈ cs)
    (hab : a.isSubclassOf b = true) (hbc : b.isSubclassOf c = true) :
    a.isSubclassOf c = true := by
  rw [ClassRef.isSubclassOf_iff] at hbc ⊢
  exact (h.lineage_suffix ha hb hab).subset hbc

theorem name_eq_of_isSubclassOf (h : Coherent cs) (ha : a ∈ cs) (hb : b ∈ cs)
    (hab : a.isSubclassOf b = true) (hba : b.isSubclassOf a = true) : a.name = b.name := by
  have hsame : b.lineage = a.lineage :=
    (h.lineage_suffix ha hb hab).eq_of_length_le (h.lineage_suffix hb ha hba).length_le
  have hhead := congrArg List.head? hsame
  rw [ClassRef.head?_lineage, ClassRef.head?_lineage] at hhead
  exact (Option.some.inj hhead).symm

theorem ask_isSubclassOf_trans (h : Coherent cs) (ha : a ∈ cs) (hb : b ∈ cs) (hc : c ∈ cs)
    (hab : d.ask ClassRef.isSubclassOf a b = true) (hbc : d.ask ClassRef.isSubclassOf b c = true) :
    d.ask ClassRef.isSubclassOf a c = true :=
  d.ask_trans (h.isSubclassOf_trans ha hb) (h.isSubclassOf_trans hc hb) hab hbc

/-- Between two classes of one name there are only classes of that name. -/
theorem name_eq_of_between (h : Coherent cs) (ha : a ∈ cs) (hb : b ∈ cs) (hc : c ∈ cs)
    (hab : d.ask ClassRef.isSubclassOf a b = true)
    (hbc : d.ask ClassRef.isSubclassOf b c = true) (hac : a.name = c.name) : a.name = b.name := by
  cases d with
  | co =>
    have hba : b.isSubclassOf a = true := by
      rw [ClassRef.isSubclassOf_iff, hac]
      exact ClassRef.isSubclassOf_iff.mp hbc
    exact h.name_eq_of_isSubclassOf ha hb hab hba
  | contra =>
    have hbc' : b.isSubclassOf c = true := by
      rw [ClassRef.isSubclassOf_iff, ← hac]
      exact ClassRef.isSubclassOf_iff.mp hab
    rw [hac, h.name_eq_of_isSubclassOf hb hc hbc' hbc]

end Coherent

/-! ## Types that are the same -/

mutual

theorem Ty.same_self : ∀ t : Ty, t.same t = true
  | .prim p => by simp [Ty.same]
  | .generic name => by simp [Ty.same]
  | .tuple xs => by rw [Ty.same, Ty.sameAll_self xs]
  | .ref x => by rw [Ty.same, Ty.same_self x]
  | .classObject c => by simp [Ty.same]
  | .inst c xs => by simp [Ty.same, Ty.sameAll_self xs]
  | .fn f => by rw [Ty.same, Signature.same_self f]
  | .enumObject e => by simp [Ty.same]
  | .variant v => by rw [Ty.same, Variant.same_self v]

theorem Signature.same_self : ∀ f : Signature, f.same f = true
  | ⟨result, params, _, _, _⟩ => by
    simp [Signature.same, Ty.same_self result, Ty.sameAll_self params]

theorem Variant.same_self : ∀ v : Variant, v.same v = true
  | ⟨_, _, _, _, _, fieldTypes⟩ => by
    simp [Variant.same, Ty.sameAll_self fieldTypes]

theorem Ty.sameAll_self : ∀ ts : List Ty, Ty.sameAll ts ts = true
  | [] => by rw [Ty.sameAll]
  | t :: ts => by rw [Ty.sameAll, Ty.same_self t, Ty.sameAll_self ts, Bool.and_true]

end

mutual

/-- Types that are the same may stand for each other. -/
theorem Ty.fits_of_same : ∀ {a b : Ty} (d : Direction), a.same b = true → a.fits d b = true
  | .prim p, b, d, h => by
    cases b with
    | prim q =>
      obtain rfl : p = q := by simpa [Ty.same] using h
      rw [Ty.fits, d.ask_self p.widensTo_self, Bool.or_true]
    | _ => simp [Ty.same] at h
  | .generic _, _, _, _ => rfl
  | .tuple xs, b, d, h => by
    cases b with
    | tuple ys =>
      rw [Ty.same] at h
      rw [Ty.fits, Ty.fitsAll_of_sameAll d h, Bool.or_true]
    | _ => simp [Ty.same] at h
  | .ref x, b, d, h => by
    cases b with
    | ref y =>
      rw [Ty.same] at h
      rw [Ty.fits, Ty.fits_of_same .co h, Ty.fits_of_same .contra h, Bool.and_true, Bool.or_true]
    | _ => simp [Ty.same] at h
  | .classObject c, b, d, h => by
    cases b with
    | classObject e =>
      rw [Ty.same, beq_iff_eq] at h
      rw [Ty.fits, ClassRef.ask_isSubclassOf_of_name_eq d h, Bool.or_true]
    | _ => simp [Ty.same] at h
  | .inst c xs, b, d, h => by
    cases b with
    | inst e ys =>
      rw [Ty.same, Bool.and_eq_true, beq_iff_eq] at h
      rw [Ty.fits, ClassRef.ask_isSubclassOf_of_name_eq d h.1, Ty.fitsAll_of_sameAll d h.2,
        Bool.or_true, Bool.and_true, Bool.or_true]
    | _ => simp [Ty.same] at h
  | .fn f, b, d, h => by
    cases b with
    | fn g =>
      rw [Ty.same] at h
      rw [Ty.fits, Signature.fits_of_same d h, Bool.or_true]
    | _ => simp [Ty.same] at h
  | .enumObject e, b, d, h => by
    cases b with
    | enumObject e' =>
      rw [Ty.same] at h
      simp [Ty.fits, h]
    | _ => simp [Ty.same] at h
  | .variant v, b, d, h => by
    cases b with
    | variant w =>
      cases v
      simp only [Ty.same, Variant.same, Bool.and_eq_true] at h
      simp [Ty.fits, h]
    | _ => simp [Ty.same] at h

theorem Signature.fits_of_same : ∀ {f g : Signature} (d : Direction), f.same g = true →
    f.fits d g = true
  | ⟨result, params, _, _, _⟩, g, d, h => by
    simp only [Signature.same, Bool.and_eq_true] at h
    obtain ⟨⟨⟨⟨hresult, hparams⟩, -⟩, hvarargs⟩, -⟩ := h
    rw [Signature.fits, hvarargs, Ty.fitsAll_of_sameAll d.flip hparams, Ty.fits_of_same d hresult]
    rfl

theorem Ty.fitsAll_of_sameAll : ∀ {xs ys : List Ty} (d : Direction), Ty.sameAll xs ys = true →
    Ty.fitsAll d xs ys = true
  | [], [], _, _ => rfl
  | [], _ :: _, _, h => by simp [Ty.sameAll] at h
  | _ :: _, [], _, h => by simp [Ty.sameAll] at h
  | x :: xs, y :: ys, d, h => by
    rw [Ty.sameAll, Bool.and_eq_true] at h
    rw [Ty.fitsAll, Ty.fits_of_same d h.1, Ty.fitsAll_of_sameAll d h.2, Bool.and_true]

end

theorem Ty.fits_self (d : Direction) (t : Ty) : t.fits d t = true :=
  Ty.fits_of_same d t.same_self

/-! ## The two directions -/

theorem Direction.ask_flip (d : Direction) (r : α → α → Bool) (a b : α) :
    d.flip.ask r a b = d.ask r b a := by
  cases d <;> rfl

@[simp] theorem Ty.isDynamic_prim (p : Primitive) : (Ty.prim p).isDynamic = (p == .any) := by
  cases p <;> rfl

theorem Ty.fits_of_isDynamic (h : b.isDynamic = true) (d : Direction) (a : Ty) :
    a.fits d b = true := by
  cases a <;> simp [Ty.fits, h]

mutual

/-- To ask in one direction is to ask in the other with the types exchanged. -/
theorem Ty.fits_flip : ∀ (d : Direction) (a b : Ty), a.fits d.flip b = b.fits d a
  | d, .prim p, b => by
    cases b with
    | prim q =>
      rw [Ty.fits, Ty.fits, Ty.isDynamic_prim, Ty.isDynamic_prim, d.ask_flip,
        Bool.or_comm (p == .any)]
    | generic name => rw [Ty.fits_of_isDynamic rfl, Ty.fits]
    | tuple ys => cases d <;> cases p <;> rfl
    | _ => cases p <;> rfl
  | d, .generic _, b => (Ty.fits_of_isDynamic rfl d b).symm
  | d, .tuple xs, b => by
    cases b with
    | tuple ys => rw [Ty.fits, Ty.fits, Ty.fitsAll_flip d xs]; rfl
    | prim q => cases d <;> cases q <;> rfl
    | _ => rfl
  | d, .ref x, b => by
    cases b with
    | ref y =>
      have hco : x.fits .co y = y.fits .contra x := Ty.fits_flip .contra x y
      have hcontra : x.fits .contra y = y.fits .co x := Ty.fits_flip .co x y
      rw [Ty.fits, Ty.fits, hco, hcontra, Bool.and_comm]
      rfl
    | prim q => cases q <;> rfl
    | _ => rfl
  | d, .classObject c, b => by
    cases b with
    | classObject e => rw [Ty.fits, Ty.fits, d.ask_flip]; rfl
    | prim q => cases q <;> rfl
    | _ => rfl
  | d, .inst c xs, b => by
    cases b with
    | inst e ys => rw [Ty.fits, Ty.fits, d.ask_flip, Ty.fitsAll_flip d xs, bne_comm]; rfl
    | prim q => cases q <;> rfl
    | _ => rfl
  | d, .fn f, b => by
    cases b with
    | fn g => rw [Ty.fits, Ty.fits, Signature.fits_flip d f]; rfl
    | prim q => cases q <;> rfl
    | _ => rfl
  | d, .enumObject e, b => by
    cases b with
    | enumObject e' => rw [Ty.fits, Ty.fits, Bool.beq_comm]; rfl
    | variant w => cases d <;> rfl
    | prim q => cases q <;> rfl
    | _ => rfl
  | d, .variant v, b => by
    cases b with
    | enumObject e => cases d <;> rfl
    | variant w => rw [Ty.fits, Ty.fits, Bool.beq_comm, Bool.beq_comm (a := v.name)]; rfl
    | prim q => cases q <;> rfl
    | _ => rfl

theorem Signature.fits_flip : ∀ (d : Direction) (f g : Signature), f.fits d.flip g = g.fits d f
  | d, ⟨result, params, _, _, _⟩, ⟨result', params', _, _, _⟩ => by
    rw [Signature.fits, Signature.fits, Ty.fits_flip d result, Ty.fitsAll_flip d.flip params,
      Bool.beq_comm]

theorem Ty.fitsAll_flip : ∀ (d : Direction) (xs ys : List Ty),
    Ty.fitsAll d.flip xs ys = Ty.fitsAll d ys xs
  | _, [], [] => rfl
  | _, [], _ :: _ => rfl
  | _, _ :: _, [] => rfl
  | d, x :: xs, y :: ys => by
    rw [Ty.fitsAll, Ty.fitsAll, Ty.fits_flip d x, Ty.fitsAll_flip d xs]

end

/-! ## Unification -/

theorem Ty.assignableTo_unify (a b : Ty) :
    a.assignableTo (a.unify b) = true ∧ b.assignableTo (a.unify b) = true := by
  unfold Ty.unify
  by_cases hsame : a.same b = true
  · rw [if_pos hsame]
    have hba : b.fits .co a = true := by
      rw [← Ty.fits_flip .co a b]
      exact Ty.fits_of_same .contra hsame
    exact ⟨a.fits_self .co, hba⟩
  · rw [if_neg hsame]
    split
    · exact ⟨Ty.fits_of_isDynamic rfl .co a, Ty.fits_of_isDynamic rfl .co b⟩
    · split
      · rename_i hba
        exact ⟨a.fits_self .co, hba⟩
      · split
        · rename_i hab
          exact ⟨hab, b.fits_self .co⟩
        · exact ⟨Ty.fits_of_isDynamic rfl .co a, Ty.fits_of_isDynamic rfl .co b⟩

/-! ## Transitivity -/

mutual

/-- Nothing in the type is dynamic, and its classes are among the given ones. Variants are
compared by name only, so it does not matter what they carry. -/
def Ty.GroundIn (cs : List ClassRef) : Ty → Prop
  | .prim p => p ≠ .any
  | .tuple items => Ty.AllGroundIn cs items
  | .ref target => target.GroundIn cs
  | .generic _ => False
  | .classObject c => c ∈ cs
  | .inst c args => c ∈ cs ∧ Ty.AllGroundIn cs args
  | .fn sig => sig.GroundIn cs
  | .enumObject _ => True
  | .variant _ => True

/-- The same for what a function takes and returns. -/
def Signature.GroundIn (cs : List ClassRef) : Signature → Prop
  | ⟨result, params, _, _, _⟩ => result.GroundIn cs ∧ Ty.AllGroundIn cs params

/-- The same for several types. -/
def Ty.AllGroundIn (cs : List ClassRef) : List Ty → Prop
  | [] => True
  | t :: ts => t.GroundIn cs ∧ Ty.AllGroundIn cs ts

end

namespace Ty

variable {d : Direction} {b : Ty} {c : ClassRef} {xs : List Ty}

theorem fits_prim_iff (hp : p ≠ .any) (hb : b.isDynamic = false) :
    (prim p).fits d b = true ↔ (∃ q, b = .prim q ∧ d.ask Primitive.widensTo p q = true) ∨
      (p = .list ∧ d = .contra ∧ ∃ ys, b = .tuple ys) := by
  cases b <;> simp [fits, hb, hp]

theorem fits_tuple_iff (hb : b.isDynamic = false) :
    (tuple xs).fits d b = true ↔ (∃ ys, b = .tuple ys ∧ fitsAll d xs ys = true) ∨
      (d = .co ∧ b = .prim .list) := by
  cases b with
  | prim q => cases q <;> simp_all [fits]
  | _ => simp [fits, hb]

theorem fits_ref_iff {x : Ty} (hb : b.isDynamic = false) :
    (ref x).fits d b = true ↔
      ∃ y, b = .ref y ∧ x.fits .co y = true ∧ x.fits .contra y = true := by
  cases b <;> simp [fits, hb]

theorem fits_classObject_iff (hb : b.isDynamic = false) : (classObject c).fits d b = true ↔
      ∃ e, b = .classObject e ∧ d.ask ClassRef.isSubclassOf c e = true := by
  cases b <;> simp [fits, hb]

theorem fits_inst_iff (hb : b.isDynamic = false) :
    (inst c xs).fits d b = true ↔ ∃ e ys, b = .inst e ys ∧
      d.ask ClassRef.isSubclassOf c e = true ∧ (c.name = e.name → fitsAll d xs ys = true) := by
  cases b <;> simp [fits, hb, Classical.or_iff_not_imp_left]

theorem fits_fn_iff {f : Signature} (hb : b.isDynamic = false) :
    (fn f).fits d b = true ↔ ∃ g, b = .fn g ∧ f.fits d g = true := by
  cases b <;> simp [fits, hb]

theorem fits_enumObject_iff {e : EnumRef} (hb : b.isDynamic = false) :
    (enumObject e).fits d b = true ↔ (∃ e', b = .enumObject e' ∧ e.name = e'.name) ∨
      (d = .contra ∧ ∃ w, b = .variant w ∧ w.enumName = e.name) := by
  cases b <;> simp [fits, hb]

theorem fits_variant_iff {v : Variant} (hb : b.isDynamic = false) :
    (variant v).fits d b = true ↔
      (∃ w, b = .variant w ∧ v.enumName = w.enumName ∧ v.name = w.name) ∨
        (d = .co ∧ ∃ e, b = .enumObject e ∧ v.enumName = e.name) := by
  cases b <;> simp [fits, hb]

end Ty

mutual

/-- The classes in the type are among the given ones. -/
def Ty.ClassesIn (cs : List ClassRef) : Ty → Prop
  | .tuple items => Ty.AllClassesIn cs items
  | .ref target => target.ClassesIn cs
  | .classObject c => c ∈ cs
  | .inst c args => c ∈ cs ∧ Ty.AllClassesIn cs args
  | .fn sig => sig.ClassesIn cs
  | .prim _ | .generic _ | .enumObject _ | .variant _ => True

/-- The same for what a function takes and returns. -/
def Signature.ClassesIn (cs : List ClassRef) : Signature → Prop
  | ⟨result, params, _, _, _⟩ => result.ClassesIn cs ∧ Ty.AllClassesIn cs params

/-- The same for several types. -/
def Ty.AllClassesIn (cs : List ClassRef) : List Ty → Prop
  | [] => True
  | t :: ts => t.ClassesIn cs ∧ Ty.AllClassesIn cs ts

end

mutual

theorem Ty.GroundIn.classesIn : ∀ {t : Ty}, t.GroundIn cs → t.ClassesIn cs
  | .tuple _, h => Ty.AllGroundIn.allClassesIn h
  | .ref target, h => Ty.GroundIn.classesIn (t := target) h
  | .classObject _, h => h
  | .inst _ _, h => ⟨h.1, Ty.AllGroundIn.allClassesIn h.2⟩
  | .fn _, h => Signature.GroundIn.classesIn h
  | .prim _, _ | .generic _, _ | .enumObject _, _ | .variant _, _ => trivial

theorem Signature.GroundIn.classesIn : ∀ {f : Signature},
    f.GroundIn cs → f.ClassesIn cs
  | ⟨_, _, _, _, _⟩, h => ⟨h.1.classesIn, Ty.AllGroundIn.allClassesIn h.2⟩

theorem Ty.AllGroundIn.allClassesIn : ∀ {ts : List Ty},
    Ty.AllGroundIn cs ts → Ty.AllClassesIn cs ts
  | [], _ => trivial
  | _ :: _, h => ⟨h.1.classesIn, Ty.AllGroundIn.allClassesIn h.2⟩

end

mutual

/-- Where `b` has a dynamic part, the part of `a` in its place fits that of `c`. Arguments of
classes are compared only where the names of the classes are the same. -/
def Ty.FitsBehind (d : Direction) : Ty → Ty → Ty → Prop
  | .prim p, a, c => p = .any → a.fits d c = true
  | .generic _, a, c => a.fits d c = true
  | .tuple ys, a, c =>
    match a, c with
    | .tuple xs, .tuple zs => Ty.AllFitBehind d ys xs zs
    | _, _ => True
  | .ref y, a, c =>
    match a, c with
    | .ref x, .ref z => y.FitsBehind .co x z ∧ y.FitsBehind .contra x z
    | _, _ => True
  | .inst _ ys, a, c =>
    match a, c with
    | .inst c xs, .inst e zs => c.name = e.name → Ty.AllFitBehind d ys xs zs
    | _, _ => True
  | .fn g, a, c =>
    match a, c with
    | .fn f, .fn h => g.FitsBehind d f h
    | _, _ => True
  | .classObject _, _, _ | .enumObject _, _, _ | .variant _, _, _ => True
termination_by structural b => b

/-- The same for functions, whose parameters are compared the other way round. -/
def Signature.FitsBehind (d : Direction) : Signature → Signature → Signature → Prop
  | ⟨result, params, _, _, _⟩, f, h =>
    Ty.AllFitBehind d.flip params f.params h.params ∧ result.FitsBehind d f.result h.result
termination_by structural g => g

/-- The same type by type, as far as there are three in a place. -/
def Ty.AllFitBehind (d : Direction) : List Ty → List Ty → List Ty → Prop
  | [], _, _ => True
  | y :: ys, xs, zs =>
    match xs, zs with
    | x :: xs, z :: zs => y.FitsBehind d x z ∧ Ty.AllFitBehind d ys xs zs
    | _, _ => True
termination_by structural ys => ys

end

mutual

/-- Types that fit do so behind every other type. -/
theorem Ty.fitsBehind_of_fits : ∀ {d : Direction} {b a c : Ty}, a.fits d c = true → b.FitsBehind d a c
  | _, .prim _, _, _, h => fun _ => h
  | _, .generic _, _, _, h => h
  | d, .tuple ys, a, c, h => by
    cases a with
    | tuple xs =>
      cases c with
      | tuple zs => exact Ty.allFitBehind_of_fitsAll (by simpa [Ty.fits, Ty.isDynamic] using h)
      | _ => trivial
    | _ => trivial
  | d, .ref y, a, c, h => by
    cases a with
    | ref x =>
      cases c with
      | ref z =>
        obtain ⟨hco, hcontra⟩ : _ ∧ _ := by simpa [Ty.fits, Ty.isDynamic] using h
        exact ⟨Ty.fitsBehind_of_fits hco, Ty.fitsBehind_of_fits hcontra⟩
      | _ => trivial
    | _ => trivial
  | d, .inst _ ys, a, c, h => by
    cases a with
    | inst k xs =>
      cases c with
      | inst e zs =>
        intro hname
        obtain ⟨-, hargs⟩ : _ ∧ _ := by simpa [Ty.fits, Ty.isDynamic, hname] using h
        exact Ty.allFitBehind_of_fitsAll hargs
      | _ => trivial
    | _ => trivial
  | d, .fn g, a, c, h => by
    cases a with
    | fn f =>
      cases c with
      | fn k => exact Signature.fitsBehind_of_fits (g := g) (by simpa [Ty.fits, Ty.isDynamic] using h)
      | _ => trivial
    | _ => trivial
  | _, .classObject _, _, _, _ | _, .enumObject _, _, _, _ | _, .variant _, _, _, _ => trivial

theorem Signature.fitsBehind_of_fits : ∀ {d : Direction} {g f h : Signature}, f.fits d h = true →
    g.FitsBehind d f h
  | _, ⟨_, _, _, _, _⟩, ⟨_, _, _, _, _⟩, _, h => by
    rw [Signature.fits, Bool.and_eq_true, Bool.and_eq_true] at h
    exact ⟨Ty.allFitBehind_of_fitsAll h.1.2, Ty.fitsBehind_of_fits h.2⟩

theorem Ty.allFitBehind_of_fitsAll : ∀ {d : Direction} {ys xs zs : List Ty},
    Ty.fitsAll d xs zs = true → Ty.AllFitBehind d ys xs zs
  | _, [], _, _, _ | _, _ :: _, [], _, _ | _, _ :: _, _ :: _, [], _ => trivial
  | _, _ :: _, _ :: _, _ :: _, h => by
    rw [Ty.fitsAll, Bool.and_eq_true] at h
    exact ⟨Ty.fitsBehind_of_fits h.1, Ty.allFitBehind_of_fitsAll h.2⟩

end

mutual

/-- Behind a type nothing of which is dynamic, there is nothing to fit. -/
theorem Ty.GroundIn.fitsBehind : ∀ {d : Direction} {b a c : Ty},
    b.GroundIn cs → b.FitsBehind d a c
  | _, .prim _, _, _, h => fun hany => absurd hany h
  | _, .generic _, _, _, h => h.elim
  | d, .tuple ys, a, c, h => by
    cases a with
    | tuple xs =>
      cases c with
      | tuple zs => exact Ty.AllGroundIn.allFitBehind h
      | _ => trivial
    | _ => trivial
  | d, .ref y, a, c, h => by
    cases a with
    | ref x =>
      cases c with
      | ref z => exact ⟨Ty.GroundIn.fitsBehind (b := y) h, Ty.GroundIn.fitsBehind (b := y) h⟩
      | _ => trivial
    | _ => trivial
  | d, .inst _ ys, a, c, h => by
    cases a with
    | inst k xs =>
      cases c with
      | inst e zs => exact fun _ => Ty.AllGroundIn.allFitBehind h.2
      | _ => trivial
    | _ => trivial
  | d, .fn g, a, c, h => by
    cases a with
    | fn f =>
      cases c with
      | fn k => exact Signature.GroundIn.fitsBehind (g := g) h
      | _ => trivial
    | _ => trivial
  | _, .classObject _, _, _, _ | _, .enumObject _, _, _, _ | _, .variant _, _, _, _ => trivial

theorem Signature.GroundIn.fitsBehind : ∀ {d : Direction} {g f h : Signature},
    g.GroundIn cs → g.FitsBehind d f h
  | _, ⟨_, _, _, _, _⟩, _, _, h => ⟨Ty.AllGroundIn.allFitBehind h.2, h.1.fitsBehind⟩

theorem Ty.AllGroundIn.allFitBehind : ∀ {d : Direction} {ys xs zs : List Ty},
    Ty.AllGroundIn cs ys → Ty.AllFitBehind d ys xs zs
  | _, [], _, _, _ | _, _ :: _, [], _, _ | _, _ :: _, _ :: _, [], _ => trivial
  | _, _ :: _, _ :: _, _ :: _, h => ⟨h.1.fitsBehind, Ty.AllGroundIn.allFitBehind h.2⟩

end

theorem Ty.ne_any_of_static (h : (Ty.prim p).isDynamic = false) : p ≠ .any := by
  rw [Ty.isDynamic_prim] at h
  exact ne_of_beq_false h

/-- Only types that are not dynamic have to be looked at. -/
theorem Ty.FitsBehind.of_static {a c : Ty} (hb : b.FitsBehind d a c)
    (h : b.isDynamic = false → c.isDynamic = false → a.fits d c = true) : a.fits d c = true := by
  by_cases hc : c.isDynamic = true
  · exact Ty.fits_of_isDynamic hc d a
  cases b with
  | prim p =>
    by_cases hp : p = .any
    · exact hb hp
    · exact h (by rw [Ty.isDynamic_prim, beq_false_of_ne hp]) (Bool.not_eq_true _ ▸ hc)
  | generic name => exact hb
  | _ => exact h rfl (Bool.not_eq_true _ ▸ hc)

mutual

/-- Assignability goes through a type, as far as that is not dynamic. -/
theorem Ty.fits_trans_through (hcs : Coherent cs) (d : Direction) :
    ∀ {a b c : Ty}, a.ClassesIn cs → b.ClassesIn cs → c.ClassesIn cs → b.FitsBehind d a c →
      a.fits d b = true → b.fits d c = true → a.fits d c = true
  | .prim p, b, c, _, _, _, h, hab, hbc => by
    refine h.of_static fun hb hc => ?_
    by_cases ha : p = .any
    · simp [Ty.fits, ha]
    rw [Ty.fits_prim_iff ha hc]
    rcases (Ty.fits_prim_iff ha hb).mp hab with ⟨q, rfl, hpq⟩ | ⟨hp, hd, ys, rfl⟩
    · rcases (Ty.fits_prim_iff (Ty.ne_any_of_static hb) hc).mp hbc with
        ⟨r, rfl, hqr⟩ | ⟨hq, hd, zs, rfl⟩
      · exact .inl ⟨r, rfl, d.ask_trans Primitive.widensTo_trans Primitive.widensTo_trans hpq hqr⟩
      · subst hq
        exact .inr ⟨Primitive.ask_widensTo_list hpq, hd, zs, rfl⟩
    · rcases (Ty.fits_tuple_iff hc).mp hbc with ⟨zs, rfl, -⟩ | ⟨hco, -⟩
      · exact .inr ⟨hp, hd, zs, rfl⟩
      · exact absurd (hco.symm.trans hd) (by decide)
  | .generic _, _, _, _, _, _, _, _, _ => rfl
  | .tuple xs, b, c, ha, hb', hc', h, hab, hbc => by
    refine h.of_static fun hb hc => ?_
    rw [Ty.fits_tuple_iff hc]
    rcases (Ty.fits_tuple_iff hb).mp hab with ⟨ys, rfl, hxy⟩ | ⟨hd, rfl⟩
    · rcases (Ty.fits_tuple_iff hc).mp hbc with ⟨zs, rfl, hyz⟩ | hlist
      · exact .inl ⟨zs, rfl, Ty.fitsAll_trans_through hcs d ha hb' hc' h hxy hyz⟩
      · exact .inr hlist
    · rcases (Ty.fits_prim_iff (by decide) hc).mp hbc with ⟨r, rfl, hr⟩ | ⟨-, hcontra, -⟩
      · subst hd
        exact .inr ⟨rfl, congrArg Ty.prim (Primitive.list_widensTo hr)⟩
      · exact absurd (hd.symm.trans hcontra) (by decide)
  | .ref x, b, c, ha, hb', hc', h, hab, hbc => by
    refine h.of_static fun hb hc => ?_
    rw [Ty.fits_ref_iff hc]
    obtain ⟨y, rfl, hxy, hyx⟩ := (Ty.fits_ref_iff hb).mp hab
    obtain ⟨z, rfl, hyz, hzy⟩ := (Ty.fits_ref_iff hc).mp hbc
    exact ⟨z, rfl, Ty.fits_trans_through hcs .co (b := y) ha hb' hc' h.1 hxy hyz,
      Ty.fits_trans_through hcs .contra (b := y) ha hb' hc' h.2 hyx hzy⟩
  | .classObject c, b, c', ha, hb', hc', h, hab, hbc => by
    refine h.of_static fun hb hc => ?_
    rw [Ty.fits_classObject_iff hc]
    obtain ⟨d1, rfl, hab⟩ := (Ty.fits_classObject_iff hb).mp hab
    obtain ⟨d2, rfl, hbc⟩ := (Ty.fits_classObject_iff hc).mp hbc
    exact ⟨d2, rfl, hcs.ask_isSubclassOf_trans ha hb' hc' hab hbc⟩
  | .inst c xs, b, c', ha, hb', hc', h, hab, hbc => by
    refine h.of_static fun hb hc => ?_
    rw [Ty.fits_inst_iff hc]
    obtain ⟨d1, ys, rfl, hab, hxy⟩ := (Ty.fits_inst_iff hb).mp hab
    obtain ⟨d2, zs, rfl, hbc, hyz⟩ := (Ty.fits_inst_iff hc).mp hbc
    refine ⟨d2, zs, rfl, hcs.ask_isSubclassOf_trans ha.1 hb'.1 hc'.1 hab hbc, fun hname => ?_⟩
    -- the arguments count only if the class in the middle has the same name too
    have hmiddle : c.name = d1.name := hcs.name_eq_of_between ha.1 hb'.1 hc'.1 hab hbc hname
    exact Ty.fitsAll_trans_through hcs d ha.2 hb'.2 hc'.2 (h hname) (hxy hmiddle)
      (hyz (hmiddle.symm.trans hname))
  | .fn f, b, c, ha, hb', hc', h, hab, hbc => by
    refine h.of_static fun hb hc => ?_
    rw [Ty.fits_fn_iff hc]
    obtain ⟨g, rfl, hfg⟩ := (Ty.fits_fn_iff hb).mp hab
    obtain ⟨h', rfl, hgh⟩ := (Ty.fits_fn_iff hc).mp hbc
    exact ⟨h', rfl, Signature.fits_trans_through hcs d (g := g) ha hb' hc' h hfg hgh⟩
  | .enumObject e, b, c, _, _, _, h, hab, hbc => by
    refine h.of_static fun hb hc => ?_
    rw [Ty.fits_enumObject_iff hc]
    rcases (Ty.fits_enumObject_iff hb).mp hab with ⟨e1, rfl, he1⟩ | ⟨hd, w, rfl, hw⟩
    · rcases (Ty.fits_enumObject_iff hc).mp hbc with ⟨e2, rfl, he2⟩ | ⟨hd, w, rfl, hw⟩
      · exact .inl ⟨e2, rfl, he1.trans he2⟩
      · exact .inr ⟨hd, w, rfl, hw.trans he1.symm⟩
    · rcases (Ty.fits_variant_iff hc).mp hbc with ⟨w', rfl, hw', -⟩ | ⟨hco, -⟩
      · exact .inr ⟨hd, w', rfl, hw'.symm.trans hw⟩
      · exact absurd (hco.symm.trans hd) (by decide)
  | .variant v, b, c, _, _, _, h, hab, hbc => by
    refine h.of_static fun hb hc => ?_
    rw [Ty.fits_variant_iff hc]
    rcases (Ty.fits_variant_iff hb).mp hab with ⟨w, rfl, henum, hname⟩ | ⟨hd, e, rfl, he⟩
    · rcases (Ty.fits_variant_iff hc).mp hbc with
        ⟨w', rfl, henum', hname'⟩ | ⟨hd, e, rfl, he⟩
      · exact .inl ⟨w', rfl, henum.trans henum', hname.trans hname'⟩
      · exact .inr ⟨hd, e, rfl, henum.trans he⟩
    · rcases (Ty.fits_enumObject_iff hc).mp hbc with ⟨e', rfl, he'⟩ | ⟨hcontra, -⟩
      · exact .inr ⟨hd, e', rfl, he.trans he'⟩
      · exact absurd (hd.symm.trans hcontra) (by decide)

theorem Signature.fits_trans_through (hcs : Coherent cs) (d : Direction) :
    ∀ {f g h : Signature}, f.ClassesIn cs → g.ClassesIn cs → h.ClassesIn cs → g.FitsBehind d f h →
      f.fits d g = true → g.fits d h = true → f.fits d h = true
  | ⟨_, _, _, _, _⟩, ⟨_, _, _, _, _⟩, ⟨_, _, _, _, _⟩, hf, hg, hh, hbehind, hfg, hgh => by
    rw [Signature.fits, Bool.and_eq_true, Bool.and_eq_true, beq_iff_eq] at hfg hgh ⊢
    obtain ⟨⟨hvarargs, hparams⟩, hresult⟩ := hfg
    obtain ⟨⟨hvarargs', hparams'⟩, hresult'⟩ := hgh
    exact ⟨⟨hvarargs.trans hvarargs',
        Ty.fitsAll_trans_through hcs d.flip hf.2 hg.2 hh.2 hbehind.1 hparams hparams'⟩,
      Ty.fits_trans_through hcs d hf.1 hg.1 hh.1 hbehind.2 hresult hresult'⟩

theorem Ty.fitsAll_trans_through (hcs : Coherent cs) (d : Direction) :
    ∀ {xs ys zs : List Ty}, Ty.AllClassesIn cs xs → Ty.AllClassesIn cs ys → Ty.AllClassesIn cs zs →
      Ty.AllFitBehind d ys xs zs →
      Ty.fitsAll d xs ys = true → Ty.fitsAll d ys zs = true → Ty.fitsAll d xs zs = true
  | [], [], _, _, _, _, _, _, hyz => hyz
  | [], _ :: _, _, _, _, _, _, hxy, _ => by cases hxy
  | _ :: _, [], _, _, _, _, _, hxy, _ => by cases hxy
  | _ :: _, _ :: _, [], _, _, _, _, _, hyz => by cases hyz
  | _ :: _, _ :: _, _ :: _, hx, hy, hz, h, hxy, hyz => by
    rw [Ty.fitsAll, Bool.and_eq_true] at hxy hyz ⊢
    exact ⟨Ty.fits_trans_through hcs d hx.1 hy.1 hz.1 h.1 hxy.1 hyz.1,
      Ty.fitsAll_trans_through hcs d hx.2 hy.2 hz.2 h.2 hxy.2 hyz.2⟩

end

theorem Ty.fits_trans (hcs : Coherent cs) (d : Direction) {a c : Ty}
    (ha : a.GroundIn cs) (hb : b.GroundIn cs) (hc : c.GroundIn cs) (hab : a.fits d b = true)
    (hbc : b.fits d c = true) : a.fits d c = true :=
  Ty.fits_trans_through hcs d ha.classesIn hb.classesIn hc.classesIn hb.fitsBehind hab hbc

/-- Assignability is reflexive, and two types are assignable to what they are unified to.
It is transitive among types nothing of which is dynamic, if classes of one name have one
lineage. -/
theorem Ty.assignableTo_laws :
    (∀ t : Ty, t.assignableTo t = true) ∧
    (∀ a b : Ty, a.assignableTo (a.unify b) = true ∧ b.assignableTo (a.unify b) = true) ∧
    ∀ (cs : List ClassRef) (a b c : Ty), Coherent cs →
      a.GroundIn cs → b.GroundIn cs → c.GroundIn cs →
      a.assignableTo b = true → b.assignableTo c = true → a.assignableTo c = true := by
  refine ⟨Ty.fits_self .co, Ty.assignableTo_unify, ?_⟩
  intro cs a b c hcs ha hb hc hab hbc
  exact Ty.fits_trans hcs .co ha hb hc hab hbc

/-- A generic class, and one that inherits from it. -/
def boxClass : ClassRef := ⟨0, "Box", ["T"], []⟩

/-- The class that inherits from it, which is not generic. -/
def crateClass : ClassRef := ⟨1, "Crate", [], [(0, "Box")]⟩

/-- A function that takes lists and returns a crate may stand for one that takes pairs and
returns a box of integers, by way of one that takes pairs of wider numbers. -/
theorem Ty.assignableTo_laws_crate :
    Coherent [boxClass, crateClass] ∧
      (Ty.fn (.simple [.list] (.inst crateClass []))).assignableTo
        (.fn (.simple [.tuple [.prim .u8, .str]] (.inst boxClass [.int]))) = true := by
  have hcs : Coherent [boxClass, crateClass] := by decide
  have hbox : boxClass ∈ [boxClass, crateClass] := .head _
  have hcrate : crateClass ∈ [boxClass, crateClass] := .tail _ (.head _)
  have hprim (p : Primitive) (hp : p ≠ .any) : (Ty.prim p).GroundIn [boxClass, crateClass] := hp
  have hpair (p : Primitive) (hp : p ≠ .any) :
      (Ty.tuple [.prim p, .str]).GroundIn [boxClass, crateClass] :=
    ⟨hprim p hp, hprim .str (by decide), trivial⟩
  refine ⟨hcs, Ty.assignableTo_laws.2.2 _ _
    (.fn (.simple [.tuple [.prim .i32, .str]] (.inst boxClass [.prim .u16]))) _ hcs ?_ ?_ ?_ ?_ ?_⟩
  · exact ⟨⟨hcrate, trivial⟩, hprim .list (by decide), trivial⟩
  · exact ⟨⟨hbox, hprim .u16 (by decide), trivial⟩, hpair .i32 (by decide), trivial⟩
  · exact ⟨⟨hbox, hprim .i64 (by decide), trivial⟩, hpair .u8 (by decide), trivial⟩
  · rfl
  · rfl

end Strand
