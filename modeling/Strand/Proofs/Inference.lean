import Mathlib.Data.List.Infix
import Mathlib.Data.List.Nodup
import Strand.Codegen.Call

/-!
# Inference undoes substitution

A call finds the types of generic parameters by matching what is declared against what is
passed. If what is passed is the declared type with types put in for its parameters, then
inference finds these types again, as far as they can be seen: a dynamic type binds nothing,
and functions are not looked into.

Bindings are only ever added at the end. A parameter that is bound keeps its type, however
many arguments follow.
-/

namespace Strand

variable {name : String} {s b c : Bindings}

/-! ## Parameters of a type -/

mutual

/-- The generic parameters that a substitution replaces in a type. Classes, enums and
variants keep the types they were declared with. -/
def Ty.placeholders : Ty → List String
  | .generic name => [name]
  | .tuple items => Ty.placeholdersAll items
  | .ref target => target.placeholders
  | .inst _ args => Ty.placeholdersAll args
  | .fn sig => sig.placeholders
  | .prim _ | .classObject _ | .enumObject _ | .variant _ => []

/-- The generic parameters in the result and the parameters of a function. -/
def Signature.placeholders : Signature → List String
  | ⟨result, params, _, _, _⟩ => result.placeholders ++ Ty.placeholdersAll params

/-- The generic parameters of several types. -/
def Ty.placeholdersAll : List Ty → List String
  | [] => []
  | t :: ts => t.placeholders ++ Ty.placeholdersAll ts

end

mutual

/-- There is no function type where inference looks. -/
def Ty.FunctionFree : Ty → Prop
  | .tuple items => Ty.AllFunctionFree items
  | .ref target => target.FunctionFree
  | .inst _ args => Ty.AllFunctionFree args
  | .fn _ => False
  | .generic _ | .prim _ | .classObject _ | .enumObject _ | .variant _ => True

/-- The same for several types. -/
def Ty.AllFunctionFree : List Ty → Prop
  | [] => True
  | t :: ts => t.FunctionFree ∧ Ty.AllFunctionFree ts

end

namespace Bindings

/-- The names that are bound, with repetitions. -/
def names (b : Bindings) : List String := b.map Prod.fst

theorem find?_append (b c : Bindings) (name : String) :
    Bindings.find? (b ++ c) name = (b.find? name).or (c.find? name) := by
  rw [Bindings.find?, List.find?_append, Option.map_or]
  rfl

theorem find?_singleton (name : String) (ty : Ty) (other : String) :
    Bindings.find? [(name, ty)] other = if name = other then some ty else none := by
  by_cases h : name = other
  · simp [Bindings.find?, h]
  · simp [Bindings.find?, h]

theorem find?_isSome_iff : (b.find? name).isSome = true ↔ name ∈ b.names := by
  simp [Bindings.find?, names]

theorem any_name_iff : (b.any fun e => e.1 == name) = true ↔ name ∈ b.names := by
  simp [names]

end Bindings

mutual

/-- What a substitution gives depends on its types for the parameters of the type only. -/
theorem Ty.substitute_congr : ∀ {t : Ty},
    (∀ name ∈ t.placeholders, b.find? name = c.find? name) → t.substitute b = t.substitute c
  | .generic name, h => by
    rw [Ty.substitute, Ty.substitute, h name (.head _)]
  | .tuple items, h => by rw [Ty.substitute, Ty.substitute, Ty.substituteAll_congr h]
  | .ref target, h => by rw [Ty.substitute, Ty.substitute, Ty.substitute_congr (t := target) h]
  | .inst c args, h => by rw [Ty.substitute, Ty.substitute, Ty.substituteAll_congr h]
  | .fn sig, h => by rw [Ty.substitute, Ty.substitute, Signature.substitute_congr h]
  | .prim _, _ | .classObject _, _ | .enumObject _, _ | .variant _, _ => rfl

theorem Signature.substitute_congr : ∀ {f : Signature},
    (∀ name ∈ f.placeholders, b.find? name = c.find? name) → f.substitute b = f.substitute c
  | ⟨result, params, _, _, _⟩, h => by
    rw [Signature.substitute, Signature.substitute,
      Ty.substitute_congr fun name hname => h name (List.mem_append_left _ hname),
      Ty.substituteAll_congr fun name hname => h name (List.mem_append_right _ hname)]

theorem Ty.substituteAll_congr : ∀ {ts : List Ty},
    (∀ name ∈ Ty.placeholdersAll ts, b.find? name = c.find? name) →
      Ty.substituteAll b ts = Ty.substituteAll c ts
  | [], _ => rfl
  | t :: ts, h => by
    rw [Ty.substituteAll, Ty.substituteAll,
      Ty.substitute_congr fun name hname => h name (List.mem_append_left _ hname),
      Ty.substituteAll_congr fun name hname => h name (List.mem_append_right _ hname)]

end

/-! ## What one match adds -/

/-- Inference has gone from `b` to `c`: bindings were added at the end, each for a name among
`names` that was not bound before. -/
inductive Bindings.Extends (names : List String) : Bindings → Bindings → Prop where
  | refl (b : Bindings) : Extends names b b
  | add {b c : Bindings} {name : String} {ty : Ty} (h : Extends names b c)
      (hmem : name ∈ names) (hnew : name ∉ c.names) (hty : ty.isDynamic = false) :
      Extends names b (c ++ [(name, ty)])

namespace Bindings.Extends

variable {names more : List String} {a b c : Bindings}

theorem trans (hab : Extends names a b) (hbc : Extends names b c) : Extends names a c := by
  induction hbc with
  | refl => exact hab
  | add _ hmem hnew hty ih => exact ih.add hmem hnew hty

theorem mono (h : Extends names a b) (hsub : names ⊆ more) : Extends more a b := by
  induction h with
  | refl => exact .refl a
  | add _ hmem hnew hty ih => exact ih.add (hsub hmem) hnew hty

theorem isPrefix (h : Extends names a b) : a <+: b := by
  induction h with
  | refl => exact List.prefix_refl a
  | add _ _ _ _ ih => exact ih.trans (List.prefix_append _ _)

theorem nodup (h : Extends names a b) (ha : a.names.Nodup) : b.names.Nodup := by
  induction h with
  | refl => exact ha
  | @add c name ty _ _ hnew _ ih =>
    have hnames : Bindings.names (c ++ [(name, ty)]) = c.names ++ [name] := List.map_append
    rw [hnames, ← List.concat_eq_append]
    exact ih.concat hnew

theorem mem_names (h : Extends names a b) (hname : name ∈ b.names) : name ∈ a.names ∨ name ∈ names := by
  induction h with
  | refl => exact .inl hname
  | @add c added ty _ hmem _ _ ih =>
    rw [Bindings.names, List.map_append, List.mem_append] at hname
    rcases hname with hname | hname
    · exact ih hname
    · obtain rfl : name = added := List.mem_singleton.mp hname
      exact .inr hmem

end Bindings.Extends

mutual

theorem Ty.infer_extends : ∀ (t actual : Ty) (b : Bindings),
    Bindings.Extends t.placeholders b (t.infer actual b)
  | .generic name, actual, b => by
    rw [Ty.infer]
    by_cases h : (actual.isDynamic || b.any fun e => e.1 == name) = true
    · rw [if_pos h]
      exact .refl b
    · rw [if_neg h]
      rw [Bool.or_eq_true, not_or, Bool.not_eq_true, Bindings.any_name_iff] at h
      exact (Bindings.Extends.refl b).add (.head _) h.2 h.1
  | .tuple xs, actual, b => by
    cases actual with
    | tuple ys => exact Ty.inferAll_extends xs ys b
    | _ => exact .refl b
  | .ref x, actual, b => by
    cases actual with
    | ref y => exact Ty.infer_extends x y b
    | _ => exact .refl b
  | .inst _ xs, actual, b => by
    cases actual with
    | inst _ ys => exact Ty.inferAll_extends xs ys b
    | _ => exact .refl b
  | .fn _, _, b | .prim _, _, b | .classObject _, _, b | .enumObject _, _, b | .variant _, _, b =>
    .refl b

theorem Ty.inferAll_extends : ∀ (ts actuals : List Ty) (b : Bindings),
    Bindings.Extends (Ty.placeholdersAll ts) b (Ty.inferAll ts actuals b)
  | [], _, b => .refl b
  | _ :: _, [], b => .refl b
  | t :: ts, actual :: actuals, b => by
    have hhead := (Ty.infer_extends t actual b).mono
      (List.subset_append_left t.placeholders (Ty.placeholdersAll ts))
    have htail := (Ty.inferAll_extends ts actuals (t.infer actual b)).mono
      (List.subset_append_right t.placeholders (Ty.placeholdersAll ts))
    exact hhead.trans htail

end

/-- Where every parameter of the type is bound, a match adds nothing. -/
theorem Bindings.Extends.eq_of_bound {names : List String}
    (h : Bindings.Extends names b c) (hbound : names ⊆ b.names) : c = b := by
  induction h with
  | refl => rfl
  | add _ hmem hnew _ ih =>
    rw [ih] at hnew
    exact absurd (hbound hmem) hnew

/-! ## Matching against a substituted type -/

/-- The bindings say what `s` says about every name that they bind. -/
def Bindings.Agrees (s b : Bindings) : Prop :=
  ∀ name ∈ b.names, b.find? name = s.find? name

/-- Every one of the names is bound to a type that is not dynamic. -/
def Bindings.Settles (s : Bindings) (names : List String) : Prop :=
  ∀ name ∈ names, ∃ ty, s.find? name = some ty ∧ ty.isDynamic = false

theorem Bindings.Settles.mono {names more : List String} (h : s.Settles more)
    (hsub : names ⊆ more) : s.Settles names :=
  fun name hname => h name (hsub hname)

/-- A name that was not bound gets the type that `s` gives it. -/
theorem Bindings.Agrees.concat {ty : Ty} (h : s.Agrees b)
    (hty : s.find? name = some ty) : s.Agrees (b ++ [(name, ty)]) := by
  intro other hother
  rw [Bindings.find?_append, Bindings.find?_singleton]
  by_cases hb : other ∈ b.names
  · rw [Option.or_of_isSome (Bindings.find?_isSome_iff.mpr hb)]
    exact h other hb
  · have hnone : b.find? other = none := by
      rw [← Option.not_isSome_iff_eq_none, Bindings.find?_isSome_iff]
      exact hb
    have hsame : name = other := by
      rw [Bindings.names, List.map_append, List.mem_append] at hother
      exact (List.mem_singleton.mp (hother.resolve_left hb)).symm
    rw [hnone, Option.none_or, if_pos hsame, ← hsame, hty]

mutual

/-- Every parameter is bound afterwards, and to the type that was put in for it. -/
theorem Ty.infer_substitute : ∀ {t : Ty} {b : Bindings}, t.FunctionFree →
    s.Settles t.placeholders → s.Agrees b →
      s.Agrees (t.infer (t.substitute s) b) ∧
        t.placeholders ⊆ (t.infer (t.substitute s) b).names
  | .generic name, b, _, hs, hb => by
    obtain ⟨ty, hty, hstatic⟩ := hs name (.head _)
    have hput : (Ty.generic name).substitute s = ty := by
      rw [Ty.substitute, hty, Option.getD_some]
    rw [hput, Ty.infer, hstatic, Bool.false_or]
    by_cases hmem : name ∈ b.names
    · rw [if_pos (Bindings.any_name_iff.mpr hmem)]
      exact ⟨hb, List.cons_subset.mpr ⟨hmem, List.nil_subset _⟩⟩
    · rw [if_neg (fun h => hmem (Bindings.any_name_iff.mp h))]
      refine ⟨hb.concat hty, List.cons_subset.mpr ⟨?_, List.nil_subset _⟩⟩
      rw [Bindings.names, List.map_append]
      exact List.mem_append_right _ (.head _)
  | .tuple items, b, ht, hs, hb => by
    rw [Ty.substitute]
    exact Ty.inferAll_substituteAll ht hs hb
  | .ref target, b, ht, hs, hb => by
    rw [Ty.substitute]
    exact Ty.infer_substitute (t := target) ht hs hb
  | .inst c args, b, ht, hs, hb => by
    rw [Ty.substitute]
    exact Ty.inferAll_substituteAll ht hs hb
  | .fn _, _, ht, _, _ => ht.elim
  | .prim _, _, _, _, hb | .classObject _, _, _, _, hb | .enumObject _, _, _, _, hb
  | .variant _, _, _, _, hb => ⟨hb, List.nil_subset _⟩

theorem Ty.inferAll_substituteAll : ∀ {ts : List Ty} {b : Bindings},
    Ty.AllFunctionFree ts → s.Settles (Ty.placeholdersAll ts) → s.Agrees b →
      s.Agrees (Ty.inferAll ts (Ty.substituteAll s ts) b) ∧
        Ty.placeholdersAll ts ⊆ (Ty.inferAll ts (Ty.substituteAll s ts) b).names
  | [], b, _, _, hb => ⟨hb, List.nil_subset _⟩
  | t :: ts, b, ht, hs, hb => by
    rw [Ty.substituteAll, Ty.inferAll]
    obtain ⟨hhead, hbound⟩ := Ty.infer_substitute ht.1
      (hs.mono (List.subset_append_left _ _)) hb
    obtain ⟨htail, hrest⟩ := Ty.inferAll_substituteAll ht.2
      (hs.mono (List.subset_append_right _ _)) hhead
    refine ⟨htail, List.append_subset.mpr ⟨fun name hname => ?_, hrest⟩⟩
    -- what the first type bound is still there when the others are done
    have hkept := (Ty.inferAll_extends ts (Ty.substituteAll s ts)
      (t.infer (t.substitute s) b)).isPrefix
    exact (hkept.map Prod.fst).subset (hbound hname)

end

/-- What only adds at the end at each step only adds at the end. -/
theorem Bindings.isPrefix_foldl {α : Type} {step : Bindings → α → Bindings}
    (hstep : ∀ b x, b <+: step b x) (xs : List α) (b : Bindings) : b <+: xs.foldl step b := by
  induction xs generalizing b with
  | nil => exact List.prefix_refl b
  | cons x xs ih => exact (hstep b x).trans (ih (step b x))

/-- Arguments that follow do not change what has been inferred from those before. -/
theorem Codegen.inferBindings_append_isPrefix (sig : Signature) (passed more : List Passed) :
    inferBindings sig passed <+: inferBindings sig (passed ++ more) := by
  rw [inferBindings, inferBindings, List.zipIdx_append, List.foldl_append]
  refine Bindings.isPrefix_foldl (fun b arg => ?_) _ _
  dsimp only
  cases sig.paramFor? arg.2 with
  | none => exact List.prefix_refl b
  | some param => exact (Ty.infer_extends param arg.1.1 b).isPrefix

/-- Matching a type without functions against what a substitution makes of it gives bindings
that do the same as the substitution, if that puts in a type that is not dynamic for each
parameter. Each parameter is bound once, and nothing else is. A second match adds nothing,
and no match changes what is bound, neither alone nor in the course of a call. -/
theorem Ty.infer_inverts_substitute (p : Ty) (s : Bindings) (hp : p.FunctionFree)
    (hs : ∀ name ∈ p.placeholders, ∃ ty, s.find? name = some ty ∧ ty.isDynamic = false) :
    ∃ b, p.infer (p.substitute s) [] = b ∧
      (b.map Prod.fst).Nodup ∧ (∀ name ∈ b.map Prod.fst, name ∈ p.placeholders) ∧
      p.substitute b = p.substitute s ∧
      p.infer (p.substitute s) b = b ∧
      (∀ (q actual : Ty) (c : Bindings), c <+: q.infer actual c) ∧
      ∀ (sig : Signature) (passed more : List Codegen.Passed),
        Codegen.inferBindings sig passed <+: Codegen.inferBindings sig (passed ++ more) := by
  have hextends := Ty.infer_extends p (p.substitute s) []
  have hnothing : s.Agrees [] := fun _ hname => absurd hname List.not_mem_nil
  obtain ⟨hagrees, hbound⟩ := Ty.infer_substitute hp hs hnothing
  refine ⟨_, rfl, hextends.nodup List.nodup_nil, ?_, ?_, ?_, ?_, ?_⟩
  · intro name hname
    exact (hextends.mem_names hname).resolve_left (List.not_mem_nil)
  · exact Ty.substitute_congr fun name hname => hagrees name (hbound hname)
  · exact (Ty.infer_extends p (p.substitute s) _).eq_of_bound hbound
  · exact fun q actual c => (Ty.infer_extends q actual c).isPrefix
  · exact Codegen.inferBindings_append_isPrefix

/-- A parameter twice at different depths, with types put in that mention parameters of the
same names themselves. -/
theorem Ty.infer_inverts_substitute_nested :
    let p := Ty.tuple [.generic "T", .ref (.generic "U"), .inst ⟨0, "Box", ["T"], []⟩ [.generic "T"]]
    let s : Bindings := [("T", Ty.tuple [.generic "U"]), ("U", .str), ("T", .int)]
    p.FunctionFree ∧
      p.infer (p.substitute s) [] = [("T", Ty.tuple [.generic "U"]), ("U", .str)] ∧
      p.substitute (p.infer (p.substitute s) []) = p.substitute s := by
  intro p s
  have hp : p.FunctionFree := ⟨trivial, trivial, ⟨trivial, trivial⟩, trivial⟩
  have hs : ∀ name ∈ p.placeholders, ∃ ty, s.find? name = some ty ∧ ty.isDynamic = false := by
    intro name hname
    have hcases : name = "T" ∨ name = "U" := by
      simpa [p, Ty.placeholders, Ty.placeholdersAll, or_comm, or_left_comm] using hname
    rcases hcases with rfl | rfl
    · exact ⟨.tuple [.generic "U"], rfl, rfl⟩
    · exact ⟨.str, rfl, rfl⟩
  obtain ⟨b, hb, -, -, hsame, -⟩ := Ty.infer_inverts_substitute p s hp hs
  exact ⟨hp, rfl, hb ▸ hsame⟩

end Strand
