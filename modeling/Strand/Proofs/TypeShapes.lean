import Strand.Proofs.TypeGrammar
import Strand.Ty.Declarations
import Strand.Ty.Names

/-!
# The shapes of types

Not every tree of type constructors is a type: an instance has one argument for each
generic parameter of its class, the parameters of a function that may be left out are
among those that are not the rest parameter, and a variant names all its fields. Whatever
is done with types keeps to these shapes: reading an annotation, putting types in for
generic parameters, finding such types from arguments, joining the types of branches,
applying operators and looking up members.
-/

namespace Strand

variable {v : Variant} {b : Bindings} {sig f : Signature} {ty : Ty} {name : String}

/-! ## Well-formed types -/

mutual

/-- The type has the right shape at every depth. -/
def Ty.WellFormed : Ty → Prop
  | .prim _ | .generic _ | .classObject _ | .enumObject _ => True
  | .tuple items => Ty.AllWellFormed items
  | .ref target => target.WellFormed
  | .inst c args => args.length = c.generics.length ∧ Ty.AllWellFormed args
  | .fn sig => sig.WellFormed
  | .variant v => v.WellFormed

/-- A rest parameter is one of the parameters, and those that may be left out are among the
others. -/
def Signature.WellFormed : Signature → Prop
  | ⟨result, params, _, hasVarargs, defaultCount⟩ =>
    result.WellFormed ∧ Ty.AllWellFormed params ∧ (hasVarargs = true → 0 < params.length) ∧
      defaultCount ≤ params.length - hasVarargs.toNat

/-- Each field has a name and a type. -/
def Variant.WellFormed : Variant → Prop
  | ⟨_, _, _, _, fieldNames, fieldTypes⟩ =>
    fieldTypes.length = fieldNames.length ∧ Ty.AllWellFormed fieldTypes

/-- Every one of several types has the right shape. -/
def Ty.AllWellFormed : List Ty → Prop
  | [] => True
  | t :: ts => t.WellFormed ∧ Ty.AllWellFormed ts

end

namespace Ty

theorem allWellFormed_iff {ts : List Ty} : AllWellFormed ts ↔ ∀ t ∈ ts, t.WellFormed := by
  induction ts with
  | nil => simp [AllWellFormed]
  | cons t ts ih => rw [AllWellFormed, List.forall_mem_cons, ih]

end Ty

theorem Signature.wellFormed_iff : f.WellFormed ↔
    f.result.WellFormed ∧ (∀ t ∈ f.params, t.WellFormed) ∧
      (f.hasVarargs = true → 0 < f.params.length) ∧
      f.defaultCount ≤ f.params.length - f.hasVarargs.toNat := by
  rw [← Ty.allWellFormed_iff]
  cases f
  rfl

theorem Variant.wellFormed_iff : v.WellFormed ↔
    v.fieldTypes.length = v.fieldNames.length ∧ ∀ t ∈ v.fieldTypes, t.WellFormed := by
  rw [← Ty.allWellFormed_iff]
  cases v
  rfl

/-- A function takes at least as many arguments as there are parameters that are neither
left out nor the rest parameter, and no difference is cut off at zero. -/
theorem Signature.WellFormed.requiredArity (h : f.WellFormed) :
    f.requiredArity + f.defaultCount + f.hasVarargs.toNat = f.params.length := by
  obtain ⟨-, -, hrest, hdefaults⟩ := Signature.wellFormed_iff.mp h
  have hfixed : f.hasVarargs.toNat ≤ f.params.length := by
    cases hvarargs : f.hasVarargs with
    | false => exact Nat.zero_le _
    | true => exact hrest hvarargs
  simp only [Signature.requiredArity]
  omega

/-- A field that a variant names is there. -/
theorem Variant.WellFormed.field (h : v.WellFormed) {i : Nat}
    (hi : i < v.fieldNames.length) : ∃ ty, v.fieldTypes[i]? = some ty ∧ ty.WellFormed := by
  obtain ⟨hlength, htypes⟩ := Variant.wellFormed_iff.mp h
  have hi' : i < v.fieldTypes.length := by omega
  exact ⟨v.fieldTypes[i], List.getElem?_eq_getElem hi', htypes _ (List.getElem_mem hi')⟩

theorem Variant.WellFormed.fieldType (h : v.WellFormed) (i : Nat) :
    (v.fieldTypes[i]?.getD .any).WellFormed := by
  cases hfield : v.fieldTypes[i]? with
  | none => trivial
  | some ty => exact (Variant.wellFormed_iff.mp h).2 ty (List.mem_of_getElem? hfield)

/-! ## Generic parameters -/

/-- Only well-formed types are put in for generic parameters. -/
def Bindings.WellFormed (b : Bindings) : Prop := ∀ e ∈ b, e.2.WellFormed

theorem Bindings.WellFormed.find? (h : b.WellFormed)
    (hfind : b.find? name = some ty) : ty.WellFormed := by
  obtain ⟨e, he, rfl⟩ := Option.map_eq_some_iff.mp hfind
  exact h e (List.mem_of_find?_eq_some he)

theorem Ty.length_substituteAll (b : Bindings) (ts : List Ty) :
    (Ty.substituteAll b ts).length = ts.length := by
  induction ts with
  | nil => rfl
  | cons t ts ih => rw [Ty.substituteAll, List.length_cons, ih, List.length_cons]

mutual

theorem Ty.WellFormed.substitute (hb : b.WellFormed) :
    ∀ {t : Ty}, t.WellFormed → (t.substitute b).WellFormed
  | .generic name, _ => by
    rw [Ty.substitute]
    cases hfind : b.find? name with
    | none => trivial
    | some ty => exact hb.find? hfind
  | .tuple items, h => by
    have hitems : Ty.AllWellFormed items := h
    rw [Ty.substitute]
    exact Ty.AllWellFormed.substitute hb hitems
  | .ref target, h => by
    rw [Ty.substitute]
    exact Ty.WellFormed.substitute hb (t := target) h
  | .inst c args, h => by
    rw [Ty.substitute]
    exact ⟨(Ty.length_substituteAll b args).trans h.1, Ty.AllWellFormed.substitute hb h.2⟩
  | .fn sig, h => by
    rw [Ty.substitute]
    exact Signature.WellFormed.substitute hb (f := sig) h
  | .prim _, _ | .classObject _, _ | .enumObject _, _ => by
    rw [Ty.substitute]
    trivial
  | .variant v, h => by
    rw [Ty.substitute]
    exact h

theorem Signature.WellFormed.substitute (hb : b.WellFormed) :
    ∀ {f : Signature}, f.WellFormed → (f.substitute b).WellFormed
  | ⟨result, params, _, _, _⟩, ⟨hresult, hparams, hrest, hdefaults⟩ => by
    rw [Signature.substitute]
    refine ⟨Ty.WellFormed.substitute hb hresult, Ty.AllWellFormed.substitute hb hparams, ?_⟩
    rw [Ty.length_substituteAll]
    exact ⟨hrest, hdefaults⟩

theorem Ty.AllWellFormed.substitute (hb : b.WellFormed) :
    ∀ {ts : List Ty}, Ty.AllWellFormed ts → Ty.AllWellFormed (Ty.substituteAll b ts)
  | [], _ => trivial
  | _ :: _, ⟨ht, hts⟩ => ⟨Ty.WellFormed.substitute hb ht, Ty.AllWellFormed.substitute hb hts⟩

end

mutual

/-- What is found for generic parameters are types of arguments and parts of them. -/
theorem Ty.wellFormed_infer : ∀ (t : Ty) {actual : Ty} {b : Bindings}, actual.WellFormed →
    b.WellFormed → (t.infer actual b).WellFormed
  | .generic name, actual, b, hactual, hb => by
    rw [Ty.infer]
    split
    · exact hb
    · refine List.forall_mem_append.mpr ⟨hb, fun e he => ?_⟩
      cases List.mem_singleton.mp he
      exact hactual
  | .tuple xs, actual, b, hactual, hb => by
    cases actual with
    | tuple ys =>
      have hys : Ty.AllWellFormed ys := hactual
      exact Ty.wellFormed_inferAll xs hys hb
    | _ => exact hb
  | .ref x, actual, b, hactual, hb => by
    cases actual with
    | ref y =>
      have hy : y.WellFormed := hactual
      exact Ty.wellFormed_infer x hy hb
    | _ => exact hb
  | .inst _ xs, actual, b, hactual, hb => by
    cases actual with
    | inst _ ys => exact Ty.wellFormed_inferAll xs hactual.2 hb
    | _ => exact hb
  | .prim _, actual, _, _, hb | .classObject _, actual, _, _, hb | .fn _, actual, _, _, hb
  | .enumObject _, actual, _, _, hb | .variant _, actual, _, _, hb => by
    cases actual <;> exact hb

theorem Ty.wellFormed_inferAll : ∀ (ts : List Ty) {actuals : List Ty} {b : Bindings},
    Ty.AllWellFormed actuals → b.WellFormed → (Ty.inferAll ts actuals b).WellFormed
  | [], _, _, _, hb => hb
  | _ :: _, [], _, _, hb => hb
  | t :: ts, _ :: _, _, ⟨hactual, hactuals⟩, hb =>
    Ty.wellFormed_inferAll ts hactuals (Ty.wellFormed_infer t hactual hb)

end

/-! ## Branches, operators and members -/

theorem Ty.WellFormed.unify {a b : Ty} (ha : a.WellFormed) (hb : b.WellFormed) :
    (a.unify b).WellFormed := by
  unfold Ty.unify
  split
  · exact ha
  · split
    · trivial
    · split
      · exact ha
      · split
        · exact hb
        · trivial

theorem Ty.WellFormed.unaryResult {t : Ty} {op : UnaryOp} (ht : t.WellFormed)
    (h : t.unaryResult? op = some ty) : ty.WellFormed := by
  have hcases : ty = .bool ∨ ty = .any ∨ ty = t := by
    cases op <;> simp only [Ty.unaryResult?] at h <;> grind
  rcases hcases with rfl | rfl | rfl
  · trivial
  · trivial
  · exact ht

theorem ClassRef.wellFormed_selfInstance (c : ClassRef) : c.selfInstance.WellFormed := by
  refine ⟨List.length_map .., Ty.allWellFormed_iff.mpr fun t ht => ?_⟩
  obtain ⟨name, -, rfl⟩ := List.mem_map.mp ht
  trivial

theorem ClassRef.wellFormed_bindGenerics {c : ClassRef} {args : List Ty} (h : Ty.AllWellFormed args) :
    Bindings.WellFormed (c.bindGenerics args) :=
  fun _ he => Ty.allWellFormed_iff.mp h _ (List.of_mem_zip he).2

theorem Variant.WellFormed.find (h : v.WellFormed)
    (hfield : v.field? name = some ty) : ty.WellFormed := by
  obtain ⟨f, hf, rfl⟩ := Option.map_eq_some_iff.mp hfield
  exact (Variant.wellFormed_iff.mp h).2 _ (List.of_mem_zip (List.mem_of_find?_eq_some hf)).2

/-! ## Declarations -/

namespace Table

variable {α β : Type} {t : Table α} {P : String × α → Prop} {a : α}

theorem mem_of_find? (h : t.find? name = some a) : (name, a) ∈ t.entries := by
  obtain ⟨⟨n, b⟩, he, rfl⟩ := Option.map_eq_some_iff.mp h
  have hname : n = name := by simpa using List.find?_some he
  rw [← hname]
  exact List.mem_of_find?_eq_some he

theorem forall_insertEntry : ∀ {entries : List (String × α)},
    (∀ e ∈ entries, P e) → P (name, a) → ∀ e ∈ insertEntry name a entries, P e
  | [], _, ha => by
    intro e he
    cases List.mem_singleton.mp he
    exact ha
  | (n, b) :: rest, h, ha => by
    obtain ⟨hfirst, hrest⟩ := List.forall_mem_cons.mp h
    unfold insertEntry
    split
    · rename_i heq
      subst heq
      exact List.forall_mem_cons.mpr ⟨ha, hrest⟩
    · exact List.forall_mem_cons.mpr ⟨hfirst, forall_insertEntry hrest ha⟩

/-- What holds of all entries and of a new one holds of all entries then. -/
theorem forall_insert (h : ∀ e ∈ t.entries, P e) (ha : P (name, a)) :
    ∀ e ∈ (t.insert name a).entries, P e :=
  forall_insertEntry h ha

theorem forall_erase (h : ∀ e ∈ t.entries, P e) : ∀ e ∈ (t.erase name).entries, P e := by
  intro e he
  obtain ⟨e', he', rfl⟩ := List.mem_map.mp he
  exact h e' (List.mem_filter.mp he').1

theorem forall_modify {g : α → α} (h : ∀ e ∈ t.entries, P e)
    (hg : ∀ a, P (name, a) → P (name, g a)) : ∀ e ∈ (t.modify name g).entries, P e := by
  intro e he
  obtain ⟨⟨n, a⟩, he', rfl⟩ := List.mem_map.mp he
  by_cases hname : n = name
  · subst hname
    simpa using hg a (h _ he')
  · simpa [hname] using h _ he'

end Table

/-- All types entered for the members of a class are well formed. -/
structure ClassMembers.WellFormed (m : ClassMembers) : Prop where
  fields : ∀ e ∈ m.fields.entries, e.2.WellFormed
  statics : ∀ e ∈ m.statics.entries, e.2.WellFormed
  operators : ∀ e ∈ m.operators.entries, e.2.WellFormed
  constructor : ∀ sig, m.constructor = some sig → sig.WellFormed

/-- All types entered for members of classes and variants of enums are well formed. -/
structure Declarations.WellFormed (d : Declarations) : Prop where
  classes : ∀ m ∈ d.classes, m.WellFormed
  enums : ∀ t ∈ d.enums, ∀ e ∈ t.entries, e.2.WellFormed

namespace Declarations

variable {op : BinaryOp}

theorem wellFormed_noMembers : ({} : ClassMembers).WellFormed where
  fields _ he := absurd he List.not_mem_nil
  statics _ he := absurd he List.not_mem_nil
  operators _ he := absurd he List.not_mem_nil
  constructor _ h := by cases h

theorem wellFormed_empty : ({} : Declarations).WellFormed where
  classes _ hm := by simp at hm
  enums _ ht := by simp at ht

variable {d : Declarations} {c : ClassRef} {e : EnumRef} {name : String}

theorem WellFormed.membersAt (h : d.WellFormed) (id : Nat) : (d.membersAt id).WellFormed := by
  unfold Declarations.membersAt
  cases hid : d.classes[id]? with
  | none => exact wellFormed_noMembers
  | some m => exact h.classes m (Array.mem_of_getElem? hid)

/-- What a class or one of those it inherits from answers. -/
theorem WellFormed.findInChain {α : Type} {f : ClassMembers → Option α} {P : α → Prop} {a : α}
    (h : d.WellFormed) (hf : ∀ m : ClassMembers, m.WellFormed → f m = some a → P a)
    (hfind : d.findInChain c f = some a) : P a := by
  obtain ⟨x, -, hx⟩ := List.exists_of_findSome?_eq_some hfind
  exact hf _ (h.membersAt x.1) hx

theorem WellFormed.field (h : d.WellFormed) (hfind : d.field? c name = some ty) : ty.WellFormed :=
  h.findInChain (fun _ hm hfound => hm.fields _ (Table.mem_of_find? hfound)) hfind

theorem WellFormed.staticField (h : d.WellFormed)
    (hfind : d.staticField? c name = some ty) : ty.WellFormed :=
  h.findInChain (fun _ hm hfound => hm.statics _ (Table.mem_of_find? hfound)) hfind

theorem WellFormed.operator {symbol : String} (h : d.WellFormed)
    (hfind : d.operator? c symbol = some sig) : sig.WellFormed :=
  h.findInChain (fun _ hm hfound => hm.operators _ (Table.mem_of_find? hfound)) hfind

theorem WellFormed.constructor (h : d.WellFormed)
    (hfind : d.constructor? c = some sig) : sig.WellFormed :=
  h.findInChain (fun _ hm hfound => hm.constructor _ hfound) hfind

theorem WellFormed.variant (h : d.WellFormed) (hfind : d.variant? e name = some v) : v.WellFormed := by
  unfold Declarations.variant? Declarations.variants at hfind
  cases henum : d.enums[e.id]? with
  | none =>
    rw [henum] at hfind
    cases hfind
  | some t =>
    rw [henum] at hfind
    exact h.enums t (Array.mem_of_getElem? henum) _ (Table.mem_of_find? hfind)

theorem wellFormed_builtinResult {left right : Ty}
    (h : builtinResult? op left right = some ty) : ty.WellFormed := by
  have hprim : ∃ p, ty = .prim p := by
    unfold builtinResult? at h
    split at h
    · exact ⟨_, (Option.some.inj h).symm⟩
    · split at h
      · rw [← Option.some.inj h]
        split <;> exact ⟨_, rfl⟩
      · split at h
        · obtain ⟨p, -, rfl⟩ := Option.map_eq_some_iff.mp h
          exact ⟨p, rfl⟩
        · cases h
  obtain ⟨p, rfl⟩ := hprim
  trivial

/-- The result is a primitive type, or that of the operator a class declares. -/
theorem WellFormed.binaryResult {left right : Ty} (hd : d.WellFormed)
    (hleft : left.WellFormed) (h : d.binaryResult? op left right = some ty) : ty.WellFormed := by
  cases left with
  | inst c args =>
    cases hop : d.operator? c op.symbol with
    | none =>
      simp only [binaryResult?, hop] at h
      exact wellFormed_builtinResult h
    | some method =>
      have hresult : (method.result.substitute (c.bindGenerics args)).WellFormed :=
        Ty.WellFormed.substitute (ClassRef.wellFormed_bindGenerics hleft.2)
          (Signature.wellFormed_iff.mp (hd.operator hop)).1
      simp only [binaryResult?, hop] at h
      split at h
      · split at h
        · rw [← Option.some.inj h]
          exact hresult
        · cases h
      · rw [← Option.some.inj h]
        exact hresult
  | _ => exact wellFormed_builtinResult h

/-! ### What is entered -/

theorem WellFormed.declareClass (h : d.WellFormed) (parent : Option ClassRef)
    (generics : List String) : (d.declareClass name parent generics).2.WellFormed where
  classes := by
    intro m hm
    rcases Array.mem_push.mp hm with hm | rfl
    · exact h.classes m hm
    · exact wellFormed_noMembers
  enums := h.enums

theorem WellFormed.modifyClass (h : d.WellFormed) {f : ClassMembers → ClassMembers}
    (hf : ∀ m : ClassMembers, m.WellFormed → (f m).WellFormed) : (d.modifyClass c f).WellFormed where
  classes := by
    intro m hm
    obtain ⟨i, hi, rfl⟩ := Array.mem_iff_getElem.mp hm
    have hi' : i < d.classes.size := by simpa [Declarations.modifyClass] using hi
    have hold : d.classes[i].WellFormed := h.classes _ (Array.getElem_mem hi')
    simp only [Declarations.modifyClass, Array.getElem_modify]
    split
    · exact hf _ hold
    · exact hold
  enums := h.enums

theorem WellFormed.addField (h : d.WellFormed) (hty : ty.WellFormed)
    (isStatic isPrivate : Bool) : (d.addField c name ty isStatic isPrivate).WellFormed := by
  refine h.modifyClass fun m hm => ?_
  -- whether a name is private does not concern types
  have hentered : ClassMembers.WellFormed (if isStatic then
      { m with statics := m.statics.insert name ty } else
      { m with fields := m.fields.insert name ty }) := by
    split
    · exact { hm with statics := Table.forall_insert hm.statics hty }
    · exact { hm with fields := Table.forall_insert hm.fields hty }
  dsimp only
  split
  · exact ⟨hentered.fields, hentered.statics, hentered.operators, hentered.constructor⟩
  · exact hentered

theorem WellFormed.addOperator (h : d.WellFormed) (hsig : sig.WellFormed)
    (symbol : String) : (d.addOperator c symbol sig).WellFormed :=
  h.modifyClass fun _ hm => { hm with operators := Table.forall_insert hm.operators hsig }

theorem WellFormed.setConstructor (h : d.WellFormed) (hsig : sig.WellFormed) :
    (d.setConstructor c sig).WellFormed := by
  refine h.modifyClass fun m hm => { hm with constructor := fun sig' hsig' => ?_ }
  cases hsig'
  exact hsig

theorem WellFormed.declareEnum (h : d.WellFormed) : (d.declareEnum name).2.WellFormed where
  classes := h.classes
  enums := by
    intro t ht
    rcases Array.mem_push.mp ht with ht | rfl
    · exact h.enums t ht
    · exact fun _ he => absurd he List.not_mem_nil

theorem WellFormed.addVariant (h : d.WellFormed) (hv : v.WellFormed) : (d.addVariant e v).WellFormed where
  classes := h.classes
  enums := by
    intro t ht
    obtain ⟨i, hi, rfl⟩ := Array.mem_iff_getElem.mp ht
    have hi' : i < d.enums.size := by simpa [Declarations.addVariant] using hi
    have hold := h.enums _ (Array.getElem_mem hi')
    simp only [Declarations.addVariant, Array.getElem_modify]
    split
    · exact Table.forall_insert hold hv
    · exact hold

end Declarations

/-! ## Annotations -/

namespace TypeExpr

variable {tokens ts : List Token} {lookup : String → Option Ty} {t t' : Ty}

/-- Every type that has a name is well formed. -/
def KnowsWellFormed (lookup : String → Option Ty) : Prop :=
  ∀ name t, lookup name = some t → t.WellFormed

/-- Tokens for any type that is well formed. What the rules of the grammar make of such types is
well formed again, whatever the tokens are. -/
def ForWellFormed (_ : List Token) (t : Ty) : Prop := t.WellFormed

theorem Separated.forall_mem {α : Type} {D : List Token → α → Prop} {P : α → Prop} {items : List α}
    (h : Separated D ts items) (hD : ∀ {ts a}, D ts a → P a) : ∀ a ∈ items, P a := by
  induction h with
  | one h => exact List.forall_mem_singleton.mpr (hD h)
  | cons h _ ih => exact List.forall_mem_cons.mpr ⟨hD h, ih⟩

theorem Listed.wellFormed {items : List Ty} {last : Bool} (h : Listed ForWellFormed ts items last) :
    ∀ t ∈ items, t.WellFormed := by
  cases h with
  | empty => exact fun _ ht => absurd ht List.not_mem_nil
  | plain h => exact h.forall_mem id
  | trailing h => exact h.forall_mem id

/-- Optional parameters are not more than all, and there are none beside a rest parameter. -/
theorem wellFormed_signatureOf {params : List (Ty × Mark)} (ht : t.WellFormed)
    (hparams : ∀ p ∈ params, p.1.WellFormed) (hmarks : MarksFit (params.map Prod.snd)) :
    (signatureOf t params).WellFormed := by
  have htypes : ∀ u ∈ params.map Prod.fst, u.WellFormed := by
    intro u hu
    obtain ⟨p, hp, rfl⟩ := List.mem_map.mp hu
    exact hparams p hp
  have hlength : (signatureOf t params).params.length = (params.map Prod.snd).length := by
    rw [List.length_map]
    exact List.length_map ..
  rw [Signature.wellFormed_iff, hlength]
  refine ⟨ht, htypes, fun hrest => List.length_pos_of_mem (signatureOf_hasVarargs.mp hrest), ?_⟩
  cases hrest : (signatureOf t params).hasVarargs with
  | true =>
    rw [signatureOf_defaultCount_eq_zero.mpr (hmarks.2 (signatureOf_hasVarargs.mp hrest))]
    exact Nat.zero_le _
  | false => exact List.count_le_length

theorem Suffixes.wellFormed (h : Suffixes ForWellFormed ts t t') (ht : t.WellFormed) : t'.WellFormed := by
  induction h with
  | nil => exact ht
  | empty _ ih =>
    have hnone : MarksFit [] := ⟨List.Pairwise.nil, fun h => absurd h List.not_mem_nil⟩
    exact ih (wellFormed_signatureOf ht (fun _ hp => absurd hp List.not_mem_nil) hnone)
  | params hparams hmarks _ ih =>
    refine ih (wellFormed_signatureOf ht (hparams.forall_mem fun h => ?_) hmarks)
    cases h with
    | mk mark h => exact h

/-- A type is as well formed as the names that it is written with. -/
theorem Primary.wellFormed (hlookup : KnowsWellFormed lookup) (h : Primary lookup ForWellFormed ts t) :
    t.WellFormed := by
  cases h with
  | named hknown => exact hlookup _ _ hknown
  | bare =>
    refine ⟨List.length_map .., Ty.allWellFormed_iff.mpr fun t ht => ?_⟩
    obtain ⟨_, -, rfl⟩ := List.mem_map.mp ht
    trivial
  | applied _ hargs hcount => exact ⟨hcount, Ty.allWellFormed_iff.mpr hargs.wellFormed⟩
  | grouped h => exact h
  | tuple hitems => exact Ty.allWellFormed_iff.mpr hitems.wellFormed
  | cell h => exact h

theorem sound_parseType_wellFormed (hlookup : KnowsWellFormed lookup) :
    ∀ fuel : Nat, Sound (parseType lookup fuel) ForWellFormed
  | 0 => fun _ _ _ h => by cases h
  | fuel + 1 => by
    intro tokens t rest h
    have hty := sound_parseType_wellFormed hlookup fuel
    obtain ⟨⟨t1, rest1⟩, hprimary, hsuffixes⟩ := ok_of_bind h
    obtain ⟨ps, rfl, hps⟩ := sound_parsePrimary hty hprimary
    obtain ⟨ss, rfl, hss⟩ := sound_parseSuffixes hty hsuffixes
    exact ⟨ps ++ ss, (List.append_assoc _ _ _).symm, hss.wellFormed (hps.wellFormed hlookup)⟩

/-- An annotation denotes a well-formed type, if the names in it do. -/
theorem wellFormed_parse (hlookup : KnowsWellFormed lookup)
    (h : parse lookup tokens = .ok t) : t.WellFormed := by
  unfold parse at h
  split at h
  · cases h
  · obtain ⟨⟨t', rest⟩, ht, h⟩ := ok_of_bind h
    obtain ⟨read, -, hread⟩ := sound_parseType_wellFormed hlookup _ ht
    dsimp only at h
    split at h
    · cases h
      exact hread
    · cases h

end TypeExpr

end Strand
