import Mathlib.Data.List.NodupEquivFin
import Strand.Proofs.Moves.Units
import Strand.Proofs.VisitedSearch

/-!
# The two views of an enum

While a program is compiled the variants of an enum are entered into a table by their names, and a
variant that is declared again takes the place of the one before. The module has a descriptor that
lists all variants in order, and a name stands for the first of that name. Attributes, calls and
patterns are checked against the table, and the descriptor is what is left when the program runs.

Each variant of the table is found in the descriptor at its ordinal, with the names of its fields.
It is the one that its name stands for there exactly when the name is declared once.
-/

namespace Strand

variable {span : Span} {line : UInt64} {ty : Ty} {isConst : Bool}

theorem Table.find?_insertEntry {α : Type} {name : String} {a : α} {other : String} :
    ∀ {entries : List (String × α)}, ((Table.insertEntry name a entries).find? fun e => e.1 == other) =
      if name = other then some (name, a) else entries.find? fun e => e.1 == other
  | [] => by by_cases h : name = other <;> simp [Table.insertEntry, h]
  | (n, b) :: rest => by
    by_cases hn : n = name
    · by_cases h : name = other <;> simp [Table.insertEntry, hn, h]
    · by_cases h : n = other
      · subst h
        simp [Table.insertEntry, hn, Ne.symm hn]
      · simpa [Table.insertEntry, hn, h] using Table.find?_insertEntry

theorem Table.find?_insert {α : Type} (t : Table α) (name : String) (a : α) (other : String) :
    (t.insert name a).find? other = if name = other then some a else t.find? other := by
  unfold Table.find?
  rw [Table.insert, Table.find?_insertEntry]
  split <;> rfl

/-! ## Names that are declared more than once -/

namespace EnumDecl

variable {decl : EnumDecl} {name : String} {i j : Nat}

/-- The variant at this place has the name. -/
def NamedAt (decl : EnumDecl) (name : String) (i : Nat) : Prop :=
  (decl.variants.map VariantDecl.name)[i]? = some name

/-- Just one variant has the name. -/
def DeclaresOnce (decl : EnumDecl) (name : String) : Prop :=
  (decl.variants.map VariantDecl.name).count name = 1

instance (decl : EnumDecl) (name : String) : Decidable (decl.DeclaresOnce name) :=
  inferInstanceAs (Decidable (_ = _))

/-- The first place and the last one are the same exactly when there is no other. -/
theorem declaresOnce_iff (hi : decl.NamedAt name i) (hfirst : ∀ k < i, ¬ decl.NamedAt name k)
    (hj : decl.NamedAt name j) (hlast : ∀ k, j < k → ¬ decl.NamedAt name k) :
    decl.DeclaresOnce name ↔ i = j := by
  have hle : i ≤ j := Nat.le_of_not_lt fun hlt => hfirst j hlt hj
  have hone : 1 ≤ (decl.variants.map VariantDecl.name).count name :=
    List.one_le_count_iff.mpr (List.mem_of_getElem? hi)
  have htwo : 2 ≤ (decl.variants.map VariantDecl.name).count name ↔ i ≠ j := by
    rw [← List.duplicate_iff_two_le_count, List.duplicate_iff_exists_distinct_get]
    constructor
    · rintro ⟨k, l, hkl, hk, hl⟩ rfl
      have hk' : ¬ k.1 < i := fun hlt => hfirst k hlt (List.getElem?_eq_some_iff.mpr ⟨k.2, hk.symm⟩)
      have hl' : ¬ i < l.1 := fun hlt => hlast l hlt (List.getElem?_eq_some_iff.mpr ⟨l.2, hl.symm⟩)
      have hlt : k.1 < l.1 := hkl
      omega
    · intro hne
      obtain ⟨hilt, hiname⟩ := List.getElem?_eq_some_iff.mp hi
      obtain ⟨hjlt, hjname⟩ := List.getElem?_eq_some_iff.mp hj
      exact ⟨⟨i, hilt⟩, ⟨j, hjlt⟩, Nat.lt_of_le_of_ne hle hne, hiname.symm, hjname.symm⟩
  unfold DeclaresOnce
  omega

end EnumDecl

namespace Codegen

variable {α β : Type} {s s' s'' : State} {decl : EnumDecl} {name : String} {e : EnumRef} {i : Nat}
  {act : Build α}

variable {place : Place}

/-! ## What is declared -/

/-- The same classes, enums and names of types are known. -/
structure State.SameTypes (s s' : State) : Prop where
  decls : s'.decls = s.decls
  types : s'.frame.types = s.frame.types

theorem State.SameTypes.refl (s : State) : s.SameTypes s := ⟨rfl, rfl⟩

theorem State.SameTypes.trans (h : s.SameTypes s') (h' : s'.SameTypes s'') : s.SameTypes s'' :=
  ⟨h'.decls.trans h.decls, h'.types.trans h.types⟩

/-- A step that declares no types. -/
class DeclaresNone (act : Build α) : Prop where
  same (s : State) : s.SameTypes (act s).answer.2

instance {a : α} : DeclaresNone (pure a) := ⟨.refl⟩

instance : DeclaresNone get := ⟨.refl⟩

instance {f : α → Build β} [h : DeclaresNone act] [hf : ∀ a, DeclaresNone (f a)] :
    DeclaresNone (act >>= f) :=
  ⟨fun s => (h.same s).trans ((hf _).same _)⟩

instance {c : Prop} [Decidable c] {act' : Build α} [DeclaresNone act] [DeclaresNone act'] :
    DeclaresNone (if c then act else act') := by
  split <;> infer_instance

instance {g : Frame → Frame} [h : ∀ f : Frame, Same (g f).types f.types] :
    DeclaresNone (modifyFrame g) :=
  ⟨fun s => ⟨rfl, (h s.frame).eq⟩⟩

instance {γ : Type} {act : γ → Build α} [h : ∀ x, DeclaresNone (act x)] {xs : List γ} :
    DeclaresNone (xs.mapM act) := by
  induction xs with
  | nil =>
    rw [List.mapM_nil]
    infer_instance
  | cons x xs ih =>
    rw [List.mapM_cons]
    infer_instance

instance {γ : Type} {act : γ → Build Unit} [h : ∀ x, DeclaresNone (act x)] {xs : List γ} :
    DeclaresNone (xs.forM act) := by
  induction xs with
  | nil => exact ⟨.refl⟩
  | cons x xs ih => exact ⟨fun s => ((h x).same s).trans (ih.same _)⟩

instance {i : Instr} : DeclaresNone (emit i line) := ⟨fun _ => ⟨rfl, rfl⟩⟩

instance {k : Constant} : DeclaresNone (addConstant k span) :=
  ⟨fun s => by
    rw [state_addConstant]
    exact ⟨rfl, rfl⟩⟩

instance : DeclaresNone (nameConstant name span) := by
  unfold nameConstant
  infer_instance

instance {names : List String} [DeclaresNone act] : DeclaresNone (withPlaceholders names act) := by
  unfold withPlaceholders
  infer_instance

instance {tokens : List TypeExpr.Token} : DeclaresNone (resolveType tokens span) :=
  ⟨fun s => by
    unfold resolveType
    rw [get_bind_run]
    cases TypeExpr.parse s.findType? tokens <;> exact .refl s⟩

instance : DeclaresNone (defineGlobal name ty isConst) := by
  unfold defineGlobal
  infer_instance

instance : DeclaresNone (place.retype name ty) := by
  cases place <;> exact ⟨fun s => ⟨rfl, rfl⟩⟩

instance : DeclaresNone (place.store line) := by
  cases place <;> unfold Place.store <;> infer_instance

instance : DeclaresNone (place.load line) := by
  cases place <;> unfold Place.load <;> infer_instance

instance {v : VariantDecl} : DeclaresNone (publishVariant e place line v) := by
  unfold publishVariant
  infer_instance

/-! ## The table -/

/-- What a variant that is entered says of its declaration. -/
structure EnteredAs (d : VariantDecl) (ordinal : Nat) (v : Variant) : Prop where
  name : v.name = d.name
  ordinal : v.ordinal = ordinal
  fieldNames : v.fieldNames = d.fields.map VariantField.name

theorem declareVariant_enters (e : EnumRef) (d : VariantDecl) (ordinal : Nat) (s : State) :
    ∃ v, EnteredAs d ordinal v ∧
      (declareVariant e d ordinal s).answer.2.decls = s.decls.addVariant e v ∧
      (declareVariant e d ordinal s).answer.2.frame.types = s.frame.types := by
  let fields : Build (List Ty) := withPlaceholders d.generics
    (d.fields.mapM fun f => resolveType f.typeExpr d.span)
  have hsame : s.SameTypes (fields s).answer.2 := DeclaresNone.same s
  exact ⟨⟨e.name, d.name, ordinal, d.generics, d.fields.map VariantField.name, (fields s).answer.1⟩,
    ⟨rfl, rfl, rfl⟩, congrArg (fun decls => Declarations.addVariant decls e _) hsame.decls, hsame.types⟩

theorem size_addVariant (d : Declarations) (e : EnumRef) (v : Variant) :
    (d.addVariant e v).enums.size = d.enums.size := Array.size_modify

theorem variant?_addVariant {d : Declarations} (he : e.id < d.enums.size) (v : Variant) :
    (d.addVariant e v).variant? e name = if v.name = name then some v else d.variant? e name := by
  have htable : (d.addVariant e v).variants e = (d.variants e).insert v.name v := by
    simp [Declarations.addVariant, Declarations.variants, he, Array.getElem_modify_self]
  rw [Declarations.variant?, htable, Table.find?_insert]
  rfl

/-- Of the variants that are entered one after the other, a name stands for the last. -/
theorem variant?_declareVariants : ∀ {ds : List (VariantDecl × Nat)} {s s' : State},
    e.id < s.decls.enums.size → (ds.forM (fun x : VariantDecl × Nat => declareVariant e x.1 x.2) s).answer.2 = s' →
    s'.frame.types = s.frame.types ∧ ∀ name,
      (∃ (k : Nat) (d : VariantDecl) (ordinal : Nat) (v : Variant),
        ds[k]? = some (d, ordinal) ∧ d.name = name ∧ EnteredAs d ordinal v ∧
        s'.decls.variant? e name = some v ∧ ∀ l (x : VariantDecl × Nat), k < l → ds[l]? = some x →
          x.1.name ≠ name) ∨
      (∀ x ∈ ds, x.1.name ≠ name) ∧ s'.decls.variant? e name = s.decls.variant? e name
  | [], s, _, _, hrun => by
    cases hrun
    exact ⟨rfl, fun name => .inr ⟨fun x hx => absurd hx List.not_mem_nil, rfl⟩⟩
  | (d, ordinal) :: ds, s, s', he, hrun => by
    obtain ⟨v, hv, hdecls, htypes⟩ := declareVariant_enters e d ordinal s
    have he' : e.id < (declareVariant e d ordinal s).answer.2.decls.enums.size := by
      rw [hdecls, size_addVariant]
      exact he
    obtain ⟨htypes', hrest⟩ := variant?_declareVariants he' hrun
    refine ⟨htypes'.trans htypes, fun name => ?_⟩
    rcases hrest name with ⟨k, d', ordinal', v', hk, hname, hv', hfound, hlast⟩ | ⟨hnone, hkeeps⟩
    · refine .inl ⟨k + 1, d', ordinal', v', hk, hname, hv', hfound, fun l x hl hx => ?_⟩
      obtain ⟨l, rfl⟩ : ∃ l', l = l' + 1 := ⟨l - 1, by omega⟩
      exact hlast l x (by omega) hx
    -- no later variant has the name, so this one is found unless it has another name
    · rw [hdecls, variant?_addVariant he] at hkeeps
      by_cases hname : d.name = name
      · rw [if_pos (hv.name.trans hname)] at hkeeps
        refine .inl ⟨0, d, ordinal, v, rfl, hname, hv, hkeeps, fun l x hl hx => ?_⟩
        obtain ⟨l, rfl⟩ : ∃ l', l = l' + 1 := ⟨l - 1, by omega⟩
        exact hnone x (List.mem_of_getElem? hx)
      · rw [if_neg fun heq => hname (hv.name.symm.trans heq)] at hkeeps
        exact .inr ⟨List.forall_mem_cons.mpr ⟨hname, hnone⟩, hkeeps⟩

/-! ## The declaration -/

/-- Enter an enum with its variants. -/
def enterVariants (decl : EnumDecl) (place : Place) : Build EnumRef := do
  let e ← enterEnum decl.name
  modifyFrame fun f => { f with types := f.types.define decl.name (.enumObject e) }
  place.retype decl.name (.enumObject e)
  decl.variants.zipIdx.forM fun x => declareVariant e x.1 x.2
  pure e

/-- Put an enum into its place and publish its variants. -/
def storeEnum (decl : EnumDecl) (place : Place) (e : EnumRef) : Build Unit := do
  place.store decl.span.line
  if decl.isPublic then decl.variants.forM (publishVariant e place decl.span.line)

theorem compileEnum_eq (decl : EnumDecl) : compileEnum decl = (do
    let place ← reservePlace decl.name .any true decl.span
    let e ← enterVariants decl place
    let index ← addConstant (.enumType (enumDescriptor decl)) decl.span
    emit (.makeEnum index) decl.span.line
    storeEnum decl place e : Build Unit) := by
  simp only [compileEnum, enterVariants, storeEnum, bind_assoc, pure_bind]

instance : DeclaresNone (storeEnum decl place e) := by
  unfold storeEnum
  infer_instance

/-- On the way from `s` to `s'` code was laid down that makes an enum as it is declared. -/
def LaysEnum (decl : EnumDecl) (s s' : State) : Prop :=
  ∃ i offset, s.frame.chunk.size ≤ offset ∧ s'.frame.chunk.code[offset]? = some (.makeEnum i) ∧
    s'.frame.chunk.constants.toList[i.toNat]? = some (.enumType (enumDescriptor decl))

theorem LaysEnum.settle (h : LaysEnum decl s s') (position : Position) (line : UInt64) :
    LaysEnum decl s (settle (.nothing .void) position line s').answer.2 := by
  cases position with
  | value =>
    obtain ⟨i, offset, hsize, hcode, hpooled⟩ := h
    obtain ⟨hlt, hi⟩ := Array.getElem?_eq_some_iff.mp hcode
    exact ⟨i, offset, hsize, (Array.getElem?_push_lt hlt).trans (congrArg some hi), hpooled⟩
  | effect => exact h

/-- The name of the enum denotes one with the variants that are declared, the last of each name. -/
def EntersEnum (decl : EnumDecl) (s : State) : Prop :=
  ∃ e, s.frame.types.find? decl.name = some (.enumObject e) ∧ ∀ name,
    (∃ i d v, decl.variants[i]? = some d ∧ d.name = name ∧ EnteredAs d i v ∧
      s.decls.variant? e name = some v ∧ ∀ j, i < j → ¬ decl.NamedAt name j) ∨
    (∀ i, ¬ decl.NamedAt name i) ∧ s.decls.variant? e name = none

theorem EntersEnum.same (h : EntersEnum decl s) (hsame : s.SameTypes s') : EntersEnum decl s' := by
  unfold EntersEnum at h ⊢
  rwa [hsame.decls, hsame.types]

theorem entersEnum_enterVariants (decl : EnumDecl) (place : Place) (s : State) :
    EntersEnum decl (enterVariants decl place s).answer.2 := by
  let e : EnumRef := ⟨s.decls.enums.size, decl.name⟩
  let named : State := { s with
    decls := (s.decls.declareEnum decl.name).2
    frame := { s.frame with types := s.frame.types.define decl.name (.enumObject e) } }
  let s1 : State := (place.retype decl.name (.enumObject e) named).answer.2
  have hsame : named.SameTypes s1 := DeclaresNone.same named
  have hsize : e.id < s1.decls.enums.size := by
    rw [hsame.decls]
    simp [named, e, Declarations.declareEnum]
  have hempty (name : String) : s1.decls.variant? e name = none := by
    rw [hsame.decls]
    simp [named, e, Declarations.declareEnum, Declarations.variant?, Declarations.variants]
    rfl
  have hrun : (decl.variants.zipIdx.forM (fun x : VariantDecl × Nat => declareVariant e x.1 x.2)
      s1).answer.2 = (enterVariants decl place s).answer.2 := rfl
  obtain ⟨htypes, hvariants⟩ := variant?_declareVariants hsize hrun
  -- the ordinal of a variant is its place in the declaration
  have hat (k : Nat) (x : VariantDecl × Nat) :
      decl.variants.zipIdx[k]? = some x ↔ decl.variants[k]? = some x.1 ∧ x.2 = k := by
    obtain ⟨d, ordinal⟩ := x
    rw [List.getElem?_zipIdx]
    cases decl.variants[k]? <;> simp [eq_comm]
  refine ⟨e, ?_, fun name => ?_⟩
  · rw [htypes, hsame.types]
    simp [named, TypeNames.find?, TypeNames.define]
  rcases hvariants name with ⟨k, d, ordinal, v, hk, hname, hv, hfound, hlast⟩ | ⟨hnone, hkeeps⟩
  · obtain ⟨hd, rfl⟩ := (hat k _).mp hk
    refine .inl ⟨ordinal, d, v, hd, hname, hv, hfound, fun j hj hnamed => ?_⟩
    obtain ⟨d', hd', hname'⟩ := Option.map_eq_some_iff.mp ((List.getElem?_map ..).symm.trans hnamed)
    exact hlast j (d', j) hj ((hat j _).mpr ⟨hd', rfl⟩) hname'
  · refine .inr ⟨fun j hnamed => ?_, hkeeps.trans (hempty name)⟩
    obtain ⟨d', hd', hname'⟩ := Option.map_eq_some_iff.mp ((List.getElem?_map ..).symm.trans hnamed)
    exact hnone (d', j) (List.mem_of_getElem? ((hat j _).mpr ⟨hd', rfl⟩)) hname'

theorem entersEnum_compileEnum (decl : EnumDecl) (s : State) :
    EntersEnum decl (compileEnum decl s).answer.2 := by
  rw [compileEnum_eq]
  let place : Place := (reservePlace decl.name .any true decl.span s).answer.1
  let s1 : State := (reservePlace decl.name .any true decl.span s).answer.2
  let e : EnumRef := (enterVariants decl place s1).answer.1
  let rest : Build Unit := do
    let index ← addConstant (.enumType (enumDescriptor decl)) decl.span
    emit (.makeEnum index) decl.span.line
    storeEnum decl place e
  have hrest : DeclaresNone rest := inferInstance
  exact (entersEnum_enterVariants decl place s1).same (hrest.same _)

/-- A part that is run by itself and reports nothing. -/
theorem Yields.silent {known : Known} {found : α → Known}
    (h : Yields known .silent found fun _ => act) (hknown : known.Holds s s)
    (hs : s.Proper .silent) (hreports : (act s).reports = []) :
    s.Kept (act s).answer.2 ∧ (found (act s).answer.1).Holds s (act s).answer.2 ∧
      (act s).answer.2.Proper .silent := by
  have hrun := (h s).run ⟨hknown, .refl s⟩ hs fun _ => hreports
  exact ⟨hrun.2.2.1.toKept, hrun.2.1, hrun.1.proper⟩

/-- Code that makes the enum stands where the declaration was reached, or behind. -/
theorem laysEnum_compileEnum (hs : s.Proper .silent) (hreports : (compileEnum decl s).reports = []) :
    LaysEnum decl s (compileEnum decl s).answer.2 := by
  have hreserve : Learns (.fact True) .silent (fun _ => reservePlace decl.name .any true decl.span)
    fun place => .denotes .silent place.operand? := inferInstance
  have henter (place : Place) : Advances (.fact True) .silent fun _ => enterVariants decl place := by
    unfold enterVariants
    exact .bind inferInstance fun e => .bind inferInstance fun _ => .bind inferInstance fun _ =>
      .bind inferInstance fun _ => inferInstance
  have hstore (place : Place) (e : EnumRef) :
      Advances (.denotes .silent place.operand?) .silent fun _ => storeEnum decl place e := by
    unfold storeEnum
    infer_instance
  let k : Constant := .enumType (enumDescriptor decl)
  have hconstant : Learns (.fact True) .silent (fun _ => addConstant k decl.span)
    fun i => .pooled .silent i k := inferInstance
  -- nothing was reported at all, so nothing was by any of the parts
  rw [compileEnum_eq] at hreports ⊢
  obtain ⟨hreserved, hreports⟩ := List.append_eq_nil_iff.mp hreports
  obtain ⟨hentered, hreports⟩ := List.append_eq_nil_iff.mp hreports
  obtain ⟨hadded, hreports⟩ := List.append_eq_nil_iff.mp hreports
  obtain ⟨hkept1, hplace, hs1⟩ := hreserve.yields.silent trivial hs hreserved
  obtain ⟨hkept2, -, hs2⟩ := (henter _).yields.silent trivial hs1 hentered
  obtain ⟨hkept3, hpooled, hs3⟩ := hconstant.yields.silent trivial hs2 hadded
  have hmake (i : UInt16) : Advances (.pooled .silent i k) .silent fun _ =>
    emit (.makeEnum i) decl.span.line := inferInstance
  obtain ⟨hkept4, -, hs4⟩ := (hmake _).yields.silent hpooled hs3 rfl
  have hplaced := (Known.denotes .silent _).mono hplace
    ((hkept2.trans hkept3).trans hkept4).grown
  obtain ⟨hkept5, -, -⟩ := (hstore _ _).yields.silent hplaced hs4 hreports
  refine ⟨_, _, ((hkept1.trans hkept2).trans hkept3).frame.size_le, ?_,
    getElem?_of_longer (hkept4.trans hkept5).frame.pool (hpooled trivial)⟩
  have hcode := getElem?_of_longer hkept5.frame.code
    ((Array.getElem?_toList ..).trans Array.getElem?_push_size)
  exact (Array.getElem?_toList ..).symm.trans hcode

/-! ## The descriptor -/

theorem namedAt_iff : decl.NamedAt name i ↔ ∃ d, decl.variants[i]? = some d ∧ d.name = name := by
  unfold EnumDecl.NamedAt
  rw [List.getElem?_map]
  exact Option.map_eq_some_iff

/-- In the descriptor a name stands for the first variant that has it. -/
theorem ordinal?_enumDescriptor : (enumDescriptor decl).ordinal? name = some i ↔
    decl.NamedAt name i ∧ ∀ k < i, ¬ decl.NamedAt name k := by
  have hnames : (enumDescriptor decl).ordinal? name =
      (decl.variants.map VariantDecl.name).findIdx? fun n => n == name := by
    rw [EnumDescriptor.ordinal?, enumDescriptor, List.findIdx?_map, List.findIdx?_map]
    rfl
  rw [hnames, List.findIdx?_eq_some_iff_getElem]
  simp only [EnumDecl.NamedAt, List.getElem?_eq_some_iff, beq_iff_eq]
  constructor
  · rintro ⟨hlt, hname, hbefore⟩
    refine ⟨⟨hlt, hname⟩, ?_⟩
    rintro k hk ⟨_, hkname⟩
    exact hbefore k hk hkname
  · rintro ⟨⟨hlt, hname⟩, hbefore⟩
    refine ⟨hlt, hname, fun k hk => ?_⟩
    exact fun hkname => hbefore k hk ⟨Nat.lt_trans hk hlt, hkname⟩

/-- How a variant of the table is found in the descriptor. -/
structure Viewed (decl : EnumDecl) (name : String) (v : Variant) : Prop where
  /-- It stands there at its ordinal, with the names of its fields. -/
  listed : (enumDescriptor decl).variants[v.ordinal]? = some ⟨name, v.fieldNames⟩
  /-- It is the last one of its name, -/
  last : ∀ i, v.ordinal < i → ¬ decl.NamedAt name i
  /-- and the one that its name stands for if there is no other. -/
  ordinal_iff : (enumDescriptor decl).ordinal? name = some v.ordinal ↔ decl.DeclaresOnce name

theorem viewed_of_last {d : VariantDecl} {v : Variant} (hd : decl.variants[i]? = some d)
    (hname : d.name = name) (hv : EnteredAs d i v) (hlast : ∀ j, i < j → ¬ decl.NamedAt name j) :
    Viewed decl name v := by
  obtain rfl : v.ordinal = i := hv.ordinal
  have hnamed : decl.NamedAt name v.ordinal := namedAt_iff.mpr ⟨d, hd, hname⟩
  refine ⟨?_, hlast, ?_⟩
  · rw [enumDescriptor, List.getElem?_map, hd, Option.map_some, hname, hv.fieldNames]
  · obtain ⟨first, hfirst⟩ : ∃ first, (enumDescriptor decl).ordinal? name = some first := by
      classical
      have hsome : ∃ i, decl.NamedAt name i := ⟨_, hnamed⟩
      exact ⟨_, ordinal?_enumDescriptor.mpr ⟨Nat.find_spec hsome, fun k hk => Nat.find_min hsome hk⟩⟩
    obtain ⟨hat, hbefore⟩ := ordinal?_enumDescriptor.mp hfirst
    rw [hfirst, Option.some.injEq, EnumDecl.declaresOnce_iff hat hbefore hnamed hlast]

/-! ## Declarations of a program -/

variable {p : Program} {o : Options} {m : Module} {n : Nat} {e : Expr} {position : Position}

theorem compileEntered_enum {node : NodeCompiler} (h : e.kind = .enumDecl decl) :
    compileEntered e position node = (do
      compileEnum decl
      settle (.nothing .void) position e.span.line : Build Ty) := by
  unfold compileEntered
  rw [h, compileKind, leaveNothing, bind_assoc]
  simp only [pure_bind]

instance {left : Left} : DeclaresNone (settle left position line) := by
  cases left <;> cases position <;> unfold settle <;> infer_instance

/-- In the unit of the module that is under construction in `s` stands an instruction that was
not there yet in `s` and makes an enum. -/
def MakesEnum (m : Module) (s : State) (d : EnumDescriptor) : Prop :=
  ∃ u us offset i, m.main.unitsAt? (addressOf s.outer) = some (u :: us) ∧
    s.frame.chunk.size ≤ offset ∧ u.code[offset]? = some (.makeEnum i) ∧
    u.constants[i.toNat]? = some (.enumType d)

/-- **Both views of an enum.** Each enum that is declared in a program that compiles is made by an
instruction of the unit that it stands in, from a descriptor of its variants. After the
declaration its name denotes the enum, and for the name of each variant there is one in the
table, which is found in the descriptor at its ordinal. The name stands for the same variant
there exactly when it was declared once. -/
theorem enum_views (h : compile p o = .ok m) (hv : Visited p o n e position s)
    (hkind : e.kind = .enumDecl decl) :
    MakesEnum m s (enumDescriptor decl) ∧
    let s' := (compilerAt o n e position s).answer.2
    ∃ ref, s'.frame.types.find? decl.name = some (.enumObject ref) ∧
      ∀ d ∈ decl.variants, ∃ v, s'.decls.variant? ref d.name = some v ∧ Viewed decl d.name v := by
  obtain ⟨hentered, hs, hreports, -, u, us, hat, hus⟩ := endsAs_of_visited h hv
  rw [hentered, compileEntered_enum hkind] at hreports hus ⊢
  have hlaid := (laysEnum_compileEnum hs.enter (List.append_eq_nil_iff.mp hreports).1).settle position e.span.line
  constructor
  · obtain ⟨i, offset, hsize, hcode, hpooled⟩ := hlaid
    obtain ⟨hfu, -⟩ := List.forall₂_cons.mp hus
    exact ⟨u, us, offset, i, hat, hsize, hfu.grows.code _ _ hcode rfl,
      getElem?_of_longer hfu.grows.pool hpooled⟩
  · have hsettle : DeclaresNone (settle (.nothing .void) position e.span.line) := inferInstance
    obtain ⟨ref, hname, hvariants⟩ := (entersEnum_compileEnum decl s.enter).same (hsettle.same _)
    refine ⟨ref, hname, fun d hd => ?_⟩
    rcases hvariants d.name with ⟨i, d', v, hd', hname', hentered', hfound, hlast⟩ | ⟨hnone, -⟩
    · exact ⟨v, hfound, viewed_of_last hd' hname' hentered' hlast⟩
    · obtain ⟨i, hi⟩ := List.getElem?_of_mem hd
      exact absurd (namedAt_iff.mpr ⟨d, hi, rfl⟩) (hnone i)

/-- Two variants with the same name around another one. -/
def shape : EnumDecl :=
  let number : List TypeExpr.Token := [.name "i64"]
  { name := "Shape", isPublic := false, span := .zero
    variants := [⟨"Box", [], [⟨"side", number⟩], .zero⟩, ⟨"Dot", [], [], .zero⟩,
      ⟨"Box", [], [⟨"width", number⟩, ⟨"height", number⟩], .zero⟩] }

/-- Make something of the enum from so many numbers. -/
def shapes (variantName : String) (count : Nat) : Program :=
  let node (kind : ExprKind) : Expr := ⟨kind, .zero⟩
  ⟨[node (.enumDecl shape), node (.call (node (.member (node (.var "Shape")) variantName))
    (List.replicate count (.positional (node (.int 1)))))]⟩

/-- The variant that is declared once is the same one in both views. -/
theorem enum_views_dot : ∃ m s v, compile (shapes "Dot" 0) {} = .ok m ∧
    Visited (shapes "Dot" 0) {} 0 ⟨.enumDecl shape, .zero⟩ .effect s ∧
    MakesEnum m s (enumDescriptor shape) ∧ Viewed shape "Dot" v ∧ (enumDescriptor shape).ordinal? "Dot" = some v.ordinal := by
  have hreports : (layProgram (shapes "Dot" 0) {}).reports = [] := by decide +kernel
  have hvisited : Visited (shapes "Dot" 0) {} 0 ⟨.enumDecl shape, .zero⟩ .effect
      (hoistedState (shapes "Dot" 0) {}) := visited_first rfl
  obtain ⟨hmakes, ref, -, hviews⟩ := enum_views (compile_eq_ok hreports) hvisited rfl
  have hdot : (⟨"Dot", [], [], .zero⟩ : VariantDecl) ∈ shape.variants := by simp [shape]
  obtain ⟨v, -, hviewed⟩ := hviews _ hdot
  exact ⟨_, _, v, compile_eq_ok hreports, hvisited, hmakes, hviewed,
    hviewed.ordinal_iff.mpr (by decide)⟩

/-- The name of the other two stands for the first in the descriptor, which has one field, and calls
are checked against the second, which has two. -/
theorem compile_shapes :
    (enumDescriptor shape).ordinal? "Box" = some 0 ∧
      (enumDescriptor shape).variants[0]? = some ⟨"Box", ["side"]⟩ ∧
      diagnosticsOf (compile (shapes "Box" 1) {}) = [⟨.wrongArity (.exactly 2) 1, .zero⟩] ∧
      diagnosticsOf (compile (shapes "Box" 2) {}) = [] := by
  decide +kernel

end Codegen

end Strand
