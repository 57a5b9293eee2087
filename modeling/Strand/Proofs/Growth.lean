import Strand.Proofs.Capturing
import Strand.Proofs.Naming

/-!
# What units under construction are made of

Of all that happens while code is generated only a few things end up in a unit: its code, its
pool of constants and its captures. Pools and captures are only ever added to, so what an
operand denotes stays there.
-/

namespace Strand

/-! ## Operands -/

/-- An operand that refers to something of the unit the instruction stands in. -/
inductive Operand where
  /-- A number or text of the pool. -/
  | literal (index : UInt16)
  /-- A name, which is a text of the pool. -/
  | name (index : UInt16)
  /-- A list of names. -/
  | names (index : UInt16)
  /-- A unit that takes so many default values. -/
  | unit (index : UInt16) (defaults : UInt8)
  /-- A class built from so many values. -/
  | classType (index inputs : UInt16)
  | enumType (index : UInt16)
  /-- A variable captured from the unit around. -/
  | capture (index : UInt16)

/-- What the operand of an instruction refers to. Slots, counts and distances refer to
nothing of the unit. -/
@[reducible] def Instr.operand? : Instr → Option Operand
  | .constant index => some (.literal index)
  | .getUpvalue index | .setUpvalue index | .dropUpvalue index => some (.capture index)
  | .getGlobal name | .setGlobal name | .defineGlobal name | .dropGlobal name => some (.name name)
  | .getAttr name | .setAttr name | .dropAttr name => some (.name name)
  | .closure index defaults => some (.unit index defaults)
  | .makeClass index consumed => some (.classType index consumed)
  | .makeEnum index => some (.enumType index)
  | .directive .optimize _ => none
  | .directive .exports index => some (.names index)
  | .directive .entry index | .directive .package index | .directive .exportTo index =>
    some (.name index)
  | _ => none

/-- Numbers and texts are values; other constants describe something. -/
@[reducible] def Constant.isLiteral : Constant → Bool
  | .int _ | .float _ | .str _ => true
  | _ => false

/-- There is such a thing in a unit with this pool and so many captures. -/
def Operand.Denotes (pool : List Constant) (captures : Nat) : Operand → Prop
  | .literal i => ∃ k, pool[i.toNat]? = some k ∧ k.isLiteral = true
  | .name i => ∃ t, pool[i.toNat]? = some (.str t)
  | .names i => ∃ ts, pool[i.toNat]? = some (.names ts)
  | .unit i d => ∃ u, pool[i.toNat]? = some (.function u) ∧ u.header.defaultCount = d
  | .classType i n => ∃ d, pool[i.toNat]? = some (.classType d) ∧ d.stackInputs = n.toNat
  | .enumType i => ∃ d, pool[i.toNat]? = some (.enumType d)
  | .capture i => i.toNat < captures

theorem getElem?_of_longer {α : Type} {xs ys : List α} (h : xs <+: ys) {n : Nat} {a : α}
    (ha : xs[n]? = some a) : ys[n]? = some a := by
  obtain ⟨rest, rfl⟩ := h
  rw [List.getElem?_append_left (List.getElem?_eq_some_iff.mp ha).1, ha]

/-- What an operand denotes is still there when more is added. -/
theorem Operand.Denotes.mono {pool pool' : List Constant} {n n' : Nat} {o : Operand}
    (h : o.Denotes pool n) (hpool : pool <+: pool') (hn : n ≤ n') : o.Denotes pool' n' := by
  cases o with
  | literal i => exact h.imp fun _ hk => ⟨getElem?_of_longer hpool hk.1, hk.2⟩
  | name i => exact h.imp fun _ hk => getElem?_of_longer hpool hk
  | names i => exact h.imp fun _ hk => getElem?_of_longer hpool hk
  | unit i d => exact h.imp fun _ hk => ⟨getElem?_of_longer hpool hk.1, hk.2⟩
  | classType i n => exact h.imp fun _ hk => ⟨getElem?_of_longer hpool hk.1, hk.2⟩
  | enumType i => exact h.imp fun _ hk => getElem?_of_longer hpool hk
  | capture i => exact Nat.lt_of_lt_of_le h hn

/-- The pool index of the unit that an instruction closes over. -/
def Instr.closes? : Instr → Option Nat
  | .closure index _ => some index.toNat
  | _ => none

namespace Codegen

variable {f g : Frame} {outer : List Frame}

/-- The operand denotes something in the unit under construction. -/
def Frame.Denotes (f : Frame) (o : Operand) : Prop :=
  o.Denotes f.chunk.constants.toList f.captures.sources.size

/-- Nothing that ends up in the unit differs, but for what the module declares. -/
structure Frame.Alike (f g : Frame) : Prop where
  chunk : g.chunk = f.chunk
  captures : g.captures = f.captures
  header : g.header = f.header

theorem Frame.Alike.refl (f : Frame) : f.Alike f := ⟨rfl, rfl, rfl⟩

theorem allAlike_refl (fs : List Frame) : List.Forall₂ Frame.Alike fs fs :=
  List.forall₂_same.mpr fun f _ => .refl f

/-- The frame with another chunk. -/
def Frame.withChunk (f : Frame) (c : Chunk) : Frame := { f with chunk := c }

/-- Nothing has been laid down or captured yet. -/
structure Frame.Blank (f : Frame) : Prop where
  chunk : f.chunk = {}
  captures : f.captures = ∅

/-- Units are never shared: one that is added goes to the end of the pool. -/
theorem Chunk.addConstant_unit {c : Chunk} {u : CodeUnit} {i : UInt16}
    (h : (c.addConstant (.function u)).1 = some i) :
    c.constants.size < Chunk.poolLimit ∧ i = UInt16.ofNat c.constants.size ∧
      (c.addConstant (.function u)).2 = { c with constants := c.constants.push (.function u) } := by
  have hpush : c.addConstant (.function u) = c.pushConstant (.function u) := rfl
  rw [hpush] at h ⊢
  unfold Chunk.pushConstant at h ⊢
  split at h
  · rename_i hroom
    rw [if_pos hroom]
    exact ⟨hroom, (Option.some.inj h).symm, rfl⟩
  · cases h

/-- The index given for something that is captured is one of the captures. -/
theorem Captures.add_lt (c : Captures) (source : CaptureSource) :
    (c.add source).1.toNat < (c.add source).2.sources.size := by
  have hle (n : Nat) : (UInt16.ofNat n).toNat ≤ n := by
    rw [UInt16.toNat_ofNat']
    exact Nat.mod_le ..
  unfold Captures.add
  split
  · rename_i hmem
    exact Nat.lt_of_le_of_lt (hle _) (Array.idxOf_lt_length_of_mem hmem)
  · refine Nat.lt_of_le_of_lt (hle _) ?_
    rw [Array.size_push]
    omega

/-- The index of a capture is that of a source that is known. -/
theorem capture?_lt {name : String} {f' : Frame} {outer' : List Frame} {c : Capture}
    (h : capture? name f outer = some (c, f', outer')) :
    c.index.toNat < f'.captures.sources.size := by
  cases outer with
  | nil => cases h
  | cons parent outer =>
    -- wherever the name is found, the frame adds the source itself
    unfold capture? at h
    split at h
    · cases h
      exact f.captures.add_lt _
    · split at h
      · cases h
        exact f.captures.add_lt _
      · split at h
        · cases h
          exact f.captures.add_lt _
        · cases h

theorem eraseInline_alike (name : String) : ∀ frames : List Frame,
    List.Forall₂ Frame.Alike frames (eraseInline name frames)
  | [] => .nil
  | f :: rest => by
    unfold eraseInline
    split
    · exact .cons ⟨rfl, rfl, rfl⟩ (allAlike_refl rest)
    · exact .cons (.refl f) (eraseInline_alike name rest)

end Codegen

end Strand
