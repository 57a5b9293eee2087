import Mathlib.Tactic.Common
import Strand.Code.Chunk
import Strand.Expr

/-!
# Structured code

Code is laid down in one pass, and a forward jump is laid down before anyone knows
where it lands. What makes this safe is that every jump belongs to a construct that
is closed before the construct around it: the code has the shape of a tree in which a
jump names a label, and a label marks the end of a block or a place of a loop. The code
of each node of the program is marked in the tree.

`Tree.At` relates such a tree to the flat code of a chunk. A label that has no site
yet stands for jumps that still carry the placeholder distance. Closing a block is
then one lemma, `Tree.At.aim`: aiming the jumps that use a label, and no others, gives
the same tree with a site for that label.
-/

namespace Strand.Codegen

variable {l : Label}

/-- What a jump can be sent to. `exit` and `again` are where `break` and `continue` go
in the loop around a node, and `start` is where its iterations begin; the others never
leave the construct that introduces them. -/
inductive Label where
  | exit | again | start
  | done | skip | failed | unguarded | next | otherwise | case (index : Nat)
deriving DecidableEq

/-- Labels that jumps laid down for other nodes may be sent to. -/
def Label.ofLoop : Label → Bool
  | .exit | .again => true
  | _ => false

/-- Labels that never leave the construct that introduces them. -/
def Label.isLocal : Label → Bool
  | .exit | .again | .start => false
  | _ => true

theorem Label.ofLoop_of_isLocal (h : l.isLocal = true) : l.ofLoop = false := by
  cases l <;> first | rfl | cases h

theorem Label.ne_start (h : l.isLocal = true) : l ≠ .start := by
  intro hl
  rw [hl] at h
  cases h

/-- When a forward jump is taken. -/
inductive JumpKind where
  | always | ifFalse | ifTrue
  /-- When the iterator on top of the stack has no further item. -/
  | atEnd
deriving DecidableEq

/-- The jump of a kind over a distance. -/
def JumpKind.instr : JumpKind → UInt32 → Instr
  | .always => .jump
  | .ifFalse => .jumpIfFalse
  | .ifTrue => .jumpIfTrue
  | .atEnd => .forIter

/-- Code in which jumps name labels. -/
inductive Tree where
  | nil
  | op (i : Instr)
  | seq (first second : Tree)
  | jump (kind : JumpKind) (label : Label)
  /-- The label marks the end of the code inside. -/
  | block (label : Label) (inside : Tree)
  /-- A loop: `back` goes to the beginning of the code inside, and `exit` is its end. So
  is `again`, if no block inside takes it. -/
  | loop (inside : Tree)
  | back
  /-- The code of a node. -/
  | node (e : Expr) (inside : Tree)

/-- Where labels are. -/
abbrev Sites := Label → Option Nat

/-- No label is anywhere. -/
def Sites.none : Sites := fun _ => Option.none

/-- Put a label somewhere. -/
def Sites.set (sites : Sites) (label : Label) (offset : Nat) : Sites :=
  fun l => if l = label then some offset else sites l

namespace Sites

variable {sites : Sites} {m : Label} {a b : Nat}

theorem set_self (sites : Sites) (l : Label) (o : Nat) : sites.set l o l = some o := if_pos rfl

theorem set_of_ne (h : m ≠ l) (sites : Sites) (o : Nat) : sites.set l o m = sites m := if_neg h

theorem set_set (sites : Sites) (l : Label) (o o' : Nat) :
    (sites.set l o).set l o' = sites.set l o' := by
  funext m
  unfold set
  split <;> rfl

theorem set_comm (h : l ≠ m) (sites : Sites) (o o' : Nat) :
    (sites.set l o).set m o' = (sites.set m o').set l o := by
  funext n
  unfold set
  by_cases hl : n = l
  · rw [if_pos hl, if_pos hl, if_neg (by rw [hl]; exact h)]
  · rw [if_neg hl, if_neg hl]

/-- The sites inside a loop. -/
def inLoop (sites : Sites) (start stop : Nat) : Sites :=
  ((sites.set .start start).set .again stop).set .exit stop

theorem inLoop_start (sites : Sites) (a b : Nat) : sites.inLoop a b .start = some a := rfl

/-- A loop hides the labels of the loops around it. -/
theorem inLoop_set_ofLoop (h : l.ofLoop = true) (sites : Sites) (a b o : Nat) :
    (sites.set l o).inLoop a b = sites.inLoop a b := by
  funext m
  cases l <;> cases h <;> cases m <;> rfl

theorem inLoop_set (h : l.ofLoop = false) (hstart : l ≠ .start) (sites : Sites)
    (a b o : Nat) : (sites.set l o).inLoop a b = (sites.inLoop a b).set l o := by
  have hagain : l ≠ .again := by rintro rfl; cases h
  have hexit : l ≠ .exit := by rintro rfl; cases h
  simp only [inLoop]
  rw [set_comm hstart, set_comm hagain, set_comm hexit]

theorem inLoop_of_ofLoop (h : l.ofLoop = false) (hstart : l ≠ .start)
    (hnone : sites l = Option.none) : sites.inLoop a b l = Option.none := by
  cases l <;> first | exact hnone | exact absurd rfl hstart | cases h

theorem of_inLoop_none
    (h : sites.inLoop a b l = Option.none) : l.ofLoop = false ∧ sites l = Option.none := by
  cases l <;> first | exact ⟨rfl, h⟩ | cases h

theorem of_inLoop_some {o : Nat}
    (h : sites.inLoop a b l = some o) : o = a ∨ o = b ∨ sites l = some o := by
  cases l <;> first | exact .inr (.inr h) | cases h; simp

/-- A block may end at the label. Where a loop starts and ends is not for a block to say,
and only inside a loop is there something to do `again`. -/
structure Admits (sites : Sites) (l : Label) : Prop where
  ne_start : l ≠ .start
  ne_exit : l ≠ .exit
  again : l = .again → sites .start ≠ Option.none

theorem Admits.set (h : sites.Admits l) (hm : m ≠ .start) (o : Nat) : (sites.set m o).Admits l :=
  ⟨h.ne_start, h.ne_exit, fun hl => by
    rw [set_of_ne (Ne.symm hm)]
    exact h.again hl⟩

theorem admits_of_ofLoop (h : l.ofLoop = false) (hstart : l ≠ .start) (sites : Sites) :
    sites.Admits l where
  ne_start := hstart
  ne_exit := by rintro rfl; cases h
  again := by rintro rfl; cases h

end Sites

namespace Tree

variable {label : Label} {code code' : Array Instr}

/-- How many instructions the code has. -/
def size : Tree → Nat
  | nil => 0
  | op _ | jump _ _ | back => 1
  | seq x y => x.size + y.size
  | block _ t | loop t | node _ t => t.size

/-- The offsets of the jumps that use a label from outside, when the code starts at
`start`. -/
def uses (label : Label) : Tree → (start : Nat) → List Nat
  | nil, _ | op _, _ | back, _ => []
  | jump _ l, a => if l = label then [a] else []
  | seq x y, a => x.uses label a ++ y.uses label (a + x.size)
  | block l t, a => if l = label then [] else t.uses label a
  | loop t, a => if label.ofLoop then [] else t.uses label a
  | node _ t, a => t.uses label a

/-- The tree stands in `code` from `start` on, with its outer labels at `sites`. A
label without a site is one that its jumps have not been aimed at yet. -/
def At (code : Array Instr) : (sites : Sites) → (start : Nat) → Tree → Prop
  | _, _, nil => True
  | _, a, op i => code[a]? = some i ∧ i.isJump = false
  | sites, a, seq x y => At code sites a x ∧ At code sites (a + x.size) y
  | sites, a, jump k l =>
    match sites l with
    | some t => ∃ d, code[a]? = some (k.instr d) ∧ d ≠ Instr.unpatched ∧ a + 1 + d.toNat = t
    | none => code[a]? = some (k.instr Instr.unpatched)
  | sites, a, block l t => sites.Admits l ∧ At code (sites.set l (a + t.size)) a t
  | sites, a, loop t => At code (sites.inLoop a (a + t.size)) a t
  | sites, a, back =>
    ∃ t d, sites .start = some t ∧ code[a]? = some (.loop d) ∧ t + d.toNat = a + 1 ∧ t ≤ a
  | sites, a, node _ t => At code sites a t

/-- A jump that is used inside of a tree stands inside of it. -/
theorem mem_uses {o : Nat} : ∀ {t : Tree} {a : Nat}, o ∈ t.uses label a → a ≤ o ∧ o < a + t.size
  | nil, _, h | op _, _, h | back, _, h => absurd h (List.not_mem_nil)
  | jump _ l, a, h => by
    unfold uses at h
    split at h
    · rw [List.mem_singleton.mp h]
      exact ⟨Nat.le_refl a, Nat.lt_succ_self a⟩
    · exact absurd h List.not_mem_nil
  | seq x y, a, h => by
    rcases List.mem_append.mp h with h | h
    · obtain ⟨hle, hlt⟩ := mem_uses h
      simp only [size]
      omega
    · obtain ⟨hle, hlt⟩ := mem_uses h
      simp only [size]
      omega
  | block l t, a, h => by
    unfold uses at h
    split at h
    · exact absurd h List.not_mem_nil
    · exact mem_uses (t := t) h
  | loop t, a, h => by
    unfold uses at h
    split at h
    · exact absurd h List.not_mem_nil
    · exact mem_uses (t := t) h
  | node _ t, _, h => mem_uses (t := t) h

/-- Only the code that the tree stands for matters. -/
theorem At.congr : ∀ {t : Tree} {sites : Sites} {a : Nat}, t.At code sites a →
      (∀ o, a ≤ o → o < a + t.size → code'[o]? = code[o]?) → t.At code' sites a
  | nil, _, _, _, _ => trivial
  | op i, _, a, h, hcode => by
    rw [At, hcode a (Nat.le_refl a) (Nat.lt_succ_self a)]
    exact h
  | seq x y, _, a, h, hcode => by
    simp only [size] at hcode
    exact ⟨h.1.congr fun o hlo hhi => hcode o hlo (by omega),
      h.2.congr fun o hlo hhi => hcode o (by omega) (by omega)⟩
  | jump k l, _, a, h, hcode => by
    rw [At, hcode a (Nat.le_refl a) (Nat.lt_succ_self a)]
    exact h
  | block l t, _, _, h, hcode => ⟨h.1, At.congr (t := t) h.2 hcode⟩
  | loop t, _, _, h, hcode | node _ t, _, _, h, hcode => At.congr (t := t) h hcode
  | back, _, a, h, hcode => by
    rw [At, hcode a (Nat.le_refl a) (Nat.lt_succ_self a)]
    exact h

/-! ## Aiming -/

theorem forwardDistance_instr (k : JumpKind) (d : UInt32) :
    (k.instr d).forwardDistance? = some d := by
  cases k <;> rfl

theorem aim_instr (k : JumpKind) (d d' : UInt32) : (k.instr d).aim? d' = some (k.instr d') := by
  cases k <;> rfl

/-- `code'` is `code` with every jump at one of the `offsets` aimed at `target`. -/
structure Aimed (code code' : Array Instr) (offsets : List Nat) (target : Nat) : Prop where
  aimed : ∀ o ∈ offsets, ∃ d : UInt32, d ≠ Instr.unpatched ∧ o + 1 + d.toNat = target ∧
    code'[o]? = code[o]?.map fun i => (i.aim? d).getD i
  others : ∀ o, o ∉ offsets → code'[o]? = code[o]?

/-- Aiming the jumps that use a label gives the label a site. -/
theorem At.aim {target : Nat} {offsets : List Nat}
    (hlabel : label ≠ .start) (haimed : Aimed code code' offsets target) :
    ∀ {t : Tree} {sites : Sites} {a : Nat}, t.At code sites a → sites label = none →
      (∀ o, a ≤ o → o < a + t.size → (o ∈ offsets ↔ o ∈ t.uses label a)) →
      t.At code' (sites.set label target) a
  | nil, _, _, _, _, _ => trivial
  | op i, _, a, h, _, huses => by
    have hout : a ∉ offsets := by
      simpa [uses] using huses a (Nat.le_refl a) (Nat.lt_succ_self a)
    rw [At, haimed.others a hout]
    exact h
  | seq x y, sites, a, h, hnone, huses => by
    simp only [size] at huses
    refine ⟨h.1.aim hlabel haimed hnone fun o hlo hhi => ?_,
      h.2.aim hlabel haimed hnone fun o hlo hhi => ?_⟩
    · have hnot : o ∉ y.uses label (a + x.size) := fun hy => by
        have := (mem_uses hy).1
        omega
      rw [huses o hlo (by omega), uses, List.mem_append, or_iff_left hnot]
    · have hnot : o ∉ x.uses label a := fun hx => by
        have := (mem_uses hx).2
        omega
      rw [huses o (by omega) (by omega), uses, List.mem_append, or_iff_right hnot]
  | jump k l, sites, a, h, hnone, huses => by
    have huse := huses a (Nat.le_refl a) (Nat.lt_succ_self a)
    by_cases hl : l = label
    · -- one of the jumps that are aimed
      have hin : a ∈ offsets := huse.mpr (by simp [uses, hl])
      obtain ⟨d, hd, htarget, hcode⟩ := haimed.aimed a hin
      have hold : code[a]? = some (k.instr Instr.unpatched) := by
        rw [At, hl, hnone] at h
        exact h
      rw [At, hl, Sites.set_self]
      exact ⟨d, by rw [hcode, hold, Option.map_some, aim_instr, Option.getD_some], hd, htarget⟩
    · have hout : a ∉ offsets := fun hin => by
        simpa [uses, hl] using huse.mp hin
      rw [At, Sites.set_of_ne hl, haimed.others a hout]
      exact h
  | block l t, sites, a, h, hnone, huses => by
    obtain ⟨hadmits, h⟩ := h
    refine ⟨hadmits.set hlabel target, ?_⟩
    by_cases hl : l = label
    · -- the label is hidden inside, so none of the jumps inside is aimed
      have hnot (o : Nat) (hlo : a ≤ o) (hhi : o < a + t.size) : o ∉ offsets := fun hin => by
        simpa [uses, hl] using (huses o hlo hhi).mp hin
      rw [hl, Sites.set_set]
      rw [hl] at h
      exact h.congr fun o hlo hhi => haimed.others o (hnot o hlo hhi)
    · rw [Sites.set_comm (Ne.symm hl)]
      refine h.aim hlabel haimed (by rw [Sites.set_of_ne (Ne.symm hl)]; exact hnone) ?_
      intro o hlo hhi
      rw [huses o hlo hhi, uses, if_neg hl]
  | loop t, sites, a, h, hnone, huses => by
    rw [At] at h ⊢
    cases hl : label.ofLoop with
    | true =>
      have hnot (o : Nat) (hlo : a ≤ o) (hhi : o < a + t.size) : o ∉ offsets := fun hin => by
        simpa [uses, hl] using (huses o hlo hhi).mp hin
      rw [Sites.inLoop_set_ofLoop hl]
      exact h.congr fun o hlo hhi => haimed.others o (hnot o hlo hhi)
    | false =>
      rw [Sites.inLoop_set hl hlabel]
      refine h.aim hlabel haimed (Sites.inLoop_of_ofLoop hl hlabel hnone) fun o hlo hhi => ?_
      rw [huses o hlo hhi, uses, if_neg (by rw [hl]; exact Bool.false_ne_true)]
  | back, sites, a, h, _, huses => by
    have hout : a ∉ offsets := by
      simpa [uses] using huses a (Nat.le_refl a) (Nat.lt_succ_self a)
    rw [At, Sites.set_of_ne (Ne.symm hlabel), haimed.others a hout]
    exact h
  | node _ t, _, _, h, hnone, huses => At.aim hlabel haimed (t := t) h hnone huses

end Tree

end Strand.Codegen
