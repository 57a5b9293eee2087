import Mathlib.Data.List.Basic
import Strand.Code.Chunk

/-!
# The pool of constants

Code refers to constants by their index in the pool, so what has been added must stay where it
is. Adding a constant can do three things, which `Chunk.Adds` lists: a string that is there
already is found, a constant is put at the end, or it is refused because no index is left. All
that is said about pools follows from these three.
-/

namespace Strand

namespace Chunk

variable {c : Chunk} {k : Constant} {r : Option UInt16 × Chunk}

/-! ## Adding one constant -/

/-- The constant is a string that the pool holds already. -/
def Shares (c : Chunk) (k : Constant) : Prop := (∃ s, k = .str s) ∧ k ∈ c.constants

/-- What comes of adding a constant: the index that is given for it, and the chunk after it. -/
inductive Adds (c : Chunk) (k : Constant) : Option UInt16 × Chunk → Prop where
  | shared {i : Nat} (hshares : c.Shares k) (hi : c.constants[i]? = some k) :
      Adds c k (some (UInt16.ofNat i), c)
  | pushed (hnew : ¬ c.Shares k) (hroom : c.constants.size < poolLimit) :
      Adds c k (some (UInt16.ofNat c.constants.size), { c with constants := c.constants.push k })
  | refused (hnew : ¬ c.Shares k) (hfull : poolLimit ≤ c.constants.size) : Adds c k (none, c)

/-- A string is found where it stands, if it is there. -/
theorem stringIndex?_cases (c : Chunk) (s : String) :
    (∃ i, c.stringIndex? s = some i ∧ c.constants[i]? = some (.str s)) ∨
      c.stringIndex? s = none ∧ .str s ∉ c.constants := by
  cases h : c.stringIndex? s with
  | none =>
    refine .inr ⟨rfl, fun hmem => ?_⟩
    have hfalse := Array.findIdx?_eq_none_iff.mp h _ hmem
    simp at hfalse
  | some i =>
    obtain ⟨hlt, hfound, -⟩ := Array.findIdx?_eq_some_iff_getElem.mp h
    refine .inl ⟨i, rfl, ?_⟩
    rw [Array.getElem?_eq_getElem hlt]
    split at hfound
    · rename_i t heq
      rw [heq, eq_of_beq hfound]
    · cases hfound

theorem adds_pushConstant (hnew : ¬ c.Shares k) : Adds c k (c.pushConstant k) := by
  unfold pushConstant
  split
  · rename_i hroom
    exact .pushed hnew hroom
  · rename_i hfull
    exact .refused hnew (Nat.not_lt.mp hfull)

theorem adds_addConstant (c : Chunk) (k : Constant) : Adds c k (c.addConstant k) := by
  cases k with
  | str s =>
    rcases c.stringIndex?_cases s with ⟨i, hi, hfound⟩ | ⟨hnone, hnew⟩
    · have hshared : c.addConstant (.str s) = (some (UInt16.ofNat i), c) := by
        simp only [addConstant, hi]
      rw [hshared]
      exact .shared ⟨⟨s, rfl⟩, Array.mem_of_getElem? hfound⟩ hfound
    · have hpushed : c.addConstant (.str s) = c.pushConstant (.str s) := by
        simp only [addConstant, hnone]
      rw [hpushed]
      exact adds_pushConstant fun hshares => hnew hshares.2
  | _ =>
    refine adds_pushConstant fun hshares => ?_
    obtain ⟨⟨_, hstr⟩, -⟩ := hshares
    cases hstr

namespace Adds

variable {r : Option UInt16 × Chunk}

/-- A constant is put at the end of the pool, or the pool stays as it is. -/
theorem grows (h : Adds c k r) : r.2 = c ∨ r.2 = { c with constants := c.constants.push k } := by
  cases h with
  | shared | refused => exact .inl rfl
  | pushed => exact .inr rfl

/-- What was there stays where it was. -/
theorem isPrefix (h : Adds c k r) : c.constants.toList <+: r.2.constants.toList := by
  rcases h.grows with hsame | hpushed
  · exact hsame ▸ List.prefix_rfl
  · rw [hpushed, Array.toList_push]
    exact List.prefix_append ..

theorem size_le (h : Adds c k r) (hsize : c.constants.size ≤ poolLimit) :
    r.2.constants.size ≤ poolLimit := by
  cases h with
  | shared | refused => exact hsize
  | pushed _ hroom =>
    rw [Array.size_push]
    exact hroom

end Adds

/-- An index is what the word for it says, as long as the pool has indices. -/
theorem toNat_index (hsize : c.constants.size ≤ poolLimit) {i : Nat}
    (hi : c.constants[i]? = some k) : (UInt16.ofNat i).toNat = i := by
  obtain ⟨hlt, -⟩ := Array.getElem?_eq_some_iff.mp hi
  exact UInt16.toNat_ofNat_of_lt' (Nat.lt_of_lt_of_le hlt hsize)

theorem Adds.found (h : Adds c k r)
    (hsize : c.constants.size ≤ poolLimit) {i : UInt16} (hi : r.1 = some i) :
    r.2.constants[i.toNat]? = some k := by
  cases h with
  | shared _ hfound =>
    cases hi
    rw [toNat_index hsize hfound]
    exact hfound
  | pushed _ hroom =>
    cases hi
    rw [UInt16.toNat_ofNat_of_lt' hroom]
    exact Array.getElem?_push_size
  | refused => cases hi

/-! ## Pools that are in order -/

/-- Every constant of the pool has an index, and no string is there twice. -/
structure PoolInOrder (c : Chunk) : Prop where
  size : c.constants.size ≤ poolLimit
  distinct : ∀ (s : String) (i j : Nat), c.constants[i]? = some (.str s) →
    c.constants[j]? = some (.str s) → i = j

theorem poolInOrder_empty : PoolInOrder {} :=
  ⟨Nat.zero_le _, fun s i j hi _ => by simp at hi⟩

theorem PoolInOrder.adds (h : c.PoolInOrder) (hadds : Adds c k r) : r.2.PoolInOrder := by
  refine ⟨hadds.size_le h.size, ?_⟩
  cases hadds with
  | shared | refused => exact h.distinct
  | pushed hnew _ =>
    intro s i j hi hj
    -- the constant at the end is no string that stands anywhere before it
    have hlast {n m : Nat} (hn : n = c.constants.size) (hm : m ≠ c.constants.size)
        (hpushed : (c.constants.push k)[n]? = some (.str s))
        (hother : (c.constants.push k)[m]? = some (.str s)) : False := by
      rw [hn, Array.getElem?_push_size] at hpushed
      rw [Array.getElem?_push, if_neg hm] at hother
      cases hpushed
      exact hnew ⟨⟨s, rfl⟩, Array.mem_of_getElem? hother⟩
    by_cases hi' : i = c.constants.size
    · by_contra hne
      exact hlast hi' (fun hj' => hne (hi'.trans hj'.symm)) hi hj
    · by_cases hj' : j = c.constants.size
      · exact (hlast hj' hi' hj hi).elim
      · rw [Array.getElem?_push, if_neg hi'] at hi
        rw [Array.getElem?_push, if_neg hj'] at hj
        exact h.distinct s i j hi hj

/-! ## One constant after the other -/

/-- Constants are added to a chunk one after the other. -/
def adding (c : Chunk) (ks : List Constant) : Chunk := ks.foldl (fun c k => (c.addConstant k).2) c

theorem PoolInOrder.adding (h : c.PoolInOrder) (ks : List Constant) : (c.adding ks).PoolInOrder := by
  induction ks generalizing c with
  | nil => exact h
  | cons k rest ih => exact ih (h.adds (c.adds_addConstant k))

theorem isPrefix_adding (c : Chunk) (ks : List Constant) :
    c.constants.toList <+: (c.adding ks).constants.toList := by
  induction ks generalizing c with
  | nil => exact List.prefix_rfl
  | cons k rest ih => exact (c.adds_addConstant k).isPrefix.trans (ih (c.addConstant k).2)

theorem adding_append (c : Chunk) (ks more : List Constant) :
    c.adding (ks ++ more) = (c.adding ks).adding more := List.foldl_append

/-- What code can rely on when a constant is added. -/
structure PoolLaws (c : Chunk) (k : Constant) : Prop extends c.PoolInOrder where
  /-- Whatever is added, at most one entry comes to the end of the pool. -/
  grows : (c.addConstant k).2 = c ∨
    (c.addConstant k).2 = { c with constants := c.constants.push k }
  found : ∀ i, (c.addConstant k).1 = some i →
    (c.addConstant k).2.constants[i.toNat]? = some k
  refused_iff : (c.addConstant k).1 = none ↔ c.constants.size = 65536 ∧ ¬ c.Shares k
  unchanged : (c.addConstant k).1 = none → (c.addConstant k).2 = c
  shared : ∀ i, (∃ s, k = .str s) → c.constants[i]? = some k →
    (c.addConstant k).1.map UInt16.toNat = some i ∧ (c.addConstant k).2 = c

theorem PoolInOrder.laws (h : c.PoolInOrder) (k : Constant) : c.PoolLaws k := by
  have hadds := c.adds_addConstant k
  refine ⟨h, hadds.grows, fun i => hadds.found h.size, ?_, ?_, ?_⟩
  all_goals generalize c.addConstant k = r at hadds ⊢
  · cases hadds with
    | shared hshares _ => exact iff_of_false (by simp) fun hnone => hnone.2 hshares
    | pushed _ hroom => exact iff_of_false (by simp) fun hnone => Nat.ne_of_lt hroom hnone.1
    | refused hnew hfull => exact iff_of_true rfl ⟨Nat.le_antisymm h.size hfull, hnew⟩
  · intro hnone
    cases hadds with
    | shared | pushed => cases hnone
    | refused => rfl
  · rintro i ⟨s, rfl⟩ hi
    have hshares : c.Shares (.str s) := ⟨⟨s, rfl⟩, Array.mem_of_getElem? hi⟩
    cases hadds with
    | shared _ hfound =>
      refine ⟨congrArg some ((toNat_index h.size hfound).trans ?_), rfl⟩
      exact h.distinct s _ _ hfound hi
    | pushed hnew _ => exact absurd hshares hnew
    | refused hnew _ => exact absurd hshares hnew

/-- **The pool of a chunk.** However many constants were added, each of them stays where it is
when more are, no string is there twice, and the next constant is found at the index that is
given for it; it is refused only if there is no index left for it. -/
theorem pool_of_empty (ks more : List Constant) (k : Constant) :
    (adding {} ks).constants.toList <+: (adding {} (ks ++ more)).constants.toList ∧
      (adding {} ks).PoolLaws k := by
  refine ⟨?_, (poolInOrder_empty.adding ks).laws k⟩
  rw [adding_append]
  exact isPrefix_adding ..

end Chunk

end Strand
