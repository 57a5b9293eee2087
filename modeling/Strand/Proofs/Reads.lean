import Mathlib.Data.List.Basic
import Mathlib.Tactic.Common
import Strand.Stream.Decode

/-!
# What a reader makes of the words it is meant for

`Reads r words found a` is the one statement made about every reader: wherever
`words` stand in a stream, `r` consumes exactly them and answers `a`, unless one of
the line numbers found among them is too large for a signed word. In that case it
stops at the first such line, and the error says where that line stands.

Only line numbers can spoil a stream that was written by `Strand.Stream.Encode`, so
most readers find none; `Gives` is the special case. Both are closed under sequencing,
and a counted list reads back when its items do. The count is checked against what is
left of the stream before any item is read, which is why an item has to take at least
one word.
-/

namespace Strand.Stream

open Reader

variable {α β : Type} {a : α} {what : Quantity} {r : Reader α} {ws' : List Int} {f : α → List Int}
  {found' : Nat → List (UInt64 × Nat)} {g : α → Reader β}

variable {ws : List Int} {found : Nat → List (UInt64 × Nat)}

/-- The greatest line number that a signed word can hold. -/
def maxLine : Nat := 9223372036854775807

/-- A line number that comes back as a negative word. -/
def IsLong (line : UInt64) : Prop := maxLine < line.toNat

instance (line : UInt64) : Decidable (IsLong line) := inferInstanceAs (Decidable (_ < _))

/-- The answer, unless one of the lines found is too large: then the first such line is
reported where it stands. -/
def verdict (found : List (UInt64 × Nat)) (a : α) : Except DecodeError α :=
  match found.find? fun l => IsLong l.1 with
  | none => .ok a
  | some l => .error (.outOfRange .line (signed l.1) l.2)

theorem verdict_append (xs ys : List (UInt64 × Nat)) (a : α) :
    verdict (xs ++ ys) a = (verdict xs ()).bind fun _ => verdict ys a := by
  unfold verdict
  rw [List.find?_append]
  cases xs.find? fun l => IsLong l.1 <;> rfl

theorem verdict_bind (found : List (UInt64 × Nat)) (a : α) (f : α → Except DecodeError β) :
    (verdict found a).bind f = (verdict found ()).bind fun _ => f a := by
  unfold verdict
  cases found.find? fun l => IsLong l.1 <;> rfl

/-- Wherever `words` stand, `r` consumes them and answers `a`, or stops at the first line
in `found` that is too large. -/
def Reads (r : Reader α) (words : List Int) (found : Nat → List (UInt64 × Nat)) (a : α) : Prop :=
  ∀ (place : Nat) (rest : List Int) (size : Nat), place + words.length + rest.length = size →
    r ⟨words ++ rest, place, size⟩ =
      verdict (found place) (a, ⟨rest, place + words.length, size⟩)

/-- Wherever `words` stand, `r` consumes them and answers `a`. -/
abbrev Gives (r : Reader α) (words : List Int) (a : α) : Prop := Reads r words (fun _ => []) a

theorem Reads.of_eq
    {a' : α} (h : Reads r ws found a) (hwords : ws' = ws) (hfound : ∀ p, found' p = found p)
    (ha : a' = a) : Reads r ws' found' a' := by
  rw [hwords, funext hfound, ha]
  exact h

/-! ## Sequencing -/

theorem bind_apply (r : Reader α) (g : α → Reader β) (c : Cursor) :
    (r >>= g) c = (r c).bind fun x => g x.1 x.2 := rfl

theorem gives_pure (a : α) : Gives (pure a) [] a := by
  intro place rest size _
  rfl

/-- Lines are found at the places of the words they were read from. -/
theorem Reads.bind {b : β} (h : Reads r ws found a) (h' : Reads (g a) ws' found' b) :
    Reads (r >>= g) (ws ++ ws') (fun p => found p ++ found' (p + ws.length)) b := by
  intro place rest size hsize
  rw [List.length_append] at hsize
  have hr := h place (ws' ++ rest) size (by rw [List.length_append]; omega)
  have hg := h' (place + ws.length) rest size (by omega)
  rw [List.append_assoc, bind_apply, hr, verdict_bind, hg, verdict_append, List.length_append,
    Nat.add_assoc]

theorem Gives.bind {b : β}
    (h : Gives r ws a) (h' : Gives (g a) ws' b) : Gives (r >>= g) (ws ++ ws') b :=
  Reads.bind h h'

/-- A reader whose answer is only repackaged. -/
theorem Reads.bind_pure (h : Reads r ws found a) (g : α → β) :
    Reads (r >>= fun x => pure (g x)) ws found (g a) := by
  have h' := Reads.bind (g := fun x => (pure (g x) : Reader β)) h (gives_pure (g a))
  simpa only [List.append_nil] using h'

theorem Reads.map (h : Reads r ws found a) (g : α → β) : Reads (g <$> r) ws found (g a) := by
  rw [map_eq_pure_bind]
  exact h.bind_pure g

/-- Where the words start may be looked up first. -/
theorem Reads.position {g : Nat → Reader α} (h : ∀ p, Reads (g p) ws found a) :
    Reads (position >>= g) ws found a :=
  fun place rest size hsize => h place place rest size hsize

/-! ## Words -/

theorem gives_next (w : Int) : Gives next [w] w := by
  intro place rest size _
  rfl

theorem Reads.next {g : Int → Reader α} {w : Int}
    {f : Nat → List (UInt64 × Nat)} (h : Reads (g w) ws f a) :
    Reads (next >>= g) (w :: ws) (fun p => f (p + 1)) a :=
  Reads.bind (gives_next w) h

theorem Gives.next {g : Int → Reader α} {w : Int}
    (h : Gives (g w) ws a) : Gives (next >>= g) (w :: ws) a :=
  Reads.next h

theorem gives_inRange {bound : Nat} (place n : Nat) (h : n < bound) :
    Gives (inRange what bound place (n : Int)) [] n := by
  have hn : (0 : Int) ≤ n ∧ (n : Int) < bound := ⟨Int.natCast_nonneg n, by exact_mod_cast h⟩
  intro p rest size _
  simp only [inRange, if_pos hn]
  rfl

theorem gives_below {bound : Nat} (n : Nat) (h : n < bound) :
    Gives (below what bound) [(n : Int)] n :=
  Reads.position fun p => (gives_inRange p n h).next

theorem gives_byte (what : Quantity) (b : UInt8) : Gives (byte what) [(b.toNat : Int)] b := by
  have h : Gives (byte what) _ _ := (gives_below b.toNat b.toNat_lt).map UInt8.ofNat
  rwa [UInt8.ofNat_toNat] at h

theorem gives_word16 (what : Quantity) (w : UInt16) :
    Gives (word16 what) [(w.toNat : Int)] w := by
  have h : Gives (word16 what) _ _ := (gives_below w.toNat w.toNat_lt).map UInt16.ofNat
  rwa [UInt16.ofNat_toNat] at h

theorem gives_flag (b : Bool) : Gives flag [flagWord b] b := by
  intro place rest size _
  cases b <;> rfl

theorem signed_of_not_long {l : UInt64} (h : ¬ IsLong l) : signed l = l.toNat := by
  simp only [IsLong, maxLine] at h
  exact if_pos (by omega)

theorem signed_neg_of_long {l : UInt64} (h : IsLong l) : signed l < 0 := by
  have hl := l.toNat_lt
  simp only [IsLong, maxLine] at h
  unfold signed
  split <;> omega

/-- A line is read back unless it is too large, and then it is reported. -/
theorem reads_line (l : UInt64) : Reads Reader.line [signed l] (fun p => [(l, p)]) l := by
  intro place rest size hsize
  by_cases h : IsLong l
  · have hneg : ¬ ((0 : Int) ≤ signed l ∧ signed l < (9223372036854775808 : Nat)) := by
      have := signed_neg_of_long h
      omega
    have hfail : inRange .line 9223372036854775808 place (signed l) =
        fail (.outOfRange .line (signed l) place) := if_neg hneg
    have hverdict : verdict [(l, place)] (l, (⟨rest, place + 1, size⟩ : Cursor)) =
        .error (.outOfRange .line (signed l) place) := by simp [verdict, h]
    calc Reader.line ⟨signed l :: rest, place, size⟩
        = (inRange .line 9223372036854775808 place (signed l) ⟨rest, place + 1, size⟩).bind
            fun x => .ok (UInt64.ofNat x.1, x.2) := rfl
      _ = _ := by rw [hfail, List.length_singleton, hverdict]; rfl
  · have hlt : l.toNat < 9223372036854775808 := by
      simp only [IsLong, maxLine] at h
      omega
    have hgives : Gives Reader.line _ _ := (gives_below l.toNat hlt).map UInt64.ofNat
    rw [UInt64.ofNat_toNat] at hgives
    have hverdict : verdict [(l, place)] (l, (⟨rest, place + 1, size⟩ : Cursor)) =
        .ok (l, ⟨rest, place + 1, size⟩) := by simp [verdict, h]
    rw [signed_of_not_long h, hgives place rest size hsize, List.length_singleton, hverdict]
    rfl

/-! ## Counted lists -/

/-- The lines found in a list of items, when each item is written by `f`. -/
def foundInList (f : α → List Int) (found : α → Nat → List (UInt64 × Nat)) :
    List α → Nat → List (UInt64 × Nat)
  | [], _ => []
  | a :: rest, place => found a place ++ foundInList f found rest (place + (f a).length)

theorem reads_times {found : α → Nat → List (UInt64 × Nat)} :
    ∀ (items : List α) (done : Array α), (∀ a ∈ items, Reads r (f a) (found a) a) →
      Reads (times r items.length done) (items.flatMap f) (foundInList f found items)
        (done ++ items.toArray)
  | [], done, _ => by
    rw [Array.append_empty]
    exact gives_pure done
  | a :: rest, done, h => by
    have hrest := reads_times rest (done.push a) fun b hb => h b (.tail _ hb)
    have hdone : done ++ (a :: rest).toArray = done.push a ++ rest.toArray := by simp
    rw [hdone, List.flatMap_cons]
    exact Reads.bind (h a (.head _)) hrest

/-- A count may be checked against what is left because every item takes a word. -/
theorem length_le_flatMap :
    ∀ (items : List α), (∀ a ∈ items, f a ≠ []) → items.length ≤ (items.flatMap f).length
  | [], _ => Nat.zero_le _
  | a :: rest, h => by
    have ha := List.length_pos_of_ne_nil (h a (.head _))
    have hrest := length_le_flatMap rest fun b hb => h b (.tail _ hb)
    simp only [List.length_cons, List.flatMap_cons, List.length_append]
    omega

theorem count_eq {n place size : Nat} {rest : List Int} (hn : n < 9223372036854775808)
    (hleft : n ≤ rest.length) (hsize : place + 1 + rest.length = size) :
    count ⟨(n : Int) :: rest, place, size⟩ = .ok (n, ⟨rest, place + 1, size⟩) := by
  have hbelow : below .count 9223372036854775808 ⟨(n : Int) :: rest, place, size⟩ =
      .ok (n, ⟨rest, place + 1, size⟩) := gives_below n hn place rest size hsize
  unfold count
  rw [bind_apply, hbelow]
  exact if_neg (by simp only; omega)

theorem reads_counted {found : α → Nat → List (UInt64 × Nat)}
    (items : List α) (hlen : items.length < 9223372036854775808) (hne : ∀ a ∈ items, f a ≠ [])
    (h : ∀ a ∈ items, Reads r (f a) (found a) a) :
    Reads (counted r) (encodeList f items) (fun p => foundInList f found items (p + 1))
      items.toArray := by
  intro place rest size hsize
  -- each item takes a word at least, so there are as many words left as the count says
  have hleft := length_le_flatMap items hne
  have hrest : (items.flatMap f ++ rest).length = _ := List.length_append
  simp only [encodeList, List.length_cons] at hsize
  have hcount : count ⟨(items.length : Int) :: (items.flatMap f ++ rest), place, size⟩ =
      .ok (items.length, ⟨items.flatMap f ++ rest, place + 1, size⟩) :=
    count_eq hlen (by omega) (by omega)
  have htimes := reads_times items #[] h (place + 1) rest size (by omega)
  rw [Array.empty_append] at htimes
  unfold counted encodeList
  rw [bind_apply, List.cons_append, hcount]
  simp only [Except.bind, htimes, List.length_cons, Nat.add_assoc, Nat.add_comm 1]

/-- Items that hold no lines. -/
theorem foundInList_nil (f : α → List Int) :
    ∀ (items : List α) (place : Nat), foundInList f (fun _ _ => []) items place = []
  | [], _ => rfl
  | _ :: rest, _ => foundInList_nil f rest _

theorem gives_counted (items : List α)
    (hlen : items.length < 9223372036854775808) (hne : ∀ a ∈ items, f a ≠ [])
    (h : ∀ a ∈ items, Gives r (f a) a) : Gives (counted r) (encodeList f items) items.toArray := by
  have hreads := reads_counted items hlen hne h
  simpa only [foundInList_nil] using hreads

end Strand.Stream
