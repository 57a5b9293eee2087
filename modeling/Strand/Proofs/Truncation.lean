import Strand.Proofs.RoundTrip

/-!
# Streams that are cut short, and streams that go on

A reader decides nothing by what lies beyond the words that it consumes. So what it makes
of a stream it also makes of every longer one, with one exception: where the words run
out it says so, and there the longer stream may read differently. `Steady t n r r'` is
this statement for one reader, at every place with fewer than `n` words left; it holds of
the words, is kept by sequencing and by counting, and so holds of the reader of modules.

Two readers are compared because the depth to which units may nest is taken from the
length of the stream. The longer stream allows more levels, and the bound `n` says that
the shorter one allows enough: each level consumes a tag before it starts the next.

The position of the end is the only one that can be reported for a stream that was cut,
and this is what makes the place of a cut readable from the error.
-/

namespace Strand.Stream

open Reader

variable {α β : Type} {t : List Int} {n : Nat} {r r' : Reader α} {f f' : Int → Reader α}

variable {what : Quantity}

/-- The words that are left are those from the position to the end. -/
def Cursor.Placed (c : Cursor) : Prop := c.position + c.rest.length = c.size

/-- The same place in a stream that goes on with `t`. -/
def Cursor.extend (c : Cursor) (t : List Int) : Cursor :=
  ⟨c.rest ++ t, c.position, c.size + t.length⟩

theorem placed_start (s : List Int) : (Cursor.start s).Placed := Nat.zero_add _

theorem extend_start (s t : List Int) : (Cursor.start s).extend t = Cursor.start (s ++ t) := by
  unfold Cursor.start Cursor.extend
  rw [List.length_append]

/-- What reading from `c` comes to, and what it comes to in the stream that goes on. -/
inductive Outcome (t : List Int) (c : Cursor) :
    Except DecodeError (α × Cursor) → Except DecodeError (α × Cursor) → Prop where
  | done (a : α) {c' : Cursor} (hplaced : c'.Placed) (hsize : c'.size = c.size)
      (hleft : c'.rest.length ≤ c.rest.length) : Outcome t c (.ok (a, c')) (.ok (a, c'.extend t))
  | cut {later : Except DecodeError (α × Cursor)} :
      Outcome t c (.error (.unexpectedEnd c.size)) later
  | faulty {e : DecodeError} (he : ∀ p, e ≠ .unexpectedEnd p) : Outcome t c (.error e) (.error e)

/-- Where fewer than `n` words are left, `r'` makes of a stream that goes on with `t` what
`r` makes of the stream, unless the words run out. -/
def Steady (t : List Int) (n : Nat) (r r' : Reader α) : Prop :=
  ∀ c : Cursor, c.Placed → c.rest.length < n → Outcome t c (r c) (r' (c.extend t))

/-! ## Sequencing -/

/-- What is read from a later place may be judged from an earlier one. -/
theorem Outcome.later {c c' : Cursor} {x x' : Except DecodeError (α × Cursor)}
    (h : Outcome t c' x x') (hsize : c'.size = c.size) (hleft : c'.rest.length ≤ c.rest.length) :
    Outcome t c x x' := by
  cases h with
  | done a hplaced hsize' hleft' =>
    exact .done a hplaced (hsize'.trans hsize) (Nat.le_trans hleft' hleft)
  | cut =>
    rw [hsize]
    exact .cut
  | faulty he => exact .faulty he

theorem steady_pure (a : α) : Steady t n (pure a) (pure a) :=
  fun _ hc _ => .done a hc rfl (Nat.le_refl _)

theorem steady_fail {e : DecodeError} (he : ∀ p, e ≠ .unexpectedEnd p) :
    Steady t n (fail e : Reader α) (fail e) :=
  fun _ _ _ => .faulty he

theorem steady_position : Steady t n position position :=
  fun c hc _ => .done c.position hc rfl (Nat.le_refl _)

theorem Steady.bind {f f' : α → Reader β} (h : Steady t n r r')
    (hf : ∀ a, Steady t n (f a) (f' a)) : Steady t n (r >>= f) (r' >>= f') := by
  intro c hc hlt
  have hfirst := h c hc hlt
  rw [bind_apply, bind_apply]
  generalize r c = x, r' (c.extend t) = x' at hfirst
  cases hfirst with
  | done a hplaced hsize hleft =>
    exact (hf a _ hplaced (Nat.lt_of_le_of_lt hleft hlt)).later hsize hleft
  | cut => exact .cut
  | faulty he => exact .faulty he

theorem Steady.map (h : Steady t n r r') (g : α → β) : Steady t n (g <$> r) (g <$> r') := by
  rw [map_eq_pure_bind, map_eq_pure_bind]
  exact h.bind fun a => steady_pure (g a)

/-! ## Words -/

/-- After a word there is one word less, so that what follows may rely on a smaller bound. -/
theorem Steady.next (h : ∀ w, Steady t n (f w) (f' w)) :
    Steady t (n + 1) (next >>= f) (next >>= f') := by
  rintro ⟨rest, position, size⟩ hc hlt
  unfold Cursor.Placed at hc
  cases rest with
  | nil =>
    have hend : position = size := hc
    subst hend
    exact .cut
  | cons w rest =>
    simp only [List.length_cons] at hc hlt
    have hplaced : (⟨rest, position + 1, size⟩ : Cursor).Placed := by
      unfold Cursor.Placed
      simp only
      omega
    exact (h w _ hplaced (Nat.lt_of_succ_lt_succ hlt)).later rfl (Nat.le_succ _)

theorem Steady.mono {m : Nat} (h : Steady t n r r') (hm : m ≤ n) : Steady t m r r' :=
  fun c hc hlt => h c hc (Nat.lt_of_lt_of_le hlt hm)

/-- The next word, for readers that need no bound. -/
theorem Steady.ofNext (h : ∀ w, Steady t n (f w) (f' w)) :
    Steady t n (Reader.next >>= f) (Reader.next >>= f') :=
  (Steady.next h).mono (Nat.le_succ n)

theorem steady_next : Steady t n next next := by
  have h : Steady t n (next >>= pure) (next >>= pure) := .ofNext fun w => steady_pure w
  simpa only [bind_pure] using h

theorem steady_inRange {bound place : Nat} {w : Int} :
    Steady t n (inRange what bound place w) (inRange what bound place w) := by
  unfold inRange
  split
  · exact steady_pure _
  · exact steady_fail fun _ h => by cases h

theorem steady_below {bound : Nat} : Steady t n (below what bound) (below what bound) :=
  steady_position.bind fun _ => steady_next.bind fun _ => steady_inRange

theorem steady_byte : Steady t n (byte what) (byte what) := steady_below.map _

theorem steady_word16 : Steady t n (word16 what) (word16 what) :=
  steady_below.map _

theorem steady_flag : Steady t n flag flag := by
  refine steady_position.bind fun place => steady_next.bind fun w => ?_
  split
  · exact steady_pure _
  · exact steady_pure _
  · exact steady_fail fun _ h => by cases h

theorem steady_char : Steady t n char char := by
  refine steady_position.bind fun place => steady_next.bind fun w => ?_
  split
  · exact steady_pure _
  · exact steady_fail fun _ h => by cases h

/-! ## Lists -/

/-- A count that is too large for the stream may be right for a longer one; one that is
not stays right. -/
theorem steady_count : Steady t n count count := by
  refine steady_below.bind fun k c hc _ => ?_
  unfold Cursor.Placed at hc
  dsimp only [Cursor.extend]
  by_cases hk : k > c.size - c.position
  · rw [if_pos hk]
    exact .cut
  · rw [if_neg hk, if_neg (by omega)]
    exact .done k hc rfl (Nat.le_refl _)

theorem Steady.times (h : Steady t n r r') (k : Nat) :
    ∀ done : Array α, Steady t n (times r k done) (times r' k done) := by
  induction k with
  | zero => exact fun done => steady_pure done
  | succ k ih => exact fun done => h.bind fun a => ih (done.push a)

theorem Steady.counted (h : Steady t n r r') : Steady t n (counted r) (counted r') :=
  steady_count.bind fun k => h.times k #[]

theorem steady_string : Steady t n string string :=
  steady_char.counted.bind fun _ => steady_pure _

theorem steady_strings : Steady t n strings strings :=
  steady_string.counted.bind fun _ => steady_pure _

theorem string?_cons (w : Int) (rest : List Int) (position size : Nat) :
    string? ⟨w :: rest, position, size⟩ =
      if w = -1 then .ok (none, ⟨rest, position + 1, size⟩)
      else (some <$> string) ⟨w :: rest, position, size⟩ := by
  unfold string?
  split
  · rename_i heq
    injection heq with hw hrest
    rw [if_pos hw, hrest]
  · rename_i hne
    rw [if_neg fun hw => hne rest (by rw [hw])]

/-- The word for no string is looked at before it is consumed, so a stream that ends
there is told from one that goes on by the reader of strings. -/
theorem steady_string? : Steady t n string? string? := by
  have hsome : Steady t n (some <$> string) (some <$> string) := steady_string.map some
  rintro ⟨rest, position, size⟩ hc hlt
  cases rest with
  | nil =>
    have hend : position = size := hc
    subst hend
    exact .cut
  | cons w rest =>
    have hboth := hsome _ hc hlt
    rw [Cursor.extend, List.cons_append, string?_cons, string?_cons]
    by_cases hw : w = -1
    · rw [if_pos hw, if_pos hw]
      have hplaced : (⟨rest, position + 1, size⟩ : Cursor).Placed := by
        unfold Cursor.Placed at hc ⊢
        simp only [List.length_cons] at hc ⊢
        omega
      exact .done none hplaced rfl (Nat.le_succ _)
    · rw [if_neg hw, if_neg hw]
      exact hboth

/-! ## Instructions -/

theorem steady_readTagged {tag : Int} {place : Nat} :
    Steady t n (Instr.readTagged tag place) (Instr.readTagged tag place) := by
  have hword : Steady t n (Instr.readWord place) (Instr.readWord place) :=
    steady_next.bind fun _ => steady_inRange.map _
  have hbyte : Steady t n (Instr.readByte place) (Instr.readByte place) :=
    steady_next.bind fun _ => steady_inRange.map _
  have hdistance : Steady t n (Instr.readDistance place) (Instr.readDistance place) :=
    steady_next.bind fun _ => steady_inRange.map _
  have hdirective : Steady t n (Instr.readDirective place) (Instr.readDirective place) := by
    refine steady_next.bind fun w => ?_
    split
    · exact steady_pure _
    · exact steady_fail fun _ h => by cases h
  unfold Instr.readTagged
  split
  -- tags differ only in the operands that follow them
  all_goals first
    | exact steady_pure _
    | exact hword.map _
    | exact hdistance.map _
    | exact hword.bind fun _ => hbyte.map _
    | exact hbyte.bind fun _ => hbyte.map _
    | exact hword.bind fun _ => hword.map _
    | exact hdirective.bind fun _ => hword.map _
    | exact steady_fail fun _ h => by cases h

theorem steady_instr : Steady t n Instr.read Instr.read :=
  steady_position.bind fun _ => steady_next.bind fun _ => steady_readTagged

/-! ## Units -/

theorem steady_header : Steady t n readHeader readHeader :=
  steady_string.bind fun _ => steady_byte.bind fun _ => steady_byte.bind fun _ =>
    steady_byte.bind fun _ => steady_next.bind fun _ => steady_strings.bind fun _ => steady_pure _

theorem steady_capture : Steady t n readCapture readCapture := by
  refine steady_position.bind fun place => steady_next.bind fun w => ?_
  split
  · exact steady_word16.map _
  · exact steady_word16.map _
  · exact steady_string.map _
  · exact steady_fail fun _ h => by cases h

theorem steady_moduleHeader : Steady t n readModuleHeader readModuleHeader :=
  steady_string?.bind fun _ => steady_string?.bind fun _ => steady_string?.bind fun _ =>
    steady_strings.bind fun _ => steady_flag.bind fun _ => steady_pure _

theorem steady_global : Steady t n readGlobal readGlobal :=
  steady_string.bind fun _ => steady_string.bind fun _ => steady_flag.bind fun _ => steady_pure _

theorem steady_member : Steady t n readMember readMember := by
  have hkind : Steady t n readMemberKind readMemberKind := by
    refine steady_position.bind fun place => steady_next.bind fun w => ?_
    split
    · exact steady_pure _
    · exact steady_pure _
    · exact steady_fail fun _ h => by cases h
  exact steady_string.bind fun _ => hkind.bind fun _ => steady_next.bind fun _ => steady_pure _

theorem steady_class : Steady t n readClass readClass :=
  steady_string.bind fun _ => steady_flag.bind fun _ => steady_flag.bind fun _ =>
    steady_member.counted.bind fun _ => steady_strings.bind fun _ => steady_pure _

theorem steady_enum : Steady t n readEnum readEnum := by
  have hvariant : Steady t n readVariant readVariant :=
    steady_string.bind fun _ => steady_strings.bind fun _ => steady_pure _
  exact steady_string.bind fun _ => hvariant.counted.bind fun _ => steady_pure _

/-- The tag of a constant is what pays for one more level of nesting. -/
theorem Steady.constant {unit unit' : Reader CodeUnit} (h : Steady t n unit unit') :
    Steady t (n + 1) (readConstant unit) (readConstant unit') := by
  refine steady_position.bind fun place => Steady.next fun tag => ?_
  split
  · exact steady_next.map _
  · exact steady_next.map _
  · exact steady_string.map _
  · exact steady_strings.map _
  · exact h.map _
  · exact steady_class.map _
  · exact steady_enum.map _
  · exact steady_fail fun _ h => by cases h

/-- A depth that is enough for what is left of a stream reads the same as any greater one
does when the stream goes on. -/
theorem steady_unit (k : Nat) :
    ∀ depth, Steady t depth (readUnit depth) (readUnit (depth + k)) := by
  intro depth
  induction depth with
  | zero => exact fun _ _ hlt => absurd hlt (Nat.not_lt_zero _)
  | succ depth ih =>
    rw [Nat.succ_add]
    exact steady_header.bind fun _ => steady_capture.counted.bind fun _ =>
      steady_moduleHeader.bind fun _ => ih.constant.counted.bind fun _ =>
      steady_global.counted.bind fun _ => steady_instr.counted.bind fun _ =>
      (steady_below.map _).counted.bind fun _ => steady_pure _

theorem steady_module (depth k : Nat) :
    Steady t depth (readModule depth) (readModule (depth + k)) := by
  refine steady_next.bind fun found => ?_
  split
  · exact steady_fail fun _ h => by cases h
  refine steady_next.bind fun found => ?_
  split
  · exact steady_fail fun _ h => by cases h
  refine steady_position.bind fun place => steady_next.bind fun found => ?_
  split
  · exact steady_fail fun _ h => by cases h
  exact steady_string.bind fun _ => (steady_unit k depth).bind fun _ => steady_pure _

/-! ## Whole streams -/

theorem outcome_module (s t : List Int) :
    Outcome t (Cursor.start s) (readModule (s.length + 1) (Cursor.start s))
      (readModule ((s ++ t).length + 1) (Cursor.start (s ++ t))) := by
  have h := steady_module (t := t) (s.length + 1) t.length _ (placed_start s) (Nat.lt_succ_self _)
  rw [extend_start, Nat.add_right_comm, ← List.length_append] at h
  exact h

/-- How the module at the front of `s` is read, and how it is when `s` goes on with `t`. -/
theorem decodeWithRest_append (s t : List Int) :
    (∃ m rest, decodeWithRest s = .ok (m, rest) ∧ decodeWithRest (s ++ t) = .ok (m, rest ++ t)) ∨
    decodeWithRest s = .error (.unexpectedEnd s.length) ∨
    ∃ e, (∀ p, e ≠ .unexpectedEnd p) ∧ decodeWithRest s = .error e ∧
      decodeWithRest (s ++ t) = .error e := by
  have h := outcome_module s t
  unfold decodeWithRest
  generalize readModule (s.length + 1) (Cursor.start s) = x,
    readModule ((s ++ t).length + 1) (Cursor.start (s ++ t)) = x' at h
  cases h with
  | done m _ _ _ => exact .inl ⟨m, _, rfl, rfl⟩
  | cut => exact .inr (.inl rfl)
  | faulty he => exact .inr (.inr ⟨_, he, rfl, rfl⟩)

theorem decodeWithRest_of_shortLines {m : Module} (hm : m.Sized)
    (hlines : ∀ u ∈ m.units, ∀ l ∈ u.lines, l.toNat ≤ maxLine) (rest : List Int) :
    decodeWithRest (encode m ++ rest) = .ok (m, rest) := by
  have hshort : ∀ e ∈ m.placedLines, ¬ IsLong e.1 := by
    intro e he
    obtain ⟨u, hu, hl⟩ := (mem_linesFrom e.1 m.main _).mp ⟨e.2, he⟩
    exact Nat.not_lt.mpr (hlines u (m.units_eq ▸ hu) e.1 hl)
  have hnone : m.placedLines.find? (fun e => IsLong e.1) = none := by
    rw [List.find?_eq_none]
    simpa using hshort
  rw [decodeWithRest_encode hm, verdict, hnone]

/-- A written module that is cut short anywhere is missing words from there on. -/
theorem decode_take_encode {m : Module} (hm : m.Sized)
    (hlines : ∀ u ∈ m.units, ∀ l ∈ u.lines, l.toNat ≤ maxLine) (hn : n < (encode m).length) :
    decode ((encode m).take n) = .error (.unexpectedEnd n) := by
  have hwhole : decodeWithRest ((encode m).take n ++ (encode m).drop n) = .ok (m, []) := by
    rw [List.take_append_drop, ← List.append_nil (encode m)]
    exact decodeWithRest_of_shortLines hm hlines []
  have hlength : ((encode m).take n).length = n := by
    rw [List.length_take]
    omega
  unfold decode
  rcases decodeWithRest_append ((encode m).take n) ((encode m).drop n) with hok | hcut | hfaulty
  · -- a module in the first part would leave the second part unread
    obtain ⟨m', rest, -, hlonger⟩ := hok
    rw [hwhole, Except.ok.injEq, Prod.mk.injEq] at hlonger
    have hnil := List.append_eq_nil_iff.mp hlonger.2.symm
    have hle := List.drop_eq_nil_iff.mp hnil.2
    omega
  · rw [hcut, hlength]
    rfl
  · obtain ⟨e, -, -, hlonger⟩ := hfaulty
    rw [hwhole] at hlonger
    cases hlonger

/-- A written module that is cut short is rejected where the words end. Of any stream at
all, what was read stays read and what was wrong stays wrong when more words follow, and
words are only ever missing at the end. -/
theorem decode_cut_or_continued :
    (∀ m : Module, m.Sized → (∀ u ∈ m.units, ∀ l ∈ u.lines, l.toNat ≤ maxLine) →
      ∀ n < (encode m).length, decode ((encode m).take n) = .error (.unexpectedEnd n)) ∧
    ∀ s t : List Int,
      (∀ m, decode s = .ok m → decode (s ++ t) = .ok m) ∧
      (∀ e, decode s = .error e → (∀ p, e ≠ .unexpectedEnd p) → decode (s ++ t) = .error e) ∧
      ∀ p, decode s = .error (.unexpectedEnd p) → p = s.length := by
  refine ⟨fun m hm hlines n hn => decode_take_encode hm hlines hn, fun s t => ?_⟩
  unfold decode
  -- reading on from a prefix has three outcomes: it was enough, it was too short, or it was faulty
  rcases decodeWithRest_append s t with hok | hcut | hfaulty
  · obtain ⟨m, rest, hs, hst⟩ := hok
    rw [hs, hst]
    refine ⟨fun m' hm' => hm', fun e he => ?_, fun p hp => ?_⟩
    · cases he
    · cases hp
  · rw [hcut]
    refine ⟨fun m' hm' => ?_, fun e he hother => ?_, fun p hp => ?_⟩
    · cases hm'
    · cases he
      exact absurd rfl (hother s.length)
    · cases hp
      rfl
  · obtain ⟨e, hother, hs, hst⟩ := hfaulty
    rw [hs, hst]
    refine ⟨fun m' hm' => hm', fun e' he' _ => he', fun p hp => ?_⟩
    cases hp
    exact absurd rfl (hother p)

theorem twoUnits_shortLines :
    ∀ u ∈ (twoUnits 2 5).units, ∀ l ∈ u.lines, l.toNat ≤ maxLine := by
  simp [twoUnits, Module.units_eq, CodeUnit.units, CodeUnit.unitsBackwards, maxLine]

/-- Cut inside the inner unit, continued after its end, and wrong from the start. -/
theorem decode_cut_or_continued_twoUnits :
    decode ((encode (twoUnits 2 5)).take 40) = .error (.unexpectedEnd 40) ∧
    decode (encode (twoUnits 2 5) ++ [magic, 7]) = .ok (twoUnits 2 5) ∧
    decode ([magic, 2] ++ [1]) = .error (.unsupportedVersion 2) ∧
    [magic, version].length = 2 := by
  have hlines := twoUnits_shortLines
  have hwhole : decode (encode (twoUnits 2 5)) = .ok (twoUnits 2 5) := by
    have h := decodeWithRest_of_shortLines (twoUnits_sized 2 5) hlines []
    rw [List.append_nil] at h
    rw [decode, h]
    rfl
  have hlong : 40 < (encode (twoUnits 2 5)).length := by decide
  obtain ⟨hcut, hcontinued⟩ := decode_cut_or_continued
  refine ⟨hcut _ (twoUnits_sized 2 5) hlines 40 hlong, ?_, ?_, ?_⟩
  · exact (hcontinued _ _).1 _ hwhole
  · exact (hcontinued _ _).2.1 _ rfl fun _ h => by cases h
  · exact ((hcontinued _ []).2.2 2 rfl).symm

end Strand.Stream
