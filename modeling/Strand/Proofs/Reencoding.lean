import Strand.Proofs.Spelling
import Strand.Proofs.Truncation

/-!
# Streams that were read and are written again

What a reader consumes is a spelling of what it answers. `Takes r Spells` says this of one
reader; it is the other direction of `Gives`, which says that a written spelling is
consumed. Most readers take one spelling only, the one that is written. The exceptions
are words of flags and tables of globals, and for those the spelling is kept as a
`RawUnit`.

A module that was read can be written and read again: what bounds its lists and its line
numbers are the words that they were read from.
-/

namespace Strand.Stream

open Reader

variable {α β γ : Type} {e : String × γ}

variable {what : Quantity} {w : Int}

/-- Words are signed 64-bit numbers. -/
def IsWord (w : Int) : Prop := -9223372036854775808 ≤ w ∧ w < 9223372036854775808

instance (w : Int) : Decidable (IsWord w) := inferInstanceAs (Decidable (_ ∧ _))

/-- The words that `r` consumes spell what it answers. -/
def Takes (r : Reader α) (Spells : List Int → α → Prop) : Prop :=
  ∀ (c c' : Cursor) (a : α), (∀ w ∈ c.rest, IsWord w) → r c = .ok (a, c') →
    ∃ ws, c.rest = ws ++ c'.rest ∧ Spells ws a

variable {r : Reader α} {P : List Int → α → Prop} {R : List Int → β → Prop}

/-! ## Sequencing -/

theorem takes_pure {a : α} (h : P [] a) : Takes (pure a) P := by
  intro c c' b _ hread
  cases hread
  exact ⟨[], rfl, h⟩

theorem takes_fail {e : DecodeError} : Takes (fail e) P := by
  intro c c' a _ hread
  cases hread

/-- What comes first is spelled first. -/
theorem Takes.bind {f : α → Reader β} (h : Takes r P)
    (hf : ∀ us a, P us a → Takes (f a) fun vs b => R (us ++ vs) b) : Takes (r >>= f) R := by
  intro c c' b hwords hread
  rw [bind_apply] at hread
  cases hfirst : r c with
  | error e =>
    rw [hfirst] at hread
    cases hread
  | ok x =>
    obtain ⟨a, c1⟩ := x
    rw [hfirst] at hread
    obtain ⟨us, hus, hP⟩ := h c c1 a hwords hfirst
    have hleft : ∀ w ∈ c1.rest, IsWord w :=
      fun w hw => hwords w (by rw [hus]; exact List.mem_append_right _ hw)
    obtain ⟨vs, hvs, hR⟩ := hf us a hP c1 c' b hleft hread
    exact ⟨us ++ vs, by rw [hus, hvs, List.append_assoc], hR⟩

theorem Takes.map {g : α → β} (h : Takes r P) (hR : ∀ ws a, P ws a → R ws (g a)) :
    Takes (g <$> r) R := by
  rw [map_eq_pure_bind]
  refine h.bind fun us a hP => takes_pure ?_
  rw [List.append_nil]
  exact hR us a hP

theorem Takes.imp {Q : List Int → α → Prop} (h : Takes r P) (hQ : ∀ ws a, P ws a → Q ws a) :
    Takes r Q := by
  intro c c' a hwords hread
  obtain ⟨ws, hws, hP⟩ := h c c' a hwords hread
  exact ⟨ws, hws, hQ ws a hP⟩

theorem Takes.position {f : Nat → Reader α} (h : ∀ p, Takes (f p) P) :
    Takes (position >>= f) P :=
  fun c c' a hwords hread => h c.position c c' a hwords hread

/-! ## Words -/

theorem takes_next : Takes next fun ws w => ws = [w] ∧ IsWord w := by
  intro c c' a hwords hread
  obtain ⟨rest, position, size⟩ := c
  cases rest with
  | nil => cases hread
  | cons w rest =>
    have hw := hwords w (.head _)
    cases hread
    exact ⟨[a], rfl, rfl, hw⟩

/-- The next word, which what follows may look at. -/
theorem Takes.next {f : Int → Reader α}
    (h : ∀ w, IsWord w → Takes (f w) fun ws a => P (w :: ws) a) : Takes (Reader.next >>= f) P := by
  refine takes_next.bind fun us w hw => ?_
  obtain ⟨rfl, hword⟩ := hw
  exact h w hword

theorem takes_inRange {bound place : Nat} :
    Takes (inRange what bound place w) fun ws n => ws = [] ∧ (n : Int) = w ∧ n < bound := by
  unfold inRange
  split
  · exact takes_pure ⟨rfl, by omega, by omega⟩
  · exact takes_fail

theorem takes_below {bound : Nat} :
    Takes (below what bound) fun ws n => ws = [(n : Int)] ∧ n < bound := by
  refine .position fun place => .next fun w _ => takes_inRange.imp fun ws n h => ?_
  obtain ⟨rfl, rfl, hlt⟩ := h
  exact ⟨rfl, hlt⟩

theorem takes_byte : Takes (byte what) fun ws b => ws = [(b.toNat : Int)] :=
  takes_below.map fun ws n h => by
    rw [UInt8.toNat_ofNat_of_lt' h.2]
    exact h.1

theorem takes_word16 : Takes (word16 what) fun ws n => ws = [(n.toNat : Int)] :=
  takes_below.map fun ws n h => by
    rw [UInt16.toNat_ofNat_of_lt' h.2]
    exact h.1

theorem takes_line :
    Takes Reader.line fun ws l => ws = [signed l] ∧ l.toNat ≤ maxLine :=
  takes_below.map fun ws n h => by
    obtain ⟨rfl, hlt⟩ := h
    have hn : (UInt64.ofNat n).toNat = n := UInt64.toNat_ofNat_of_lt' (Nat.lt_trans hlt (by decide))
    have hshort : ¬ IsLong (UInt64.ofNat n) := by
      unfold IsLong maxLine
      omega
    rw [signed_of_not_long hshort, hn]
    exact ⟨rfl, Nat.le_of_lt_succ hlt⟩

theorem takes_flag : Takes flag fun ws b => ws = [flagWord b] := by
  refine .position fun place => .next fun w _ => ?_
  split
  · exact takes_pure rfl
  · exact takes_pure rfl
  · exact takes_fail

theorem toNat_charOfNat {n : Nat} (h : n.isValidChar) : (Char.ofNat n).toNat = n := by
  unfold Char.ofNat
  rw [dif_pos h]
  rfl

theorem takes_char : Takes char fun ws c => ws = [(c.toNat : Int)] := by
  refine .position fun place => .next fun w _ => ?_
  split
  · rename_i h
    refine takes_pure ?_
    rw [toNat_charOfNat h.2, Int.toNat_of_nonneg h.1]
  · exact takes_fail

/-! ## Lists -/

theorem takes_count : Takes count fun ws n => ws = [(n : Int)] ∧ n < lengthBound := by
  refine takes_below.bind fun us n h => ?_
  obtain ⟨rfl, hlt⟩ := h
  intro c c' a _ hread
  dsimp only at hread
  split at hread
  · cases hread
  · cases hread
    exact ⟨[], rfl, rfl, hlt⟩

section

variable {f : γ → List Int} {g : γ → α} {S : γ → Prop}

/-- Items are spelled one after the other. Each is the meaning of an item of another kind,
which says how it is spelled. -/
theorem Takes.times (h : Takes r fun ws a => ∃ b, ws = f b ∧ g b = a ∧ S b) (n : Nat) :
    ∀ done : Array α, Takes (times r n done) fun ws items =>
      ∃ bs : List γ, ws = bs.flatMap f ∧ items.toList = done.toList ++ bs.map g ∧
        bs.length = n ∧ ∀ b ∈ bs, S b := by
  induction n with
  | zero => exact fun done => takes_pure ⟨[], rfl, by simp, rfl, by simp⟩
  | succ n ih =>
    intro done
    refine h.bind fun us a hfirst => (ih (done.push a)).imp fun vs items hrest => ?_
    obtain ⟨b, rfl, rfl, hb⟩ := hfirst
    obtain ⟨bs, rfl, hitems, rfl, hbs⟩ := hrest
    refine ⟨b :: bs, rfl, by simp [hitems], rfl, ?_⟩
    rw [List.forall_mem_cons]
    exact ⟨hb, hbs⟩

theorem Takes.counted (h : Takes r fun ws a => ∃ b, ws = f b ∧ g b = a ∧ S b) :
    Takes (counted r) fun ws items =>
      ∃ bs : List γ, ws = encodeList f bs ∧ items.toList = bs.map g ∧
        bs.length < lengthBound ∧ ∀ b ∈ bs, S b := by
  refine takes_count.bind fun us n hcount => (h.times n #[]).imp fun vs items htimes => ?_
  obtain ⟨rfl, hlt⟩ := hcount
  obtain ⟨bs, rfl, hitems, rfl, hbs⟩ := htimes
  exact ⟨bs, rfl, by simpa using hitems, hlt, hbs⟩

end

/-- Items that have one spelling. -/
theorem Takes.countedExact {f : α → List Int} {S : α → Prop}
    (h : Takes r fun ws a => ws = f a ∧ S a) :
    Takes (Reader.counted r) fun ws items => ws = encodeList f items.toList ∧
      items.size < lengthBound ∧ ∀ a ∈ items, S a := by
  have hsame : Takes r fun ws a => ∃ b, ws = f b ∧ b = a ∧ S b :=
    h.imp fun ws a hw => ⟨a, hw.1, rfl, hw.2⟩
  refine (Takes.counted (g := id) hsame).imp fun ws items hlist => ?_
  obtain ⟨bs, rfl, hitems, hlt, hbs⟩ := hlist
  rw [List.map_id] at hitems
  subst hitems
  exact ⟨rfl, hlt, fun a ha => hbs a (Array.mem_toList_iff.mpr ha)⟩

theorem takes_string : Takes string fun ws s => ws = encodeString s ∧ SizedString s := by
  have hchar : Takes char fun ws c => ws = [(c.toNat : Int)] ∧ True :=
    takes_char.imp fun ws c h => ⟨h, trivial⟩
  refine hchar.countedExact.bind fun us cs h => takes_pure ?_
  obtain ⟨rfl, hlt, -⟩ := h
  refine ⟨?_, ?_⟩
  · rw [List.append_nil, encodeString, String.toList_ofList]
  · rw [SizedString, String.length_ofList]
    exact hlt

theorem takes_strings : Takes strings fun ws ss => ws = encodeStrings ss ∧ SizedStrings ss := by
  refine takes_string.countedExact.bind fun us ss h => takes_pure ?_
  obtain ⟨rfl, hlt, hsized⟩ := h
  rw [List.append_nil]
  exact ⟨rfl, hlt, fun s hs => hsized s (Array.mem_toList_iff.mp hs)⟩

theorem takes_string? :
    Takes string? fun ws s => ws = encodeString? s ∧ ∀ t ∈ s, SizedString t := by
  have hsome : Takes (some <$> string) fun ws s =>
      ws = encodeString? s ∧ ∀ t ∈ s, SizedString t := by
    refine takes_string.map fun ws s h => ⟨h.1, fun t ht => ?_⟩
    cases ht
    exact h.2
  intro c c' a hwords hread
  obtain ⟨rest, position, size⟩ := c
  cases rest with
  | nil => exact hsome _ c' a hwords hread
  | cons w rest =>
    rw [string?_cons] at hread
    split at hread
    · rename_i hw
      cases hread
      exact ⟨[-1], by rw [hw]; rfl, rfl, by simp⟩
    · exact hsome _ c' a hwords hread

/-! ## Instructions -/

theorem tag_of_ofTag? {kind : Directive} (h : Directive.ofTag? w = some kind) : (kind.tag : Int) = w := by
  unfold Directive.ofTag? at h
  split at h
  all_goals
    cases h
    try rfl

/-- The operands of an instruction have one spelling. -/
theorem takes_tagged {tag : Int} {place : Nat} :
    Takes (Instr.readTagged tag place) fun ws i =>
      (i.tag : Int) = tag ∧ ws = i.operands.map Int.ofNat := by
  have hword : Takes (Instr.readWord place) fun ws n => ws = [(n.toNat : Int)] := by
    refine .next fun w _ => takes_inRange.map fun ws n h => ?_
    obtain ⟨rfl, rfl, hlt⟩ := h
    rw [UInt16.toNat_ofNat_of_lt' hlt]
  have hbyte : Takes (Instr.readByte place) fun ws n => ws = [(n.toNat : Int)] := by
    refine .next fun w _ => takes_inRange.map fun ws n h => ?_
    obtain ⟨rfl, rfl, hlt⟩ := h
    rw [UInt8.toNat_ofNat_of_lt' hlt]
  have hdistance : Takes (Instr.readDistance place) fun ws n => ws = [(n.toNat : Int)] := by
    refine .next fun w _ => takes_inRange.map fun ws n h => ?_
    obtain ⟨rfl, rfl, hlt⟩ := h
    rw [UInt32.toNat_ofNat_of_lt' hlt]
  have hdirective : Takes (Instr.readDirective place) fun ws d => ws = [(d.tag : Int)] := by
    refine .next fun w _ => ?_
    split
    · rename_i kind hkind
      refine takes_pure ?_
      rw [tag_of_ofTag? hkind]
    · exact takes_fail
  unfold Instr.readTagged
  split
  -- for each tag, the operands of the instruction that has it
  all_goals first
    | exact takes_pure ⟨rfl, rfl⟩
    | exact hword.map fun ws n h => ⟨rfl, h⟩
    | exact hdistance.map fun ws n h => ⟨rfl, h⟩
    | exact hword.bind fun us n h => hbyte.map fun vs k h' => ⟨rfl, by rw [h, h']; rfl⟩
    | exact hbyte.bind fun us n h => hbyte.map fun vs k h' => ⟨rfl, by rw [h, h']; rfl⟩
    | exact hword.bind fun us n h => hword.map fun vs k h' => ⟨rfl, by rw [h, h']; rfl⟩
    | exact hdirective.bind fun us n h => hword.map fun vs k h' => ⟨rfl, by rw [h, h']; rfl⟩
    | exact takes_fail

theorem takes_instr : Takes Instr.read fun ws i => ws = i.encode ∧ True := by
  refine .position fun place => .next fun tag _ => takes_tagged.imp fun ws i h => ?_
  obtain ⟨rfl, rfl⟩ := h
  exact ⟨rfl, trivial⟩

/-! ## Headers and descriptors -/

theorem takes_header : Takes readHeader fun ws h =>
    ∃ raw : RawHeader, ws = raw.words ∧ raw.header = h ∧ h.Sized := by
  refine takes_string.bind fun _ name hname => takes_byte.bind fun _ arity harity =>
    takes_byte.bind fun _ total htotal => takes_byte.bind fun _ defaults hdefaults =>
    .next fun flags _ => takes_strings.bind fun _ params hparams => takes_pure ?_
  refine ⟨⟨name, arity, total, defaults, flags, params⟩, ?_, rfl, hname.2, hparams.2⟩
  rw [hname.1, harity, htotal, hdefaults, hparams.1]
  simp [RawHeader.words]

theorem takes_capture : Takes readCapture fun ws c => ws = encodeCapture c ∧ c.Sized := by
  refine .position fun place => .next fun tag _ => ?_
  split
  · exact takes_word16.map fun ws n h => ⟨by rw [h]; rfl, trivial⟩
  · exact takes_word16.map fun ws n h => ⟨by rw [h]; rfl, trivial⟩
  · exact takes_string.map fun ws s h => ⟨by rw [h.1]; rfl, h.2⟩
  · exact takes_fail

/-- What bounds the strings of a manifest, its globals apart. -/
def HeaderSized (m : Manifest) : Prop :=
  (∀ s ∈ m.package, SizedString s) ∧ (∀ s ∈ m.exportTarget, SizedString s) ∧
    (∀ s ∈ m.entryPoint, SizedString s) ∧ SizedStrings m.exports

theorem takes_moduleHeader :
    Takes readModuleHeader fun ws m => ws = encodeModuleHeader m ∧ HeaderSized m := by
  refine takes_string?.bind fun _ package hpackage => takes_string?.bind fun _ target htarget =>
    takes_string?.bind fun _ entry hentry => takes_strings.bind fun _ exports hexports =>
    takes_flag.bind fun _ optimize hoptimize => takes_pure ?_
  refine ⟨?_, hpackage.2, htarget.2, hentry.2, hexports.2⟩
  rw [hpackage.1, htarget.1, hentry.1, hexports.1, hoptimize]
  simp [encodeModuleHeader]

theorem takes_global : Takes readGlobal fun ws g =>
    ws = encodeGlobal g ∧ SizedString g.1 ∧ SizedString g.2.typeName := by
  refine takes_string.bind fun _ name hname => takes_string.bind fun _ type htype =>
    takes_flag.bind fun _ isConst hconst => takes_pure ⟨?_, hname.2, htype.2⟩
  rw [hname.1, htype.1, hconst]
  simp [encodeGlobal]

theorem takes_memberKind : Takes readMemberKind fun ws k => ws = [kindWord k] := by
  refine .position fun place => .next fun tag _ => ?_
  split
  · exact takes_pure rfl
  · exact takes_pure rfl
  · exact takes_fail

theorem takes_member : Takes readMember fun ws m =>
    ∃ raw : RawMember, ws = raw.words ∧ raw.member = m ∧ SizedString raw.name := by
  refine takes_string.bind fun _ name hname => takes_memberKind.bind fun _ kind hkind =>
    .next fun flags _ => takes_pure ⟨⟨name, kind, flags⟩, ?_, rfl, hname.2⟩
  rw [hname.1, hkind]
  rfl

theorem takes_class : Takes readClass fun ws d =>
    ∃ raw : RawClass, ws = raw.words ∧ raw.descriptor = d ∧ d.Sized := by
  refine takes_string.bind fun _ name hname => takes_flag.bind fun _ hasParent hparent =>
    takes_flag.bind fun _ hasConstructor hctor => takes_member.counted.bind fun _ members hmembers =>
    takes_strings.bind fun _ generics hgenerics => takes_pure ?_
  obtain ⟨raws, rfl, hitems, hlt, hsized⟩ := hmembers
  refine ⟨⟨name, hasParent, hasConstructor, raws, generics⟩, ?_, ?_, hname.2, ?_, ?_, hgenerics.2⟩
  · rw [hname.1, hparent, hctor, hgenerics.1]
    simp [RawClass.words]
  · rw [RawClass.descriptor, hitems]
  · rw [hitems, List.length_map]
    exact hlt
  · rw [hitems, List.forall_mem_map]
    exact hsized

theorem takes_enum : Takes readEnum fun ws d => ws = encodeEnum d ∧ d.Sized := by
  have hvariant : Takes readVariant fun ws v =>
      ws = encodeVariant v ∧ SizedString v.name ∧ SizedStrings v.params := by
    refine takes_string.bind fun _ name hname => takes_strings.bind fun _ params hparams =>
      takes_pure ⟨?_, hname.2, hparams.2⟩
    rw [hname.1, hparams.1, List.append_nil]
    rfl
  refine takes_string.bind fun _ name hname => hvariant.countedExact.bind fun _ variants hlist =>
    takes_pure ?_
  obtain ⟨rfl, hlt, hsized⟩ := hlist
  refine ⟨?_, hname.2, hlt, fun v hv => hsized v (Array.mem_toList_iff.mp hv)⟩
  rw [hname.1, List.append_nil]
  rfl

/-! ## Units -/

/-- No line number of the unit or of a unit inside it is too large for a word. -/
def ShortLines (u : CodeUnit) : Prop := ∀ v ∈ u.units, ∀ l ∈ v.lines, l.toNat ≤ maxLine

/-- The words spell the unit, and the unit can be written. -/
def SpellsUnit (ws : List Int) (u : CodeUnit) : Prop :=
  ∃ raw : RawUnit, ws = raw.words ∧ raw.unit = u ∧ u.Sized ∧ ShortLines u

/-- What a constant has to satisfy so that its unit can be written. -/
def Writable (k : Constant) : Prop := k.Sized ∧ ∀ u, k = .function u → ShortLines u

theorem signed_wordBits (h : IsWord w) : signed (UInt64.ofNat (wordBits w)) = w := by
  unfold IsWord at h
  have hlt : wordBits w < UInt64.size := by
    unfold wordBits UInt64.size
    omega
  unfold signed
  rw [UInt64.toNat_ofNat_of_lt' hlt]
  unfold wordBits
  split <;> omega

theorem toInt_ofWord (h : IsWord w) : (Int64.ofInt w).toInt = w := by
  unfold IsWord at h
  exact Int64.toInt_ofInt_of_le (by omega) (by omega)

theorem writable_of_sized {k : Constant} (h : k.Sized) (hk : ∀ u, k ≠ .function u) : Writable k :=
  ⟨h, fun u hu => absurd hu (hk u)⟩

theorem Takes.constant {unit : Reader CodeUnit} (h : Takes unit SpellsUnit) :
    Takes (readConstant unit) fun ws k =>
      ∃ raw : RawConstant, ws = raw.words ∧ raw.constant = k ∧ Writable raw.constant := by
  refine .position fun place => .next fun tag _ => ?_
  -- one case for each tag, in the order in which the reader tells them apart
  split
  · refine takes_next.map fun ws w hw => ⟨.int (Int64.ofInt w), ?_, rfl, ?_⟩
    · rw [hw.1, RawConstant.words, toInt_ofWord hw.2]
    · exact writable_of_sized trivial (by simp [RawConstant.constant])
  · refine takes_next.map fun ws w hw => ⟨.float (UInt64.ofNat (wordBits w)), ?_, rfl, ?_⟩
    · rw [hw.1, RawConstant.words, signed_wordBits hw.2]
    · exact writable_of_sized trivial (by simp [RawConstant.constant])
  · refine takes_string.map fun ws s hs => ⟨.str s, ?_, rfl, ?_⟩
    · rw [hs.1, RawConstant.words]
    · exact writable_of_sized hs.2 (by simp [RawConstant.constant])
  · refine takes_strings.map fun ws ss hs => ⟨.names ss, ?_, rfl, ?_⟩
    · rw [hs.1, RawConstant.words]
    · exact writable_of_sized hs.2 (by simp [RawConstant.constant])
  · refine h.map fun ws u hu => ?_
    obtain ⟨raw, rfl, rfl, hsized, hlines⟩ := hu
    refine ⟨.function raw, ?_, rfl, ?_⟩
    · rw [RawConstant.words]
    · rw [RawConstant.constant]
      refine ⟨hsized, fun u hu => ?_⟩
      cases hu
      exact hlines
  · refine takes_class.map fun ws d hd => ?_
    obtain ⟨raw, rfl, rfl, hsized⟩ := hd
    refine ⟨.classType raw, ?_, rfl, ?_⟩
    · rw [RawConstant.words]
    · exact writable_of_sized hsized (by simp [RawConstant.constant])
  · refine takes_enum.map fun ws d hd => ⟨.enumType d, ?_, rfl, ?_⟩
    · rw [hd.1, RawConstant.words]
    · exact writable_of_sized hd.2 (by simp [RawConstant.constant])
  · exact takes_fail

theorem rawPoolWords_eq_flatMap (pool : List RawConstant) :
    rawPoolWords pool = pool.flatMap RawConstant.words := by
  induction pool with
  | nil => rw [rawPoolWords, List.flatMap_nil]
  | cons k rest ih => rw [rawPoolWords, ih, List.flatMap_cons]

theorem rawPool_eq_map (pool : List RawConstant) : rawPool pool = pool.map RawConstant.constant := by
  induction pool with
  | nil => rw [rawPool, List.map_nil]
  | cons k rest ih => rw [rawPool, ih, List.map_cons]

theorem mem_insertEntry {name : String} {value : γ}
    {entries : List (String × γ)} (h : e ∈ Table.insertEntry name value entries) :
    e = (name, value) ∨ e ∈ entries := by
  induction entries with
  | nil => exact .inl (List.mem_singleton.mp h)
  | cons first rest ih =>
    unfold Table.insertEntry at h
    split at h
    · rename_i hname
      rcases List.mem_cons.mp h with hfirst | hrest
      · exact .inl (by rw [hfirst, hname])
      · exact .inr (.tail _ hrest)
    · rcases List.mem_cons.mp h with hfirst | hrest
      · exact .inr (by rw [hfirst]; exact .head _)
      · exact (ih hrest).imp_right (List.mem_cons_of_mem _)

/-- An entry of a table is one that was entered. -/
theorem mem_foldl_insert (new : List (String × γ)) :
    ∀ t : Table γ, e ∈ (new.foldl (fun t e => t.insert e.1 e.2) t).entries →
      e ∈ t.entries ∨ e ∈ new := by
  induction new with
  | nil => exact fun t h => .inl h
  | cons first rest ih =>
    intro t h
    rcases ih (t.insert first.1 first.2) h with hinsert | hrest
    · rcases mem_insertEntry hinsert with hfirst | hold
      · exact .inr (by rw [hfirst]; exact .head _)
      · exact .inl hold
    · exact .inr (.tail _ hrest)

theorem HeaderSized.sized {m : Manifest} (h : HeaderSized m) {globals : List (String × GlobalInfo)}
    (hcount : globals.length < lengthBound)
    (hglobals : ∀ g ∈ globals, SizedString g.1 ∧ SizedString g.2.typeName) :
    Manifest.Sized { m with globals := Table.ofList globals } := by
  obtain ⟨hpackage, htarget, hentry, hexports⟩ := h
  refine ⟨hpackage, htarget, hentry, hexports, ?_, fun g hg => ?_⟩
  · have hle := size_foldl_insert_le globals Table.empty
    have hempty : (Table.empty : Table GlobalInfo).entries.length = 0 := rfl
    exact Nat.lt_of_le_of_lt hle (by omega)
  · rcases mem_foldl_insert globals Table.empty hg with hempty | hmem
    · cases hempty
    · exact hglobals g hmem

theorem shortLines_of_pool {u : CodeUnit} (hown : ∀ l ∈ u.lines, l.toNat ≤ maxLine)
    (hpool : ∀ k ∈ u.constants, Writable k) : ShortLines u := by
  intro v hv
  rw [CodeUnit.units_eq] at hv
  rcases List.mem_cons.mp hv with rfl | hinside
  · exact hown
  · obtain ⟨w, hw, hvw⟩ := CodeUnit.mem_unitsBackwards.mp hinside
    exact (hpool _ hw).2 w rfl v hvw

/-- A unit in the pool is read with less depth. -/
theorem takes_unit (depth : Nat) : Takes (readUnit depth) SpellsUnit := by
  induction depth with
  | zero => exact .position fun _ => takes_fail
  | succ depth ih =>
    refine takes_header.bind fun _ header hheader =>
      takes_capture.countedExact.bind fun _ captures hcaptures =>
      takes_moduleHeader.bind fun _ manifest hmanifest =>
      ih.constant.counted.bind fun _ constants hconstants =>
      takes_global.countedExact.bind fun _ globals hglobals =>
      takes_instr.countedExact.bind fun _ code hcode =>
      takes_line.countedExact.bind fun _ lines hlines => takes_pure ?_
    obtain ⟨rawHeader, rfl, rfl, hheader⟩ := hheader
    obtain ⟨rfl, hcaptureCount, hcaptures⟩ := hcaptures
    obtain ⟨rfl, hmanifest⟩ := hmanifest
    obtain ⟨pool, rfl, hpool, hpoolCount, hwritable⟩ := hconstants
    obtain ⟨rfl, hglobalCount, hglobals⟩ := hglobals
    obtain ⟨rfl, hcodeCount, -⟩ := hcode
    obtain ⟨rfl, hlineCount, hshort⟩ := hlines
    have hentries : ∀ k ∈ constants.toList, Writable k := by
      rw [hpool, List.forall_mem_map]
      exact hwritable
    refine ⟨⟨rawHeader, captures.toList, manifest, pool, globals.toList, code, lines⟩,
      ?_, ?_, ?_, shortLines_of_pool hshort hentries⟩
    · rw [RawUnit.words, rawPoolWords_eq_flatMap]
      simp [encodeList]
    · rw [RawUnit.unit, rawPool_eq_map, hpool]
    · refine ⟨hheader, ⟨hcaptureCount, fun c hc => hcaptures c (Array.mem_toList_iff.mp hc)⟩,
        hmanifest.sized hglobalCount fun g hg => hglobals g (Array.mem_toList_iff.mp hg),
        ⟨?_, (sizedPool_iff _).mpr fun k hk => (hentries k hk).1⟩, hcodeCount, hlineCount⟩
      rw [hpool, List.length_map]
      exact hpoolCount

/-- Whatever module is read, its words are a spelling of it. -/
theorem takes_module (depth : Nat) : Takes (readModule depth) fun ws m =>
    ∃ raw : RawModule, ws = raw.words ∧ raw.meaning = m ∧ m.Sized ∧ ShortLines m.main := by
  refine .next fun found _ => ?_
  split
  · exact takes_fail
  rename_i hmagic
  refine .next fun found _ => ?_
  split
  · exact takes_fail
  rename_i hversion
  refine .position fun place => .next fun found _ => ?_
  split
  · exact takes_fail
  rename_i hkind
  rw [not_not] at hmagic hversion hkind
  refine takes_string.bind fun _ name hname => (takes_unit depth).bind fun _ main hmain =>
    takes_pure ?_
  obtain ⟨raw, rfl, rfl, hsized, hlines⟩ := hmain
  refine ⟨⟨name, raw⟩, ?_, rfl, ⟨hname.2, hsized⟩, hlines⟩
  rw [hname.1, hmagic, hversion, hkind]
  simp [RawModule.words]

/-! ## Writing again -/

theorem spelling_of_decodeWithRest {s : List Int} (hs : ∀ w ∈ s, IsWord w) {m : Module}
    {rest : List Int} (h : decodeWithRest s = .ok (m, rest)) :
    ∃ raw : RawModule, s = raw.words ++ rest ∧ raw.meaning = m ∧ m.Sized ∧ ShortLines m.main := by
  unfold decodeWithRest at h
  cases hread : readModule (s.length + 1) (Cursor.start s) with
  | error e =>
    rw [hread] at h
    cases h
  | ok x =>
    obtain ⟨m', c⟩ := x
    rw [hread] at h
    cases h
    obtain ⟨ws, hws, raw, rfl, hraw⟩ := takes_module _ _ _ _ hs hread
    exact ⟨raw, hws, hraw⟩

/-- A module that was read from the first `k` words of a stream can be written and read
again. Those words spell it, and they are what is written for it exactly when they have
no idle flags and name no global twice, in whatever way they are taken for a spelling. -/
theorem encode_eq_take_iff_canonical {s : List Int} (hs : ∀ w ∈ s, IsWord w) {m : Module}
    {rest : List Int} (h : decodeWithRest s = .ok (m, rest)) {k : Nat}
    (hk : k + rest.length = s.length) :
    decode (encode m) = .ok m ∧
      (∃ raw : RawModule, raw.words = s.take k ∧ raw.meaning = m) ∧
      ∀ raw : RawModule, raw.words = s.take k → raw.meaning = m →
        (encode m = s.take k ↔ raw.Canonical) := by
  obtain ⟨raw, hwords, hmeaning, hsized, hlines⟩ := spelling_of_decodeWithRest hs h
  have htake : s.take k = raw.words := by
    rw [hwords, List.length_append] at hk
    rw [hwords, List.take_left' (by omega)]
  refine ⟨?_, ⟨raw, htake.symm, hmeaning⟩, fun raw' hwords' hmeaning' => ?_⟩
  · have hread := decodeWithRest_of_shortLines hsized (m.units_eq ▸ hlines) []
    rw [List.append_nil] at hread
    rw [decode, hread]
    rfl
  · rw [← hwords', ← hmeaning']
    exact encode_meaning_eq_words_iff raw'

/-- A spelling with a flag of the unit and flags of a member that mean nothing, a global
that is listed twice, and a unit inside whose constant is no number. -/
def idleWords : RawModule :=
  let inside : RawUnit :=
    ⟨⟨"g", 0, 0, 0, 1, []⟩, [], {}, [.float 0x7ff8000000000001], [], #[.ret], #[2]⟩
  ⟨"m", ⟨⟨"f", 0, 0, 0, 33, []⟩, [.slot 1], {},
    [.classType ⟨"c", true, false, [⟨"x", .method, -1⟩], []⟩, .function inside],
    [("a", ⟨"int", true⟩), ("a", ⟨"str", false⟩)], #[.closure 1 0, .ret], #[1, 1]⟩⟩

theorem encode_eq_take_iff_canonical_idleWords :
    ∃ m, decodeWithRest (idleWords.words ++ [7]) = .ok (m, [7]) ∧ decode (encode m) = .ok m ∧
      ∃ raw : RawModule, raw.words = idleWords.words ∧ raw.meaning = m ∧ ¬ raw.Canonical := by
  have hwords : (idleWords.words ++ [7]).take idleWords.words.length = idleWords.words :=
    List.take_left' rfl
  have hshorter : (encode idleWords.meaning).length < idleWords.words.length := by decide +kernel
  have hread : (decodeWithRest (idleWords.words ++ [7])).toOption.map (fun x => (encode x.1, x.2)) =
      some (encode idleWords.meaning, [7]) := by decide +kernel
  cases hdecode : decodeWithRest (idleWords.words ++ [7]) with
  | error e =>
    rw [hdecode] at hread
    cases hread
  | ok x =>
    obtain ⟨m, rest⟩ := x
    rw [hdecode] at hread
    obtain ⟨hencode, hrest⟩ := Prod.mk.inj (Option.some.inj hread)
    subst hrest
    obtain ⟨hagain, ⟨raw, hraw, hmeaning⟩, hiff⟩ := encode_eq_take_iff_canonical
      (k := idleWords.words.length) (by decide) hdecode (by rw [List.length_append])
    refine ⟨m, rfl, hagain, raw, hraw.trans hwords, hmeaning, fun hcanonical => ?_⟩
    have hsame := (hiff raw hraw hmeaning).mpr hcanonical
    rw [hwords, hencode] at hsame
    exact absurd (congrArg List.length hsame) (Nat.ne_of_lt hshorter)

end Strand.Stream
