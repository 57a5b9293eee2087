import Mathlib.Tactic.Ring
import Strand.Proofs.RoundTrip

/-!
# How a stream may spell a module

A reader takes more than a writer gives: it looks at some bits of a word of flags and at
no others, and it takes a table of globals that names one twice. So one module has many
spellings. A `RawModule` is a spelling: it says the same as a module, but keeps every word
of flags and every entry of a table as it stands in the stream. `RawModule.words` are the
words of a spelling and `RawModule.meaning` is what they mean.

Of all spellings of a module the writer uses the canonical one, in which words of flags
have no idle bits and tables name nothing twice. A spelling that is not canonical is
never shorter than what is written for its meaning, in any of its parts, and this is why
the whole is what is written only if each part is: `within_unit`.
-/

namespace Strand.Stream

/-! ## Spellings -/

/-- A header with its flags as they stand in the stream. -/
structure RawHeader where
  name : String
  arity : UInt8
  totalArity : UInt8
  defaultCount : UInt8
  flags : Int
  paramNames : List String

namespace RawHeader

/-- The words that a header stands in the stream as. -/
def words (h : RawHeader) : List Int :=
  encodeString h.name ++
    [(h.arity.toNat : Int), h.totalArity.toNat, h.defaultCount.toNat, h.flags] ++
    encodeStrings h.paramNames

/-- What a header means, for which five of its flags count. -/
def header (h : RawHeader) : UnitHeader :=
  { name := h.name, arity := h.arity, totalArity := h.totalArity
    defaultCount := h.defaultCount, paramNames := h.paramNames
    hasVarargs := hasBit h.flags 0
    hasKwargs := hasBit h.flags 1
    isAsync := hasBit h.flags 2
    catchesResult := hasBit h.flags 3
    isMethod := hasBit h.flags 4 }

end RawHeader

/-- A member of a class with its flags as they stand in the stream. -/
structure RawMember where
  name : String
  kind : MemberKind
  flags : Int

/-- The word for a kind of member. -/
def kindWord : MemberKind → Int
  | .field => 0
  | .method => 1

namespace RawMember

/-- The words that a member stands in the stream as. -/
def words (m : RawMember) : List Int := encodeString m.name ++ [kindWord m.kind, m.flags]

/-- What a member means, for which three of its flags count. -/
def member (m : RawMember) : MemberDescriptor :=
  { name := m.name, kind := m.kind
    isStatic := hasBit m.flags 0
    isPrivate := hasBit m.flags 1
    isOperator := hasBit m.flags 2 }

end RawMember

/-- The descriptor of a class with the flags of its members as they stand in the stream. -/
structure RawClass where
  name : String
  hasParent : Bool
  hasConstructor : Bool
  members : List RawMember
  generics : List String

namespace RawClass

/-- The words that a descriptor stands in the stream as. -/
def words (d : RawClass) : List Int :=
  encodeString d.name ++ [flagWord d.hasParent, flagWord d.hasConstructor] ++
    encodeList RawMember.words d.members ++ encodeStrings d.generics

/-- What a descriptor means. -/
def descriptor (d : RawClass) : ClassDescriptor :=
  { name := d.name, hasParent := d.hasParent, hasConstructor := d.hasConstructor
    members := d.members.map RawMember.member, generics := d.generics }

end RawClass

mutual

/-- An entry of the pool as it stands in the stream. -/
inductive RawConstant where
  | int (value : Int64)
  | float (bits : UInt64)
  | str (value : String)
  | names (values : List String)
  | function (unit : RawUnit)
  | classType (descriptor : RawClass)
  | enumType (descriptor : EnumDescriptor)

/-- A unit as it stands in the stream. Its globals are the entries that are listed, in
their order, and not those of the manifest. -/
structure RawUnit where
  header : RawHeader
  captures : List CaptureSource
  manifest : Manifest
  constants : List RawConstant
  globals : List (String × GlobalInfo)
  code : Array Instr
  lines : Array UInt64

end

mutual

/-- The words that a unit stands in the stream as. -/
def RawUnit.words : RawUnit → List Int
  | ⟨header, captures, manifest, constants, globals, code, lines⟩ =>
    header.words ++ encodeList encodeCapture captures ++ encodeModuleHeader manifest ++
      ((constants.length : Int) :: rawPoolWords constants) ++ encodeList encodeGlobal globals ++
      encodeList Instr.encode code.toList ++ encodeList (fun line => [signed line]) lines.toList

/-- The words of all entries of a pool. -/
def rawPoolWords : List RawConstant → List Int
  | [] => []
  | k :: rest => k.words ++ rawPoolWords rest

/-- The word for the kind of constant and those for the constant itself. -/
def RawConstant.words : RawConstant → List Int
  | .int n => [0, n.toInt]
  | .float bits => [1, signed bits]
  | .str s => 2 :: encodeString s
  | .names ss => 3 :: encodeStrings ss
  | .function u => 4 :: u.words
  | .classType d => 5 :: d.words
  | .enumType d => 6 :: encodeEnum d

end

mutual

/-- What a unit means. Of two globals of one name the last counts, in the place of the
first. -/
def RawUnit.unit : RawUnit → CodeUnit
  | ⟨header, captures, manifest, constants, globals, code, lines⟩ =>
    ⟨header.header, captures, { manifest with globals := Table.ofList globals },
      rawPool constants, code, lines⟩

/-- What the entries of a pool mean. -/
def rawPool : List RawConstant → List Constant
  | [] => []
  | k :: rest => k.constant :: rawPool rest

/-- What an entry means. -/
def RawConstant.constant : RawConstant → Constant
  | .int n => .int n
  | .float bits => .float bits
  | .str s => .str s
  | .names ss => .names ss
  | .function u => .function u.unit
  | .classType d => .classType d.descriptor
  | .enumType d => .enumType d

end

mutual

/-- A unit and the units inside it. -/
def RawUnit.units : RawUnit → List RawUnit
  | ⟨header, captures, manifest, constants, globals, code, lines⟩ =>
    ⟨header, captures, manifest, constants, globals, code, lines⟩ :: rawUnitsIn constants

/-- The units in a pool and those inside them. -/
def rawUnitsIn : List RawConstant → List RawUnit
  | [] => []
  | k :: rest => k.units ++ rawUnitsIn rest

/-- The units in a single entry. -/
def RawConstant.units : RawConstant → List RawUnit
  | .function u => u.units
  | _ => []

end

/-- Only flags of a member that mean something are set. -/
def RawClass.IsPlain (d : RawClass) : Prop := ∀ m ∈ d.members, 0 ≤ m.flags ∧ m.flags ≤ 7

/-- Only flags that mean something are set, for the unit and for the members of its
classes, and no global is listed twice. This says nothing of the units inside it. -/
structure RawUnit.IsPlain (u : RawUnit) : Prop where
  flags : 0 ≤ u.header.flags ∧ u.header.flags ≤ 31
  classes : ∀ d, .classType d ∈ u.constants → d.IsPlain
  globals : (u.globals.map Prod.fst).Nodup

/-- A whole stream, without what follows the module. -/
structure RawModule where
  sourceName : String
  main : RawUnit

namespace RawModule

/-- The words of the stream. -/
def words (m : RawModule) : List Int :=
  [magic, version, moduleKind] ++ encodeString m.sourceName ++ m.main.words

/-- What the stream means. -/
def meaning (m : RawModule) : Module := ⟨m.sourceName, m.main.unit⟩

/-- Nothing in the stream is there that does not count. -/
def Canonical (m : RawModule) : Prop := ∀ u ∈ m.main.units, u.IsPlain

end RawModule

/-! ## Comparing a spelling with what is written -/

/-- The words `ws` are no more than `raw`, and the same exactly under a condition. -/
def Within (ws raw : List Int) (p : Prop) : Prop := ws.length ≤ raw.length ∧ (ws = raw ↔ p)

namespace Within

variable {xs ys us vs : List Int} {p q : Prop}

theorem refl (xs : List Int) : Within xs xs True := ⟨Nat.le_refl _, iff_of_true rfl trivial⟩

theorem congr (h : Within xs ys p) (hpq : p ↔ q) : Within xs ys q := ⟨h.1, h.2.trans hpq⟩

/-- No part makes up for another one that is shorter, so the parts have to be the same. -/
theorem append (h : Within xs ys p) (h' : Within us vs q) :
    Within (xs ++ us) (ys ++ vs) (p ∧ q) := by
  have hle := h.1
  have hle' := h'.1
  refine ⟨?_, ?_⟩
  · rw [List.length_append, List.length_append]
    omega
  · rw [← h.2, ← h'.2]
    refine ⟨fun heq => ?_, fun heq => by rw [heq.1, heq.2]⟩
    have hlength := congrArg List.length heq
    rw [List.length_append, List.length_append] at hlength
    exact List.append_inj heq (by omega)

theorem cons (w : Int) (h : Within xs ys p) : Within (w :: xs) (w :: ys) p :=
  ((refl [w]).append h).congr (iff_of_eq (true_and _))

theorem after (xs : List Int) (h : Within us vs p) : Within (xs ++ us) (xs ++ vs) p :=
  ((refl xs).append h).congr (iff_of_eq (true_and _))

theorem before (us : List Int) (h : Within xs ys p) : Within (xs ++ us) (ys ++ us) p :=
  (h.append (refl us)).congr (iff_of_eq (and_true _))

theorem list {α β : Type} {f : β → List Int} {f' : α → List Int} {g : α → β} {P : α → Prop}
    {items : List α} (h : ∀ a ∈ items, Within (f (g a)) (f' a) (P a)) :
    Within (encodeList f (items.map g)) (encodeList f' items) (∀ a ∈ items, P a) := by
  unfold encodeList
  rw [List.length_map]
  refine .cons _ ?_
  induction items with
  | nil => exact (refl []).congr (by simp)
  | cons a rest ih =>
    rw [List.map_cons, List.flatMap_cons, List.flatMap_cons]
    have hrest := ih fun b hb => h b (.tail _ hb)
    exact ((h a (.head _)).append hrest).congr List.forall_mem_cons.symm

end Within

/-! ## Flags -/

theorem flagWord_hasBit (w : Int) (k : Nat) : flagWord (hasBit w k) = w / 2 ^ k % 2 := by
  have hbit : flagWord (hasBit w k) = (w >>> k) % 2 := by
    unfold flagWord hasBit
    split
    · rename_i h
      exact (beq_iff_eq.mp h).symm
    · rename_i h
      have hne : (w >>> k) % 2 ≠ 1 := fun heq => h (beq_iff_eq.mpr heq)
      omega
  rw [hbit, Int.shiftRight_eq_div_pow]
  norm_cast

/-- The first five bits of a word make up the word unless there are more. -/
theorem packFlags_five (w : Int) :
    packFlags [hasBit w 0, hasBit w 1, hasBit w 2, hasBit w 3, hasBit w 4] = w ↔
      0 ≤ w ∧ w ≤ 31 := by
  simp only [packFlags, flagWord_hasBit]
  omega

theorem packFlags_three (w : Int) :
    packFlags [hasBit w 0, hasBit w 1, hasBit w 2] = w ↔ 0 ≤ w ∧ w ≤ 7 := by
  simp only [packFlags, flagWord_hasBit]
  omega

theorem within_word (v w : Int) : Within [v] [w] (v = w) := ⟨Nat.le_refl _, by simp⟩

theorem within_header (h : RawHeader) :
    Within (encodeHeader h.header) h.words (0 ≤ h.flags ∧ h.flags ≤ 31) := by
  have hflags := (within_word _ _).congr (packFlags_five h.flags)
  exact .before _ (.after _ (.cons _ (.cons _ (.cons _ hflags))))

theorem within_member (m : RawMember) :
    Within (encodeMember m.member) m.words (0 ≤ m.flags ∧ m.flags ≤ 7) := by
  have hflags := (within_word _ _).congr (packFlags_three m.flags)
  obtain ⟨name, kind, flags⟩ := m
  cases kind <;> exact .after _ (.cons _ hflags)

theorem within_class (d : RawClass) : Within (encodeClass d.descriptor) d.words d.IsPlain :=
  .before _ (.after _ (.list fun m _ => within_member m))

/-! ## Tables -/

section

variable {α : Type} {f : String × α → List Int}

/-- Entering a name costs at most the words of the new entry. -/
theorem length_insertEntry_le (name : String) (value : α) (entries : List (String × α)) :
    ((Table.insertEntry name value entries).flatMap f).length ≤
      (entries.flatMap f).length + (f (name, value)).length := by
  induction entries with
  | nil => simp [Table.insertEntry]
  | cons e rest ih =>
    obtain ⟨n, v⟩ := e
    unfold Table.insertEntry
    split
    · rename_i hname
      subst hname
      simp only [List.flatMap_cons, List.length_append]
      omega
    · simp only [List.flatMap_cons, List.length_append]
      omega

theorem size_insertEntry_of_mem {name : String} {value : α} {entries : List (String × α)}
    (h : name ∈ entries.map Prod.fst) :
    (Table.insertEntry name value entries).length = entries.length := by
  induction entries with
  | nil => cases h
  | cons e rest ih =>
    unfold Table.insertEntry
    split
    · rfl
    · rename_i hne
      have hrest := (List.mem_cons.mp h).resolve_left (Ne.symm hne)
      rw [List.length_cons, List.length_cons, ih hrest]

theorem length_foldl_insert_le (new : List (String × α)) :
    ∀ t : Table α, ((new.foldl (fun t e => t.insert e.1 e.2) t).entries.flatMap f).length ≤
      (t.entries.flatMap f).length + (new.flatMap f).length := by
  induction new with
  | nil => exact fun t => Nat.le_refl _
  | cons e rest ih =>
    intro t
    have hrest := ih (t.insert e.1 e.2)
    have hone : ((t.insert e.1 e.2).entries.flatMap f).length ≤
        (t.entries.flatMap f).length + (f e).length := length_insertEntry_le e.1 e.2 t.entries
    rw [List.foldl_cons, List.flatMap_cons, List.length_append]
    omega

theorem size_foldl_insert_le (new : List (String × α)) :
    ∀ t : Table α, (new.foldl (fun t e => t.insert e.1 e.2) t).entries.length ≤
      t.entries.length + new.length := by
  intro t
  have h := length_foldl_insert_le (f := fun _ => [0]) new t
  simpa [List.length_flatMap] using h

/-- A table has as many entries as were entered only if no name was entered twice. -/
theorem nodup_of_size_foldl_insert (new : List (String × α)) :
    ∀ t : Table α, (new.foldl (fun t e => t.insert e.1 e.2) t).entries.length =
      t.entries.length + new.length → ((t.entries ++ new).map Prod.fst).Nodup := by
  induction new with
  | nil =>
    intro t _
    rw [List.append_nil]
    exact t.distinct
  | cons e rest ih =>
    intro t h
    rw [List.foldl_cons, List.length_cons] at h
    have hle := size_foldl_insert_le rest (t.insert e.1 e.2)
    have hnew : e.1 ∉ t.entries.map Prod.fst := by
      intro hmem
      have hsame : (t.insert e.1 e.2).entries.length = t.entries.length :=
        size_insertEntry_of_mem hmem
      omega
    have hentries : (t.insert e.1 e.2).entries = t.entries ++ [e] := insertEntry_new hnew
    have hsize : (t.insert e.1 e.2).entries.length = t.entries.length + 1 := by
      rw [hentries, List.length_append, List.length_singleton]
    have hrest := ih (t.insert e.1 e.2) (by omega)
    rw [hentries, List.append_assoc] at hrest
    exact hrest

end

/-- Globals that are listed twice are written once. -/
theorem within_globals (globals : List (String × GlobalInfo)) :
    Within (encodeList encodeGlobal (Table.ofList globals).entries)
      (encodeList encodeGlobal globals) (globals.map Prod.fst).Nodup := by
  have hlength := length_foldl_insert_le (f := encodeGlobal) globals Table.empty
  have hnodup := nodup_of_size_foldl_insert globals Table.empty
  have hentries := entries_foldl_insert globals Table.empty
  simp only [Table.empty, List.flatMap_nil, List.length_nil, Nat.zero_add, List.nil_append]
    at hlength hnodup hentries
  refine ⟨Nat.succ_le_succ hlength, fun heq => hnodup ?_, fun h => ?_⟩
  -- equal words start with equal counts, so no name was dropped as a repeated one
  · have hcount := (List.cons.inj heq).1
    exact Int.ofNat.inj hcount
  · have hsame : (Table.ofList globals).entries = globals := hentries h
    rw [hsame]

/-! ## Units -/

theorem length_rawPool (pool : List RawConstant) : (rawPool pool).length = pool.length := by
  induction pool with
  | nil => simp [rawPool]
  | cons k rest ih => simp [rawPool, ih]

/-- The classes of the pool and the units in it have no idle words. -/
def PlainPool (pool : List RawConstant) : Prop :=
  (∀ d, .classType d ∈ pool → d.IsPlain) ∧ ∀ u ∈ rawUnitsIn pool, u.IsPlain

theorem plainPool_cons {k : RawConstant} {rest : List RawConstant} :
    ((∀ d, k = .classType d → d.IsPlain) ∧ ∀ u ∈ k.units, u.IsPlain) ∧ PlainPool rest ↔
      PlainPool (k :: rest) := by
  unfold PlainPool
  simp only [rawUnitsIn, List.mem_append, List.mem_cons, or_imp, forall_and,
    eq_comm (a := k)]
  exact and_and_and_comm

mutual

/-- A spelling of a unit is what is written for the unit only if it has no idle words. -/
theorem within_unit : ∀ u : RawUnit,
    Within (encodeUnit u.unit) u.words (∀ v ∈ u.units, v.IsPlain)
  | ⟨header, captures, manifest, constants, globals, code, lines⟩ => by
    have hpool := (within_pool constants).cons (constants.length : Int)
    have hparts := ((((within_header header).before (encodeList encodeCapture captures)).before
      (encodeModuleHeader manifest)).append hpool).append (within_globals globals)
    have hall := (hparts.before (encodeList Instr.encode code.toList)).before
      (encodeList (fun line => [signed line]) lines.toList)
    rw [RawUnit.unit, encodeUnit, RawUnit.words, length_rawPool]
    refine hall.congr ?_
    rw [RawUnit.units, List.forall_mem_cons]
    constructor
    · intro h
      obtain ⟨⟨hflags, hclasses, hunits⟩, hnames⟩ := h
      exact ⟨⟨hflags, hclasses, hnames⟩, hunits⟩
    · intro h
      obtain ⟨hplain, hunits⟩ := h
      exact ⟨⟨hplain.flags, hplain.classes, hunits⟩, hplain.globals⟩

theorem within_pool : ∀ pool : List RawConstant,
    Within (encodeConstants (rawPool pool)) (rawPoolWords pool) (PlainPool pool)
  | [] => by
    rw [rawPool, encodeConstants, rawPoolWords]
    exact (Within.refl []).congr (by simp [PlainPool, rawUnitsIn])
  | k :: rest => by
    rw [rawPool, encodeConstants, rawPoolWords]
    exact ((within_constant k).append (within_pool rest)).congr plainPool_cons

theorem within_constant : ∀ k : RawConstant,
    Within (encodeConstant k.constant) k.words
      ((∀ d, k = .classType d → d.IsPlain) ∧ ∀ u ∈ k.units, u.IsPlain)
  | .function u => by
    rw [RawConstant.constant, encodeConstant, RawConstant.words]
    exact ((within_unit u).cons 4).congr (by simp [RawConstant.units])
  | .classType d => by
    rw [RawConstant.constant, encodeConstant, RawConstant.words]
    exact ((within_class d).cons 5).congr (by simp [RawConstant.units])
  | .int _ | .float _ | .str _ | .names _ | .enumType _ => by
    rw [RawConstant.constant, encodeConstant, RawConstant.words]
    exact (Within.refl _).congr (by simp [RawConstant.units])

end

/-- Of the spellings of a module, those that are canonical are the one that is written. -/
theorem encode_meaning_eq_words_iff (raw : RawModule) :
    encode raw.meaning = raw.words ↔ raw.Canonical :=
  ((within_unit raw.main).after _).2

end Strand.Stream
