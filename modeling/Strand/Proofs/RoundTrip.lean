import Mathlib.Data.List.Nodup
import Strand.Proofs.Reads

/-!
# A module survives its journey through a stream

Every part of a module is read back by the reader that is meant for it, whatever
follows in the stream, so a module is read back from the front of any longer stream.
What can go wrong is a line number above the greatest signed word: it is written as a
negative word, and the reader stops there. Lines come last in a unit, after the units
inside it, so the first line to be met is not the first of the outermost unit;
`CodeUnit.linesFrom` lists them in the order and at the positions of the stream.
-/

namespace Strand

open Strand.Stream

variable {m : Module} {found : Nat → List (UInt64 × Nat)}

/-! ## Lengths a count can give -/

/-- Counts are signed words. -/
def lengthBound : Nat := 9223372036854775808

/-- The characters of a string can be counted. -/
def SizedString (s : String) : Prop := s.length < lengthBound

/-- So can several strings, and those in each of them. -/
def SizedStrings (ss : List String) : Prop :=
  ss.length < lengthBound ∧ ∀ s ∈ ss, SizedString s

/-- The names in a header can be counted. -/
def UnitHeader.Sized (h : UnitHeader) : Prop := SizedString h.name ∧ SizedStrings h.paramNames

/-- The name of a captured global can be counted. -/
def CaptureSource.Sized : CaptureSource → Prop
  | .slot _ | .upvalue _ => True
  | .global name => SizedString name

/-- Everything in a manifest can be counted. -/
def Manifest.Sized (m : Manifest) : Prop :=
  (∀ s ∈ m.package, SizedString s) ∧ (∀ s ∈ m.exportTarget, SizedString s) ∧
    (∀ s ∈ m.entryPoint, SizedString s) ∧ SizedStrings m.exports ∧
    m.globals.entries.length < lengthBound ∧
    ∀ g ∈ m.globals.entries, SizedString g.1 ∧ SizedString g.2.typeName

/-- Everything in the descriptor of a class can be counted. -/
def ClassDescriptor.Sized (d : ClassDescriptor) : Prop :=
  SizedString d.name ∧ d.members.length < lengthBound ∧ (∀ m ∈ d.members, SizedString m.name) ∧
    SizedStrings d.generics

/-- Everything in the descriptor of an enum can be counted. -/
def EnumDescriptor.Sized (d : EnumDescriptor) : Prop :=
  SizedString d.name ∧ d.variants.length < lengthBound ∧
    ∀ v ∈ d.variants, SizedString v.name ∧ SizedStrings v.params

mutual

/-- Every string and every list in a unit is short enough to be counted. -/
def CodeUnit.Sized : CodeUnit → Prop
  | ⟨header, captures, manifest, constants, code, lines⟩ =>
    header.Sized ∧ (captures.length < lengthBound ∧ ∀ c ∈ captures, c.Sized) ∧
      manifest.Sized ∧ (constants.length < lengthBound ∧ sizedPool constants) ∧
      code.size < lengthBound ∧ lines.size < lengthBound

/-- The same for all constants of a pool. -/
def sizedPool : List Constant → Prop
  | [] => True
  | k :: rest => k.Sized ∧ sizedPool rest

/-- The same for a constant, which may hold a unit again. -/
def Constant.Sized : Constant → Prop
  | .int _ | .float _ => True
  | .str s => SizedString s
  | .names ss => SizedStrings ss
  | .function u => u.Sized
  | .classType d => d.Sized
  | .enumType d => d.Sized

end

/-- Everything in a module can be counted. -/
def Module.Sized (m : Module) : Prop := SizedString m.sourceName ∧ m.main.Sized

namespace Stream

open Reader

/-! ## Strings -/

variable {α : Type}

theorem gives_char (c : Char) : Gives char [(c.toNat : Int)] c := by
  have h : (0 : Int) ≤ (c.toNat : Int) ∧ (c.toNat : Int).toNat.isValidChar :=
    ⟨Int.natCast_nonneg _, c.valid⟩
  unfold char
  refine Reads.position fun p => Gives.next ?_
  rw [if_pos h, Int.toNat_natCast, Char.ofNat_toNat]
  exact gives_pure c

theorem gives_string {s : String} (h : SizedString s) : Gives string (encodeString s) s := by
  have hchars := gives_counted s.toList h (by simp) fun c _ => gives_char c
  have hstring : Gives string _ _ := hchars.bind_pure fun cs => String.ofList cs.toList
  rwa [String.ofList_toList] at hstring

theorem gives_strings {ss : List String} (h : SizedStrings ss) :
    Gives strings (encodeStrings ss) ss :=
  (gives_counted ss h.1 (by simp [encodeString, encodeList])
    fun s hs => gives_string (h.2 s hs)).bind_pure Array.toList

/-- A length is never mistaken for the word that stands for no string. -/
theorem gives_string? {s : Option String} (h : ∀ t ∈ s, SizedString t) :
    Gives string? (encodeString? s) s := by
  intro place rest size hsize
  cases s with
  | none => rfl
  | some t =>
    refine Eq.trans ?_ ((gives_string (h t rfl)).map some place rest size hsize)
    unfold string?
    split
    · rename_i heq
      simp only [encodeString?, encodeString, encodeList, List.cons_append] at heq
      injection heq with hlen
      omega
    · rfl

/-! ## Flags -/

theorem hasBit_packFlags : ∀ (bs : List Bool) (k : Nat), hasBit (packFlags bs) k = bs.getD k false
  | [], k => by simp [hasBit, packFlags, Int.shiftRight_eq_div_pow]
  | b :: rest, 0 => by
    cases b <;> simp [hasBit, packFlags, flagWord]
  | b :: rest, k + 1 => by
    rw [List.getD_cons_succ, ← hasBit_packFlags rest k]
    have hhalf : packFlags (b :: rest) >>> (1 : Nat) = packFlags rest := by
      rw [Int.shiftRight_eq_div_pow]
      cases b
      · simp [packFlags, flagWord]
      · simp only [packFlags, flagWord, if_true]
        omega
    simp only [hasBit, Nat.add_comm k, Int.shiftRight_add, hhalf]

/-! ## Instructions -/

theorem gives_readWord (place : Nat) (w : UInt16) :
    Gives (Instr.readWord place) [(w.toNat : Int)] w := by
  have h : Gives (Instr.readWord place) _ _ :=
    Gives.next ((gives_inRange place w.toNat w.toNat_lt).map UInt16.ofNat)
  rwa [UInt16.ofNat_toNat] at h

theorem gives_readByte (place : Nat) (b : UInt8) :
    Gives (Instr.readByte place) [(b.toNat : Int)] b := by
  have h : Gives (Instr.readByte place) _ _ :=
    Gives.next ((gives_inRange place b.toNat b.toNat_lt).map UInt8.ofNat)
  rwa [UInt8.ofNat_toNat] at h

theorem gives_readDistance (place : Nat) (d : UInt32) :
    Gives (Instr.readDistance place) [(d.toNat : Int)] d := by
  have h : Gives (Instr.readDistance place) _ _ :=
    Gives.next ((gives_inRange place d.toNat d.toNat_lt).map UInt32.ofNat)
  rwa [UInt32.ofNat_toNat] at h

theorem gives_readDirective (place : Nat) (kind : Directive) :
    Gives (Instr.readDirective place) [(kind.tag : Int)] kind := by
  refine Gives.next ?_
  cases kind <;> exact gives_pure _

/-- An instruction is read back from its tag and operands. -/
theorem gives_readTagged (place : Nat) (i : Instr) :
    Gives (Instr.readTagged i.tag place) (i.operands.map Int.ofNat) i := by
  cases i with
  | constant n => exact (gives_readWord place n).map _
  | getLocal n => exact (gives_readWord place n).map _
  | setLocal n => exact (gives_readWord place n).map _
  | dropLocal n => exact (gives_readWord place n).map _
  | getUpvalue n => exact (gives_readWord place n).map _
  | setUpvalue n => exact (gives_readWord place n).map _
  | dropUpvalue n => exact (gives_readWord place n).map _
  | getGlobal n => exact (gives_readWord place n).map _
  | setGlobal n => exact (gives_readWord place n).map _
  | defineGlobal n => exact (gives_readWord place n).map _
  | dropGlobal n => exact (gives_readWord place n).map _
  | getAttr n => exact (gives_readWord place n).map _
  | setAttr n => exact (gives_readWord place n).map _
  | dropAttr n => exact (gives_readWord place n).map _
  | array n => exact (gives_readWord place n).map _
  | map n => exact (gives_readWord place n).map _
  | tuple n => exact (gives_readWord place n).map _
  | buildString n => exact (gives_readWord place n).map _
  | makeEnum n => exact (gives_readWord place n).map _
  | rangeCheck n => exact (gives_readWord place n).map _
  | jump d => exact (gives_readDistance place d).map _
  | jumpIfFalse d => exact (gives_readDistance place d).map _
  | jumpIfTrue d => exact (gives_readDistance place d).map _
  | loop d => exact (gives_readDistance place d).map _
  | forIter d => exact (gives_readDistance place d).map _
  | closure i d => exact (gives_readWord place i).bind ((gives_readByte place d).map _)
  | call p k => exact (gives_readByte place p).bind ((gives_readByte place k).map _)
  | makeClass i n => exact (gives_readWord place i).bind ((gives_readWord place n).map _)
  | directive d i => exact (gives_readDirective place d).bind ((gives_readWord place i).map _)
  | binary op => cases op <;> exact gives_pure _
  | unary op => cases op <;> exact gives_pure _
  | _ => exact gives_pure _

theorem gives_instr (i : Instr) : Gives Instr.read i.encode i :=
  Reads.position fun p => Gives.next (gives_readTagged p i)

/-! ## Headers and descriptors

Each of these takes the words apart into the pieces that the reader's steps consume,
and follows the steps. -/

theorem gives_header {h : UnitHeader} (hs : h.Sized) : Gives readHeader (encodeHeader h) h := by
  let flags := [h.hasVarargs, h.hasKwargs, h.isAsync, h.catchesResult, h.isMethod]
  have hwords : encodeHeader h =
      encodeString h.name ++ ([(h.arity.toNat : Int)] ++ ([(h.totalArity.toNat : Int)] ++
        ([(h.defaultCount.toNat : Int)] ++
          ([packFlags flags] ++ encodeStrings h.paramNames)))) := by
    simp [encodeHeader, flags]
  have hread : Gives readHeader _ _ :=
    (gives_string hs.1).bind <| (gives_byte .arity h.arity).bind <|
      (gives_byte .arity h.totalArity).bind <| (gives_byte .defaultCount h.defaultCount).bind <|
      (gives_next (packFlags flags)).bind <| (gives_strings hs.2).bind_pure _
  simp only [hasBit_packFlags] at hread
  rw [hwords]
  exact hread

theorem gives_capture {c : CaptureSource} (hs : c.Sized) :
    Gives readCapture (encodeCapture c) c := by
  refine Reads.position fun p => ?_
  cases c with
  | slot n => exact Gives.next ((gives_word16 .upvalueSlot n).map _)
  | upvalue n => exact Gives.next ((gives_word16 .upvalueIndex n).map _)
  | global name => exact Gives.next ((gives_string hs).map _)

/-- The globals are written after the pool, apart from the rest of the manifest. -/
theorem gives_moduleHeader {m : Manifest} (hs : m.Sized) :
    Gives readModuleHeader (encodeModuleHeader m) { m with globals := ∅ } := by
  obtain ⟨hpackage, htarget, hentry, hexports, _⟩ := hs
  have hwords : encodeModuleHeader m =
      encodeString? m.package ++ (encodeString? m.exportTarget ++
        (encodeString? m.entryPoint ++ (encodeStrings m.exports ++ [flagWord m.optimize]))) := by
    simp [encodeModuleHeader]
  rw [hwords]
  exact (gives_string? hpackage).bind <| (gives_string? htarget).bind <|
    (gives_string? hentry).bind <| (gives_strings hexports).bind <|
    (gives_flag m.optimize).bind_pure _

theorem gives_global {g : String × GlobalInfo} (hname : SizedString g.1)
    (htype : SizedString g.2.typeName) : Gives readGlobal (encodeGlobal g) g := by
  have hwords : encodeGlobal g =
      encodeString g.1 ++ (encodeString g.2.typeName ++ [flagWord g.2.isConst]) := by
    simp [encodeGlobal]
  rw [hwords]
  exact (gives_string hname).bind <| (gives_string htype).bind <|
    (gives_flag g.2.isConst).bind_pure _

theorem gives_member {m : MemberDescriptor} (hs : SizedString m.name) :
    Gives readMember (encodeMember m) m := by
  have hread {w : Int} (hkind : Gives readMemberKind [w] m.kind) : Gives readMember _ _ :=
    (gives_string hs).bind <| hkind.bind <|
      (gives_next (packFlags [m.isStatic, m.isPrivate, m.isOperator])).bind_pure _
  obtain ⟨name, kind, isStatic, isPrivate, isOperator⟩ := m
  simp only [hasBit_packFlags] at hread
  cases kind with
  | field => exact hread (Reads.position fun _ => Gives.next (gives_pure _))
  | method => exact hread (Reads.position fun _ => Gives.next (gives_pure _))

theorem gives_class {d : ClassDescriptor} (hs : d.Sized) : Gives readClass (encodeClass d) d := by
  obtain ⟨hname, hcount, hmembers, hgenerics⟩ := hs
  have hwords : encodeClass d =
      encodeString d.name ++ ([flagWord d.hasParent] ++ ([flagWord d.hasConstructor] ++
        (encodeList encodeMember d.members ++ encodeStrings d.generics))) := by
    simp [encodeClass]
  have hlist := gives_counted d.members hcount (by simp [encodeMember])
    fun m hm => gives_member (hmembers m hm)
  rw [hwords]
  exact (gives_string hname).bind <| (gives_flag d.hasParent).bind <|
    (gives_flag d.hasConstructor).bind <| hlist.bind <| (gives_strings hgenerics).bind_pure _

theorem gives_enum {d : EnumDescriptor} (hs : d.Sized) : Gives readEnum (encodeEnum d) d := by
  obtain ⟨hname, hcount, hvariants⟩ := hs
  have hvariant (v : VariantDescriptor) (hv : v ∈ d.variants) :
      Gives readVariant (encodeVariant v) v :=
    (gives_string (hvariants v hv).1).bind <| (gives_strings (hvariants v hv).2).bind_pure _
  have hlist := gives_counted d.variants hcount
    (by simp [encodeVariant, encodeString, encodeList]) hvariant
  exact (gives_string hname).bind <| hlist.bind_pure _

/-! ## Tables -/

/-- A name that is new goes to the end. -/
theorem insertEntry_new {name : String} {value : α} :
    ∀ {entries : List (String × α)}, name ∉ entries.map Prod.fst →
      Table.insertEntry name value entries = entries ++ [(name, value)]
  | [], _ => rfl
  | (n, v) :: rest, h => by
    obtain ⟨hn, hrest⟩ := not_or.mp (mt List.mem_cons.mpr h)
    simp only [Table.insertEntry, if_neg (Ne.symm hn), insertEntry_new hrest, List.cons_append]

theorem entries_foldl_insert :
    ∀ (new : List (String × α)) (t : Table α), ((t.entries ++ new).map Prod.fst).Nodup →
      (new.foldl (fun t e => t.insert e.1 e.2) t).entries = t.entries ++ new
  | [], t, _ => (List.append_nil _).symm
  | e :: rest, t, h => by
    have hnew : e.1 ∉ t.entries.map Prod.fst := by
      intro hmem
      rw [List.map_append] at h
      exact List.disjoint_of_nodup_append h hmem (.head _)
    have hinsert : (t.insert e.1 e.2).entries = t.entries ++ [e] := insertEntry_new hnew
    have hrest := entries_foldl_insert rest (t.insert e.1 e.2) (by
      rw [hinsert, List.append_assoc]
      exact h)
    rw [List.foldl_cons, hrest, hinsert, List.append_assoc]
    rfl

/-- No name stands twice in a table, so reading its entries gives it back. -/
theorem ofList_entries (t : Table α) : Table.ofList t.entries = t := by
  have h : (Table.ofList t.entries).entries = t.entries :=
    entries_foldl_insert t.entries Table.empty t.distinct
  cases t
  exact Table.mk.injEq .. ▸ h

end Stream

/-! ## Units and the lines in them -/

mutual

/-- The line numbers of a unit and of the units inside it in the order of the stream,
each with the position of its word when the unit is written at `place`. -/
def CodeUnit.linesFrom : CodeUnit → Nat → List (UInt64 × Nat)
  | ⟨header, captures, manifest, constants, code, lines⟩, place =>
    let pool := place + (encodeHeader header).length +
      (encodeList encodeCapture captures).length + (encodeModuleHeader manifest).length + 1
    let own := pool + (encodeConstants constants).length +
      (encodeList encodeGlobal manifest.globals.entries).length +
      (encodeList Instr.encode code.toList).length + 1
    linesInPool constants pool ++ lines.toList.zipIdx own

/-- The same for the units in a pool. -/
def linesInPool : List Constant → Nat → List (UInt64 × Nat)
  | [], _ => []
  | k :: rest, place => k.linesFrom place ++ linesInPool rest (place + (encodeConstant k).length)

/-- Only functions have lines. Their units come after the word for the kind of constant. -/
def Constant.linesFrom : Constant → Nat → List (UInt64 × Nat)
  | .function u, place => u.linesFrom (place + 1)
  | _, _ => []

end

/-- The line numbers of a module in the order of its stream, each with its position. -/
def Module.placedLines (m : Module) : List (UInt64 × Nat) :=
  m.main.linesFrom (3 + (encodeString m.sourceName).length)

namespace Stream

open Reader

variable {k : Constant} {ws ws' : List Int} {x : UInt64 × Nat} {found' : Nat → List (UInt64 × Nat)}

theorem encodeConstants_eq_flatMap :
    ∀ pool : List Constant, encodeConstants pool = pool.flatMap encodeConstant
  | [] => by simp [encodeConstants]
  | k :: rest => by simp [encodeConstants, encodeConstants_eq_flatMap rest]

theorem linesInPool_eq_foundInList : ∀ (pool : List Constant) (place : Nat),
    linesInPool pool place = foundInList encodeConstant Constant.linesFrom pool place
  | [], _ => by simp [linesInPool, foundInList]
  | k :: rest, place => by
    simp [linesInPool, foundInList, linesInPool_eq_foundInList rest]

theorem sizedPool_iff : ∀ pool : List Constant, sizedPool pool ↔ ∀ k ∈ pool, k.Sized
  | [] => by simp [sizedPool]
  | k :: rest => by simp [sizedPool, sizedPool_iff rest]

theorem foundInList_lines : ∀ (lines : List UInt64) (place : Nat),
    foundInList (fun l => [signed l]) (fun l p => [(l, p)]) lines place = lines.zipIdx place
  | [], _ => rfl
  | l :: rest, place => by
    simp only [foundInList, foundInList_lines rest, List.zipIdx_cons, List.length_singleton,
      List.singleton_append]

theorem encodeCapture_ne_nil (c : CaptureSource) : encodeCapture c ≠ [] := by
  cases c <;> simp [encodeCapture]

theorem encodeConstant_ne_nil (k : Constant) : encodeConstant k ≠ [] := by
  cases k <;> simp [encodeConstant]

theorem wordBits_signed (bits : UInt64) : UInt64.ofNat (wordBits (signed bits)) = bits := by
  have hlt := bits.toNat_lt
  have hword : wordBits (signed bits) = bits.toNat := by
    unfold wordBits signed
    split <;> omega
  rw [hword, UInt64.ofNat_toNat]

/-- A constant that is not a unit. -/
theorem gives_constant (unit : Reader CodeUnit) (hs : k.Sized)
    (hk : ∀ u, k ≠ .function u) : Gives (readConstant unit) (encodeConstant k) k := by
  refine Reads.position fun p => ?_
  cases k with
  | int n =>
    have h := (gives_next n.toInt).map fun w => Constant.int (Int64.ofInt w)
    rw [Int64.ofInt_toInt] at h
    exact Gives.next h
  | float bits =>
    have h := (gives_next (signed bits)).map fun w => Constant.float (UInt64.ofNat (wordBits w))
    rw [wordBits_signed] at h
    exact Gives.next h
  | str s => exact Gives.next ((gives_string hs).map Constant.str)
  | names ss => exact Gives.next ((gives_strings hs).map Constant.names)
  | function u => exact absurd rfl (hk u)
  | classType d => exact Gives.next ((gives_class hs).map Constant.classType)
  | enumType d => exact Gives.next ((gives_enum hs).map Constant.enumType)

theorem reads_constant {unit : Reader CodeUnit} (hs : k.Sized)
    (hunit : ∀ u, k = .function u → Reads unit (encodeUnit u) u.linesFrom u) :
    Reads (readConstant unit) (encodeConstant k) k.linesFrom k := by
  cases k with
  | function u =>
    exact Reads.position fun p =>
      Reads.next (f := u.linesFrom) ((hunit u rfl).map Constant.function)
  | int n => exact gives_constant unit hs nofun
  | float bits => exact gives_constant unit hs nofun
  | str s => exact gives_constant unit hs nofun
  | names ss => exact gives_constant unit hs nofun
  | classType d => exact gives_constant unit hs nofun
  | enumType d => exact gives_constant unit hs nofun

/-- A unit in a pool is shorter than the pool. -/
theorem length_encodeUnit_lt {u : CodeUnit} :
    ∀ {pool : List Constant}, .function u ∈ pool →
      (encodeUnit u).length < (encodeConstants pool).length
  | k :: rest, h => by
    rw [encodeConstants, List.length_append]
    rcases List.mem_cons.mp h with rfl | h
    · rw [encodeConstant, List.length_cons]
      omega
    · have := length_encodeUnit_lt h
      omega

/-- As many levels as the unit has words are enough to read it. -/
theorem reads_unit : ∀ (depth : Nat) (u : CodeUnit), u.Sized → (encodeUnit u).length ≤ depth →
    Reads (readUnit depth) (encodeUnit u) u.linesFrom u
  | 0, ⟨header, captures, manifest, constants, code, lines⟩, _, hdepth => by
    simp [encodeUnit, encodeList] at hdepth
  | depth + 1, ⟨header, captures, manifest, constants, code, lines⟩, hs, hdepth => by
    obtain ⟨hheader, hcaptures, hmanifest, ⟨hcount, hpool⟩, hcode, hlines⟩ := hs
    have hconstant (k : Constant) (hk : k ∈ constants) :
        Reads (readConstant (readUnit depth)) (encodeConstant k) k.linesFrom k := by
      have hsized := (sizedPool_iff constants).mp hpool k hk
      refine reads_constant hsized ?_
      rintro u rfl
      -- a unit in the pool is written in fewer words, so the depth still suffices for it
      have hshort := length_encodeUnit_lt hk
      simp only [encodeUnit, List.length_append, List.length_cons] at hdepth
      exact reads_unit depth u (by simpa [Constant.Sized] using hsized) (by omega)
    obtain ⟨hglobalCount, hglobal⟩ := hmanifest.2.2.2.2
    have hcaptures' : Gives (counted readCapture) (encodeList encodeCapture captures) _ :=
      gives_counted captures hcaptures.1 (fun c _ => encodeCapture_ne_nil c)
        fun c hc => gives_capture (hcaptures.2 c hc)
    have hconstants := reads_counted constants hcount (fun k _ => encodeConstant_ne_nil k) hconstant
    have hglobals : Gives (counted readGlobal)
        (encodeList encodeGlobal manifest.globals.entries) _ :=
      gives_counted manifest.globals.entries hglobalCount (by simp [encodeGlobal])
        fun g hg => gives_global (hglobal g hg).1 (hglobal g hg).2
    have hcode' := gives_counted code.toList hcode (by simp [Instr.encode]) fun i _ => gives_instr i
    have hlines' := reads_counted lines.toList hlines (by simp) fun l _ => reads_line l
    have hread : Reads (readUnit (depth + 1)) _ _ _ :=
      Reads.bind (gives_header hheader) <| Reads.bind hcaptures' <|
        Reads.bind (gives_moduleHeader hmanifest) <| Reads.bind hconstants <|
        Reads.bind hglobals <| Reads.bind hcode' <| hlines'.bind_pure _
    refine hread.of_eq ?_ ?_ ?_
    · simp [encodeUnit, encodeList, encodeConstants_eq_flatMap]
    -- the lines of the pool are found behind the count of the constants
    · intro p
      have hlength : (encodeList encodeConstant constants).length =
          (encodeConstants constants).length + 1 := by
        simp [encodeList, encodeConstants_eq_flatMap]
      simp only [CodeUnit.linesFrom, linesInPool_eq_foundInList, foundInList_lines,
        List.nil_append, hlength]
      congr 2
      omega
    · simp [ofList_entries]

theorem reads_module (hs : m.Sized) {depth : Nat} (hdepth : (encodeUnit m.main).length ≤ depth) :
    Reads (readModule depth) (encode m)
      (fun p => m.main.linesFrom (p + 3 + (encodeString m.sourceName).length)) m := by
  have hbody := Reads.bind
    (g := fun name => readUnit depth >>= fun main => pure (Module.mk name main))
    (gives_string hs.1) ((reads_unit depth m.main hs.2 hdepth).bind_pure (Module.mk m.sourceName))
  let found (p : Nat) := m.main.linesFrom (p + (encodeString m.sourceName).length)
  have hread : Reads (readModule depth) (encode m) (fun p => found (p + 1 + 1 + 1)) m := by
    unfold readModule
    simp only [ne_eq, ite_not]
    refine Reads.next (f := fun p => found (p + 1 + 1)) ?_
    rw [if_pos rfl]
    refine Reads.next (f := fun p => found (p + 1)) ?_
    rw [if_pos rfl]
    refine Reads.position fun place => Reads.next (f := found) ?_
    rw [if_pos rfl]
    exact hbody
  exact hread

/-! ## Where the lines stand -/

/-- The lines in `found` stand in `words` at the positions given, in the order given. -/
def Marks (words : List Int) (found : Nat → List (UInt64 × Nat)) : Prop :=
  ∀ place, (found place).Pairwise (fun x y => x.2 < y.2) ∧
    ∀ x ∈ found place, place ≤ x.2 ∧ words[x.2 - place]? = some (signed x.1)

theorem marks_none (words : List Int) : Marks words fun _ => [] :=
  fun _ => ⟨.nil, nofun⟩

theorem Marks.append (h : Marks ws found) (h' : Marks ws' found') :
    Marks (ws ++ ws') fun p => found p ++ found' (p + ws.length) := by
  intro place
  obtain ⟨hsorted, hat⟩ := h place
  obtain ⟨hsorted', hat'⟩ := h' (place + ws.length)
  -- a line among the first words stands before the first of the others
  have hbelow (x : UInt64 × Nat) (hx : x ∈ found place) : x.2 - place < ws.length :=
    (List.getElem?_eq_some_iff.mp (hat x hx).2).1
  refine ⟨List.pairwise_append.mpr ⟨hsorted, hsorted', fun x hx y hy => ?_⟩, fun x hx => ?_⟩
  · have := hbelow x hx
    have := (hat' y hy).1
    omega
  · rcases List.mem_append.mp hx with hx | hx
    · exact ⟨(hat x hx).1, by rw [List.getElem?_append_left (hbelow x hx)]; exact (hat x hx).2⟩
    · obtain ⟨hle, hword⟩ := hat' x hx
      refine ⟨by omega, ?_⟩
      rw [List.getElem?_append_right (by omega), ← hword]
      congr 1
      omega

theorem Marks.of_eq
    (h : Marks ws found) (hwords : ws' = ws) (hfound : ∀ p, found' p = found p) : Marks ws' found' := by
  rw [hwords, funext hfound]
  exact h

theorem marks_lines : ∀ lines : List UInt64,
    Marks (lines.flatMap fun l => [signed l]) fun p => lines.zipIdx p
  | [] => marks_none _
  | l :: rest => by
    have hone : Marks [signed l] fun p => [(l, p)] := by
      intro place
      simp
    exact (hone.append (marks_lines rest)).of_eq rfl fun p => rfl

/-- Words that hold no lines, before those that do. -/
theorem Marks.after (h : Marks ws found)
    (before : List Int) : Marks (before ++ ws) fun p => found (p + before.length) :=
  (marks_none before).append h

mutual

theorem marks_unit : ∀ u : CodeUnit, Marks (encodeUnit u) u.linesFrom
  | ⟨header, captures, manifest, constants, code, lines⟩ => by
    have hlines := ((marks_lines lines.toList).after [(lines.size : Int)]).after
      (encodeList encodeGlobal manifest.globals.entries ++ encodeList Instr.encode code.toList)
    have hall := ((((marks_pool constants).append hlines).after [(constants.length : Int)]).after
      (encodeHeader header ++ encodeList encodeCapture captures ++ encodeModuleHeader manifest))
    refine hall.of_eq ?_ fun p => ?_
    · simp [encodeUnit, encodeList]
    · simp only [CodeUnit.linesFrom, List.length_append, List.length_singleton, Nat.add_assoc]

theorem marks_pool : ∀ pool : List Constant, Marks (encodeConstants pool) (linesInPool pool)
  | [] => (marks_none []).of_eq (by simp [encodeConstants]) fun p => by simp [linesInPool]
  | k :: rest =>
    ((marks_constant k).append (marks_pool rest)).of_eq (by simp [encodeConstants])
      fun p => by simp [linesInPool]

theorem marks_constant : ∀ k : Constant, Marks (encodeConstant k) k.linesFrom
  | .function u => ((marks_unit u).after [4]).of_eq (by simp [encodeConstant]) fun p => by
    simp [Constant.linesFrom]
  | .int _ | .float _ | .str _ | .names _ | .classType _ | .enumType _ =>
    (marks_none _).of_eq rfl fun p => by simp [Constant.linesFrom]

end

mutual

/-- The lines listed are those of the unit and of the units inside it. -/
theorem mem_linesFrom (l : UInt64) : ∀ (u : CodeUnit) (place : Nat),
    (∃ p, (l, p) ∈ u.linesFrom place) ↔ ∃ v ∈ u.units, l ∈ v.lines
  | ⟨header, captures, manifest, constants, code, lines⟩, place => by
    have hown (n : Nat) : (∃ p, (l, p) ∈ lines.toList.zipIdx n) ↔ l ∈ lines := by
      have hmap : l ∈ lines ↔ l ∈ (lines.toList.zipIdx n).map Prod.fst := by
        rw [List.zipIdx_map_fst, Array.mem_toList_iff]
      rw [hmap, List.mem_map]
      exact ⟨fun ⟨p, hp⟩ => ⟨(l, p), hp, rfl⟩, fun ⟨(_, p), hp, he⟩ => ⟨p, he ▸ hp⟩⟩
    simp only [CodeUnit.linesFrom, CodeUnit.units, List.mem_append, exists_or,
      mem_linesInPool l constants, hown, List.mem_cons, or_and_right, exists_eq_left]
    exact or_comm

theorem mem_linesInPool (l : UInt64) : ∀ (pool : List Constant) (place : Nat),
    (∃ p, (l, p) ∈ linesInPool pool place) ↔ ∃ v ∈ CodeUnit.unitsBackwards pool, l ∈ v.lines
  | [], place => by simp [linesInPool, CodeUnit.unitsBackwards]
  | .function u :: rest, place => by
    simp only [linesInPool, Constant.linesFrom, CodeUnit.unitsBackwards, List.mem_append,
      exists_or, mem_linesFrom l u, mem_linesInPool l rest, or_and_right]
    exact or_comm
  | .int _ :: rest, place | .float _ :: rest, place | .str _ :: rest, place
  | .names _ :: rest, place | .classType _ :: rest, place | .enumType _ :: rest, place => by
    simp only [linesInPool, Constant.linesFrom, CodeUnit.unitsBackwards, List.nil_append,
      mem_linesInPool l rest]

end

/-! ## The round trip -/

/-- Everything is read back, and lines that are too large are all that is complained of. -/
theorem decodeWithRest_encode (hm : m.Sized) (rest : List Int) :
    decodeWithRest (encode m ++ rest) = verdict m.placedLines (m, rest) := by
  have hdepth : (encodeUnit m.main).length ≤ (encode m ++ rest).length + 1 := by
    simp only [encode, List.length_append]
    omega
  have hread : readModule _ (Cursor.start (encode m ++ rest)) =
      verdict (m.main.linesFrom (0 + 3 + _)) (m, ⟨rest, 0 + (encode m).length, _⟩) :=
    reads_module hm hdepth 0 rest (encode m ++ rest).length (by simp)
  rw [decodeWithRest, hread, Module.placedLines, Nat.zero_add, Nat.zero_add]
  unfold verdict
  cases List.find? _ _ <;> rfl

/-- The first line in the order of the stream that is too large for a signed word. -/
structure FirstLong (m : Module) (line : UInt64) (place : Nat) : Prop where
  placed : (line, place) ∈ m.placedLines
  isLong : IsLong line
  first : ∀ l p, (l, p) ∈ m.placedLines → IsLong l → place ≤ p

theorem getElem?_encode_of_mem (h : x ∈ m.placedLines) : (encode m)[x.2]? = some (signed x.1) := by
  have hmarks := (marks_unit m.main).after ([magic, version, moduleKind] ++ encodeString m.sourceName)
  have hmem : x ∈ m.main.linesFrom
      (0 + ([magic, version, moduleKind] ++ encodeString m.sourceName).length) := by
    rw [List.length_append, Nat.zero_add]
    exact h
  exact ((hmarks 0).2 x hmem).2

theorem firstLong_of_find?
    (h : m.placedLines.find? (fun l => IsLong l.1) = some x) : FirstLong m x.1 x.2 := by
  have hsorted : m.placedLines.Pairwise fun x y => x.2 < y.2 :=
    (marks_unit m.main (3 + (encodeString m.sourceName).length)).1
  obtain ⟨hlong, before, after, hsplit, hbefore⟩ := List.find?_eq_some_iff_append.mp h
  refine ⟨List.mem_of_find?_eq_some h, by simpa using hlong, fun l p hmem hl => ?_⟩
  rw [hsplit] at hmem hsorted
  rcases List.mem_append.mp hmem with hx | hx
  · exact absurd hl (by simpa using hbefore _ hx)
  · rcases List.mem_cons.mp hx with rfl | hx
    · exact Nat.le_refl p
    · have hpair := (List.pairwise_append.mp hsorted).2.1
      exact Nat.le_of_lt ((List.pairwise_cons.mp hpair).1 _ hx)

/-- A module is read back from the front of any stream that starts with its words, and
exactly its words are consumed, as long as every line fits a signed word. Otherwise the
first line that does not is reported where it stands. -/
theorem decode_encode (m : Module) (hm : m.Sized) (rest : List Int) :
    ((∀ u ∈ m.units, ∀ l ∈ u.lines, l.toNat ≤ maxLine) →
      decodeWithRest (encode m ++ rest) = .ok (m, rest)) ∧
    ((∃ u ∈ m.units, ∃ l ∈ u.lines, maxLine < l.toNat) →
      ∃ line place, FirstLong m line place ∧ (encode m)[place]? = some (signed line) ∧
        decode (encode m ++ rest) = .error (.outOfRange .line (signed line) place)) := by
  have hdecode := decodeWithRest_encode hm rest
  rw [m.units_eq]
  constructor
  · intro hshort
    have hnone : m.placedLines.find? (fun l => IsLong l.1) = none := by
      refine List.find?_eq_none.mpr fun ⟨l, p⟩ hmem => ?_
      obtain ⟨u, hu, hl⟩ := (mem_linesFrom l m.main _).mp ⟨p, hmem⟩
      have hnot : ¬ IsLong l := Nat.not_lt.mpr (hshort u hu l hl)
      simpa using hnot
    rw [hdecode, verdict, hnone]
  · rintro ⟨u, hu, l, hl, hlong⟩
    obtain ⟨p, hmem⟩ :=
      (mem_linesFrom l m.main (3 + (encodeString m.sourceName).length)).mpr ⟨u, hu, hl⟩
    cases hfind : m.placedLines.find? fun l => IsLong l.1 with
    | none =>
      have hnot : ¬ IsLong l := by simpa using List.find?_eq_none.mp hfind (l, p) hmem
      exact absurd hlong hnot
    | some x =>
      have hfirst := firstLong_of_find? hfind
      refine ⟨x.1, x.2, hfirst, getElem?_encode_of_mem hfirst.placed, ?_⟩
      rw [decode, hdecode, verdict, hfind]
      rfl

/-- A module with one unit inside `main`; both have a line that may be too large. -/
def twoUnits (outer inner : UInt64) : Module :=
  let header : UnitHeader := { name := "f" }
  let inside : CodeUnit := ⟨header, [], {}, [.int 7], #[.constant 0, .ret], #[1, inner]⟩
  ⟨"m", ⟨header, [.slot 1], {}, [.str "é", .function inside], #[.closure 1 0, .ret], #[outer, 3]⟩⟩

theorem twoUnits_sized (outer inner : UInt64) : (twoUnits outer inner).Sized := by
  simp only [twoUnits, Module.Sized, CodeUnit.Sized, sizedPool, Constant.Sized, UnitHeader.Sized,
    CaptureSource.Sized, Manifest.Sized, SizedString, SizedStrings, lengthBound,
    EmptyCollection.emptyCollection, Table.empty]
  simp
  decide

/-- Lines of inner units come first, so of two lines that are too large the one that is
reported here is not the one of the outer unit. -/
theorem decode_encode_twoUnits :
    decodeWithRest (encode (twoUnits 2 5) ++ [9]) = .ok (twoUnits 2 5, [9]) ∧
    (maxLine < (0xffffffffffffffff : UInt64).toNat ∧
      ∃ line place, FirstLong (twoUnits 0xffffffffffffffff 0x8000000000000000) line place ∧
        (encode (twoUnits 0xffffffffffffffff 0x8000000000000000))[place]? = some (signed line) ∧
        decode (encode (twoUnits 0xffffffffffffffff 0x8000000000000000) ++ [9]) =
          .error (.outOfRange .line (signed line) place)) := by
  have hshort := (decode_encode (twoUnits 2 5) (twoUnits_sized 2 5) [9]).1
  have hlong := (decode_encode _ (twoUnits_sized 0xffffffffffffffff 0x8000000000000000) [9]).2
  rw [Module.units_eq] at hshort hlong
  refine ⟨hshort ?_, by decide, hlong (by decide)⟩
  simp [twoUnits, CodeUnit.units, CodeUnit.unitsBackwards, maxLine]

end Stream

end Strand
