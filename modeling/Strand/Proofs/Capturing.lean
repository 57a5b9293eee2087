import Mathlib.Data.List.Forall2
import Strand.Codegen.Name

/-!
# Where captures lead

A capture is found by walking outwards and is written down on the way back, one
descriptor in every unit between the one that holds the variable and the one that
uses it. `home?` says what the walk finds, without writing anything down, and
`origin?` follows the descriptors outwards again. That the two meet, whatever the
units had captured before, is an induction on the units around: the descriptor of each
unit leads to an entry of the next one, and entries never move.
-/

namespace Strand.Codegen

variable {l : Local} {f : Frame} {name : String} {source : CaptureSource} {h : Home} {c : Capture}
  {outer : List Frame}

/-! ## Captures of one unit -/

namespace Captures

variable {c : Captures} {source : CaptureSource}

/-- The captures of a unit are only ever added to at the end. -/
theorem prefix_add (c : Captures) (source : CaptureSource) :
    c.sources.toList <+: (c.add source).2.sources.toList := by
  unfold add
  split
  · exact List.prefix_rfl
  · rw [Array.toList_push]
    exact List.prefix_append ..

/-- What a unit has captured stands where `idxOf` says. -/
theorem getElem?_idxOf (h : source ∈ c.sources) :
    c.sources[c.sources.idxOf source]? = some source := by
  have hlist : source ∈ c.sources.toList := Array.mem_toList_iff.mpr h
  have hindex : c.sources.idxOf source = c.sources.toList.idxOf source :=
    List.idxOf_toArray (a := source)
  have hlt := List.idxOf_lt_length_of_mem hlist
  rw [hindex, ← Array.getElem?_toList, List.getElem?_eq_getElem hlt, List.getElem_idxOf]

/-- What was added is found under the index that was given for it. -/
theorem getElem?_add (h : c.sources.size < 65536) :
    (c.add source).2.sources[(c.add source).1.toNat]? = some source := by
  by_cases hmem : source ∈ c.sources
  · have hlt := Array.idxOf_lt_length_of_mem hmem
    rw [add, dif_pos hmem]
    rw [UInt16.toNat_ofNat_of_lt' (show _ < 65536 by omega)]
    exact getElem?_idxOf hmem
  · rw [add, dif_neg hmem]
    rw [UInt16.toNat_ofNat_of_lt' (show _ < 65536 by omega)]
    rw [Nat.min_eq_left (by omega)]
    exact Array.getElem?_push_size

/-- What is captured already is not captured again. -/
theorem add_add (source : CaptureSource) (h : c.sources.size < 65536) :
    (c.add source).2.add source = c.add source := by
  by_cases hmem : source ∈ c.sources
  · have hadd : (c.add source).2 = c := by rw [add, dif_pos hmem]
    rw [hadd]
  · have hindex : (c.sources.push source).idxOf source = c.sources.size := by
      rw [← Array.append_singleton, Array.idxOf_append, if_neg hmem]
      simp
    rw [add, add, dif_neg hmem, dif_pos Array.mem_push_self, hindex, Nat.min_eq_left (by omega)]

end Captures

/-! ## What resolution may change -/

/-- `g` is `f` with perhaps further captures after those it had. -/
structure Frame.Extends (f g : Frame) : Prop where
  captures : f.captures.sources.toList <+: g.captures.sources.toList
  rest : g = { f with captures := g.captures }

theorem Frame.Extends.refl (f : Frame) : f.Extends f := ⟨List.prefix_rfl, rfl⟩

theorem Frame.extends_addCapture (f : Frame) (source : CaptureSource) :
    f.Extends (f.addCapture source).2 :=
  ⟨f.captures.prefix_add source, rfl⟩

theorem Frame.Extends.findLocal? {g : Frame} (h : f.Extends g) (name : String) :
    g.findLocal? name = f.findLocal? name := by
  rw [h.rest]
  rfl

theorem Frame.getElem?_addCapture (h : f.captures.sources.size < 65536) :
    (f.addCapture source).2.captures.sources[(f.addCapture source).1.toNat]? = some source :=
  Captures.getElem?_add h

theorem Frame.addCapture_addCapture (h : f.captures.sources.size < 65536) :
    (f.addCapture source).2.addCapture source = f.addCapture source := by
  have hadd := Captures.add_add source h
  unfold addCapture
  rw [hadd]

/-! ## What a name denotes in the units around -/

/-- `l` is the innermost local of `f` that is called `name` and was not dropped. -/
def Frame.Declares (f : Frame) (name : String) (l : Local) : Prop :=
  ∃ inner rest, f.locals = inner ++ l :: rest ∧ l.name = name ∧ l.isDropped = false ∧
    ∀ x ∈ inner, x.name = name → x.isDropped = true

theorem Frame.findLocal?_eq_some_iff (hname : name ≠ "") :
    f.findLocal? name = some l ↔ f.Declares name l := by
  have hne : name.isEmpty = false := by simpa using hname
  rw [findLocal?, hne, if_neg (by decide), List.find?_eq_some_iff_append]
  constructor
  · rintro ⟨hl, inner, rest, hlocals, hinner⟩
    have hparts : l.isDropped = false ∧ l.name = name := by simpa using hl
    exact ⟨inner, rest, hlocals, hparts.2, hparts.1, fun x hx hxname => by
      simpa [hxname] using hinner x hx⟩
  · rintro ⟨inner, rest, hlocals, hlname, hkept, hinner⟩
    refine ⟨by simp [hlname, hkept], inner, rest, hlocals, fun x hx => ?_⟩
    have hdropped := hinner x hx
    by_cases hxname : x.name = name
    · simp [hdropped hxname]
    · simp [hxname]

/-- Where a variable lives that a unit uses and does not hold. -/
structure Home where
  /-- How many units lie between the one that uses it and the one that holds it. -/
  level : Nat
  source : CaptureSource
  ty : Ty
  isConst : Bool

/-- The home of a name among the units around, nearest first. A local further out wins
over a global of a nearer unit. -/
def home? (name : String) : List Frame → Option Home
  | [] => none
  | parent :: outer =>
    match parent.findLocal? name with
    | some l => some ⟨0, .slot l.slot, l.ty, l.isConst⟩
    | none =>
      match home? name outer with
      | some h => some { h with level := h.level + 1 }
      | none => (parent.globals.find? name).map fun g => ⟨0, .global name, g.ty, g.isConst⟩

theorem home?_cons_of_local {parent : Frame} (h : parent.findLocal? name = some l) :
    home? name (parent :: outer) = some ⟨0, .slot l.slot, l.ty, l.isConst⟩ := by
  rw [home?, h]

theorem home?_eq_none_iff : home? name outer = none ↔
      ∀ f ∈ outer, f.findLocal? name = none ∧ f.globals.find? name = none := by
  induction outer with
  | nil => simp [home?]
  | cons parent outer ih =>
    rw [List.forall_mem_cons, ← ih, home?]
    cases parent.findLocal? name with
    | some l => simp
    | none =>
      cases home? name outer with
      | some h => simp
      | none => simp

/-- The nearest unit that has such a local is where a name lives. -/
theorem home?_append_of_local {near : List Frame} (far : List Frame)
    (hnear : ∀ g ∈ near, g.findLocal? name = none) (hf : f.findLocal? name = some l) :
    home? name (near ++ f :: far) = some ⟨near.length, .slot l.slot, l.ty, l.isConst⟩ := by
  induction near with
  | nil => exact home?_cons_of_local hf
  | cons g near ih =>
    obtain ⟨hg, hnear⟩ := List.forall_mem_cons.mp hnear
    rw [List.cons_append, home?, hg, ih hnear, List.length_cons]

/-- Where no unit has such a local, a global of that name is what is left. -/
theorem home?_of_no_local
    (hlocal : ∀ g ∈ outer, g.findLocal? name = none) (hhome : home? name outer = some h) :
    h.source = .global name ∧ ∃ f g, outer[h.level]? = some f ∧ f.globals.find? name = some g ∧
      h.ty = g.ty ∧ h.isConst = g.isConst := by
  induction outer generalizing h with
  | nil => cases hhome
  | cons parent outer ih =>
    obtain ⟨hparent, hlocal⟩ := List.forall_mem_cons.mp hlocal
    rw [home?, hparent] at hhome
    cases hfar : home? name outer with
    | some far =>
      simp only [hfar, Option.some.injEq] at hhome
      subst hhome
      exact ih hlocal hfar
    | none =>
      simp only [hfar, Option.map_eq_some_iff] at hhome
      obtain ⟨g, hg, rfl⟩ := hhome
      exact ⟨rfl, parent, g, rfl, hg, rfl, rfl⟩

/-! ## Following captures outwards -/

/-- Where the captures lead from entry `i` of the innermost unit of a chain: how far out
the last of them stands, and what it names in the unit around it. -/
def origin? : List Frame → Nat → Option (Nat × CaptureSource)
  | [], _ => none
  | f :: outer, i =>
    match f.captures.sources[i]? with
    | some (.upvalue j) => (origin? outer j.toNat).map fun r => (r.1 + 1, r.2)
    | some source => some (0, source)
    | none => none

theorem origin?_cons_of_upvalue {i : Nat} {j : UInt16}
    (h : f.captures.sources[i]? = some (.upvalue j)) :
    origin? (f :: outer) i = (origin? outer j.toNat).map fun r => (r.1 + 1, r.2) := by
  rw [origin?, h]

theorem origin?_cons_of_source {i : Nat}
    (h : f.captures.sources[i]? = some source) (hsource : ∀ j, source ≠ .upvalue j) :
    origin? (f :: outer) i = some (0, source) := by
  rw [origin?, h]
  cases source with
  | upvalue j => exact absurd rfl (hsource j)
  | slot n => rfl
  | global name => rfl

/-! ## Resolution -/

section Resolution

variable {name : String} {f parent parent' : Frame} {outer outer' : List Frame}

theorem capture?_cons_of_local (h : parent.findLocal? name = some l) : capture? name f (parent :: outer) =
      some (⟨(f.addCapture (.slot l.slot)).1, l.ty, l.isConst⟩, (f.addCapture (.slot l.slot)).2,
        parent :: outer) := by
  rw [capture?, h]

theorem capture?_cons_of_captured (hlocal : parent.findLocal? name = none)
    (h : capture? name parent outer = some (c, parent', outer')) :
    capture? name f (parent :: outer) =
      some (⟨(f.addCapture (.upvalue c.index)).1, c.ty, c.isConst⟩,
        (f.addCapture (.upvalue c.index)).2, parent' :: outer') := by
  rw [capture?, hlocal, h]

theorem capture?_cons_of_global {g : GlobalBinding} (hlocal : parent.findLocal? name = none)
    (h : capture? name parent outer = none)
    (hglobal : findGlobal? name (parent :: outer) = some g) :
    capture? name f (parent :: outer) =
      some (⟨(f.addCapture (.global name)).1, g.ty, g.isConst⟩, (f.addCapture (.global name)).2,
        parent :: outer) := by
  rw [capture?, hlocal, h, hglobal]

/-- What it means that resolving a name captured it: the new frames are the old ones with
captures added at the end, the captures lead to where the name lives, and resolving the
name once more finds everything in place. -/
structure Captured (name : String) (f : Frame) (outer : List Frame) (h : Home) (c : Capture)
    (f' : Frame) (outer' : List Frame) : Prop where
  extended : List.Forall₂ Frame.Extends (f :: outer) (f' :: outer')
  leads : origin? (f' :: outer') c.index.toNat = some (h.level, h.source)
  ty : c.ty = h.ty
  isConst : c.isConst = h.isConst
  again : capture? name f' outer' = some (c, f', outer')

theorem extends_refl (fs : List Frame) : List.Forall₂ Frame.Extends fs fs :=
  List.forall₂_same.mpr fun f _ => .refl f

/-- A name that is resolved in the unit next to the current one needs one descriptor. -/
theorem captured_of_source {ty : Ty} {isConst : Bool}
    (hroom : f.captures.sources.size < 65536) (hsource : ∀ j, source ≠ .upvalue j)
    (h : ∀ g : Frame, capture? name g outer =
      some (⟨(g.addCapture source).1, ty, isConst⟩, (g.addCapture source).2, outer)) :
    Captured name f outer ⟨0, source, ty, isConst⟩ ⟨(f.addCapture source).1, ty, isConst⟩
      (f.addCapture source).2 outer where
  extended := .cons (f.extends_addCapture source) (extends_refl outer)
  leads := origin?_cons_of_source (Frame.getElem?_addCapture hroom) hsource
  ty := rfl
  isConst := rfl
  again := by rw [h, Frame.addCapture_addCapture hroom]

/-- One that is resolved further out needs one more than the unit around. -/
theorem Captured.inward (hc : Captured name parent outer h c parent' outer')
    (hroom : f.captures.sources.size < 65536) (hlocal : parent.findLocal? name = none) :
    Captured name f (parent :: outer) { h with level := h.level + 1 }
      ⟨(f.addCapture (.upvalue c.index)).1, c.ty, c.isConst⟩
      (f.addCapture (.upvalue c.index)).2 (parent' :: outer') where
  extended := .cons (f.extends_addCapture _) hc.extended
  leads := by
    rw [origin?_cons_of_upvalue (Frame.getElem?_addCapture hroom), hc.leads]
    rfl
  ty := hc.ty
  isConst := hc.isConst
  again := by
    have hparent : parent.Extends parent' := (List.forall₂_cons.mp hc.extended).1
    have hlocal' : parent'.findLocal? name = none := by rw [hparent.findLocal?, hlocal]
    rw [capture?_cons_of_captured hlocal' hc.again, Frame.addCapture_addCapture hroom]

/-- Resolution fails only where a name has no home. -/
theorem capture?_eq_none (h : home? name outer = none) : capture? name f outer = none := by
  induction outer generalizing f with
  | nil => rfl
  | cons parent outer ih =>
    obtain ⟨hparent, houter⟩ := List.forall_mem_cons.mp (home?_eq_none_iff.mp h)
    have hglobal : findGlobal? name (parent :: outer) = none := by
      refine List.findSome?_eq_none_iff.mpr fun g hg => ?_
      exact (home?_eq_none_iff.mp h g hg).2
    rw [capture?, hparent.1, ih (home?_eq_none_iff.mpr houter), hglobal]

/-- Where a name has a home, resolution captures it there. -/
theorem exists_captured (hhome : home? name outer = some h)
    (hroom : ∀ g ∈ f :: outer, g.captures.sources.size < 65536) :
    ∃ c f' outer', capture? name f outer = some (c, f', outer') ∧
      Captured name f outer h c f' outer' := by
  induction outer generalizing f h with
  | nil => cases hhome
  | cons parent outer ih =>
    obtain ⟨hroomf, hroom⟩ := List.forall_mem_cons.mp hroom
    cases hlocal : parent.findLocal? name with
    | some l =>
      rw [home?_cons_of_local hlocal] at hhome
      cases hhome
      exact ⟨_, _, _, capture?_cons_of_local hlocal,
        captured_of_source hroomf (fun j => by simp) fun g => capture?_cons_of_local hlocal⟩
    | none =>
      rw [home?, hlocal] at hhome
      cases hfar : home? name outer with
      | some far =>
        simp only [hfar, Option.some.injEq] at hhome
        subst hhome
        obtain ⟨c, parent', outer', hcapture, hc⟩ := ih hfar hroom
        exact ⟨_, _, _, capture?_cons_of_captured hlocal hcapture, hc.inward hroomf hlocal⟩
      | none =>
        -- no unit further out knows the name, so the nearest global is the parent's
        simp only [hfar, Option.map_eq_some_iff] at hhome
        obtain ⟨g, hg, rfl⟩ := hhome
        have hglobal : findGlobal? name (parent :: outer) = some g := by
          rw [findGlobal?, List.findSome?_cons, hg]
        have hstep := fun f : Frame =>
          capture?_cons_of_global (f := f) hlocal (capture?_eq_none hfar) hglobal
        exact ⟨_, _, _, hstep f, captured_of_source hroomf (fun j => by simp) hstep⟩

end Resolution

theorem captureName_of_none {s : State}
    (h : capture? name s.frame s.outer = none) : captureName name s = ⟨(none, s), []⟩ := by
  simp only [captureName, modifyGet, MonadStateOf.modifyGet, StateT.modifyGet, pure, h]

theorem captureName_of_some {s : State} (h : capture? name s.frame s.outer = some (c, f, outer)) :
    captureName name s = ⟨(some c, { s with frame := f, outer }), []⟩ := by
  simp only [captureName, modifyGet, MonadStateOf.modifyGet, StateT.modifyGet, pure, h]

theorem findLocal?_eq_none_iff (hname : name ≠ "") :
    f.findLocal? name = none ↔ ∀ l, ¬ f.Declares name l := by
  rw [Option.eq_none_iff_forall_ne_some]
  exact forall_congr' fun l => not_congr (Frame.findLocal?_eq_some_iff hname)

/-- A name has a home where some unit around has such a local or such a global. -/
theorem home?_isSome_iff (outer : List Frame) (hname : name ≠ "") : (home? name outer).isSome ↔
      ∃ f ∈ outer, (∃ l, f.Declares name l) ∨ (f.globals.find? name).isSome := by
  rw [← not_iff_not, Bool.not_eq_true, Option.isSome_eq_false_iff, Option.isNone_iff_eq_none,
    home?_eq_none_iff]
  simp [findLocal?_eq_none_iff hname]

/-- **Resolution of captures.** In whatever state of the units, resolving a name reports
nothing and succeeds just when a unit around has such a local or such a global. The captures
then lead to the innermost such local of the nearest unit that has one, or else to a global;
resolving the name again gives the same index and changes nothing. No unit loses or moves a
capture, or holds one twice, and when resolution fails nothing has changed. -/
theorem captureName_resolves (s : State) (name : String) (hname : name ≠ "")
    (hroom : ∀ f ∈ s.chain, f.captures.sources.size < 65536) :
    ∃ answer s', captureName name s = ⟨(answer, s'), []⟩ ∧
      (answer.isSome ↔
        ∃ f ∈ s.outer, (∃ l, f.Declares name l) ∨ (f.globals.find? name).isSome) ∧
      (answer = none → s' = s) ∧
      (∀ c, answer = some c →
        (∀ near f far l, s.outer = near ++ f :: far → (∀ g ∈ near, ∀ l, ¬ g.Declares name l) →
          f.Declares name l →
          origin? s'.chain c.index.toNat = some (near.length, .slot l.slot) ∧
            c.ty = l.ty ∧ c.isConst = l.isConst) ∧
        ((∀ g ∈ s.outer, ∀ l, ¬ g.Declares name l) →
          ∃ k f g, origin? s'.chain c.index.toNat = some (k, .global name) ∧
            s.outer[k]? = some f ∧ f.globals.find? name = some g ∧
            c.ty = g.ty ∧ c.isConst = g.isConst) ∧
        captureName name s' = ⟨(some c, s'), []⟩) ∧
      List.Forall₂ Frame.Extends s.chain s'.chain ∧
      s'.decls = s.decls ∧ s'.refused = s.refused ∧
      ∀ f ∈ s'.chain, f.captures.sources.toList.Nodup := by
  have hsome := home?_isSome_iff s.outer hname
  -- whether the name has a home outside decides everything else
  cases hhome : home? name s.outer with
  | none =>
    rw [hhome] at hsome
    refine ⟨none, s, captureName_of_none (capture?_eq_none hhome), hsome, fun _ => rfl, ?_,
      extends_refl _, rfl, rfl, fun f _ => f.captures.distinct⟩
    intro c hc
    cases hc
  | some h =>
    rw [hhome] at hsome
    obtain ⟨c, f', outer', hcapture, hc⟩ := exists_captured hhome hroom
    refine ⟨some c, { s with frame := f', outer := outer' }, captureName_of_some hcapture,
      hsome, fun hnone => (Option.some_ne_none c hnone).elim, ?_, hc.extended, rfl, rfl,
      fun f _ => f.captures.distinct⟩
    intro c' hc'
    cases hc'
    refine ⟨?_, ?_, captureName_of_some hc.again⟩
    -- the nearest unit that declares the name is its home
    · intro near f far l houter hnear hl
      have hlocal := home?_append_of_local far
        (fun g hg => (findLocal?_eq_none_iff hname).mpr (hnear g hg))
        ((Frame.findLocal?_eq_some_iff hname).mpr hl)
      rw [← houter, hhome, Option.some.injEq] at hlocal
      subst hlocal
      exact ⟨hc.leads, hc.ty, hc.isConst⟩
    · intro hlocal
      obtain ⟨hsource, f, g, hf, hg, hty, hconst⟩ := home?_of_no_local
        (fun g hg => (findLocal?_eq_none_iff hname).mpr (hlocal g hg)) hhome
      exact ⟨h.level, f, g, by rw [← hsource]; exact hc.leads, hf, hg, hc.ty.trans hty,
        hc.isConst.trans hconst⟩

/-- A local called `x` in slot one. -/
def localX : Local := ⟨"x", .any, 1, 1, false, false⟩

/-- A module with a block that declares `x`. -/
def blockWithX : Frame :=
  { Frame.start "main" .module none .any with locals := [localX, ⟨"", .any, 0, 0, true, false⟩] }

/-- A lambda in a function in that block. -/
def nestedUnits : State where
  frame := .start "inner" .lambda none .any
  outer := [.start "outer" .function none .any, blockWithX]

theorem captureName_resolves_nestedUnits :
    ∃ c s', captureName "x" nestedUnits = ⟨(some c, s'), []⟩ ∧
      origin? s'.chain c.index.toNat = some (1, .slot 1) := by
  have hname : "x" ≠ "" := by decide
  have hdeclares : blockWithX.Declares "x" localX := (Frame.findLocal?_eq_some_iff hname).mp rfl
  have hfunction : ∀ l, ¬ (Frame.start "outer" .function none .any).Declares "x" l :=
    (findLocal?_eq_none_iff hname).mp rfl
  obtain ⟨answer, s', hrun, hsome, -, hfound, -⟩ :=
    captureName_resolves nestedUnits "x" hname (by decide)
  obtain ⟨c, rfl⟩ := Option.isSome_iff_exists.mp
    (hsome.mpr ⟨blockWithX, by simp [nestedUnits], .inl ⟨localX, hdeclares⟩⟩)
  have hnear := (hfound c rfl).1 [.start "outer" .function none .any] blockWithX [] localX rfl
    (by simpa using hfunction) hdeclares
  exact ⟨c, s', hrun, hnear.1⟩

end Strand.Codegen
