import Mathlib.Logic.Relation
import Strand.Proofs.Dialogue
import Strand.Proofs.FrameCondition.Brackets
import Strand.Proofs.TypeShapes

/-!
# The moves of a compilation

A compilation is a sequence of small moves, each of which changes one thing about the units
under construction. Some moves need a reason: an instruction that uses a captured variable
is laid down for a name whose captures lead to where the variable lives, and a global is
assigned to only if it is one that may be. All along, every type that is stored anywhere is
well formed.

`Triple` is a logic of pre- and postconditions for parts of the code generator. Because it is
about dialogues, something is known in the end about every state in which a node is asked
for, and not only about the last one. `Advances` says of a part that it makes such moves
whatever state it is started in, that it keeps what was there, and that the types in its answer
are well formed. What has been found out on the way, such as an index or the offset of a jump,
is carried along as a `Known`.
-/

namespace Strand

variable {cs : List (List CaptureSource)} {r : Nat × CaptureSource} {name : String}

/-! ## Instructions about captured variables -/

/-- What is done with a captured variable. -/
inductive Access where
  | read | assign | drop
deriving DecidableEq

/-- The instruction that does it, by the index of the capture. -/
def Access.instr : Access → UInt16 → Instr
  | .read => .getUpvalue
  | .assign => .setUpvalue
  | .drop => .dropUpvalue

/-- The instruction needs no reason to be laid down. -/
@[reducible] def Instr.isPlain : Instr → Bool
  | .getUpvalue _ | .setUpvalue _ | .dropUpvalue _ | .setGlobal _ | .closure _ _ => false
  | _ => true

namespace Codegen

/-! ## Captures that lead home -/

variable {i : Nat} {f : Frame} {position : Position} {known' : Known}
  {cs' : List (List CaptureSource)}

/-- Where the captures lead from entry `i` of the innermost of nested units that capture
these: how far out the last capture stands, and what it names in the unit around it. -/
def leadsTo? : List (List CaptureSource) → Nat → Option (Nat × CaptureSource)
  | [], _ => none
  | captures :: outer, i =>
    match captures[i]? with
    | some (.upvalue j) => (leadsTo? outer j.toNat).map fun r => (r.1 + 1, r.2)
    | some source => some (0, source)
    | none => none

theorem leadsTo?_of_longer (h : List.Forall₂ List.IsPrefix cs cs')
    (hi : leadsTo? cs i = some r) : leadsTo? cs' i = some r := by
  induction h generalizing i r with
  | nil => exact hi
  | @cons captures captures' cs cs' hlonger _ ih =>
    rw [leadsTo?] at hi
    cases hsource : captures[i]? with
    | none =>
      rw [hsource] at hi
      cases hi
    | some source =>
      rw [leadsTo?, getElem?_of_longer hlonger hsource]
      rw [hsource] at hi
      cases source with
      | upvalue j =>
        obtain ⟨r', hr', rfl⟩ := Option.map_eq_some_iff.mp hi
        exact Option.map_eq_some_iff.mpr ⟨r', ih hr', rfl⟩
      | slot n => exact hi
      | global name => exact hi

theorem leadsTo?_cons {captures : List CaptureSource} (h : leadsTo? (captures :: cs) i = some r) :
    (∃ j r', captures[i]? = some (.upvalue j) ∧ leadsTo? cs j.toNat = some r' ∧
      r = (r'.1 + 1, r'.2)) ∨ captures[i]? = some r.2 ∧ r.1 = 0 := by
  rw [leadsTo?] at h
  cases hsource : captures[i]? with
  | none =>
    rw [hsource] at h
    cases h
  | some source =>
    rw [hsource] at h
    cases source with
    | upvalue j =>
      obtain ⟨r', hr', rfl⟩ := Option.map_eq_some_iff.mp h
      exact .inl ⟨j, r', rfl, hr', rfl⟩
    | slot n =>
      cases h
      exact .inr ⟨rfl, rfl⟩
    | global name =>
      cases h
      exact .inr ⟨rfl, rfl⟩

/-- Captures that are all different lead to different places. -/
theorem leadsTo?_inj (h : ∀ captures ∈ cs, captures.Nodup) {j : Nat}
    (hi : leadsTo? cs i = some r) (hj : leadsTo? cs j = some r) : i = j := by
  induction cs generalizing i j r with
  | nil => cases hi
  | cons captures cs ih =>
    obtain ⟨hdistinct, hcs⟩ := List.forall_mem_cons.mp h
    suffices hsame : captures[i]? = captures[j]? ∧ ∃ source, captures[i]? = some source by
      obtain ⟨hsame, source, hsource⟩ := hsame
      exact (List.getElem?_inj (List.getElem?_eq_some_iff.mp hsource).1 hdistinct).mp hsame
    obtain ⟨a, ra, ha, hra, rfl⟩ | ⟨ha, hra⟩ := leadsTo?_cons hi
    · obtain ⟨b, rb, hb, hrb, heq⟩ | ⟨-, hrb⟩ := leadsTo?_cons hj
      · simp only [Prod.mk.injEq, Nat.add_right_cancel_iff] at heq
        obtain rfl : ra = rb := Prod.ext heq.1 heq.2
        obtain rfl : a = b := UInt16.toNat_inj.mp (ih hcs hra hrb)
        exact ⟨ha.trans hb.symm, _, ha⟩
      · cases hrb
    · obtain ⟨b, rb, -, -, rfl⟩ | ⟨hb, -⟩ := leadsTo?_cons hj
      · cases hra
      · exact ⟨ha.trans hb.symm, _, ha⟩

/-- What units under construction capture. -/
def capturesOf (fs : List Frame) : List (List CaptureSource) :=
  fs.map fun f => f.captures.sources.toList

theorem origin?_eq_leadsTo? (fs : List Frame) (i : Nat) : origin? fs i = leadsTo? (capturesOf fs) i := by
  induction fs generalizing i with
  | nil => rfl
  | cons f outer ih =>
    rw [origin?, capturesOf, List.map_cons, leadsTo?, Array.getElem?_toList]
    cases f.captures.sources[i]? with
    | none => rfl
    | some source =>
      cases source with
      | upvalue j => exact congrArg (Option.map _) (ih j.toNat)
      | slot n => rfl
      | global name => rfl

theorem lengths_of_longer {n : Nat}
    (h : List.Forall₂ List.IsPrefix cs cs') (hfits : ∀ c ∈ cs', c.length ≤ n) :
    ∀ c ∈ cs, c.length ≤ n := by
  induction h with
  | nil => exact hfits
  | cons hc _ ih =>
    obtain ⟨hc', hcs'⟩ := List.forall_mem_cons.mp hfits
    exact List.forall_mem_cons.mpr ⟨Nat.le_trans hc.length_le hc', ih hcs'⟩

/-- If every capture has an index of its own, this one leads to the home of a variable. -/
def LeadsHome (cs : List (List CaptureSource)) (i : UInt16) (home : Home) : Prop :=
  (∀ c ∈ cs, c.length ≤ 65536) → leadsTo? cs i.toNat = some (home.level, home.source)

/-- It still does when more is captured. -/
theorem LeadsHome.of_longer {i : UInt16} {home : Home}
    (h : LeadsHome cs i home) (hlonger : List.Forall₂ List.IsPrefix cs cs') : LeadsHome cs' i home :=
  fun hfits => leadsTo?_of_longer hlonger (h (lengths_of_longer hlonger hfits))

/-- What was added is found under the index that was given for it, unless there are more
captures than indices. -/
theorem Captures.getElem?_add_of_fits {c : Captures} {source : CaptureSource}
    (h : (c.add source).2.sources.size ≤ 65536) :
    (c.add source).2.sources[(c.add source).1.toNat]? = some source := by
  by_cases hmem : source ∈ c.sources
  · have hsame : (c.add source).2 = c := by rw [add, dif_pos hmem]
    rw [hsame] at h
    have hlt := Array.idxOf_lt_length_of_mem hmem
    rw [add, dif_pos hmem, UInt16.toNat_ofNat_of_lt' (show _ < 65536 by omega)]
    exact getElem?_idxOf hmem
  · have hmore : (c.add source).2.sources = c.sources.push source := by rw [add, dif_neg hmem]
    rw [hmore, Array.size_push] at h
    exact getElem?_add h

/-- A name that has a home is captured, whatever the captures are. -/
theorem capture?_ne_none : ∀ {outer : List Frame} {f : Frame} {home : Home},
    home? name outer = some home → capture? name f outer ≠ none
  | [], _, _, h => by cases h
  | parent :: outer, f, home, h => by
    unfold capture?
    split
    · simp
    · rename_i hlocal
      split
      · simp
      · rename_i hinner
        rw [home?, hlocal] at h
        cases hfar : home? name outer with
        | some far => exact absurd hinner (capture?_ne_none hfar)
        | none =>
          rw [hfar] at h
          obtain ⟨g, hg, -⟩ := Option.map_eq_some_iff.mp h
          rw [findGlobal?, List.findSome?_cons, hg]
          simp

/-- A name that is captured has a home, and its captures lead there. -/
theorem capture?_leads : ∀ {outer : List Frame} {f f' : Frame} {c : Capture}
    {outer' : List Frame}, capture? name f outer = some (c, f', outer') →
      ∃ home, home? name outer = some home ∧ home.isConst = c.isConst ∧ home.ty = c.ty ∧
        LeadsHome (capturesOf (f' :: outer')) c.index home
  | [], _, _, _, _, h => by cases h
  | parent :: outer, f, f', c, outer', h => by
    unfold capture? at h
    split at h
    · rename_i l hlocal
      cases h
      refine ⟨_, home?_cons_of_local hlocal, rfl, rfl, fun hfits => ?_⟩
      have hf := (List.forall_mem_cons.mp hfits).1
      rw [← origin?_eq_leadsTo?]
      exact origin?_cons_of_source (Captures.getElem?_add_of_fits hf) (by simp)
    · rename_i hlocal
      split at h
      -- the unit around has captured the name itself, so its capture is captured
      · rename_i c' parent' outer'' hinner
        cases h
        obtain ⟨home, hhome, hconst, hty, hleads⟩ := capture?_leads hinner
        refine ⟨{ home with level := home.level + 1 }, ?_, hconst, hty, fun hfits => ?_⟩
        · rw [home?, hlocal, hhome]
        · obtain ⟨hf, houter⟩ := List.forall_mem_cons.mp hfits
          rw [← origin?_eq_leadsTo?, origin?_cons_of_upvalue (Captures.getElem?_add_of_fits hf),
            origin?_eq_leadsTo?, hleads houter]
          rfl
      · rename_i hinner
        split at h
        · rename_i g hglobal
          cases h
          -- a global is only captured when no unit further out has the name
          have hfar : home? name outer = none := by
            by_contra hsome
            obtain ⟨home, hhome⟩ := Option.ne_none_iff_exists'.mp hsome
            exact capture?_ne_none hhome hinner
          have hparent : parent.globals.find? name = some g := by
            rw [findGlobal?, List.findSome?_cons] at hglobal
            split at hglobal
            · rename_i hfound
              cases hglobal
              exact hfound
            · obtain ⟨g', hg', hfound⟩ := List.exists_of_findSome?_eq_some hglobal
              rw [(home?_eq_none_iff.mp hfar g' hg').2] at hfound
              cases hfound
          refine ⟨⟨0, .global name, g.ty, g.isConst⟩, ?_, rfl, rfl, fun hfits => ?_⟩
          · rw [home?, hlocal, hfar, hparent, Option.map_some]
          · have hf := (List.forall_mem_cons.mp hfits).1
            rw [← origin?_eq_leadsTo?]
            exact origin?_cons_of_source (Captures.getElem?_add_of_fits hf) (by simp)
        · cases h

/-- A global that a name is captured from is one of a unit around. -/
theorem home?_global {n : String} : ∀ {outer : List Frame} {home : Home},
    home? name outer = some home → home.source = .global n →
      ∃ f ∈ outer, ∃ g, f.globals.find? n = some g ∧ g.isConst = home.isConst
  | [], _, h, _ => by cases h
  | parent :: outer, home, h, hsource => by
    rw [home?] at h
    split at h
    · cases h
      cases hsource
    · split at h
      · rename_i far hfar
        cases h
        obtain ⟨f, hf, g, hg, hconst⟩ := home?_global hfar hsource
        exact ⟨f, .tail _ hf, g, hg, hconst⟩
      · obtain ⟨g, hg, rfl⟩ := Option.map_eq_some_iff.mp h
        cases hsource
        exact ⟨parent, .head _, g, hg, rfl⟩

theorem home?_suspended {outer outer' : List Frame}
    (h : List.Forall₂ Frame.Suspended outer outer') : home? name outer' = home? name outer := by
  induction h with
  | nil => rfl
  | @cons f g _ _ hfg _ ih =>
    have hlocal : g.findLocal? name = f.findLocal? name := by
      rw [hfg.rest]
      rfl
    have hglobals : g.globals = f.globals := by rw [hfg.rest]
    rw [home?, home?, ih, hlocal, hglobals]

/-! ## Moves -/

/-- What is known about a compilation as a whole. -/
structure Setting where
  /-- Nothing is reported. -/
  clean : Prop
  /-- The globals that may be assigned to. -/
  assignable : String → Prop
  /-- The names by which macros may be dropped. -/
  droppable : String → Prop

/-- The global is constant, or one that may be assigned to. -/
def Setting.Admits (K : Setting) (e : String × GlobalBinding) : Prop :=
  e.2.isConst = false → K.assignable e.1

/-- Put a finished unit into the pool and close over it. -/
def Frame.closing (f : Frame) (u : CodeUnit) (defaults : UInt8) (line : UInt64) : Frame :=
  (f.withChunk { f.chunk with constants := f.chunk.constants.push (.function u) }).emit
    (.closure (UInt16.ofNat f.chunk.constants.size) defaults) line

/-- One change to the units under construction, the current one first. -/
inductive Move (K : Setting) : List Frame → List Frame → Prop where
  /-- Names, types, scopes and loops: nothing that ends up in a unit. -/
  | quiet {fs gs : List Frame} (h : List.Forall₂ Frame.Alike fs gs) : Move K fs gs
  /-- An instruction that needs no other reason than that its operand denotes something. -/
  | emit {f : Frame} {outer : List Frame} {i : Instr} {line : UInt64} (hi : i.isPlain = true)
      (hoperand : ∀ o, i.operand? = some o → f.Denotes o) :
      Move K (f :: outer) (f.emit i line :: outer)
  /-- One about a captured variable: it is laid down for a name, and its index leads to where
  the name lives. -/
  | access {f : Frame} {outer : List Frame} {kind : Access} {i : UInt16} {line : UInt64}
      {name : String} {home : Home} (hhome : home? name outer = some home)
      (hlt : i.toNat < f.captures.sources.size)
      (hleads : LeadsHome (capturesOf (f :: outer)) i home)
      (hassign : kind = .assign → ∀ n, home.source = .global n → K.assignable n) :
      Move K (f :: outer) (f.emit (kind.instr i) line :: outer)
  /-- One that assigns to a global. -/
  | assign {f : Frame} {outer : List Frame} {i : UInt16} {line : UInt64} {name : String}
      (hname : f.chunk.constants.toList[i.toNat]? = some (.str name)) (hassign : K.assignable name) :
      Move K (f :: outer) (f.emit (.setGlobal i) line :: outer)
  | aim {f : Frame} {outer : List Frame} {offset : Nat} :
      Move K (f :: outer) (f.withChunk (f.chunk.aimJump offset) :: outer)
  /-- A constant that is no unit. -/
  | pool {f : Frame} {outer : List Frame} {k : Constant} (hk : isUnit k = false) :
      Move K (f :: outer) (f.withChunk (f.chunk.addConstant k).2 :: outer)
  | capture {name : String} {c : Capture} {f f' : Frame} {outer outer' : List Frame}
      (h : capture? name f outer = some (c, f', outer')) : Move K (f :: outer) (f' :: outer')
  /-- A unit is begun. -/
  | start {f g : Frame} {outer : List Frame} (hf : f.Blank) :
      Move K (g :: outer) (f :: g :: outer)
  /-- A unit is finished and closed over in the one around it. -/
  | close {f g : Frame} {outer : List Frame} {line : UInt64}
      (hroom : g.chunk.constants.size < Chunk.poolLimit) :
      Move K (f :: g :: outer) (g.closing f.toUnit f.header.defaultCount line :: outer)

/-- Moves one after the other. -/
abbrev Moved (K : Setting) : List Frame → List Frame → Prop := Relation.ReflTransGen (Move K)

/-! ## What holds all along -/

/-- All types that a frame holds are well formed. -/
structure Frame.WellTyped (f : Frame) : Prop where
  locals : ∀ l ∈ f.locals, l.ty.WellFormed
  globals : ∀ e ∈ f.globals.entries, e.2.ty.WellFormed
  types : ∀ e ∈ f.types.entries, e.2.WellFormed
  returnType : ∀ ty, f.returnType = some ty → ty.WellFormed

/-- All types that are stored anywhere are well formed. -/
structure State.WellTyped (s : State) : Prop where
  frames : ∀ f ∈ s.chain, f.WellTyped
  decls : s.decls.WellFormed

/-- Besides, only such globals are not constant as may be assigned to, no local or macro belongs
to a block that has been closed, and if nothing is reported every constant of the pool has an
index. -/
structure Frame.Proper (K : Setting) (f : Frame) : Prop extends f.WellTyped where
  admitted : ∀ e ∈ f.globals.entries, K.Admits e
  settled : ∀ l ∈ f.locals, l.depth ≤ f.depth
  macros : ∀ m ∈ f.inlines, m.depth ≤ f.depth
  pool : K.clean → f.chunk.constants.size ≤ Chunk.poolLimit

/-- All units under construction are proper, and so is what has been declared. -/
structure State.Proper (K : Setting) (s : State) : Prop where
  frames : ∀ f ∈ s.chain, f.Proper K
  decls : s.decls.WellFormed
  /-- A node that is refused is reported. -/
  entered : K.clean → s.refused = false

variable {K : Setting} {s s' s'' : State}

theorem State.Proper.frame (h : s.Proper K) : s.frame.Proper K := h.frames _ (.head _)

theorem State.Proper.outer (h : s.Proper K) : ∀ f ∈ s.outer, f.Proper K :=
  (List.forall_mem_cons.mp h.frames).2

theorem State.Proper.wellTyped (h : s.Proper K) : s.WellTyped :=
  ⟨fun f hf => (h.frames f hf).toWellTyped, h.decls⟩

/-- Another frame in the same surroundings. -/
theorem State.Proper.withFrame (h : s.Proper K) (hf : f.Proper K) : (s.withFrame f).Proper K :=
  ⟨List.forall_mem_cons.mpr ⟨hf, h.outer⟩, h.decls, h.entered⟩

/-- Every type that has a name is well formed. -/
theorem State.WellTyped.knows (h : s.WellTyped) : TypeExpr.KnowsWellFormed s.findType? := by
  intro name ty hty
  obtain ⟨f, hf, hfound⟩ := List.exists_of_findSome?_eq_some hty
  unfold Frame.findType? at hfound
  split at hfound
  · cases hfound
    trivial
  · split at hfound
    · rename_i hnamed
      cases hfound
      obtain ⟨e, he, rfl⟩ := Option.map_eq_some_iff.mp hnamed
      exact (h.frames f hf).types e (List.mem_of_find?_eq_some he)
    · split at hfound
      · cases hfound
        trivial
      · cases hfound

theorem Frame.WellTyped.findLocal (h : f.WellTyped) {l : Local}
    (hfind : f.findLocal? name = some l) : l.ty.WellFormed := by
  unfold Frame.findLocal? at hfind
  split at hfind
  · cases hfind
  · exact h.locals l (List.mem_of_find?_eq_some hfind)

theorem Frame.WellTyped.findGlobal (h : f.WellTyped) {g : GlobalBinding}
    (hfind : f.globals.find? name = some g) : g.ty.WellFormed :=
  h.globals _ (Table.mem_of_find? hfind)

theorem wellFormed_home : ∀ {outer : List Frame} {home : Home},
    (∀ f ∈ outer, f.WellTyped) → home? name outer = some home → home.ty.WellFormed
  | [], _, _, h => by cases h
  | parent :: outer, home, hframes, h => by
    obtain ⟨hparent, houter⟩ := List.forall_mem_cons.mp hframes
    rw [home?] at h
    split at h
    · rename_i hlocal
      cases h
      exact hparent.findLocal hlocal
    · split at h
      · rename_i hfar
        cases h
        have hty := wellFormed_home houter hfar
        exact hty
      · obtain ⟨g, hg, rfl⟩ := Option.map_eq_some_iff.mp h
        exact hparent.findGlobal hg

/-- The second state comes after the first one: it is reached by moves if nothing is
reported, and all that is stored in it is in order. -/
structure Progress (K : Setting) (s s' : State) : Prop where
  moves : K.clean → Moved K s.chain s'.chain
  proper : s'.Proper K

theorem Progress.refl (h : s.Proper K) : Progress K s s := ⟨fun _ => .refl, h⟩

theorem Progress.trans (h : Progress K s s') (h' : Progress K s' s'') : Progress K s s'' :=
  ⟨fun hclean => (h.moves hclean).trans (h'.moves hclean), h'.proper⟩

/-! ## Dialogues -/

variable {α β γ : Type} {Q : α → State → Prop} {R : β → State → Prop} {node : NodeCompiler}

/-- What was there is kept, and macros are dropped only by names by which they may be. -/
structure State.Held (K : Setting) (s s' : State) : Prop extends s.Kept s' where
  macros : s.Macros K.droppable s'

theorem State.Held.refl (s : State) : s.Held K s := ⟨.refl s, .refl s⟩

/-- The units are the same. -/
theorem State.Held.same (hchain : s'.chain = s.chain) (hnesting : s'.nesting = s.nesting)
    (htype : s'.typeCheck = s.typeCheck) : s.Held K s' := by
  obtain ⟨hframe, houter⟩ := List.cons.inj hchain
  refine ⟨⟨hframe ▸ .refl _, houter ▸ allSuspended_refl _, hnesting, htype⟩, .same ?_ houter⟩
  exact .same (congrArg Frame.depth hframe) (congrArg Frame.inlines hframe)

theorem State.Held.trans (h : s.Held K s') (h' : s'.Held K s'') : s.Held K s'' :=
  ⟨h.toKept.trans h'.toKept, h.macros.trans h'.macros⟩

/-- What a node compiler answers is in order. -/
structure Answered (K : Setting) (s : State) (x : Ty × State) : Prop where
  ty : x.1.WellFormed
  kept : s.Held K x.2
  progress : Progress K s x.2

/-- From `s` on, the dialogue makes progress as long as it is answered as it should be, and
ends with `Q`. -/
def Dialogue.Advances (K : Setting) (Q : α → State → Prop) : State → Dialogue α → Prop
  | s, .done r =>
    (K.clean → r.reports = []) → Progress K s r.answer.2 ∧ Q r.answer.1 r.answer.2
  | s, .asks said _ _ s' next =>
    (K.clean → said = []) → Progress K s s' ∧
      ∀ x, Answered K s' x → (next x).Advances K Q x.2

namespace Dialogue.Advances

theorem after {said : List Diagnostic} {d : Dialogue α}
    (h : (K.clean → said = []) → Progress K s s' ∧ d.Advances K Q s') :
    (d.after said).Advances K Q s := by
  cases d with
  | done r =>
    intro hclean
    have hsaid := fun hc => List.append_eq_nil_iff.mp (hclean hc)
    obtain ⟨hprogress, hdone⟩ := h fun hc => (hsaid hc).1
    obtain ⟨hrest, hq⟩ := hdone fun hc => (hsaid hc).2
    exact ⟨hprogress.trans hrest, hq⟩
  | asks said' e position s1 next =>
    intro hclean
    have hsaid := fun hc => List.append_eq_nil_iff.mp (hclean hc)
    obtain ⟨hprogress, hasks⟩ := h fun hc => (hsaid hc).1
    obtain ⟨hrest, hnext⟩ := hasks fun hc => (hsaid hc).2
    exact ⟨hprogress.trans hrest, hnext⟩

theorem bind {g : α → State → Dialogue β} : ∀ {d : Dialogue α} {s : State}, d.Advances K Q s →
    (∀ a s', s'.Proper K → Q a s' → (g a s').Advances K R s') → (d.bind g).Advances K R s
  | .done r, s, h, hg => by
    have hrest : (K.clean → r.reports = []) → Progress K s r.answer.2 ∧
        (g r.answer.1 r.answer.2).Advances K R r.answer.2 := by
      intro hclean
      obtain ⟨hprogress, hq⟩ := h hclean
      exact ⟨hprogress, hg _ _ hprogress.proper hq⟩
    exact after hrest
  | .asks said e position s' next, s, h, hg => by
    intro hclean
    obtain ⟨hprogress, hnext⟩ := h hclean
    exact ⟨hprogress, fun x hx => bind (hnext x hx) hg⟩

theorem imp {Q' : α → State → Prop} (himp : ∀ a s', Q a s' → Q' a s') :
    ∀ {d : Dialogue α} {s : State}, d.Advances K Q s → d.Advances K Q' s
  | .done _, _, h => fun hclean => ⟨(h hclean).1, himp _ _ (h hclean).2⟩
  | .asks _ _ _ _ _, _, h =>
    fun hclean => ⟨(h hclean).1, fun x hx => imp himp ((h hclean).2 x hx)⟩

/-- Answered by a node compiler, the dialogue comes to its end. -/
theorem run : ∀ {d : Dialogue α} {s : State}, d.Advances K Q s →
    (∀ e position s', d.Reaches node e position s' → s'.Proper K →
      (K.clean → (node e position s').reports = []) → Answered K s' (node e position s').answer) →
    (K.clean → (d.run node).reports = []) →
      Progress K s (d.run node).answer.2 ∧ Q (d.run node).answer.1 (d.run node).answer.2
  | .done r, s, h, _, hclean => h hclean
  | .asks said e position s' next, s, h, hnode, hclean => by
    have hparts := fun hc => List.append_eq_nil_iff.mp (hclean hc)
    have hrest := fun hc => List.append_eq_nil_iff.mp (hparts hc).2
    obtain ⟨hprogress, hnext⟩ := h fun hc => (hparts hc).1
    have hanswer := hnode e position s' .here hprogress.proper fun hc => (hrest hc).1
    have hrun := run (hnext _ hanswer) (fun e' position' s'' hr => hnode e' position' s'' (.later hr))
      fun hc => (hrest hc).2
    exact ⟨hprogress.trans (hanswer.progress.trans hrun.1), hrun.2⟩

/-- A node that is asked for on the way is reached by progress, and so is the end from it. -/
theorem reaches {e : Expr} {s1 : State} : ∀ {d : Dialogue α} {s : State}, d.Advances K Q s →
    (∀ e position s', d.Reaches node e position s' → s'.Proper K →
      (K.clean → (node e position s').reports = []) → Answered K s' (node e position s').answer) →
    (K.clean → (d.run node).reports = []) → d.Reaches node e position s1 →
      Progress K s s1 ∧ Answered K s1 (node e position s1).answer ∧
        Progress K (node e position s1).answer.2 (d.run node).answer.2
  | .done r, s, _, _, _, hr => by cases hr
  | .asks said e' position' s' next, s, h, hnode, hclean, hr => by
    have hparts := fun hc => List.append_eq_nil_iff.mp (hclean hc)
    have hrest := fun hc => List.append_eq_nil_iff.mp (hparts hc).2
    obtain ⟨hprogress, hnext⟩ := h fun hc => (hparts hc).1
    have hanswer := hnode e' position' s' .here hprogress.proper fun hc => (hrest hc).1
    have hlater := fun e'' position'' s'' hr => hnode e'' position'' s'' (.later hr)
    cases hr with
    | here =>
      have hrun := run (hnext _ hanswer) hlater fun hc => (hrest hc).2
      exact ⟨hprogress, hanswer, hrun.1⟩
    | later hr =>
      obtain ⟨hto, hasked, hfrom⟩ :=
        reaches (hnext _ hanswer) hlater (fun hc => (hrest hc).2) hr
      exact ⟨hprogress.trans (hanswer.progress.trans hto), hasked, hfrom⟩

end Dialogue.Advances


/-! ## Pre- and postconditions -/

/-- In every state the part holds a dialogue, and whether types are checked makes no difference
to it if it makes none to the nodes inside. Started where `P` holds, it makes progress and ends
as `Q` says, which compares the two states. -/
structure Triple (K : Setting) (P : State → Prop) (act : NodeCompiler → Build α)
    (Q : State → α → State → Prop) : Prop where
  dialogue (s : State) : ∃ d : Dialogue α, d.Of act s ∧ (P s → s.Proper K → d.Advances K (Q s) s)
  blind (node : NodeCompiler) (h : ∀ e position, Blind (node e position)) : Blind (act node)

namespace Triple

variable {P : State → Prop} {Q : State → α → State → Prop} {R : State → β → State → Prop}
  {act : NodeCompiler → Build α}

theorem imp {P' : State → Prop} {Q' : State → α → State → Prop} (h : Triple K P act Q)
    (hpre : ∀ s, P' s → P s) (hpost : ∀ s a s', P' s → Q s a s' → Q' s a s') :
    Triple K P' act Q' where
  dialogue s := by
    obtain ⟨d, hof, hd⟩ := h.dialogue s
    exact ⟨d, hof, fun hp hs => (hd (hpre s hp) hs).imp fun a s' hq => hpost s a s' hp hq⟩
  blind := h.blind

theorem bind {f : α → NodeCompiler → Build β} (h : Triple K P act Q)
    (hf : ∀ s a, Triple K (fun s' => P s ∧ Q s a s') (f a) fun _ => R s) :
    Triple K P (fun node => act node >>= fun a => f a node) R where
  dialogue s := by
    obtain ⟨d, hof, hd⟩ := h.dialogue s
    choose g hg using fun a => (hf s a).dialogue
    refine ⟨d.bind g, ⟨hof.steady.bind fun a s' => (hg a s').1.steady, fun node => ?_⟩,
      fun hp hs => (hd hp hs).bind fun a s' hs' hq => (hg a s').2 ⟨hp, hq⟩ hs'⟩
    have hbind : (act node >>= fun a => f a node) s =
        ⟨(f (act node s).answer.1 node (act node s).answer.2).answer,
          (act node s).reports ++ (f (act node s).answer.1 node (act node s).answer.2).reports⟩ := rfl
    rw [hbind, Dialogue.run_bind, ← hof.run_eq node, (hg _ _).1.run_eq node]
  blind node hnode := (h.blind node hnode).bind fun a => (hf default a).blind node hnode

/-- A step that asks for no nodes. -/
theorem plain {act : Build α} [hact : Steady act] (h : ∀ s, P s → s.Proper K →
    (K.clean → (act s).reports = []) →
      Progress K s (act s).answer.2 ∧ Q s (act s).answer.1 (act s).answer.2) :
    Triple K P (fun _ => act) Q where
  dialogue s := ⟨.done (act s), ⟨.done (hact.marks s) (hact.silent s), fun _ => rfl⟩, h s⟩
  blind _ _ := hact.toBlind

/-- A look at the state, but not at whether types are checked. -/
theorem look {f : State → NodeCompiler → Build α} (hsame : ∀ s node, f s.unchecked node = f s node)
    (hf : ∀ s, Triple K (fun s' => s' = s ∧ P s' ∧ s'.Proper K) (f s) Q) :
    Triple K P (fun node => get >>= fun s => f s node) Q where
  dialogue s := by
    obtain ⟨d, hof, hd⟩ := (hf s).dialogue s
    exact ⟨d, ⟨hof.steady, hof.run_eq⟩, fun hp hs => hd ⟨rfl, hp, hs⟩ hs⟩
  blind node hnode := .ofGet (fun s => (hf s).blind node hnode) fun s => hsame s node

end Triple

/-! ## What a part finds out -/

/-- Something about the state that a part has come to, compared with the one that it was started
in. It stays true while more is added to units. -/
structure Known where
  Holds : State → State → Prop
  mono {s0 s s' : State} (h : Holds s0 s) (hgrown : s.Grown s') : Holds s0 s'

namespace Known

/-- Both are known. -/
def and (known known' : Known) : Known where
  Holds s0 s := known.Holds s0 s ∧ known'.Holds s0 s
  mono h hgrown := ⟨known.mono h.1 hgrown, known'.mono h.2 hgrown⟩

/-- Something that is not about states. -/
def fact (p : Prop) : Known := ⟨fun _ _ => p, fun h _ => h⟩

/-- Something about the state at the start. -/
def start (P : State → Prop) : Known := ⟨fun s0 _ => P s0, fun h _ => h⟩

/-- The offsets stand behind the code that was there at the start. -/
def jumps (offsets : List Nat) : Known :=
  ⟨fun s0 _ => ∀ o ∈ offsets, s0.frame.chunk.size ≤ o, fun h _ => h⟩

/-- The constant stands at an index of the pool. -/
def pooled (K : Setting) (i : UInt16) (k : Constant) : Known where
  Holds _ s := K.clean → s.frame.chunk.constants.toList[i.toNat]? = some k
  mono h hgrown hc := getElem?_of_longer hgrown.pool (h hc)

/-- The operand, if there is one, denotes something. -/
def denotes (K : Setting) (o : Option Operand) : Known where
  Holds _ s := K.clean → ∀ x, o = some x → s.frame.Denotes x
  mono h hgrown hc x hx := (h hc x hx).mono hgrown.pool hgrown.captures.length_le

/-- The same where something has been opened, and the comparison starts afresh. -/
def inside (known : Known) : Known where
  Holds _ s := ∃ s0, known.Holds s0 s
  mono h hgrown := h.imp fun _ h => known.mono h hgrown

/-- The same in another unit. -/
def apart (known : Known) : Known := fact (∃ s0 s, known.Holds s0 s)

end Known

variable {known : Known}

/-- Where `known` is true, the part makes progress and keeps what was there at the start; and
something is found out along with its answer. -/
def Yields (known : Known) (K : Setting) (found : α → Known) (act : NodeCompiler → Build α) : Prop :=
  ∀ s0 : State, Triple K (fun s => known.Holds s0 s ∧ s0.Held K s) act fun s a s' =>
    (found a).Holds s0 s' ∧ s0.Held K s' ∧ s.Grown s'

namespace Yields

variable {found : α → Known} {found' : β → Known} {act : NodeCompiler → Build α}

theorem of (h : Yields known' K found act)
    (himp : ∀ s0 s, known.Holds s0 s → known'.Holds s0 s) : Yields known K found act :=
  fun s0 => (h s0).imp (fun s hs => ⟨himp s0 s hs.1, hs.2⟩) fun _ _ _ _ hq => hq

theorem imp {found' : α → Known} (h : Yields known K found act)
    (himp : ∀ a s0 s, (found a).Holds s0 s → (found' a).Holds s0 s) : Yields known K found' act :=
  fun s0 => (h s0).imp (fun _ hs => hs) fun _ a s' _ hq => ⟨himp a s0 s' hq.1, hq.2⟩

theorem bind {f : α → NodeCompiler → Build β} (h : Yields known K found act)
    (hf : ∀ a, Yields (known.and (found a)) K found' (f a)) :
    Yields known K found' fun node => act node >>= fun a => f a node := by
  refine fun s0 => (h s0).bind fun s a => (hf a s0).imp (fun s' hs' => ?_) fun s' b s'' hs' hq => ?_
  · obtain ⟨⟨hknown, -⟩, hfound, hkept, hgrown⟩ := hs'
    exact ⟨⟨known.mono hknown hgrown, hfound⟩, hkept⟩
  · exact ⟨hq.1, hq.2.1, hs'.2.2.2.trans hq.2.2⟩

/-- Compared with the state that it starts in itself. -/
theorem fresh {P : State → Prop} (h : Yields known K found act) (hP : ∀ s, P s → known.Holds s s) :
    Triple K P act fun s a s' => (found a).Holds s s' ∧ s.Held K s' where
  dialogue s := by
    obtain ⟨d, hof, hd⟩ := (h s).dialogue s
    exact ⟨d, hof, fun hp hs => (hd ⟨hP s hp, .refl s⟩ hs).imp fun _ _ hq => ⟨hq.1, hq.2.1⟩⟩
  blind := (h default).blind

/-- A step that asks for no nodes, and may change what was added since the start. -/
theorem plain {act : Build α} [Steady act] (h : ∀ s0 s, known.Holds s0 s → s0.Held K s →
    s.Proper K → (K.clean → (act s).reports = []) → Progress K s (act s).answer.2 ∧
      (found (act s).answer.1).Holds s0 (act s).answer.2 ∧ s0.Held K (act s).answer.2 ∧
        s.Grown (act s).answer.2) : Yields known K found fun _ => act :=
  fun s0 => .plain fun s hp => h s0 s hp.1 hp.2

/-- One that keeps what is there. -/
theorem step {act : Build α} [Steady act] (h : ∀ s0 s, known.Holds s0 s → s0.Held K s →
    s.Proper K → (K.clean → (act s).reports = []) → Progress K s (act s).answer.2 ∧
      (found (act s).answer.1).Holds s0 (act s).answer.2 ∧ s.Held K (act s).answer.2) :
    Yields known K found fun _ => act :=
  .plain fun s0 s hknown hkept hs hclean => by
    obtain ⟨hprogress, hfound, hstep⟩ := h s0 s hknown hkept hs hclean
    exact ⟨hprogress, hfound, hkept.trans hstep, hstep.grown⟩

theorem look {f : State → NodeCompiler → Build α} (hsame : ∀ s node, f s.unchecked node = f s node)
    (hf : ∀ s, Yields (known.and (.start fun s0 => s.Proper K ∧ s0.Kept s)) K found (f s)) :
    Yields known K found fun node => get >>= fun s => f s node := by
  refine fun s0 => .look hsame fun s => (hf s s0).imp (fun s' hs' => ?_) fun _ _ _ _ hq => hq
  obtain ⟨rfl, ⟨hknown, hkept⟩, hs⟩ := hs'
  exact ⟨⟨hknown, hs, hkept.toKept⟩, hkept⟩

theorem pure {a : α} (h : ∀ s0 s, known.Holds s0 s → (found a).Holds s0 s) :
    Yields known K found fun _ => pure a :=
  .step fun s0 s hknown _ hs _ => ⟨.refl hs, h s0 s hknown, .refl s⟩

end Yields

/-! ## Answers that hold types -/

/-- What it means that all types in a value are well formed. -/
class Typed (α : Type) where
  Sound : α → Prop

open Typed (Sound)

instance (priority := low) untyped : Typed α := ⟨fun _ => True⟩

instance : Typed Ty := ⟨Ty.WellFormed⟩

instance : Typed Signature := ⟨Signature.WellFormed⟩

instance [Typed α] : Typed (Option α) := ⟨fun o => ∀ a, o = some a → Sound a⟩

instance [Typed α] : Typed (List α) := ⟨fun xs => ∀ a ∈ xs, Sound a⟩

/-- From what is known this follows. -/
class Entails (known : Known) (p : Prop) : Prop where
  of {s0 s : State} (h : known.Holds s0 s) : p

section

variable {known' : Known} {p : Prop}

instance : Entails (.fact p) p := ⟨id⟩

instance [h : Entails known' p] : Entails (known.and known') p := ⟨fun hknown => h.of hknown.2⟩

instance (priority := low) [h : Entails known p] : Entails (known.and known') p :=
  ⟨fun hknown => h.of hknown.1⟩

instance [h : Entails known p] : Entails known.inside p :=
  ⟨fun hknown => hknown.elim fun _ hknown => h.of hknown⟩

instance [h : Entails known p] : Entails known.apart p :=
  ⟨fun hknown => hknown.elim fun _ hknown => hknown.elim fun _ hknown => h.of hknown⟩

end

/-- What is known says this too. -/
class Implies (known known' : Known) : Prop where
  of {s0 s : State} (h : known.Holds s0 s) : known'.Holds s0 s

section

variable {known' wanted : Known}

instance : Implies known known := ⟨id⟩

instance [h : Implies known' wanted] : Implies (known.and known') wanted :=
  ⟨fun hknown => h.of hknown.2⟩

instance (priority := low) [h : Implies known wanted] : Implies (known.and known') wanted :=
  ⟨fun hknown => h.of hknown.1⟩

end

instance (priority := high) {α : Type} {a : α} : Entails known (Sound a) := ⟨fun _ => trivial⟩

instance [Typed α] : Entails known (Sound (none : Option α)) := ⟨fun _ _ h => by cases h⟩

instance [Typed α] {a : α} [h : Entails known (Sound a)] : Entails known (Sound (some a)) where
  of hknown := by
    rintro _ ⟨⟩
    exact h.of hknown

instance [Typed α] {a : α} : Entails (.fact (Sound (some a))) (Sound a) := ⟨fun h => h a rfl⟩

/-- The types in the answer of the part are well formed. -/
class Advances (known : Known) (K : Setting) [Typed α] (act : NodeCompiler → Build α) : Prop where
  yields : Yields known K (fun a => .fact (Sound a)) act

/-- Something particular is found out along with the answer. -/
class Learns (known : Known) (K : Setting) (act : NodeCompiler → Build α)
    (found : outParam (α → Known)) : Prop where
  yields : Yields known K found act

section

variable [Typed α] [Typed β] {act : NodeCompiler → Build α} {found : γ → Known}

theorem Advances.of (h : Advances known' K act)
    (himp : ∀ s0 s, known.Holds s0 s → known'.Holds s0 s) : Advances known K act :=
  ⟨h.yields.of himp⟩

theorem Advances.bind {f : α → NodeCompiler → Build β} (h : Advances known K act)
    (hf : ∀ a, Advances (known.and (.fact (Sound a))) K (f a)) :
    Advances known K fun node => act node >>= fun a => f a node :=
  ⟨h.yields.bind fun a => (hf a).yields⟩

instance (priority := low) {f : α → NodeCompiler → Build β} [h : Advances known K act]
    [hf : ∀ a, Advances (known.and (.fact (Sound a))) K (f a)] :
    Advances known K fun node => act node >>= fun a => f a node := h.bind hf

theorem Advances.next {act : NodeCompiler → Build γ} {f : γ → NodeCompiler → Build β}
    [h : Learns known K act found] (hf : ∀ a, Advances (known.and (found a)) K (f a)) :
    Advances known K fun node => act node >>= fun a => f a node :=
  ⟨h.yields.bind fun a => (hf a).yields⟩

instance {act : NodeCompiler → Build γ} {f : γ → NodeCompiler → Build β}
    [Learns known K act found] [hf : ∀ a, Advances (known.and (found a)) K (f a)] :
    Advances known K fun node => act node >>= fun a => f a node := .next hf

theorem Advances.look {f : State → NodeCompiler → Build α}
    (hsame : ∀ s node, f s.unchecked node = f s node)
    (hf : ∀ s, Advances (known.and (.start fun s0 => s.Proper K ∧ s0.Kept s)) K (f s)) :
    Advances known K fun node => get >>= fun s => f s node :=
  ⟨.look hsame fun s => (hf s).yields⟩

instance {f : State → NodeCompiler → Build α}
    [hsame : ∀ s node, Same (f s.unchecked node) (f s node)]
    [hf : ∀ s, Advances (known.and (.start fun s0 => s.Proper K ∧ s0.Kept s)) K (f s)] :
    Advances known K fun node => get >>= fun s => f s node :=
  .look (fun s node => (hsame s node).eq) hf

theorem advances_pure {a : α} (h : ∀ s0 s, known.Holds s0 s → Sound a) :
    Advances known K fun _ => pure a := ⟨.pure h⟩

instance {a : α} [h : Entails known (Sound a)] : Advances known K fun _ => pure a :=
  advances_pure fun _ _ => h.of

instance {g : α → β} [Advances known K act]
    [∀ a, Entails (known.and (.fact (Sound a))) (Sound (g a))] :
    Advances known K fun node => g <$> act node := by
  simp only [map_eq_pure_bind]
  infer_instance

instance {c : Prop} [Decidable c] {act' : NodeCompiler → Build α} [Advances known K act]
    [Advances known K act'] : Advances known K fun node => if c then act node else act' node := by
  split <;> infer_instance

end

/-- A node is asked for. -/
instance {e : Expr} : Advances known K fun node => node e position where
  yields s0 := by
    refine ⟨fun s => ?_, fun node hnode => hnode e position⟩
    refine ⟨.asks [] e position s fun x => .done ⟨x, []⟩, ⟨.asks rfl rfl fun x => .done rfl rfl,
      fun node => ?_⟩, fun hp hs _ => ⟨.refl hs, fun x hx _ => ?_⟩⟩
    · simp only [Dialogue.run, List.append_nil, List.nil_append]
    · exact ⟨.refl hx.progress.proper, hx.ty, hp.2.trans hx.kept, hx.kept.grown⟩

/-- One answer for each item. -/
theorem yields_mapM [Typed α] {f : γ → NodeCompiler → Build α} {items : List γ}
    (hf : ∀ a, Advances known K (f a)) :
    Yields known K (fun as => .fact (Sound as ∧ as.length = items.length)) fun node =>
      items.mapM fun a => f a node := by
  induction items with
  | nil =>
    simp only [List.mapM_nil]
    exact .pure fun _ _ _ => ⟨fun _ ha => absurd ha List.not_mem_nil, rfl⟩
  | cons a items ih =>
    simp only [List.mapM_cons]
    refine (hf a).yields.bind fun b => (ih.of fun _ _ => And.left).bind fun bs => .pure fun _ _ h => ?_
    exact ⟨List.forall_mem_cons.mpr ⟨h.1.2, h.2.1⟩, congrArg (· + 1) h.2.2⟩

namespace Advances

theorem forM {f : γ → NodeCompiler → Build Unit} {items : List γ}
    (hf : ∀ a, Advances (known.and (.fact (a ∈ items))) K (f a)) :
    Advances known K fun node => items.forM fun a => f a node := by
  induction items with
  | nil => exact inferInstanceAs (Advances known K fun _ => pure ())
  | cons a items ih =>
    have hfirst : Advances known K (f a) := (hf a).of fun _ _ h => ⟨h, .head _⟩
    have hrest := ih fun b => (hf b).of fun _ _ h => ⟨h.1, .tail _ h.2⟩
    exact hfirst.bind fun _ => hrest.of fun _ _ => And.left

theorem mapM [Typed α] {f : γ → NodeCompiler → Build α} {items : List γ}
    (hf : ∀ a, Advances known K (f a)) :
    Advances known K fun node => items.mapM fun a => f a node :=
  ⟨(yields_mapM hf).imp fun _ _ _ h => h.1⟩

theorem filterMapM [Typed α] {f : γ → NodeCompiler → Build (Option α)} {items : List γ}
    (hf : ∀ a, Advances known K (f a)) :
    Advances known K fun node => items.filterMapM fun a => f a node := by
  induction items with
  | nil =>
    simp only [List.filterMapM_nil]
    exact advances_pure fun _ _ _ _ ha => absurd ha List.not_mem_nil
  | cons a items ih =>
    simp only [List.filterMapM_cons]
    refine (hf a).bind fun b => ?_
    cases b with
    | none => exact ih.of fun _ _ => And.left
    | some b =>
      refine (ih.of fun _ _ => And.left).bind fun bs => advances_pure fun _ _ h => ?_
      exact List.forall_mem_cons.mpr ⟨h.1.2 b rfl, h.2⟩

end Advances

/-- What is found out about what is passed along stays true. -/
theorem Yields.foldlM {found : β → Known} {f : β → γ → NodeCompiler → Build β} {items : List γ} {b : β}
    (hb : ∀ s0 s, known.Holds s0 s → (found b).Holds s0 s)
    (hf : ∀ b a, a ∈ items → Yields (known.and (found b)) K found (f b a)) :
    Yields known K found fun node => items.foldlM (fun b a => f b a node) b := by
  have hall : ∀ b, Yields (known.and (found b)) K found fun node =>
      items.foldlM (fun b a => f b a node) b := by
    induction items with
    | nil => exact fun b => .pure fun _ _ => And.right
    | cons a items ih =>
      intro b
      simp only [List.foldlM_cons]
      have hrest := ih fun b a ha => hf b a (.tail _ ha)
      exact (hf b a (.head _)).bind fun b' => (hrest b').of fun _ _ h => ⟨h.1.1, h.2⟩
  exact (hall b).of fun s0 s h => ⟨h, hb s0 s h⟩

instance {f : γ → NodeCompiler → Build Unit} {items : List γ} [hf : ∀ a, Advances known K (f a)] :
    Advances known K fun node => items.forM fun a => f a node :=
  .forM fun a => (hf a).of fun _ _ => And.left

instance [Typed α] {f : γ → NodeCompiler → Build α} {items : List γ}
    [hf : ∀ a, Advances known K (f a)] :
    Advances known K fun node => items.mapM fun a => f a node := .mapM hf

end Codegen

end Strand
