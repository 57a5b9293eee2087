import Mathlib.Data.List.Forall2
import Strand.Proofs.Scheme
import Strand.Proofs.Steps

/-!
# Laying down code

`Ran p s x pending s'` is what is shown of every stretch of code generation: between
`s` and `s'` code was laid down that the scheme `x` describes. It was appended, and
nothing that stood there before was touched; the jumps of `break` and `continue` were
noted with the innermost loop; and of the jumps laid down, exactly those in `pending`
have not been aimed.

Everything that is not code is kept apart. Steps that resolve names, work out types or
enter members are `Quiet`: they leave the code and the scene alone, and so does
everything that happens to the frames around the current one.
-/

namespace Strand

/-- Classes are only added, and those that are there keep their constructors. -/
structure Declarations.Keeps (d d' : Declarations) : Prop where
  size : d.classes.size ≤ d'.classes.size
  constructor : ∀ id < d.classes.size, (d'.membersAt id).constructor = (d.membersAt id).constructor

namespace Declarations.Keeps

theorem refl (d : Declarations) : d.Keeps d := ⟨Nat.le_refl _, fun _ _ => rfl⟩

theorem trans {a b c : Declarations} (h : a.Keeps b) (h' : b.Keeps c) : a.Keeps c :=
  ⟨Nat.le_trans h.size h'.size, fun id hid =>
    (h'.constructor id (Nat.lt_of_lt_of_le hid h.size)).trans (h.constructor id hid)⟩

end Declarations.Keeps

namespace Codegen

/-! ## Frames that differ in nothing that code depends on -/

variable {s s' : State} {f g : Frame} {p : Program} {fs gs : List Frame}

/-- The same code, scene and loops; macros may have been forgotten. -/
structure Frame.Like (f g : Frame) : Prop where
  chunk : g.chunk = f.chunk
  scene : g.scene = f.scene
  loops : g.loops = f.loops
  header : g.header = f.header
  owner : g.owner = f.owner
  returnType : g.returnType = f.returnType
  inlines : ∀ m ∈ g.inlines, m ∈ f.inlines

theorem Frame.Like.refl (f : Frame) : f.Like f := ⟨rfl, rfl, rfl, rfl, rfl, rfl, fun _ h => h⟩

theorem Frame.Like.trans {h : Frame} (hf : f.Like g) (hg : g.Like h) : f.Like h where
  chunk := hg.chunk.trans hf.chunk
  scene := hg.scene.trans hf.scene
  loops := hg.loops.trans hf.loops
  header := hg.header.trans hf.header
  owner := hg.owner.trans hf.owner
  returnType := hg.returnType.trans hf.returnType
  inlines := fun m hm => hf.inlines m (hg.inlines m hm)

theorem Frame.Like.kind (h : f.Like g) : g.kind = f.kind :=
  congrArg Scene.kind h.scene

/-- Frame by frame. -/
abbrev AllLike : List Frame → List Frame → Prop := List.Forall₂ Frame.Like

theorem AllLike.refl : ∀ fs : List Frame, AllLike fs fs
  | [] => .nil
  | f :: rest => .cons (.refl f) (AllLike.refl rest)

theorem AllLike.trans {hs : List Frame} (h : AllLike fs gs) (h' : AllLike gs hs) :
    AllLike fs hs := by
  induction h generalizing hs with
  | nil => exact h'
  | cons hfg _ ih =>
    cases h' with
    | cons hgh hrest => exact .cons (hfg.trans hgh) (ih hrest)

theorem AllLike.exists_mem_right (h : AllLike fs gs) (hg : g ∈ gs) : ∃ f ∈ fs, f.Like g := by
  induction h with
  | nil => cases hg
  | cons hfg _ ih =>
    rcases List.mem_cons.mp hg with rfl | hg
    · exact ⟨_, .head _, hfg⟩
    · obtain ⟨f, hf, hlike⟩ := ih hg
      exact ⟨f, .tail _ hf, hlike⟩

/-- The step changed neither the code nor the scene, here or in the units around. -/
structure Quiet (s s' : State) : Prop where
  frame : s.frame.Like s'.frame
  outer : AllLike s.outer s'.outer
  decls : s.decls.Keeps s'.decls
  refused : s'.refused = s.refused
  typeCheck : s'.typeCheck = s.typeCheck

namespace Quiet

theorem refl (s : State) : Quiet s s := ⟨.refl _, .refl _, .refl _, rfl, rfl⟩

theorem trans {a b c : State} (h : Quiet a b) (h' : Quiet b c) : Quiet a c :=
  ⟨h.frame.trans h'.frame, h.outer.trans h'.outer, h.decls.trans h'.decls,
    h'.refused.trans h.refused, h'.typeCheck.trans h.typeCheck⟩

theorem withFrame (h : s.frame.Like f) : Quiet s (s.withFrame f) :=
  ⟨h, .refl _, .refl _, rfl, rfl⟩

end Quiet

/-! ## What holds all along -/

/-- The receiver is in the first slot and has not been given up. -/
def Scene.HoldsReceiver (c : Scene) : Prop :=
  ∃ v, c.locals.getLast? = some v ∧ v.name = "this" ∧ v.isDropped = false ∧ v.depth = 0

/-- Only the receiver is called so. -/
def Scene.NamesReceiver (c : Scene) : Prop :=
  ∀ v ∈ c.locals, v.name = "this" → v.slot = 0 ∧ c.kind.hasReceiver = true

/-- The loop starts in the code so far, and `continue` goes back nowhere else. -/
structure Loop.Placed (l : Loop) (size : Nat) : Prop where
  start_le : l.start ≤ size
  target : ∀ t, l.continueTarget = some t → t = l.start

theorem Loop.Placed.mono {l : Loop} {m n : Nat} (h : l.Placed m) (hle : m ≤ n) : l.Placed n :=
  ⟨Nat.le_trans h.start_le hle, h.target⟩

/-- What is true of every frame while a program is compiled. -/
structure Frame.Sound (p : Program) (f : Frame) : Prop where
  macros : ∀ m ∈ f.inlines, Expands p m.name m.value
  units : ∀ u, .function u ∈ f.chunk.constants → ∀ v ∈ u.units, Translated p v
  receiver : KeepsReceiver p → f.kind.hasReceiver = true → f.scene.HoldsReceiver
  named : Unshadowed p → f.scene.NamesReceiver
  loops : ∀ l ∈ f.loops, l.Placed f.chunk.size
  pool : f.chunk.constants.size ≤ Chunk.poolLimit

theorem Frame.Sound.like (h : f.Sound p) (hlike : f.Like g) : g.Sound p where
  macros := fun m hm => h.macros m (hlike.inlines m hm)
  units := by
    rw [hlike.chunk]
    exact h.units
  receiver := by
    rw [hlike.kind, hlike.scene]
    exact h.receiver
  named := by
    rw [hlike.scene]
    exact h.named
  loops := by
    rw [hlike.loops, hlike.chunk]
    exact h.loops
  pool := by
    rw [hlike.chunk]
    exact h.pool

/-- No node has been refused so far, and all frames are sound. -/
structure Inv (p : Program) (s : State) : Prop where
  refused : s.refused = false
  frame : s.frame.Sound p
  outer : ∀ f ∈ s.outer, f.Sound p

theorem sound_of_allLike (h : AllLike fs gs) (hfs : ∀ f ∈ fs, f.Sound p) : ∀ g ∈ gs, g.Sound p := by
  intro g hg
  obtain ⟨f, hf, hlike⟩ := h.exists_mem_right hg
  exact (hfs f hf).like hlike

theorem Inv.quiet (h : Inv p s) (hq : Quiet s s') : Inv p s' :=
  ⟨hq.refused.trans h.refused, h.frame.like hq.frame, sound_of_allLike hq.outer h.outer⟩

/-! ## Code that was laid down -/

/-- Where the loops that are open have their labels. Jumps to `exit` and `again` are not
aimed before the loop is closed. -/
def sitesOf (loops : List Loop) : Sites :=
  fun l => if l = .start then loops.head?.map Loop.start else none

/-- The jumps of `break` and `continue` that were laid down are noted with the innermost
loop. -/
inductive Noted : (breaks continues : List Nat) → List Loop → List Loop → Prop where
  | outside : Noted [] [] [] []
  | inside (breaks continues : List Nat) (l : Loop) (rest : List Loop) :
      Noted breaks continues (l :: rest)
        ({ l with
            breakJumps := breaks.reverse ++ l.breakJumps
            continueJumps := continues.reverse ++ l.continueJumps } :: rest)

namespace Noted

variable {bs cs : List Nat} {l' l : List Loop}

theorem nothing : ∀ loops : List Loop, Noted [] [] loops loops
  | [] => .outside
  | l :: rest => .inside [] [] l rest

theorem trans {bs' cs' : List Nat} {l'' : List Loop} (h : Noted bs cs l l')
    (h' : Noted bs' cs' l' l'') : Noted (bs ++ bs') (cs ++ cs') l l'' := by
  cases h with
  | outside =>
    cases h'
    exact .outside
  | inside _ _ l rest =>
    cases h'
    have hsame := Noted.inside (bs ++ bs') (cs ++ cs') l rest
    simpa only [List.reverse_append, List.append_assoc] using hsame

theorem sites (h : Noted bs cs l l') : sitesOf l' = sitesOf l := by
  cases h <;> rfl

theorem of_nil (h : Noted bs cs [] l') : bs = [] ∧ cs = [] ∧ l' = [] := by
  cases h
  exact ⟨rfl, rfl, rfl⟩

theorem of_cons {l : Loop} {rest : List Loop} (h : Noted bs cs (l :: rest) l') : l' = { l with
      breakJumps := bs.reverse ++ l.breakJumps
      continueJumps := cs.reverse ++ l.continueJumps } :: rest := by
  cases h
  rfl

end Noted

/-- Between `s` and `s'` the code of a tree was appended. -/
structure Laid (s : State) (t : Tree) (pending : List (Label × Nat)) (s' : State) : Prop where
  size : s'.frame.chunk.size = s.frame.chunk.size + t.size
  before : ∀ o < s.frame.chunk.size, s'.frame.chunk.code[o]? = s.frame.chunk.code[o]?
  code : t.At s'.frame.chunk.code (sitesOf s.frame.loops) s.frame.chunk.size
  loops : Noted (t.uses .exit s.frame.chunk.size) (t.uses .again s.frame.chunk.size)
    s.frame.loops s'.frame.loops
  pending : ∀ l, l.ofLoop = false →
    ∀ o, o ∈ t.uses l s.frame.chunk.size ↔ (l, o) ∈ pending

namespace Laid

/-- Code laid down after other code makes one piece with it, and open jumps add up. -/
theorem append {s'' : State} {t u : Tree} {π ρ : List (Label × Nat)} (h : Laid s t π s')
    (h' : Laid s' u ρ s'') : Laid s (.seq t u) (π ++ ρ) s'' where
  size := by rw [h'.size, h.size, Tree.size, Nat.add_assoc]
  before := fun o ho => by
    rw [h'.before o (by rw [h.size]; omega), h.before o ho]
  code := by
    have hcode := h'.code
    rw [h.loops.sites, h.size] at hcode
    exact ⟨h.code.congr fun o _ ho => h'.before o (by rw [h.size]; exact ho), hcode⟩
  loops := by
    have hloops := h.loops.trans h'.loops
    rw [h.size] at hloops
    exact hloops
  -- jumps that are still open in either part are open in both together
  pending := fun l hl o => by
    rw [Tree.uses, List.mem_append, List.mem_append, h.pending l hl o, ← h'.pending l hl o, h.size]

/-- Nothing was laid down, and the frame has the same code and loops. -/
theorem nothing (hchunk : s'.frame.chunk = s.frame.chunk)
    (hloops : s'.frame.loops = s.frame.loops) : Laid s .nil [] s' where
  size := by rw [hchunk]; rfl
  before := fun _ _ => by rw [hchunk]
  code := trivial
  loops := by
    rw [hloops]
    exact .nothing _
  pending := by simp [Tree.uses]

theorem code_push {code : Array Instr} {i : Instr} {o : Nat} (ho : o < code.size) :
    (code.push i)[o]? = code[o]? := by
  rw [Array.getElem?_push, if_neg (Nat.ne_of_lt ho)]

/-- One plain instruction. -/
theorem emit (s : State) {i : Instr} (hi : i.isJump = false) (line : UInt64) :
    Laid s (.op i) [] (s.withFrame (s.frame.emit i line)) where
  size := Array.size_push ..
  before := fun _ ho => code_push ho
  code := ⟨Array.getElem?_push_size, hi⟩
  loops := .nothing _
  pending := by simp [Tree.uses]

/-- One jump, not aimed. -/
theorem jump (s : State) (kind : JumpKind) {l : Label} (hl : l.ofLoop = false) (hs : l ≠ .start)
    (line : UInt64) :
    Laid s (.jump kind l) [(l, s.frame.chunk.size)]
      (s.withFrame (s.frame.emit (kind.instr Instr.unpatched) line)) where
  size := Array.size_push ..
  before := fun _ ho => code_push ho
  code := by
    have hsite : sitesOf s.frame.loops l = none := if_neg hs
    rw [Tree.At, hsite]
    exact Array.getElem?_push_size
  loops := by
    have hexit : l ≠ .exit := by rintro rfl; cases hl
    have hagain : l ≠ .again := by rintro rfl; cases hl
    rw [Tree.uses, Tree.uses, if_neg hexit, if_neg hagain]
    exact .nothing _
  pending := fun m _ o => by
    rw [Tree.uses, List.mem_singleton, Prod.mk.injEq]
    split
    · rename_i h
      rw [List.mem_singleton]
      exact ⟨fun ho => ⟨h.symm, ho⟩, fun ho => ho.2⟩
    · rename_i h
      exact ⟨fun ho => absurd ho List.not_mem_nil, fun ho => absurd ho.1.symm h⟩

end Laid

/-! ## Stretches of code generation -/

/-- What is seen of the current unit. -/
def State.scene (s : State) : Scene := s.frame.scene

/-- The pool of the current unit so far. -/
def State.pool (s : State) : List Constant := s.frame.chunk.constants.toList

/-- What a stretch of code generation leaves as it was, code and scene apart. -/
structure Beside (s s' : State) : Prop where
  kind : s'.frame.kind = s.frame.kind
  header : s'.frame.header = s.frame.header
  owner : s'.frame.owner = s.frame.owner
  returnType : s'.frame.returnType = s.frame.returnType
  outer : AllLike s.outer s'.outer
  decls : s.decls.Keeps s'.decls
  pool : s.pool <+: s'.pool
  typeCheck : s'.typeCheck = s.typeCheck

theorem Beside.refl (s : State) : Beside s s :=
  ⟨rfl, rfl, rfl, rfl, .refl _, .refl _, List.prefix_rfl, rfl⟩

theorem Beside.trans {a b c : State} (h : Beside a b) (h' : Beside b c) : Beside a c where
  kind := h'.kind.trans h.kind
  header := h'.header.trans h.header
  owner := h'.owner.trans h.owner
  returnType := h'.returnType.trans h.returnType
  outer := h.outer.trans h'.outer
  decls := h.decls.trans h'.decls
  pool := h.pool.trans h'.pool
  typeCheck := h'.typeCheck.trans h.typeCheck

theorem Quiet.pool (h : Quiet s s') : s'.pool = s.pool := by
  unfold State.pool
  rw [h.frame.chunk]

theorem Quiet.beside (h : Quiet s s') : Beside s s' where
  kind := h.frame.kind
  header := h.frame.header
  owner := h.frame.owner
  returnType := h.frame.returnType
  outer := h.outer
  decls := h.decls
  pool := h.pool ▸ List.prefix_rfl
  typeCheck := h.typeCheck

/-- Between `s` and `s'` code was laid down that the scheme `x` describes. -/
def Ran (p : Program) (s : State) (x : Scheme) (pending : List (Label × Nat)) (s' : State) :
    Prop :=
  ∃ t, Laid s t pending s' ∧ (∀ k, s'.pool <+: k → x k s.scene t s'.scene) ∧ Beside s s' ∧
    Inv p s'

namespace Ran

variable {p : Program} {s s' s'' : State} {x y : Scheme} {π ρ : List (Label × Nat)}
  {xs : List Scheme} {P : Scene → Prop}

theorem inv (h : Ran p s x π s') : Inv p s' := by
  obtain ⟨_, _, _, _, hinv⟩ := h
  exact hinv

theorem beside (h : Ran p s x π s') : Beside s s' := by
  obtain ⟨_, _, _, hbeside, _⟩ := h
  exact hbeside

theorem refl (hs : Inv p s) : Ran p s .skip [] s :=
  ⟨.nil, .nothing rfl rfl, fun _ _ => ⟨rfl, rfl⟩, .refl s, hs⟩

theorem append (h : Ran p s x π s') (h' : Ran p s' y ρ s'') : Ran p s (x ++ y) (π ++ ρ) s'' := by
  obtain ⟨t, hlaid, hx, hbeside, _⟩ := h
  obtain ⟨u, hlaid', hy, hbeside', hinv⟩ := h'
  refine ⟨.seq t u, hlaid.append hlaid', fun k hk => ?_, hbeside.trans hbeside', hinv⟩
  exact ⟨t, s'.scene, u, hx k (hbeside'.pool.trans hk), hy k hk, rfl⟩

theorem closed (h : Ran p s x π s') (h' : Ran p s' y [] s'') : Ran p s (x ++ y) π s'' := by
  have happend := h.append h'
  rwa [List.append_nil] at happend

/-- What the scheme says may be put in other words. -/
theorem imp (h : Ran p s x π s')
    (himp : ∀ k t, x k s.scene t s'.scene → y k s.scene t s'.scene) : Ran p s y π s' := by
  obtain ⟨t, hlaid, hx, hbeside, hinv⟩ := h
  exact ⟨t, hlaid, fun k hk => himp k t (hx k hk), hbeside, hinv⟩

theorem choose {α : Type} {x : α → Scheme} (a : α) (h : Ran p s (x a) π s') :
    Ran p s (.choose x) π s' :=
  h.imp fun _ _ hx => ⟨a, hx⟩

theorem thisOne (h : Ran p s x π s') : Ran p s (.oneOf (x :: xs)) π s' :=
  h.imp fun _ _ h => ⟨x, .head _, h⟩

theorem another (h : Ran p s (.oneOf xs) π s') : Ran p s (.oneOf (x :: xs)) π s' :=
  h.imp fun _ _ ⟨y, hy, h⟩ => ⟨y, .tail _ hy, h⟩

theorem reading {x : Scene → Scheme} (h : Ran p s (x s.scene) π s') :
    Ran p s (.reading x) π s' :=
  h.imp fun _ _ hx => hx

/-- What was laid down is the code of a node. -/
theorem marked (h : Ran p s x π s') (e : Expr) : Ran p s (.marked e x) π s' := by
  obtain ⟨t, hlaid, hx, hbeside, hinv⟩ := h
  exact ⟨.node e t, ⟨hlaid.size, hlaid.before, hlaid.code, hlaid.loops, hlaid.pending⟩,
    fun k hk => ⟨t, hx k hk, rfl⟩, hbeside, hinv⟩

/-- Only which jumps are pending counts. -/
theorem pending (h : Ran p s x π s') (hρ : ∀ e, e ∈ π ↔ e ∈ ρ) : Ran p s x ρ s' := by
  obtain ⟨t, hlaid, hx, hbeside, hinv⟩ := h
  refine ⟨t, ⟨hlaid.size, hlaid.before, hlaid.code, hlaid.loops, fun l hl o => ?_⟩, hx, hbeside,
    hinv⟩
  rw [hlaid.pending l hl o, hρ]

/-- What is quiet may follow any code. -/
theorem quiet (h : Ran p s x π s') (hq : Quiet s' s'') : Ran p s x π s'' := by
  obtain ⟨t, hlaid, hx, hbeside, hinv⟩ := h
  have hchunk := hq.frame.chunk
  have hscene : s''.scene = s'.scene := hq.frame.scene
  refine ⟨t, ⟨?_, ?_, ?_, ?_, hlaid.pending⟩, ?_, hbeside.trans hq.beside, hinv.quiet hq⟩
  · rw [hchunk, hlaid.size]
  · intro o ho
    rw [hchunk, hlaid.before o ho]
  · rw [hchunk]
    exact hlaid.code
  · rw [hq.frame.loops]
    exact hlaid.loops
  · intro k hk
    rw [hscene]
    exact hx k (by rwa [hq.pool] at hk)

/-- What was laid down after a quiet step was laid down. -/
theorem before (hq : Quiet s s') (h : Ran p s' x π s'') : Ran p s x π s'' := by
  obtain ⟨t, hlaid, hx, hbeside, hinv⟩ := h
  obtain ⟨hsize, hold, hcode, hloops, hpending⟩ := hlaid
  have hscene : s'.scene = s.scene := hq.frame.scene
  rw [hq.frame.chunk] at hsize hcode hloops hpending hold
  rw [hq.frame.loops] at hcode hloops
  rw [hscene] at hx
  exact ⟨t, ⟨hsize, hold, hcode, hloops, hpending⟩, hx, hq.beside.trans hbeside, hinv⟩

theorem requires (hs : Inv p s) (h : P s.scene) : Ran p s (.requires P) [] s :=
  (Ran.refl hs).imp fun _ _ hskip => ⟨hskip.1, hskip.2, h⟩

/-- Something that is known of the scene. -/
theorem note (h : Ran p s x π s') (hP : P s'.scene) : Ran p s (x ++ .requires P) π s' :=
  h.closed (.requires h.inv hP)

/-- Something that is known whatever the scene is. -/
theorem known {P : Prop} (h : Ran p s x π s') (hP : P) :
    Ran p s (x ++ .requires fun _ => P) π s' :=
  h.note (P := fun _ => P) hP

theorem skip (h : Ran p s x π s') : Ran p s (x ++ .skip) π s' := h.closed (.refl h.inv)

end Ran

/-- The step lays down what the scheme describes and leaves no jump pending. -/
def Does (p : Program) {α : Type} (act : Build α) (x : α → Scheme) : Prop :=
  ∀ s, Inv p s → Ensures s act fun a s' => Ran p s (x a) [] s'

/-- The step touches neither code nor scene. -/
def IsQuiet {α : Type} (act : Build α) : Prop := ∀ s, Quiet s (act s).answer.2

section

variable {p : Program} {α β : Type} {s s' : State} {x : Scheme} {π : List (Label × Nat)}
variable {act : Build α} {f : α → Build β} {y : α → Scheme} {Q : β → State → Prop}

theorem Does.first (hact : Does p act y) (hs : Inv p s)
    (hf : ∀ a s', Ran p s (y a) [] s' → Ensures s' (f a) Q) : Ensures s (act >>= f) Q :=
  (hact s hs).bind hf

theorem Does.last (hact : Does p act y) (h : Ran p s x π s') :
    Ensures s' act fun a s'' => Ran p s (x ++ y a) π s'' :=
  (hact s' h.inv).imp fun _ _ hran => h.closed hran

theorem Does.then (hact : Does p act y) (h : Ran p s x π s')
    (hf : ∀ a s'', Ran p s (x ++ y a) π s'' → Ensures s'' (f a) Q) :
    Ensures s' (act >>= f) Q :=
  (hact.last h).bind hf

theorem IsQuiet.last (hact : IsQuiet act) (h : Ran p s x π s') :
    Ensures s' act fun _ s'' => Ran p s x π s'' :=
  fun _ => h.quiet (hact s')

theorem IsQuiet.then (hact : IsQuiet act) (h : Ran p s x π s')
    (hf : ∀ a s'', Ran p s x π s'' → Ensures s'' (f a) Q) : Ensures s' (act >>= f) Q :=
  (hact.last h).bind hf

theorem IsQuiet.does_bind {z : β → Scheme} (hact : IsQuiet act) (hf : ∀ a, Does p (f a) z) :
    Does p (act >>= f) z := by
  intro s hs
  refine Ensures.bind (Q := fun _ s' => Quiet s s') (fun _ => hact s) fun a s' hq => ?_
  exact (hf a s' (hs.quiet hq)).imp fun _ _ h => h.before hq

theorem Does.bind_quiet {z : Scheme} (hact : Does p act fun _ => z) (hf : ∀ a, IsQuiet (f a)) :
    Does p (act >>= f) fun _ => z := fun _ hs =>
  hact.first hs fun a _ h => (hf a).last h

theorem IsQuiet.does (hact : IsQuiet act) : Does p act fun _ => .skip :=
  fun _ hs => hact.last (Ran.refl hs)

end

end Codegen

end Strand
