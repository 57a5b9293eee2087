import Strand.Proofs.Accumulators
import Strand.Proofs.JumpIntegrity

/-!
# Accumulators along paths

Which accumulators are open at an offset does not depend on the path by which it was
reached, provided that no loop whose value is wanted is left from its header. It can
then be read off the code in front of the offset as if no jump were ever taken, and the
accumulator that the end of a loop closes is the one that its beginning opened.
-/

namespace Strand

open Codegen

variable {i : Instr} {opened : List Nat} {o : Nat}

namespace CodeUnit

variable {u : CodeUnit}

/-- Some path through the unit comes to an offset with these accumulators open, the
innermost first. -/
inductive Collects (u : CodeUnit) : Nat → List Nat → Prop where
  | entry : Collects u 0 []
  | step {o o' : Nat} {h h' : Int} {i : Instr} {opened : List Nat} (hr : Collects u o opened)
      (hi : u.code[o]? = some i) (he : Edge u.code o h o' h') :
      Collects u o' (i.accumulators o opened)

theorem Collects.next
    (hr : u.Collects o opened) (hi : u.code[o]? = some i) (hfalls : i.fallsThrough = true) :
    u.Collects (o + 1) (i.accumulators o opened) :=
  hr.step (h := 0) hi (.next hi hfalls)

theorem Collects.jump {t : Nat}
    (hr : u.Collects o opened) (hi : u.code[o]? = some i) (ht : jumpTarget? u.code o = some t) :
    u.Collects t (i.accumulators o opened) :=
  hr.step (h := 0) hi (.taken hi ht)

/-- The accumulators of a unit are opened and closed in order, its layout being given. -/
structure AccumulatorsBalanced (u : CodeUnit) (layout : Tree) : Prop where
  /-- All paths to an offset have the same accumulators open there. -/
  agree : ∀ {o opened opened'}, u.Collects o opened → u.Collects o opened' → opened = opened'
  /-- Wherever an accumulator is used there is one open. -/
  inUse : ∀ {o opened}, u.Collects o opened →
    u.code[o]? = some .accCollect ∨ u.code[o]? = some .accFlush → opened ≠ []
  /-- The last instruction of a loop closes the accumulator that its first one opened. -/
  closes : ∀ {o opened}, u.Collects o opened → u.code[o]? = some .accFlush →
    ∃ s a e t rest, opened = a :: rest ∧ ⟨s, a, .node e t⟩ ∈ layout.parts {} 0 ∧
      e.kind.isLoop = true ∧ u.code[a]? = some .accStart ∧ o + 1 = a + t.size

end CodeUnit

namespace Codegen

/-! ## Reading off the code -/

/-- The accumulators that are open in front of an offset, if no jump is taken. -/
def openBefore (code : Array Instr) : (o : Nat) → List Nat
  | 0 => []
  | o + 1 => (code[o]?.map (Instr.accumulators o (openBefore code o))).getD (openBefore code o)

section

variable {code : Array Instr} {o a : Nat}

theorem openBefore_succ (hi : code[o]? = some i) :
    openBefore code (o + 1) = i.accumulators o (openBefore code o) := by
  rw [openBefore, hi]
  rfl

/-- What is open was opened, further up. -/
theorem accStart_of_mem_openBefore : ∀ {o : Nat}, a ∈ openBefore code o →
    code[a]? = some .accStart
  | 0, h => absurd h List.not_mem_nil
  | o + 1, h => by
    cases hi : code[o]? with
    | none =>
      rw [openBefore, hi] at h
      exact accStart_of_mem_openBefore (o := o) h
    | some i =>
      rw [openBefore_succ hi] at h
      cases i with
      | accStart =>
        rcases List.mem_cons.mp h with rfl | h
        · exact hi
        · exact accStart_of_mem_openBefore h
      | accFlush => exact accStart_of_mem_openBefore (List.mem_of_mem_tail h)
      | _ => exact accStart_of_mem_openBefore (o := o) h

theorem ofAccumulator_instr (k : JumpKind) (d : UInt32) : (k.instr d).ofAccumulator = false := by
  cases k <;> rfl

/-- Behind a tree that stands in the code is open what the tree says. -/
theorem Tree.At.openBefore : ∀ {t : Tree} {sites : Sites} {a : Nat}, t.At code sites a →
    Codegen.openBefore code (a + t.size) = t.opened a (Codegen.openBefore code a)
  | .nil, _, _, _ => rfl
  | .op i, _, _, h => openBefore_succ h.1
  | .seq x y, _, a, h => by
    rw [Tree.size, ← Nat.add_assoc, h.2.openBefore, h.1.openBefore]
    rfl
  | .jump k l, sites, a, h => by
    obtain ⟨d, hd⟩ : ∃ d, code[a]? = some (k.instr d) := by
      rw [Tree.At] at h
      split at h
      · obtain ⟨d, hd, -⟩ := h
        exact ⟨d, hd⟩
      · exact ⟨_, h⟩
    exact (openBefore_succ hd).trans (Instr.accumulators_of_not (ofAccumulator_instr k d) ..)
  | .block _ t, _, _, h => Tree.At.openBefore (t := t) h.2
  | .loop t, _, _, h | .node _ t, _, _, h => Tree.At.openBefore (t := t) h
  | .back, _, _, ⟨_, _, _, h, _⟩ => openBefore_succ h

end

/-! ## Sound offsets -/

/-- What is open in front of an instruction fits what it does. -/
structure SoundAt (parts : List Part) (code : Array Instr) (o : Nat) : Prop where
  jump : ∀ t, jumpTarget? code o = some t → openBefore code t = openBefore code o
  collect : code[o]? = some .accCollect → openBefore code o ≠ []
  flush : code[o]? = some .accFlush → ∃ s a e t rest, openBefore code o = a :: rest ∧
    ⟨s, a, .node e t⟩ ∈ parts ∧ e.kind.isLoop = true ∧ o + 1 = a + t.size

/-- The innermost node around is one of the parts. -/
def Owner.In (owner : Owner) (parts : List Part) : Prop :=
  owner.isLoop = true → ∃ s e t, ⟨s, owner.start, .node e t⟩ ∈ parts ∧ e.kind.isLoop = true ∧
    owner.stop = owner.start + t.size

/-- What is open at the labels around is what is open in front of their sites. -/
def Marks.Fit (marks : Marks) (code : Array Instr) (sites : Sites) : Prop :=
  ∀ l o, sites l = some o → openBefore code o = marks l

section

variable {code : Array Instr} {sites : Sites} {marks : Marks} {a : Nat} {parts : List Part}

theorem Marks.Fit.set (h : marks.Fit code sites) (l : Label) (o : Nat) :
    (marks.set l (openBefore code o)).Fit code (sites.set l o) := by
  intro m o' hm
  by_cases hl : m = l
  · rw [hl, Sites.set_self, Option.some.injEq] at hm
    rw [Marks.set, if_pos hl, hm]
  · rw [Sites.set_of_ne hl] at hm
    rw [Marks.set, if_neg hl]
    exact h m o' hm

theorem Marks.Fit.inLoop (h : marks.Fit code sites) (start stop : Nat) :
    (marks.inLoop (openBefore code start) (openBefore code stop)).Fit code
      (sites.inLoop start stop) :=
  ((h.set .start start).set .again stop).set .exit stop

/-- An instruction that neither jumps nor has to do with accumulators. -/
theorem soundAt_op {owner : Owner} (hi : code[a]? = some i) (hjump : i.isJump = false)
    (howner : owner.In parts)
    (h : (Tree.op i).Collects owner marks a (openBefore code a)) : SoundAt parts code a where
  jump t ht := by
    rw [jumpTarget_of_not_jump hi hjump] at ht
    cases ht
  collect hcollect := h.1 (Option.some.inj (hi.symm.trans hcollect))
  flush hflush := by
    obtain ⟨hloop, hstop, hhead⟩ := h.2 (Option.some.inj (hi.symm.trans hflush))
    obtain ⟨s, e, t, hmem, he, hsize⟩ := howner hloop
    obtain ⟨rest, hrest⟩ := List.head?_eq_some_iff.mp hhead
    exact ⟨s, owner.start, e, t, rest, hrest, hmem, he, by omega⟩

/-- A jump to where the same accumulators are open. -/
theorem soundAt_jump {t : Nat} (hi : code[a]? = some i) (hjump : i.isJump = true)
    (htarget : jumpTarget? code a = some t) (hsame : openBefore code t = openBefore code a) :
    SoundAt parts code a where
  jump t' ht := by
    cases htarget.symm.trans ht
    exact hsame
  collect hcollect := by
    cases hi.symm.trans hcollect
    cases hjump
  flush hflush := by
    cases hi.symm.trans hflush
    cases hjump

/-- All offsets of a tree are sound, by induction on the tree: the labels of a block or a
loop are where the tree says that the same accumulators are open. -/
theorem soundAt_of_collects {p : Program} {bound : Nat} : ∀ {t : Tree} {s : Surroundings} {a : Nat}
    {sites : Sites} {b : Bool} {owner : Owner} {marks : Marks},
    Part.Stands p code bound ⟨s, a, t⟩ sites b → t.Collects owner marks a (openBefore code a) →
    marks.Fit code sites → owner.In parts → (∀ q ∈ t.parts s a, q ∈ parts) →
    a ≤ o → o < a + t.size → SoundAt parts code o
  | .nil, _, a, _, _, _, _, _, _, _, _, _, hlo, hhi => by
    simp only [Tree.size] at hhi
    omega
  | .op i, _, a, _, _, _, _, hstands, h, _, howner, _, hlo, hhi => by
    obtain rfl : o = a := by simp only [Tree.size] at hhi; omega
    obtain ⟨hi, hjump⟩ := hstands.code
    exact soundAt_op hi hjump howner h
  | .jump k l, _, a, _, _, _, _, hstands, h, hfit, _, _, hlo, hhi => by
    obtain rfl : o = a := by simp only [Tree.size] at hhi; omega
    obtain ⟨t, d, hsite, hi, -, htarget, -, -⟩ := hstands.aimed
    exact soundAt_jump hi (isJump_instr k d) htarget ((hfit l t hsite).trans h)
  | .back, _, a, _, _, _, _, hstands, h, hfit, _, _, hlo, hhi => by
    obtain rfl : o = a := by simp only [Tree.size] at hhi; omega
    obtain ⟨t, d, hsite, hi, ht, -⟩ := hstands.code
    exact soundAt_jump hi rfl (jumpTarget_of_back hi ht) ((hfit .start t hsite).trans h)
  | .seq x y, _, a, _, _, _, _, hstands, h, hfit, howner, hparts, hlo, hhi => by
    simp only [Tree.size] at hhi
    rcases Nat.lt_or_ge o (a + x.size) with ho | ho
    · exact soundAt_of_collects hstands.first h.1 hfit howner
        (fun q hq => hparts q (.tail _ (List.mem_append_left _ hq))) hlo ho
    -- what is open behind the first part is what its code leaves open
    · have hy := h.2
      rw [← hstands.code.1.openBefore] at hy
      exact soundAt_of_collects hstands.second hy hfit howner
        (fun q hq => hparts q (.tail _ (List.mem_append_right _ hq))) ho (by omega)
  | .block l t, _, a, _, _, _, _, hstands, h, hfit, howner, hparts, hlo, hhi => by
    rw [Tree.Collects, ← hstands.inBlock.code.openBefore] at h
    exact soundAt_of_collects hstands.inBlock h (hfit.set l _) howner
      (fun q hq => hparts q (.tail _ hq)) hlo hhi
  | .loop t, _, a, _, _, _, _, hstands, h, hfit, howner, hparts, hlo, hhi => by
    rw [Tree.Collects, ← hstands.inside.code.openBefore] at h
    exact soundAt_of_collects hstands.inside h (hfit.inLoop a _) howner
      (fun q hq => hparts q (.tail _ hq)) hlo hhi
  -- inside of a node its own loop collects, no longer the one around it
  | .node e t, s, a, _, _, _, _, hstands, h, hfit, _, hparts, hlo, hhi => by
    have howner : Owner.In ⟨a, a + t.size, e.kind.isLoop⟩ parts :=
      fun he => ⟨s, e, t, hparts _ (.head _), he, rfl⟩
    exact soundAt_of_collects hstands.marked h hfit howner
      (fun q hq => hparts q (.tail _ hq)) hlo hhi

end

/-! ## Paths -/

section

variable {p : Program} {u : CodeUnit} {layout : Tree}

/-- Every offset of a unit is sound if loops are not left from their headers. -/
theorem LaidOut.soundAt (h : LaidOut p u layout) (hp : StaysInHeaders p)
    (ho : o < u.code.size) : SoundAt (layout.parts {} 0) u.code o := by
  obtain ⟨budget, source, c', hsource, -, hscheme⟩ := h.source
  obtain ⟨hcollects, -⟩ := keeps_source hp hsource hscheme ⟨0, 0, false⟩ (fun _ => []) 0 []
    ⟨fun _ _ => rfl, fun _ _ _ => rfl⟩ fun h => by cases h
  rw [← h.size] at ho
  have hfit : Marks.Fit (fun _ => []) u.code .none := by
    intro l o hl
    cases hl
  have howner : Owner.In ⟨0, 0, false⟩ (layout.parts {} 0) := by
    intro hloop
    cases hloop
  exact soundAt_of_collects h.stands hcollects hfit howner (fun _ hq => hq) (Nat.zero_le o)
    (by omega)

/-- A path through sound code has open what can be read off the code. -/
theorem opened_of_collects (hsound : ∀ o, o < u.code.size → SoundAt (layout.parts {} 0) u.code o)
    (h : u.Collects o opened) : opened = openBefore u.code o := by
  induction h with
  | entry => rfl
  | @step o o' _ _ i opened hr hi he ih =>
    rw [ih]
    cases he with
    | next hi' hfalls => exact (openBefore_succ hi).symm
    | taken hi' ht =>
      have hlt : o < u.code.size := (Array.getElem?_eq_some_iff.mp hi).1
      have hjump : i.isJump = true := by
        by_contra hnot
        rw [jumpTarget_of_not_jump hi (by simpa using hnot)] at ht
        cases ht
      have hplain : i.ofAccumulator = false := by
        cases i <;> first | rfl | cases hjump
      rw [Instr.accumulators_of_not hplain]
      exact ((hsound o hlt).jump _ ht).symm

theorem LaidOut.accumulatorsBalanced (h : LaidOut p u layout) (hp : StaysInHeaders p) :
    u.AccumulatorsBalanced layout := by
  have hsound : ∀ o, o < u.code.size → SoundAt (layout.parts {} 0) u.code o :=
    fun o ho => h.soundAt hp ho
  have hopened {o : Nat} {opened : List Nat} (hr : u.Collects o opened) :
      opened = openBefore u.code o := opened_of_collects hsound hr
  have hlt {o : Nat} {i : Instr} (hi : u.code[o]? = some i) : o < u.code.size :=
    (Array.getElem?_eq_some_iff.mp hi).1
  refine ⟨fun hr hr' => (hopened hr).trans (hopened hr').symm, fun hr hi => ?_, fun hr hi => ?_⟩
  · rw [hopened hr]
    rcases hi with hi | hi
    · exact (hsound _ (hlt hi)).collect hi
    · obtain ⟨_, _, _, _, _, heq, -⟩ := (hsound _ (hlt hi)).flush hi
      rw [heq]
      exact List.cons_ne_nil _ _
  · obtain ⟨s, a, e, t, rest, heq, hmem, he, hsize⟩ := (hsound _ (hlt hi)).flush hi
    refine ⟨s, a, e, t, rest, (hopened hr).trans heq, hmem, he, ?_, hsize⟩
    exact accStart_of_mem_openBefore (by rw [heq]; exact .head _)

end

end Codegen

/-- If no loop whose value is wanted is left from its header, then in every unit the same
accumulators are open along all paths to an offset, there is one open wherever one is used,
and each loop closes its own. -/
theorem compile_accumulatorsBalanced {p : Program} {o : Options} {m : Module}
    (h : compile p o = .ok m) (hp : StaysInHeaders p) :
    ∀ u ∈ m.units, ∃ layout, LaidOut p u layout ∧ u.AccumulatorsBalanced layout := by
  intro u hu
  obtain ⟨layout, hlayout⟩ := ((compile_translated h).2 u hu).laidOut
  exact ⟨layout, hlayout, hlayout.accumulatorsBalanced hp⟩

/-- The node is a constant. -/
def ExprKind.isLiteral : ExprKind → Bool
  | .int _ | .float _ | .str _ | .bool _ | .null => true
  | _ => false

theorem not_leaves_of_isLiteral {p : Program} {e : Expr} (h : e.kind.isLiteral = true) :
    ¬ Leaves p e := by
  intro hleaves
  obtain ⟨kind, span⟩ := e
  cases kind with
  | int _ | float _ | str _ | bool _ | null =>
    cases hleaves with
    | inside hmem => cases hmem
  | _ => cases h

/-- Loops in an array that are left and repeated from a body and, by a macro, from a
condition. -/
def collectingLoops : Program :=
  let node (kind : ExprKind) : Expr := ⟨kind, .zero⟩
  let inner := node (.whileLoop
    (node (.cond [⟨node (.var "i"), [node (.var "stop")]⟩] none)) [node .continueLoop])
  let outer := node (.rangeFor "i" none (node (.int 0)) (node (.int 3)) none
    [node (.cond [⟨node (.bool true), [node .continueLoop]⟩] none), inner])
  ⟨[node (.inlineDecl "stop" (node .breakLoop)), node (.array [outer])]⟩

theorem compile_accumulatorsBalanced_collectingLoops : ∃ m, compile collectingLoops {} = .ok m ∧
    StaysInHeaders collectingLoops ∧
    [0, 21, 37, 50].map (fun o => m.main.code[o]?) =
      [some .accStart, some .accStart, some .accFlush, some .accFlush] ∧
    ∀ u ∈ m.units, ∃ layout, LaidOut collectingLoops u layout ∧ u.AccumulatorsBalanced layout := by
  have hend : (collectingLoops.nodesAt 7).isEmpty = true := by decide +kernel
  have hstays : StaysInHeaders collectingLoops := by
    intro e he c hc hleaves
    refine not_leaves_of_isLiteral ?_ hleaves
    rcases he with he | ⟨st, e', he, body, hbody, hlast⟩
    · exact forall_occurs hend (P := fun x => ∀ c ∈ x.2.kind.header, c.kind.isLiteral = true)
        (by decide +kernel) he c hc
    · exact forall_occurs hend
        (P := fun x => ∀ body ∈ x.2.kind.bodies, ∀ e ∈ body.getLast?, ∀ c ∈ e.kind.header,
          c.kind.isLiteral = true) (by decide +kernel) he body hbody e hlast c hc
  have hcode : (compile collectingLoops {}).toOption.map
      (fun m => [0, 21, 37, 50].map fun o => m.main.code[o]?) =
        some [some .accStart, some .accStart, some .accFlush, some .accFlush] := by decide +kernel
  cases hm : compile collectingLoops {} with
  | error e =>
    rw [hm] at hcode
    cases hcode
  | ok m =>
    rw [hm] at hcode
    exact ⟨m, rfl, hstays, Option.some.inj hcode, compile_accumulatorsBalanced hm hstays⟩

/-- A loop over items that is left from its iterable, for the loop around it. -/
def leftFromHeader : Program :=
  let node (kind : ExprKind) : Expr := ⟨kind, .zero⟩
  ⟨[node (.whileLoop (node (.bool true)) [node (.forEach "x" (node .breakLoop) [])])]⟩

/-- The loop around goes on behind its end with an accumulator open or with none, depending
on how it was left. -/
theorem collects_leftFromHeader : ∃ m, compile leftFromHeader {} = .ok m ∧
    m.main.Collects 17 [] ∧ m.main.Collects 17 [3] := by
  have hcode : (compile leftFromHeader {}).toOption.map (fun m =>
      ([0, 1, 2, 3, 4, 16].map fun o => m.main.code[o]?, [1, 4].map (jumpTarget? m.main.code))) =
        some ([some .pushTrue, some (.jumpIfFalse 14), some .pop, some .accStart,
          some (.jump 12), some .pop], [some 16, some 17]) := by decide +kernel
  cases hm : compile leftFromHeader {} with
  | error e =>
    rw [hm] at hcode
    cases hcode
  | ok m =>
    rw [hm] at hcode
    obtain ⟨hinstrs, htargets⟩ := Prod.mk.inj (Option.some.inj hcode)
    simp only [List.map_cons, List.map_nil, List.cons.injEq, and_true] at hinstrs htargets
    obtain ⟨h0, h1, h2, h3, h4, h16⟩ := hinstrs
    have hstart : m.main.Collects 1 [] := .next .entry h0 rfl
    refine ⟨m, rfl, ?_, ?_⟩
    · exact .next (.jump hstart h1 htargets.1) h16 rfl
    · exact .jump (.next (.next (.next hstart h1 rfl) h2 rfl) h3 rfl) h4 htargets.2

end Strand
