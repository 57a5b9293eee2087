import Strand.Proofs.Moves.Visited

/-!
# Operands denote something

What an instruction refers to is there: a constant of the right sort in the pool of its
unit, or one of the captures of its unit. Every unit in a pool is closed over by exactly
one instruction, and what it captures from the captures around it can be found among
them. All of this is kept by every move of a compilation.

The captures of a unit that is not finished refer to those of the unit around it, which
is not finished either. So the invariant is about the units under construction in a row.
-/

namespace Strand

variable {n : Nat} {i : Instr} {line : UInt64} {k : Constant} {u : CodeUnit} {code : Array Instr}

/-- Exactly one instruction closes over the constant at an index. -/
def ClosedOnce (code : Array Instr) (n : Nat) : Prop :=
  ∃! place : Nat, code[place]?.bind Instr.closes? = some n

theorem closes_push (code : Array Instr) (i : Instr) (k : Nat) :
    (code.push i)[k]?.bind Instr.closes? =
      if k = code.size then i.closes? else code[k]?.bind Instr.closes? := by
  rw [Array.getElem?_push]
  split <;> rfl

theorem ClosedOnce.push (h : ClosedOnce code n)
    (hi : i.closes? ≠ some n) : ClosedOnce (code.push i) n := by
  obtain ⟨k, hk, honly⟩ := h
  have hne : k ≠ code.size := by
    intro heq
    rw [heq, Array.getElem?_eq_none (Nat.le_refl _)] at hk
    cases hk
  refine ExistsUnique.intro k (by rw [closes_push, if_neg hne]; exact hk) fun k' hk' => ?_
  rw [closes_push] at hk'
  split at hk'
  · exact absurd hk' hi
  · exact honly k' hk'

theorem closedOnce_push (hi : i.closes? = some n)
    (hold : ∀ k : Nat, code[k]?.bind Instr.closes? ≠ some n) : ClosedOnce (code.push i) n := by
  refine ExistsUnique.intro code.size (by rw [closes_push, if_pos rfl, hi]) fun k hk => ?_
  rw [closes_push] at hk
  split at hk
  · assumption
  · exact absurd hk (hold k)

/-- Code with its lines, over a pool and a number of captures, in which nothing is referred to
that is not there. -/
structure WellFormed (pool : List Constant) (code : Array Instr) (lines : Array UInt64)
    (captures : Nat) : Prop where
  lines : lines.size = code.size
  operands : ∀ (n : Nat) (i : Instr), code[n]? = some i →
    ∀ o, i.operand? = some o → o.Denotes pool captures
  closures : ∀ (n : Nat) (u : CodeUnit), pool[n]? = some (.function u) → ClosedOnce code n
  upvalues : ∀ u : CodeUnit, .function u ∈ pool →
    ∀ j, .upvalue j ∈ u.captures → j.toNat < captures

/-- Nothing is referred to in a unit that is not there. -/
def CodeUnit.WellFormed (u : CodeUnit) : Prop :=
  Strand.WellFormed u.constants u.code u.lines u.captures.length

namespace WellFormed

variable {pool : List Constant} {code : Array Instr} {lines : Array UInt64} {captures : Nat}

theorem empty : WellFormed [] #[] #[] 0 where
  lines := rfl
  operands := fun n i h => by simp at h
  closures := fun n u h => by simp at h
  upvalues := fun u h => by simp at h

theorem mono {captures' : Nat} (h : WellFormed pool code lines captures)
    (hle : captures ≤ captures') : WellFormed pool code lines captures' where
  lines := h.lines
  operands := fun n i hi o ho => (h.operands n i hi o ho).mono List.prefix_rfl hle
  closures := h.closures
  upvalues := fun u hu j hj => Nat.lt_of_lt_of_le (h.upvalues u hu j hj) hle

/-- An instruction at the end, or one before it. -/
theorem getElem?_push_cases {j : Instr} (h : (code.push i)[n]? = some j) :
    n < code.size ∧ code[n]? = some j ∨ n = code.size ∧ j = i := by
  rw [Array.getElem?_push] at h
  split at h
  · rename_i hn
    exact .inr ⟨hn, (Option.some.inj h).symm⟩
  · exact .inl ⟨(Array.getElem?_eq_some_iff.mp h).1, h⟩

theorem emit (h : WellFormed pool code lines captures)
    (hplain : i.closes? = none) (hi : ∀ o, i.operand? = some o → o.Denotes pool captures) :
    WellFormed pool (code.push i) (lines.push line) captures where
  lines := by rw [Array.size_push, Array.size_push, h.lines]
  operands := by
    intro n j hj
    rcases getElem?_push_cases hj with ⟨_, hold⟩ | ⟨_, rfl⟩
    · exact h.operands n j hold
    · exact hi
  closures := fun n u hu => (h.closures n u hu).push (by simp [hplain])
  upvalues := h.upvalues

theorem aim {code' : Array Instr} (h : WellFormed pool code lines captures)
    (hsize : code'.size = code.size)
    (hsame : ∀ n : Nat, code'[n]?.map Instr.operand? = code[n]?.map Instr.operand? ∧
      code'[n]?.bind Instr.closes? = code[n]?.bind Instr.closes?) :
    WellFormed pool code' lines captures where
  lines := h.lines.trans hsize.symm
  operands := by
    intro n i hi o ho
    have hop := (hsame n).1
    rw [hi, Option.map_some, ho] at hop
    obtain ⟨j, hj, hjo⟩ := Option.map_eq_some_iff.mp hop.symm
    exact h.operands n j hj o hjo
  closures := by
    intro n u hu
    unfold ClosedOnce
    simp only [fun k => (hsame k).2]
    exact h.closures n u hu
  upvalues := h.upvalues

/-- Another constant than a unit. -/
theorem push (h : WellFormed pool code lines captures)
    (hk : Codegen.isUnit k = false) : WellFormed (pool ++ [k]) code lines captures where
  lines := h.lines
  operands := fun n i hi o ho =>
    (h.operands n i hi o ho).mono (List.prefix_append ..) (Nat.le_refl _)
  closures := by
    intro n u hu
    rw [List.getElem?_append] at hu
    split at hu
    · exact h.closures n u hu
    · have hmem := List.mem_of_getElem? hu
      rw [List.mem_singleton] at hmem
      rw [← hmem] at hk
      cases hk
  upvalues := by
    intro u hu
    rcases List.mem_append.mp hu with hold | hnew
    · exact h.upvalues u hold
    · rw [← List.mem_singleton.mp hnew] at hk
      cases hk

/-- Code only closes over what is in the pool. -/
theorem closes_lt (h : WellFormed pool code lines captures) {k : Nat}
    (hk : code[k]?.bind Instr.closes? = some n) : n < pool.length := by
  obtain ⟨i, hi, hn⟩ := Option.bind_eq_some_iff.mp hk
  cases i
  case closure index d =>
    obtain ⟨u, hu, _⟩ := h.operands k _ hi (.unit index d) rfl
    rw [← Option.some.inj hn]
    exact (List.getElem?_eq_some_iff.mp hu).1
  all_goals cases hn

/-- A unit goes to the end of the pool, and the instruction that closes over it to the end of
the code. -/
theorem closeOver (h : WellFormed pool code lines captures)
    (hroom : pool.length < 65536) (hu : ∀ j, .upvalue j ∈ u.captures → j.toNat < captures) :
    WellFormed (pool ++ [.function u])
      (code.push (.closure (UInt16.ofNat pool.length) u.header.defaultCount)) (lines.push line)
      captures := by
  have hindex : (UInt16.ofNat pool.length).toNat = pool.length := UInt16.toNat_ofNat_of_lt' hroom
  have hnew : (pool ++ [Constant.function u])[pool.length]? = some (.function u) :=
    List.getElem?_concat_length
  have hcloses : (Instr.closure (UInt16.ofNat pool.length) u.header.defaultCount).closes? =
      some pool.length := congrArg some hindex
  refine ⟨?_, ?_, ?_, ?_⟩
  · rw [Array.size_push, Array.size_push, h.lines]
  · intro n i hi o ho
    rcases getElem?_push_cases hi with ⟨_, hold⟩ | ⟨_, rfl⟩
    · exact (h.operands n i hold o ho).mono (List.prefix_append ..) (Nat.le_refl _)
    · cases ho
      exact ⟨u, by rw [hindex]; exact hnew, rfl⟩
  · intro n v hv
    by_cases hn : n = pool.length
    · -- whatever was closed over before stands further down in the pool
      rw [hn]
      exact closedOnce_push hcloses fun k hk => Nat.lt_irrefl _ (h.closes_lt hk)
    · have hlt : n < (pool ++ [Constant.function u]).length := (List.getElem?_eq_some_iff.mp hv).1
      rw [List.length_append, List.length_singleton] at hlt
      rw [List.getElem?_append_left (by omega)] at hv
      refine (h.closures n v hv).push ?_
      rw [hcloses]
      exact fun heq => hn (Option.some.inj heq).symm
  · intro v hv
    rcases List.mem_append.mp hv with hold | hv
    · exact h.upvalues v hold
    · cases List.mem_singleton.mp hv
      exact hu

end WellFormed

namespace Codegen

variable {f g : Frame} {fs gs outer : List Frame} {source : CaptureSource}

/-! ## Units under construction -/

/-- What has been laid down is well-formed, and so are the units that are finished. -/
structure Frame.Formed (f : Frame) : Prop where
  own : WellFormed f.chunk.constants.toList f.chunk.code f.chunk.lines f.captures.sources.size
  units : ∀ u, .function u ∈ f.chunk.constants.toList → ∀ v ∈ u.units, v.WellFormed

/-- How many captures the nearest unit has. -/
def captureCount : List Frame → Nat
  | [] => 0
  | f :: _ => f.captures.sources.size

/-- Each unit is well-formed so far, and what it captures from the captures of the unit around
it is there. -/
def Chained : List Frame → Prop
  | [] => True
  | f :: outer => f.Formed ∧
      (∀ j, .upvalue j ∈ f.captures.sources.toList → j.toNat < captureCount outer) ∧ Chained outer

theorem captureCount_le (h : List.Forall₂ (fun f g =>
    (Frame.captures f).sources.size ≤ (Frame.captures g).sources.size) fs gs) :
    captureCount fs ≤ captureCount gs := by
  cases h with
  | nil => exact Nat.le_refl _
  | cons hf _ => exact hf

/-- A change to the current unit that adds no capture. -/
theorem Chained.withCurrent (h : Chained (f :: outer)) (hcaptures : g.captures = f.captures)
    (hg : f.Formed → g.Formed) : Chained (g :: outer) := by
  obtain ⟨hf, hsources, houter⟩ := h
  refine ⟨hg hf, ?_, houter⟩
  rw [hcaptures]
  exact hsources

theorem Frame.Formed.alike (h : f.Formed) (hsame : f.Alike g) : g.Formed := by
  obtain ⟨hown, hunits⟩ := h
  rw [← hsame.chunk] at hown hunits
  rw [← hsame.captures] at hown
  exact ⟨hown, hunits⟩

theorem Chained.alike (h : Chained fs) (hall : List.Forall₂ Frame.Alike fs gs) : Chained gs := by
  induction hall with
  | nil => trivial
  | cons hsame hrest ih =>
    obtain ⟨hf, hsources, houter⟩ := h
    refine ⟨hf.alike hsame, ?_, ih houter⟩
    rw [hsame.captures]
    intro j hj
    exact Nat.lt_of_lt_of_le (hsources j hj)
      (captureCount_le (hrest.imp fun _ _ h => h.captures ▸ Nat.le_refl _))

/-- Aiming a jump changes no operand that refers to something. -/
theorem Frame.Formed.aim (h : f.Formed) (offset : Nat) :
    (f.withChunk (f.chunk.aimJump offset)).Formed := by
  refine ⟨h.own.aim ?_ fun n => ?_, h.units⟩
  · show (Array.modify ..).size = _
    rw [Array.size_modify]
  · have hone (d : UInt32) (i : Instr) : ((i.aim? d).getD i).operand? = i.operand? ∧
        ((i.aim? d).getD i).closes? = i.closes? := by
      cases i <;> exact ⟨rfl, rfl⟩
    show (Array.modify ..)[n]?.map _ = _ ∧ (Array.modify ..)[n]?.bind _ = _
    rw [Array.getElem?_modify]
    split
    · cases f.chunk.code[n]? with
      | none => exact ⟨rfl, rfl⟩
      | some i =>
        obtain ⟨hoperand, hcloses⟩ := hone (UInt32.ofNat (f.chunk.distanceFrom offset)) i
        exact ⟨congrArg some hoperand, hcloses⟩
    · exact ⟨rfl, rfl⟩

theorem Frame.Formed.pool (h : f.Formed) (hk : isUnit k = false) :
    (f.withChunk (f.chunk.addConstant k).2).Formed := by
  rcases (f.chunk.adds_addConstant k).grows with hsame | hpush
  · rw [hsame]
    exact h
  · rw [hpush]
    refine ⟨?_, fun u hu => ?_⟩
    · show WellFormed (f.chunk.constants.push k).toList _ _ _
      rw [Array.toList_push]
      exact h.own.push hk
    · have hu' : .function u ∈ (f.chunk.constants.push k).toList := hu
      rw [Array.toList_push, List.mem_append] at hu'
      rcases hu' with hold | hnew
      · exact h.units u hold
      · rw [← List.mem_singleton.mp hnew] at hk
        cases hk

theorem Frame.Formed.emit (h : f.Formed) (hplain : i.closes? = none)
    (hi : ∀ o, i.operand? = some o → f.Denotes o) : (f.emit i line).Formed :=
  ⟨h.own.emit hplain hi, h.units⟩

/-- The finished unit, and all the units inside it. -/
theorem Frame.Formed.toUnit (h : f.Formed) : ∀ v ∈ f.toUnit.units, v.WellFormed := by
  intro v hv
  rw [CodeUnit.units_eq] at hv
  rcases List.mem_cons.mp hv with rfl | hv
  · exact h.own
  · obtain ⟨u, hu, hv⟩ := CodeUnit.mem_unitsBackwards.mp hv
    exact h.units u hu v hv

theorem Frame.Formed.closeOver (h : f.Formed)
    (hroom : f.chunk.constants.size < Chunk.poolLimit) (hunits : ∀ v ∈ u.units, v.WellFormed)
    (hu : ∀ j, .upvalue j ∈ u.captures → j.toNat < f.captures.sources.size) :
    (f.closing u u.header.defaultCount line).Formed where
  own := by
    show WellFormed (f.chunk.constants.push (.function u)).toList
      (f.chunk.code.push (.closure (UInt16.ofNat f.chunk.constants.size) _)) _ _
    rw [Array.toList_push, ← Array.length_toList]
    exact h.own.closeOver hroom hu
  units := by
    intro w hw
    have hw' : .function w ∈ (f.chunk.constants.push (.function u)).toList := hw
    rw [Array.toList_push, List.mem_append] at hw'
    rcases hw' with hold | hnew
    · exact h.units w hold
    · cases List.mem_singleton.mp hnew
      exact hunits

/-! ## Captures -/

theorem Captures.mem_add {c : Captures} {x : CaptureSource}
    (h : x ∈ (c.add source).2.sources.toList) : x ∈ c.sources.toList ∨ x = source := by
  unfold Captures.add at h
  split at h
  · exact .inl h
  · rw [Array.toList_push, List.mem_append] at h
    exact h.imp id List.mem_singleton.mp

/-- A capture is added to the current unit after the units around it have got theirs. -/
theorem Chained.addCapture {outer' : List Frame}
    (h : Chained (f :: outer)) (houter : Chained outer')
    (hle : captureCount outer ≤ captureCount outer')
    (hsource : ∀ j, source = .upvalue j → j.toNat < captureCount outer') :
    Chained ((f.addCapture source).2 :: outer') := by
  obtain ⟨hf, hsources, _⟩ := h
  refine ⟨⟨hf.own.mono (f.captures.prefix_add source).length_le, hf.units⟩, fun j hj => ?_, houter⟩
  rcases Captures.mem_add hj with hold | hnew
  · exact Nat.lt_of_lt_of_le (hsources j hold) hle
  · exact hsource j hnew.symm

theorem capture?_chained {name : String} : ∀ {outer : List Frame} {f f' : Frame} {c : Capture}
    {outer' : List Frame}, capture? name f outer = some (c, f', outer') →
      Chained (f :: outer) → Chained (f' :: outer')
  | [], _, _, _, _, h, _ => by cases h
  | parent :: outer, f, f', c, outer', h, hchained => by
    unfold capture? at h
    split at h
    · cases h
      exact hchained.addCapture hchained.2.2 (Nat.le_refl _) fun j hj => by cases hj
    · split at h
      · rename_i hinner
        cases h
        have hmore := captureCount_le ((capture?_suspended hinner).imp fun _ _ h => h.captures.length_le)
        refine hchained.addCapture (capture?_chained hinner hchained.2.2) hmore ?_
        intro j hj
        cases hj
        exact capture?_lt hinner
      · split at h
        · cases h
          exact hchained.addCapture hchained.2.2 (Nat.le_refl _) fun j hj => by cases hj
        · cases h

/-! ## Moves -/

theorem Frame.Blank.chained (h : f.Blank) (houter : Chained outer) : Chained (f :: outer) := by
  refine ⟨⟨?_, ?_⟩, ?_, houter⟩
  · rw [h.chunk, h.captures]
    exact WellFormed.empty
  · rw [h.chunk]
    intro u hu
    cases hu
  · rw [h.captures]
    intro j hj
    cases hj

theorem closes?_of_isPlain (h : i.isPlain = true) : i.closes? = none := by
  cases i <;> first | rfl | cases h

/-- Whatever the code generator does, the units under construction stay well-formed. -/
theorem Chained.move {K : Setting} (h : Chained fs) (hmove : Move K fs gs) : Chained gs := by
  cases hmove with
  | quiet halike => exact h.alike halike
  | emit hi hoperand =>
    exact h.withCurrent rfl fun hf => hf.emit (closes?_of_isPlain hi) hoperand
  | @access f outer kind i line name home _ hlt _ _ =>
    have hcloses : (kind.instr i).closes? = none := by cases kind <;> rfl
    refine h.withCurrent rfl fun hf => hf.emit hcloses fun o ho => ?_
    have hcapture : (kind.instr i).operand? = some (.capture i) := by cases kind <;> rfl
    cases hcapture.symm.trans ho
    exact hlt
  | assign hname _ =>
    refine h.withCurrent rfl fun hf => hf.emit rfl fun o ho => ?_
    cases ho
    exact ⟨_, hname⟩
  | aim => exact h.withCurrent rfl fun hf => hf.aim _
  | pool hk => exact h.withCurrent rfl fun hf => hf.pool hk
  | capture hc => exact capture?_chained hc h
  | start hf => exact hf.chained h
  | close hroom =>
    obtain ⟨hinner, hsources, houter⟩ := h
    exact houter.withCurrent rfl fun hg => hg.closeOver hroom hinner.toUnit hsources

theorem Chained.moved {K : Setting} (h : Chained fs) (hmoved : Moved K fs gs) : Chained gs := by
  induction hmoved with
  | refl => exact h
  | tail _ hmove ih => exact ih.move hmove

end Codegen

open Codegen

/-- **Everything that an instruction refers to is there.** In every unit of a compiled module
there is a line for each instruction; operands name constants of the right sort in the pool of
the unit, with the default values or inputs that the instruction says, or captures that the unit
has; every unit in the pool is closed over exactly once; and what such a unit captures from the
captures of the one around it is among them. -/
theorem compile_wellFormed {p : Program} {o : Options} {m : Module} (h : compile p o = .ok m) :
    ∀ u ∈ m.units, u.WellFormed := by
  rcases compile_cases p o with ⟨hreports, hok⟩ | ⟨-, herror⟩
  · cases h.symm.trans hok
    obtain ⟨hprogress, ⟨hunit, hlast⟩, -⟩ := progress_layProgram (fun _ => Setting.silent_allows _ _)
      (fun _ => hreports) (proper_startState (K := .silent) fun _ _ => trivial)
    have hstart : Chained (startState o).chain := Frame.Blank.chained ⟨rfl, rfl⟩ trivial
    have hall := hstart.moved (hprogress.moves trivial)
    rw [State.chain, hlast] at hall
    rw [Module.units_eq]
    show ∀ u ∈ (layProgram p o).answer.1.units, u.WellFormed
    rw [hunit]
    exact hall.1.toUnit
  · cases h.symm.trans herror

/-- A function with a default whose parameter is captured two units further in, a class with a
method, an enum whose variants are globals, and a header. -/
def declaringModule : Program :=
  let node (kind : ExprKind) : Expr := ⟨kind, .zero⟩
  let function (name : String) (params : List Param) (body : List Expr) : FunctionDecl :=
    ⟨name, [], params, none, none, none, body, false, false, .zero⟩
  let adder := function "" [] [node (.binary (node (.var "step")) .add (node (.int 1)))]
  let maker := function "" [] [node (.lambda adder)]
  let counter :=
    function "counter" [⟨"step", none, some (node (.int 1)), .zero⟩] [node (.lambda maker)]
  let get := function "get" [] [node (.var "count")]
  ⟨[node (.use ⟨"export", ["counter", "Box"], .zero⟩),
    node (.functionDecl counter),
    node (.classDecl ⟨"Box", [], none,
      [.field ⟨"count", none, some (node (.int 0)), false, false, .zero⟩,
        .method ⟨get, false, false, false⟩], none, .zero⟩),
    node (.enumDecl ⟨"Shade", [⟨"Dark", [], [], .zero⟩, ⟨"Light", [], [], .zero⟩], true, .zero⟩)]⟩

theorem compile_wellFormed_declaringModule : ∃ m, compile declaringModule {} = .ok m ∧
    m.units.map (fun u => (u.name, u.captures)) =
      [("<main>", []), ("get", []), ("counter", []), ("", [.slot 1]), ("", [.upvalue 0])] ∧
    ∀ u ∈ m.units, u.WellFormed := by
  have hunits : (compile declaringModule {}).toOption.map
      (fun m => m.units.map fun u => (u.name, u.captures)) =
      some [("<main>", []), ("get", []), ("counter", []), ("", [.slot 1]), ("", [.upvalue 0])] := by
    decide +kernel
  cases hm : compile declaringModule {} with
  | error failure =>
    rw [hm] at hunits
    cases hunits
  | ok m =>
    rw [hm] at hunits
    exact ⟨m, rfl, Option.some.inj hunits, compile_wellFormed hm⟩

end Strand
