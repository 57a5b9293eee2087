import Strand.Proofs.CaptureIndices
import Strand.Proofs.Translation.Visited

/-!
# The receiver of attributes that are named without it

In a method the receiver is the first local. Where a node stands for the receiver, or for an
attribute of it that is named without it, the receiver is pushed once: from the first slot of
the unit, or through captures that lead to the first slot of the nearest method around.

This is so as long as the program calls nothing else `this` and no method gives its receiver up.
Code generation looks the receiver up by its name, so a variable of that name is pushed in its
place; and where there is none left, nothing is pushed and nothing is reported.
-/

namespace Strand.Codegen

variable {p : Program} {s s' s'' : State} {f : Frame} {name : String} {line : UInt64} {span : Span}
  {st : Standing} {fs gs : List Frame}

/-! ## Where the receiver is -/

/-- The instruction pushes the receiver of the nearest of nested units that has one, given what
they capture. -/
inductive PushesReceiver (kinds : List UnitKind) (captures : List (List CaptureSource)) : Instr → Prop where
  | own (h : kinds.findIdx? UnitKind.hasReceiver = some 0) : PushesReceiver kinds captures (.getLocal 0)
  | captured {i : UInt16} {level : Nat} (h : kinds.findIdx? UnitKind.hasReceiver = some (level + 1))
      (hleads : leadsTo? captures i.toNat = some (level, .slot 0)) :
      PushesReceiver kinds captures (.getUpvalue i)

/-- The kinds of the units under construction, innermost first. -/
def State.kinds (s : State) : List UnitKind := s.chain.map Frame.kind

/-- The same if every capture has an index of its own. -/
def State.Receives (s : State) (push : Instr) : Prop :=
  (∀ c ∈ capturesOf s.chain, c.length ≤ 65536) → PushesReceiver s.kinds (capturesOf s.chain) push

theorem PushesReceiver.of_longer {kinds : List UnitKind} {cs cs' : List (List CaptureSource)} {push : Instr}
    (h : PushesReceiver kinds cs push) (hlonger : List.Forall₂ List.IsPrefix cs cs') :
    PushesReceiver kinds cs' push := by
  cases h with
  | own h => exact .own h
  | captured h hleads => exact .captured h (leadsTo?_of_longer hlonger hleads)

theorem map_kind_suspended (h : List.Forall₂ Frame.Suspended fs gs) :
    gs.map Frame.kind = fs.map Frame.kind := by
  induction h with
  | nil => rfl
  | cons hfg _ ih => rw [List.map_cons, List.map_cons, ih, hfg.rest]

theorem State.Kept.kinds (h : s.Kept s') : s'.kinds = s.kinds :=
  congrArg₂ List.cons h.frame.kind (map_kind_suspended h.outer)

theorem reachesReceiver_suspended (h : List.Forall₂ Frame.Suspended fs gs) :
    reachesReceiver gs = reachesReceiver fs := by
  induction h with
  | nil => rfl
  | cons hfg _ ih => rw [reachesReceiver, reachesReceiver, hfg.rest, ih]

theorem State.Kept.reachesReceiver (h : s.Kept s') :
    reachesReceiver s'.chain = reachesReceiver s.chain := by
  unfold State.chain
  rw [Codegen.reachesReceiver, Codegen.reachesReceiver, h.frame.kind, h.frame.owner,
    reachesReceiver_suspended h.outer]

theorem State.Receives.of_kept {push : Instr} (h : s.Receives push) (hkept : s.Kept s') :
    s'.Receives push := by
  intro hfits
  have hlonger := hkept.grown.moreCaptures
  rw [hkept.kinds]
  exact (h (lengths_of_longer hlonger hfits)).of_longer hlonger

/-- A unit has a local of that name just when it has a receiver. -/
theorem Frame.Sound.findLocal?_receiver (h : f.Sound p) (hkeeps : KeepsReceiver p) (hnames : Unshadowed p) :
    if f.kind.hasReceiver then ∃ l, f.findLocal? "this" = some l ∧ l.slot = 0
    else f.findLocal? "this" = none := by
  have hfound {l : Local} (hl : f.findLocal? "this" = some l) : l.slot = 0 ∧ f.kind.hasReceiver = true := by
    obtain ⟨inner, rest, hlocals, hname, -⟩ := (Frame.findLocal?_eq_some_iff (by decide)).mp hl
    have hmem : l.var ∈ f.scene.locals := List.mem_map_of_mem (hlocals ▸ by simp)
    exact h.named hnames _ hmem hname
  split
  · rename_i hreceiver
    have hsome := (h.receiver hkeeps hreceiver).found
    rw [Frame.findLocal?_scene, ne_eq, Option.map_eq_none_iff] at hsome
    obtain ⟨l, hl⟩ := Option.ne_none_iff_exists'.mp hsome
    exact ⟨l, hl, (hfound hl).1⟩
  · rename_i hreceiver
    by_contra hsome
    obtain ⟨l, hl⟩ := Option.ne_none_iff_exists'.mp hsome
    exact hreceiver (hfound hl).2

/-- Where the receiver can be reached some unit around has one. -/
theorem exists_receiver : ∀ {fs : List Frame}, reachesReceiver fs = true →
    ∃ level, (fs.map Frame.kind).findIdx? UnitKind.hasReceiver = some level
  | f :: fs, h => by
    rw [reachesReceiver] at h
    rw [List.map_cons, List.findIdx?_cons]
    cases hkind : f.kind.hasReceiver with
    | true => exact ⟨0, by simp⟩
    | false =>
      have hrest : reachesReceiver fs = true := by
        cases hk : f.kind <;> simp_all [UnitKind.hasReceiver]
      obtain ⟨level, hlevel⟩ := exists_receiver hrest
      exact ⟨level + 1, by simp [hlevel]⟩

/-- Seen from a unit inside, the receiver lives in the first slot of that one. -/
theorem home?_receiver (hkeeps : KeepsReceiver p) (hnames : Unshadowed p) :
    ∀ {outer : List Frame} {level : Nat}, (∀ g ∈ outer, g.Sound p) →
      (outer.map Frame.kind).findIdx? UnitKind.hasReceiver = some level →
      ∃ home, home? "this" outer = some home ∧ home.level = level ∧ home.source = .slot 0
  | f :: outer, level, hsound, h => by
    obtain ⟨hf, houter⟩ := List.forall_mem_cons.mp hsound
    have hlocal := hf.findLocal?_receiver hkeeps hnames
    rw [List.map_cons, List.findIdx?_cons] at h
    cases hkind : f.kind.hasReceiver with
    | true =>
      rw [hkind, if_pos rfl] at h hlocal
      obtain ⟨l, hl, hslot⟩ := hlocal
      cases h
      exact ⟨_, home?_cons_of_local hl, rfl, congrArg _ hslot⟩
    | false =>
      rw [hkind, if_neg Bool.false_ne_true] at h hlocal
      obtain ⟨level, hlevel, rfl⟩ := Option.map_eq_some_iff.mp h
      obtain ⟨home, hhome, rfl, hsource⟩ := home?_receiver hkeeps hnames houter hlevel
      exact ⟨{ home with level := home.level + 1 }, by rw [home?, hlocal, hhome], rfl, hsource⟩

/-! ## Code for the receiver -/

/-- What the code of a node is made of: an instruction that pushes the receiver, another
instruction, or the code of another node. -/
inductive Fragment where
  | receiver
  | instr (i : Instr)
  | nested (e : Expr)

/-- The code of `e` goes from `first` to `last`, in the unit that is under construction in `s0`. -/
def Spans (node : NodeCompiler) (s0 : State) (e : Expr) (first last : Nat) : Prop :=
  ∃ s : State, s0.Kept s ∧ s.frame.chunk.size = first ∧ (node e .value s).answer.2.frame.chunk.size = last

/-- From where `s0` ends to `last` the code is made of these fragments, if the receiver is pushed by
an instruction with `pushes`. -/
inductive StandsAt (node : NodeCompiler) (s0 : State) (pushes : Instr → Prop) (code : Array Instr) :
    List Fragment → Nat → Prop where
  | nothing : StandsAt node s0 pushes code [] s0.frame.chunk.size
  | receiver {xs : List Fragment} {last : Nat} {i : Instr} (h : StandsAt node s0 pushes code xs last)
      (hi : code[last]? = some i) (hplain : i.forwardDistance? = none) (hpushes : pushes i) :
      StandsAt node s0 pushes code (xs ++ [.receiver]) (last + 1)
  | instr {xs : List Fragment} {last : Nat} {i : Instr} (h : StandsAt node s0 pushes code xs last)
      (hi : code[last]? = some i) (hplain : i.forwardDistance? = none) :
      StandsAt node s0 pushes code (xs ++ [.instr i]) (last + 1)
  | nested {xs : List Fragment} {first last : Nat} {e : Expr} (h : StandsAt node s0 pushes code xs first)
      (he : Spans node s0 e first last) : StandsAt node s0 pushes code (xs ++ [.nested e]) last

variable {node : NodeCompiler} {xs : List Fragment} {i : Instr}

theorem StandsAt.mono {pushes pushes' : Instr → Prop} {code code' : Array Instr} {last : Nat}
    (h : StandsAt node s pushes code xs last) (hpushes : ∀ i, pushes i → pushes' i)
    (hcode : ∀ (o : Nat) (i : Instr), code[o]? = some i → i.forwardDistance? = none → code'[o]? = some i) :
    StandsAt node s pushes' code' xs last := by
  induction h with
  | nothing => exact .nothing
  | receiver _ hi hplain hp ih => exact .receiver ih (hcode _ _ hi hplain) hplain (hpushes _ hp)
  | instr _ hi hplain ih => exact .instr ih (hcode _ _ hi hplain) hplain
  | nested _ he ih => exact .nested ih he

/-- Between `s` and `s'` the fragments were laid down, and everything is in order. -/
structure Wrote (p : Program) (node : NodeCompiler) (s : State) (xs : List Fragment) (s' : State) : Prop where
  code : StandsAt node s s'.Receives s'.frame.chunk.code xs s'.frame.chunk.size
  kept : s.Kept s'
  proper : s'.Proper .free
  inv : Inv p s'

namespace Wrote

theorem refl (hs : s.Proper .free) (hinv : Inv p s) : Wrote p node s [] s :=
  ⟨.nothing, .refl s, hs, hinv⟩

/-- What was laid down stays there. -/
theorem older (h : Wrote p node s xs s') (hkept : s'.Kept s'') :
    StandsAt node s s''.Receives s''.frame.chunk.code xs s'.frame.chunk.size :=
  h.code.mono (fun _ hi => hi.of_kept hkept) fun o i hi _ => by
    rw [← Array.getElem?_toList] at hi ⊢
    exact getElem?_of_longer hkept.frame.code hi

/-- Nothing more is laid down. -/
theorem still (h : Wrote p node s xs s') (hkept : s'.Kept s'') (hproper : s''.Proper .free) (hinv : Inv p s'')
    (hsize : s''.frame.chunk.size = s'.frame.chunk.size) : Wrote p node s xs s'' :=
  ⟨hsize ▸ h.older hkept, h.kept.trans hkept, hproper, hinv⟩

theorem snoc (h : Wrote p node s xs s') (hi : i.isJump = false)
    (heq : s'' = s'.withFrame (s'.frame.emit i line)) {x : Fragment}
    (hx : StandsAt node s s''.Receives s''.frame.chunk.code xs s'.frame.chunk.size →
      s''.frame.chunk.code[s'.frame.chunk.size]? = some i →
      StandsAt node s s''.Receives s''.frame.chunk.code (xs ++ [x]) (s'.frame.chunk.size + 1)) :
    Wrote p node s (xs ++ [x]) s'' := by
  subst heq
  have hkept : s'.Kept (s'.withFrame (s'.frame.emit i line)) := .withFrame ((Frame.Kept.refl _).emit i line)
  have hframe := h.proper.frame
  have hsize : (s'.frame.emit i line).chunk.size = s'.frame.chunk.size + 1 := Array.size_push ..
  refine ⟨?_, h.kept.trans hkept, h.proper.withFrame ?_, (ran_emit h.inv hi line).inv⟩
  · exact hsize.symm ▸ hx (h.older hkept) Array.getElem?_push_size
  · exact ⟨⟨hframe.locals, hframe.globals, hframe.types, hframe.returnType⟩, hframe.admitted,
      hframe.settled, hframe.macros, hframe.pool⟩

theorem instr (h : Wrote p node s xs s') (hi : i.isJump = false) (hplain : i.forwardDistance? = none) :
    Ensures s' (emit i line) fun _ s'' => Wrote p node s (xs ++ [.instr i]) s'' :=
  fun _ => h.snoc hi rfl fun hcode hat => .instr hcode hat hplain

theorem push (h : Wrote p node s xs s') (hi : i.isJump = false) (hplain : i.forwardDistance? = none)
    (hreceives : s'.Receives i) :
    Ensures s' (emit i line) fun _ s'' => Wrote p node s (xs ++ [.receiver]) s'' :=
  fun _ => h.snoc hi rfl fun hcode hat => .receiver hcode hat hplain hreceives

theorem named (h : Wrote p node s xs s') :
    Ensures s' (nameConstant name span) fun _ s'' => Wrote p node s xs s'' := by
  intro hclean
  have hinv := (does_addData rfl s' h.inv hclean).inv
  rw [state_addConstant] at hinv
  unfold nameConstant
  rw [state_addConstant]
  refine h.still (.withFrame ((Frame.Kept.refl s'.frame).addConstant _))
    (h.proper.withFrame (h.proper.frame.addConstant _)) hinv ?_
  show (s'.frame.chunk.addConstant (.str name)).2.size = _
  rcases (s'.frame.chunk.adds_addConstant (.str name)).grows with hsame | hpush
  · rw [hsame]
  · rw [hpush]
    rfl

theorem checked (h : Wrote p node s xs s') {found expected : Ty} :
    Ensures s' (checkAssignable found expected span) fun _ s'' => Wrote p node s xs s'' := by
  unfold Ensures
  rw [answer_checkAssignable]
  exact fun _ => h

theorem nested {limit budget : Nat} (h : Wrote p (compileNode limit budget) s xs s')
    {e : Expr} (he : Occurs p st e) : Ensures s' (compileNode limit budget e .value) fun _ s'' =>
      Wrote p (compileNode limit budget) s (xs ++ [.nested e]) s'' := by
  intro hclean
  have hanswered : Answered .free s' (compileNode limit budget e .value s').answer :=
    answered_compileNode limit budget h.proper
  have hran := (implements_compileNode p limit budget).does he .value s' h.inv hclean
  exact ⟨.nested (h.older hanswered.kept.toKept) ⟨s', h.kept, rfl, rfl⟩, h.kept.trans hanswered.kept.toKept,
    hanswered.progress.proper, hran.inv⟩

/-- The receiver is pushed wherever it can be reached. -/
theorem receiver (h : Wrote p node s xs s') (hkeeps : KeepsReceiver p) (hnames : Unshadowed p)
    (hreach : reachesReceiver s.chain = true) :
    Ensures s' (emitReceiver line) fun r s'' => r ≠ none ∧ Wrote p node s (xs ++ [.receiver]) s'' := by
  rw [← h.kept.reachesReceiver] at hreach
  have hlocal := h.inv.frame.findLocal?_receiver hkeeps hnames
  refine Ensures.ofGet ?_
  split at hlocal
  · rename_i hkind
    obtain ⟨l, hl, hslot⟩ := hlocal
    rw [hl]
    refine (h.push rfl rfl fun _ => hslot ▸ .own ?_).bind fun _ _ h' => ensures_pure ⟨Option.some_ne_none _, h'⟩
    simp [State.kinds, State.chain, List.findIdx?_cons, hkind]
  · rename_i hkind
    rw [hlocal]
    refine Ensures.ofGet ?_
    rw [if_pos hreach]
    -- the receiver lives in a unit around, so it is captured from there
    obtain ⟨level, hlevel⟩ := exists_receiver hreach
    have hout := hlevel
    rw [State.chain, List.map_cons, List.findIdx?_cons, if_neg hkind] at hout
    obtain ⟨level, houter, rfl⟩ := Option.map_eq_some_iff.mp hout
    obtain ⟨home, hhome, rfl, hsource⟩ := home?_receiver hkeeps hnames h.inv.outer houter
    obtain ⟨⟨c, f, outer⟩, hc⟩ := Option.ne_none_iff_exists'.mp (capture?_ne_none (f := s'.frame) hhome)
    obtain ⟨home', hhome', -, -, hleads⟩ := capture?_leads hc
    cases hhome.symm.trans hhome'
    have hcaptured : Ensures s' (captureName "this") fun r s'' =>
        r = some c ∧ s''.Receives (.getUpvalue c.index) ∧ Wrote p node s xs s'' := by
      have hsuspended := capture?_suspended hc
      obtain ⟨hf, -⟩ := List.forall₂_cons.mp hsuspended
      have hquiet := (isQuiet_captureName : IsQuiet (captureName "this")) s'
      unfold Ensures
      rw [captureName_of_some hc] at hquiet ⊢
      refine fun _ => ⟨rfl, fun hfits => .captured ?_ (hsource ▸ hleads hfits),
        h.still (State.kept_of_suspended hsuspended rfl rfl)
        ⟨forall_suspended hsuspended h.proper.frames, h.proper.decls, h.proper.entered⟩ (h.inv.quiet hquiet)
        (congrArg Chunk.size hf.chunk_eq)⟩
      rw [← hlevel]
      exact congrArg _ (map_kind_suspended hsuspended)
    refine hcaptured.bind fun r s1 h1 => ?_
    obtain ⟨rfl, hreceives, hwrote⟩ := h1
    exact (hwrote.push rfl rfl hreceives).bind fun _ _ h' => ensures_pure ⟨Option.some_ne_none _, h'⟩

end Wrote

/-! ## Nodes that use the receiver -/

/-- A name that is not captured is resolved without a trace. -/
theorem ensures_resolveName_same :
    Ensures s (resolveName name) fun m s' => (∀ c, m ≠ some (.captured c)) → s' = s := by
  have hcapture : Ensures s (captureName name) fun c s' => c = none → s' = s := by
    intro _ hnone
    cases hc : capture? name s.frame s.outer with
    | none => rw [captureName_of_none hc]
    | some r =>
      rw [captureName_of_some hc] at hnone
      cases hnone
  refine Ensures.ofGet ?_
  cases findInline? name s.chain with
  | some value => exact ensures_pure fun _ => rfl
  | none =>
    refine Ensures.ofGet ?_
    cases s.frame.findLocal? name with
    | some l => exact ensures_pure fun _ => rfl
    | none =>
      -- a capture is entered in the units around, and nothing else is
      refine hcapture.bind fun c s1 hsame => ?_
      cases c with
      | some c => exact ensures_pure fun h => absurd rfl (h c)
      | none =>
        refine Ensures.ofGet ?_
        cases s1.frame.globals.find? name with
        | some g => exact ensures_pure fun _ => hsame rfl
        | none => exact Ensures.ofGet (ensures_pure fun _ => hsame rfl)

/-- The name denotes an attribute of the receiver. -/
def NamesAttribute (s : State) (name : String) : Prop :=
  ∃ ty, (resolveName name s).answer.1 = some (.ofReceiver ty)

theorem NamesAttribute.ensures (h : NamesAttribute s name) (hs : Inv p s) :
    Ensures s (resolveName name) fun m s' =>
      ∃ ty, m = some (.ofReceiver ty) ∧ s' = s ∧ reachesReceiver s.chain = true := by
  obtain ⟨ty, h⟩ := h
  intro hclean
  obtain ⟨-, hdenotes⟩ := ensures_resolveName hs hclean
  have hsame := ensures_resolveName_same hclean
  rw [h] at hdenotes hsame ⊢
  exact ⟨ty, rfl, hsame fun _ => by simp, hdenotes.2⟩

/-- The node uses the receiver. The code for it pushes the receiver, has an instruction for the
attribute, with the index of its name, and that of the value that is assigned. -/
inductive UsesReceiver (s : State) : ExprKind → (UInt16 → List Fragment) → Prop where
  | this : UsesReceiver s .this fun _ => [.receiver]
  | read {name : String} (h : NamesAttribute s name) :
      UsesReceiver s (.var name) fun i => [.receiver, .instr (.getAttr i)]
  | assign {target value : Expr} {name : String} (ht : target.kind = .var name) (h : NamesAttribute s name) :
      UsesReceiver s (.assign false target value) fun i =>
        [.receiver, .nested value, .instr (.setAttr i)]
  | weakAssign {target value : Expr} {name : String} (ht : target.kind = .var name)
      (h : NamesAttribute s name) : UsesReceiver s (.assign true target value) fun i =>
        [.nested value, .receiver, .instr .swap, .instr (.setAttr i)]
  | drop {target : Expr} {name : String} (ht : target.kind = .var name) (h : NamesAttribute s name) :
      UsesReceiver s (.drop target) fun i => [.receiver, .instr (.dropAttr i)]

variable {kind : ExprKind} {code : UInt16 → List Fragment} {limit budget : Nat}

theorem ensures_noReceiver (hs : Inv p s) (hkeeps : KeepsReceiver p) (hnames : Unshadowed p)
    (hreach : ¬ reachesReceiver s.chain = true) : Ensures s (emitReceiver line) fun r _ => r = none := by
  have hlocal := hs.frame.findLocal?_receiver hkeeps hnames
  have hkind : ¬ s.frame.kind.hasReceiver = true := by
    intro hhas
    rw [State.chain, reachesReceiver] at hreach
    cases hkind : s.frame.kind <;> simp_all [UnitKind.hasReceiver]
  rw [if_neg hkind] at hlocal
  refine Ensures.ofGet ?_
  rw [hlocal]
  refine Ensures.ofGet ?_
  rw [if_neg hreach]
  exact ensures_pure rfl

/-- A node that uses the receiver is compiled to just that. -/
theorem UsesReceiver.ensures (h : UsesReceiver s kind code) (hkeeps : KeepsReceiver p)
    (hnames : Unshadowed p) (position : Position) (hstart : Wrote p (compileNode limit budget) s [] s)
    (he : Occurs p st ⟨kind, span⟩) :
    Ensures s (compileKind (compileNode limit budget) kind position span) fun _ s' =>
      ∃ i, Wrote p (compileNode limit budget) s (code i) s' := by
  have hvalue {isWeak : Bool} {target value : Expr} (hkind : kind = .assign isWeak target value) :
      Occurs p .operand value := by
    subst hkind
    have hnodes : AllOccur p (operands [target, value]) := he.nodes
    exact hnodes.operand (by simp)
  cases h with
  | this =>
    refine Ensures.map ?_
    by_cases hreach : reachesReceiver s.chain = true
    · refine (hstart.receiver hkeeps hnames hreach).bind fun r s1 h1 => ?_
      obtain ⟨hsome, hwrote⟩ := h1
      obtain ⟨ty, rfl⟩ := Option.ne_none_iff_exists'.mp hsome
      exact ensures_pure ⟨0, hwrote⟩
    · -- without a receiver around, the node is refused
      refine (ensures_noReceiver hstart.inv hkeeps hnames hreach).bind fun r s1 h1 => ?_
      cases h1
      exact ensures_refused_bind (by simp [Cause.kind])
  | read h =>
    refine Ensures.map ((h.ensures hstart.inv).bind fun m s1 h1 => ?_)
    obtain ⟨ty, rfl, rfl, hreach⟩ := h1
    refine (hstart.receiver hkeeps hnames hreach).bind fun r s2 h2 => ?_
    refine h2.2.named.bind fun i s3 h3 => ?_
    exact (h3.instr rfl rfl).bind fun _ _ h4 => ensures_pure ⟨i, h4⟩
  | assign ht h =>
    refine Ensures.map ?_
    simp only [compileAssign, ht]
    refine (h.ensures hstart.inv).bind fun m s1 h1 => ?_
    obtain ⟨ty, rfl, rfl, hreach⟩ := h1
    refine hstart.named.bind fun i s2 h2 => ?_
    refine (h2.receiver hkeeps hnames hreach).bind fun r s3 h3 => ?_
    refine (h3.2.nested (hvalue rfl)).bind fun ty s4 h4 => ?_
    refine h4.checked.bind fun _ s5 h5 => ?_
    rw [pure_bind]
    exact (h5.instr rfl rfl).bind fun _ _ h6 => ensures_pure ⟨i, h6⟩
  | weakAssign ht h =>
    refine Ensures.map ?_
    simp only [compileAssign, ht]
    refine (h.ensures hstart.inv).bind fun m s1 h1 => ?_
    obtain ⟨ty, rfl, rfl, hreach⟩ := h1
    refine hstart.named.bind fun i s2 h2 => ?_
    -- the value comes first here, so the two are swapped
    refine (h2.nested (hvalue rfl)).bind fun ty s3 h3 => ?_
    refine (h3.receiver hkeeps hnames hreach).bind fun r s4 h4 => ?_
    refine (h4.2.instr rfl rfl).bind fun _ s5 h5 => ?_
    rw [pure_bind]
    exact (h5.instr rfl rfl).bind fun _ _ h6 => ensures_pure ⟨i, h6⟩
  | drop ht h =>
    refine Ensures.bind (Q := fun _ s' => ∃ i, Wrote p (compileNode limit budget) s
      [.receiver, .instr (.dropAttr i)] s') ?_ fun _ _ h => ensures_pure h
    simp only [compileDrop, ht]
    refine (h.ensures hstart.inv).bind fun m s1 h1 => ?_
    obtain ⟨ty, rfl, rfl, hreach⟩ := h1
    refine (hstart.receiver hkeeps hnames hreach).bind fun r s2 h2 => ?_
    refine h2.2.named.bind fun i s3 h3 => ?_
    exact (h3.instr rfl rfl).imp fun _ _ h4 => ⟨i, h4⟩

/-! ## Instructions in a finished module -/

variable {o : Options} {m : Module} {n : Nat} {e : Expr} {position : Position}

/-- What follows where a node leaves a value that is not wanted, or none. -/
def Leaving.settled : Leaving → Position → List Fragment
  | .value, .effect => [.instr .pop]
  | .nothing, .value => [.instr .pushNull]
  | _, _ => []

theorem Wrote.settle (h : Wrote p node s xs s') (left : Left) (position : Position) :
    Ensures s' (settle left position line) fun _ s'' =>
      Wrote p node s (xs ++ left.leaving.settled position) s'' := by
  cases left <;> cases position
  case value.effect | nothing.value => exact (h.instr rfl rfl).bind fun _ _ h' => ensures_pure h'
  all_goals exact ensures_pure ((List.append_nil xs).symm ▸ h)

theorem UsesReceiver.entered (h : UsesReceiver s e.kind code) (hkeeps : KeepsReceiver p)
    (hnames : Unshadowed p) (hs : s.Proper .free) (horder : InOrder p e s) (limit budget : Nat)
    (position : Position) :
    Ensures s (compileEntered e position (compileNode limit budget)) fun _ s' => ∃ i,
      Wrote p (compileNode limit budget) s (code i ++ (leaving e.kind).settled position) s' := by
  obtain ⟨⟨st, he⟩, hinv⟩ := horder
  obtain ⟨kind, span⟩ := e
  have hstart : Wrote p (compileNode limit budget) s [] s := .refl hs hinv
  have hcode := h.ensures hkeeps hnames position hstart he
  have hleft := lays_kind (implements_compileNode p limit budget) he position s hinv
  have hboth : Ensures s (compileKind (compileNode limit budget) kind position span) fun left s' =>
      left.leaving = leaving kind ∧ ∃ i, Wrote p (compileNode limit budget) s (code i) s' :=
    fun hclean => ⟨(hleft hclean).1, hcode hclean⟩
  refine hboth.bind fun left s1 h1 => ?_
  obtain ⟨heq, i, hwrote⟩ := h1
  exact (hwrote.settle left position).imp fun _ _ h2 => ⟨i, heq ▸ h2⟩

/-- **The receiver is pushed.** Wherever a node stands for the receiver or names an attribute of it
without it, the finished unit pushes the receiver for it, once: from its first slot, or through
captures that lead to the first slot of the nearest method around. -/
theorem receiver_pushed (h : compile p o = .ok m) (hkeeps : KeepsReceiver p) (hnames : Unshadowed p)
    (hfits : ∀ u ∈ m.units, u.captures.length ≤ 65536) (hv : Visited p o n e position s)
    (huses : UsesReceiver s.enter e.kind code) :
    ∃ u us i, m.main.unitsAt? (addressOf s.outer) = some (u :: us) ∧
      StandsAt (compilerAt o (n + 1)) s.enter (PushesReceiver s.kinds ((u :: us).map CodeUnit.captures)) u.code
        (code i ++ (leaving e.kind).settled position)
        (compilerAt o n e position s).answer.2.frame.chunk.size := by
  obtain ⟨hentered, -, -, -, u, us, hat, hus⟩ := endsAs_of_visited h hv
  have hclean : Clean (layProgram p o).reports := by
    rw [← diagnosticsOf_compile, h]
    exact fun d hd => absurd hd List.not_mem_nil
  rw [Module.units_eq] at hfits
  obtain ⟨hoccurs, hinv⟩ := hv.inOrder hclean
  have hlaid := huses.entered hkeeps hnames hv.proper.enter ⟨hoccurs, hinv.quiet (quiet_enter s)⟩
    o.maxNestingDepth.toNat (o.maxNestingDepth.toNat + 1 - (n + 1)) position
  have hclean' := hv.clean hclean
  rw [hentered] at hclean' hus ⊢
  obtain ⟨i, hwrote⟩ := hlaid hclean'
  -- what was laid down stays in the finished unit, which captures more at most
  have hfits' := captures_of_unitsAt? hat hfits
  obtain ⟨hfu, -⟩ := List.forall₂_cons.mp hus
  refine ⟨u, us, i, hat, hwrote.code.mono (fun push hpush => ?_) hfu.grows.code⟩
  have hkinds : _ = s.kinds := hwrote.kept.kinds
  rw [← hkinds]
  have hlonger := capturesOf_endsAs hus
  exact (hpush (lengths_of_longer hlonger hfits')).of_longer hlonger

/-- A class with an attribute `x` and a method with this body. -/
def methodOnly (body : List Expr) : Program :=
  ⟨[⟨.classDecl
    { name := "C", generics := [], parent := none, constructor := none, span := .zero
      members := [.field ⟨"x", none, none, false, false, .zero⟩,
        .method ⟨plainFunction "m" [] body, false, false, false⟩] }, .zero⟩]⟩

/-- A method that gives a function which reads the attribute. -/
def readInside : Program := methodOnly [⟨.lambda (plainFunction "" [] [⟨.var "x", .zero⟩]), .zero⟩]

/-- The node names the attribute `x`, in a unit that is not the method itself. -/
def readsOutside (e : Expr) (s : State) : Bool :=
  match e.kind, (resolveName "x" s.enter).answer.1 with
  | .var name, some (.ofReceiver _) => name == "x" && s.kinds == [.lambda, .method, .module]
  | _, _ => false

theorem receiver_pushed_readInside : ∃ m, compile readInside {} = .ok m ∧ KeepsReceiver readInside ∧
    Unshadowed readInside ∧ ∃ n e position s u us i, Visited readInside {} n e position s ∧
      e.kind = .var "x" ∧ s.kinds = [.lambda, .method, .module] ∧
      m.main.unitsAt? (addressOf s.outer) = some (u :: us) ∧
      StandsAt (compilerAt {} (n + 1)) s.enter (PushesReceiver s.kinds ((u :: us).map CodeUnit.captures)) u.code
        ([.receiver, .instr (.getAttr i)] ++ (leaving e.kind).settled position)
        (compilerAt {} n e position s).answer.2.frame.chunk.size := by
  have hreports : (layProgram readInside {}).reports = [] := by decide +kernel
  have hfits : ∀ u ∈ (⟨"<main>", (layProgram readInside {}).answer.1⟩ : Module).units,
      u.captures.length ≤ 65536 := by decide +kernel
  have hend : (readInside.nodesAt 5).isEmpty = true := by decide +kernel
  have hkeeps : KeepsReceiver readInside := keepsReceiver_of_nodesAt hend (by decide +kernel)
  have hnames : Unshadowed readInside := fun _ _ he => forall_occurs hend
    (P := fun x => "this" ∉ x.2.kind.variables) (by decide +kernel) he
  have hfinds : finds readsOutside readInside {} = true := by decide +kernel
  obtain ⟨n, e, position, s, hv, hlook⟩ := (finds_iff hreports).mp hfinds
  refine ⟨_, compile_eq_ok hreports, hkeeps, hnames, n, e, position, s, ?_⟩
  obtain ⟨kind, span⟩ := e
  unfold readsOutside at hlook
  split at hlook
  · rename_i name ty hkind hresolved
    cases hkind
    rw [Bool.and_eq_true, beq_iff_eq, beq_iff_eq] at hlook
    obtain ⟨rfl, hkinds⟩ := hlook
    obtain ⟨u, us, i, hat, hstands⟩ := receiver_pushed (compile_eq_ok hreports) hkeeps hnames hfits hv
      (.read ⟨ty, hresolved⟩)
    exact ⟨u, us, i, hv, rfl, hkinds, hat, hstands⟩
  · cases hlook

/-- A method that gives up its receiver and reads the attribute then. -/
def readAfterDrop : Program := methodOnly [⟨.drop ⟨.var "this", .zero⟩, .zero⟩, ⟨.var "x", .zero⟩]

/-- A method that gives a function which reads the attribute and has a parameter `this`. -/
def readBesideParameter : Program :=
  methodOnly [⟨.lambda (plainFunction "" ["this"] [⟨.var "x", .zero⟩]), .zero⟩]

theorem exists_unit_of_layProgram {k : Nat} {code : Array Instr} (hreports : (layProgram p {}).reports = [])
    (hcode : (Module.units ⟨"<main>", (layProgram p {}).answer.1⟩)[k]?.map CodeUnit.code = some code) :
    ∃ m u, compile p {} = .ok m ∧ u ∈ m.units ∧ u.code = code := by
  obtain ⟨u, hu, rfl⟩ := Option.map_eq_some_iff.mp hcode
  exact ⟨_, u, compile_eq_ok hreports, List.mem_of_getElem? hu, rfl⟩

/-- For the attribute nothing is pushed in one of them, and the parameter in the other. -/
theorem receiver_not_pushed :
    (∃ m u, compile readAfterDrop {} = .ok m ∧ u ∈ m.units ∧
      u.code = #[.dropLocal 0, .getAttr 0, .ret]) ∧
    ∃ m u, compile readBesideParameter {} = .ok m ∧ u ∈ m.units ∧
      u.code = #[.getLocal 1, .getAttr 0, .ret] :=
  ⟨exists_unit_of_layProgram (k := 1) (by decide +kernel) (by decide +kernel),
    exists_unit_of_layProgram (k := 2) (by decide +kernel) (by decide +kernel)⟩

end Strand.Codegen
