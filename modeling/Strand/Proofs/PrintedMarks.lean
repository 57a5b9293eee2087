import Strand.Proofs.CallArity
import Strand.Proofs.Moves.Units
import Strand.Proofs.TypeText

/-!
# Marks in the text of a signature

A signature is written with a star behind the rest parameter and a question mark behind each
parameter that may be left out. Which those are is counted from the end of the list, and the
rest parameter is counted too: where a function has both, its first optional parameter is
written like one that is required. Where it does not have both, the marks are those of the
declaration, and functions that require different numbers of arguments are written differently.
-/

namespace Strand

open TypeExpr Codegen

/-! ## Marks -/

variable {decl : FunctionDecl}

/-- The mark of the last optional parameter is taken by the rest parameter. -/
theorem TypeExpr.marksOf_true (defaultCount n : Nat) :
    marksOf true defaultCount (n + 1) = marksOf false (defaultCount - 1) n ++ [.rest] := by
  rw [marksOf, List.range_succ, List.map_append, List.map_singleton, markAt_eq_rest.mpr ⟨rfl, rfl⟩, marksOf]
  congr 1
  refine List.map_congr_left fun i hi => ?_
  have hin := List.mem_range.mp hi
  have hlast : (true && i + 1 == n + 1) = false := by simp; omega
  have hsame : n + 1 - min defaultCount (n + 1) ≤ i ↔ n - min (defaultCount - 1) n ≤ i := by omega
  simp only [markAt, hlast, Bool.false_and, Bool.false_eq_true, if_false, hsame]

/-- How a parameter should be marked. -/
def Param.mark (q : Param) : Mark := if q.default.isSome then .optional else .plain

/-- How the parameters of a function should be marked. -/
def FunctionDecl.marks (decl : FunctionDecl) : List Mark :=
  decl.params.map Param.mark ++ decl.varargs.toList.map fun _ => .rest

/-- No parameter is required after one that may be left out. -/
def DefaultsLast (params : List Param) : Prop :=
  ∀ q ∈ params.dropWhile fun q => q.default.isNone, q.default.isSome = true

theorem DefaultsLast.map_mark : ∀ {params : List Param}, DefaultsLast params →
    params.map Param.mark =
      List.replicate (params.filter fun q => q.default.isNone).length .plain ++
        List.replicate (params.filter fun q => q.default.isSome).length .optional
  | [], _ => rfl
  | q :: params, h => by
    unfold DefaultsLast at h
    cases hq : q.default with
    | none =>
      have hrest : DefaultsLast params := fun q' hq' => h q' (by simpa [hq] using hq')
      simp [Param.mark, hq, hrest.map_mark, List.replicate_succ]
    | some e =>
      have hall : ∀ q' ∈ q :: params, q'.default.isSome = true := by simpa [hq] using h
      have hmarks : (q :: params).map Param.mark = (q :: params).map fun _ => Mark.optional :=
        List.map_congr_left fun q' hq' => if_pos (hall q' hq')
      have hnone : (q :: params).filter (fun q => q.default.isNone) = [] :=
        List.filter_eq_nil_iff.mpr fun q' hq' => by simp [Option.isSome_iff_ne_none.mp (hall q' hq')]
      rw [hmarks, hnone, List.filter_eq_self.mpr hall, List.map_const']
      rfl

/-- The parameters as they stand in the text. -/
def Signature.paramTexts (sig : Signature) : List String :=
  markParams sig.hasVarargs sig.defaultCount (Ty.texts sig.params)

theorem Signature.text_eq (sig : Signature) :
    sig.text = sig.result.text ++ "<" ++ ", ".intercalate sig.paramTexts ++ ">" := by
  cases sig
  rw [text]
  rfl

/-- The marks in the text. -/
def Signature.marks (sig : Signature) : List Mark :=
  marksOf sig.hasVarargs sig.defaultCount sig.params.length

/-- A parameter with its mark. -/
def TypeExpr.Mark.after (text : String) (mark : Mark) : String := text ++ mark.text

theorem Signature.paramTexts_eq (sig : Signature) :
    sig.paramTexts = List.zipWith Mark.after (Ty.texts sig.params) sig.marks := by
  rw [paramTexts, markParams_eq, Ty.length_texts]
  rfl

/-- The marks are right unless there are both optional parameters and a rest parameter. -/
theorem Codegen.marks_functionSignature (h : DefaultsLast decl.params) (s : State) :
    (functionSignature decl s).answer.1.marks = decl.marks ↔
      (decl.varargs.isSome = true → decl.defaults = []) := by
  have hcount := length_required_add_defaults decl
  have hmarks : (functionSignature decl s).answer.1.marks =
      marksOf decl.varargs.isSome (decl.params.filter fun q => q.default.isSome).length
        (functionSignature decl s).answer.1.params.length := rfl
  rw [hmarks, length_params_functionSignature, FunctionDecl.marks, h.map_mark,
    ← List.length_eq_zero_iff, length_defaults]
  generalize (decl.params.filter fun q => q.default.isSome).length = d at hcount ⊢
  generalize (decl.params.filter fun q => q.default.isNone).length = r at hcount ⊢
  have hplain : r = decl.params.length - d := by omega
  cases decl.varargs with
  | none =>
    refine iff_of_true ?_ fun hsome => (Bool.false_ne_true hsome).elim
    rw [hplain]
    exact (marksOf_false (by omega)).trans (List.append_nil _).symm
  | some q =>
    show marksOf true d (decl.params.length + 1) = _ ++ [Mark.rest] ↔ (true = true → d = 0)
    rw [marksOf_true, List.append_left_inj, marksOf_false (by omega), hplain]
    refine ⟨fun heq _ => ?_, fun hd => by rw [hd rfl]⟩
    have hoptional := congrArg (List.count Mark.optional) heq
    simp [List.count_append, List.count_replicate] at hoptional
    omega

/-! ## Reading the marks off the text -/

/-- The text does not end like a mark. -/
def Unmarked (text : String) : Prop :=
  text.toList.getLast? ≠ some '*' ∧ text.toList.getLast? ≠ some '?'

instance (text : String) : Decidable (Unmarked text) := inferInstanceAs (Decidable (_ ∧ _))

theorem Unmarked.getLast?_after {t : String} (h : Unmarked t) (mark : Mark) :
    ((mark.after t).toList.getLast? = some '*' ↔ mark = .rest) ∧
      ((mark.after t).toList.getLast? = some '?' ↔ mark = .optional) := by
  cases mark with
  | plain => simpa [Mark.after, Mark.text, Unmarked] using h
  | rest => simp [Mark.after, Mark.text]
  | optional => simp [Mark.after, Mark.text]

theorem Unmarked.mark_eq {t t' : String} {mark mark' : Mark} (h : Unmarked t) (h' : Unmarked t')
    (heq : mark.after t = mark'.after t') : mark = mark' := by
  obtain ⟨hrest, hoptional⟩ := h.getLast?_after mark
  obtain ⟨hrest', hoptional'⟩ := h'.getLast?_after mark'
  rw [heq, hrest'] at hrest
  rw [heq, hoptional'] at hoptional
  cases mark with
  | plain => cases mark' <;> simp_all
  | rest => exact (hrest.mpr rfl).symm
  | optional => exact (hoptional.mpr rfl).symm

theorem marks_eq_of_zipWith : ∀ {ts ts' : List String} {marks marks' : List Mark},
    (∀ t ∈ ts, Unmarked t) → (∀ t ∈ ts', Unmarked t) → ts.length = marks.length →
    ts'.length = marks'.length → List.zipWith Mark.after ts marks = List.zipWith Mark.after ts' marks' →
    marks = marks'
  | [], [], [], [], _, _, _, _, _ => rfl
  | t :: ts, t' :: ts', mark :: marks, mark' :: marks', h, h', hl, hl', heq => by
    obtain ⟨hhead, htail⟩ := List.cons.inj heq
    obtain ⟨ht, hts⟩ := List.forall_mem_cons.mp h
    obtain ⟨ht', hts'⟩ := List.forall_mem_cons.mp h'
    rw [ht.mark_eq ht' hhead, marks_eq_of_zipWith hts hts' (Nat.succ.inj hl) (Nat.succ.inj hl') htail]
  | [], _ :: _, [], _ :: _, _, _, _, _, heq => nomatch heq
  | _ :: _, [], _ :: _, [], _, _, _, _, heq => nomatch heq

/-! ## Declarations that compile -/

namespace Codegen

variable {α β : Type} {act : Build α} {f : α → Build β} {P : Prop}

/-- The part reports something unless this holds. -/
def Insists (act : Build α) (P : Prop) : Prop := ∀ s, (act s).reports = [] → P

theorem Insists.first (h : Insists act P) : Insists (act >>= f) P :=
  fun s hnone => h s (List.append_eq_nil_iff.mp hnone).1

theorem Insists.later (h : ∀ a, Insists (f a) P) : Insists (act >>= f) P :=
  fun _ hnone => h _ _ (List.append_eq_nil_iff.mp hnone).2

theorem Insists.withPlaceholders (h : Insists act P) (names : List String) :
    Insists (withPlaceholders names act) P :=
  .later fun _ => .later fun _ => h.first

theorem Insists.ofMem {γ : Type} {act : γ → Build Unit} {x : γ} (h : Insists (act x) P) :
    ∀ {xs : List γ}, x ∈ xs → Insists (xs.forM act) P
  | y :: xs, hx => by
    rcases List.mem_cons.mp hx with rfl | hx
    · exact Insists.first h
    · exact Insists.later fun _ => ofMem h hx

theorem insists_checkDefaultsLast (params : List Param) :
    Insists (checkDefaultsLast params) (DefaultsLast params) := by
  intro s hnone q hq
  refine Insists.ofMem (x := q) (fun s hnone => ?_) hq s hnone
  by_contra hdefault
  simp [Option.not_isSome_iff_eq_none.mp hdefault, report, Cause.kind] at hnone

end Codegen

/-- The code of the function is laid down somewhere without a report. -/
def FunctionDecl.Compiles (decl : FunctionDecl) : Prop :=
  ∃ node kind sig owner s, (emitFunction node decl kind sig owner s).reports = []

/-- Of a function that compiles, only the last parameters have defaults. -/
theorem FunctionDecl.Compiles.defaultsLast (h : decl.Compiles) : DefaultsLast decl.params := by
  obtain ⟨node, kind, sig, owner, s, hnone⟩ := h
  exact (insists_checkDefaultsLast decl.params).first s hnone

namespace Codegen

variable {node : NodeCompiler} {decl : FunctionDecl} {m : MethodDecl} {c : ClassRef}
  {cls : ClassDecl}

theorem insists_emitFunction {kind : UnitKind} {sig : Signature} {owner : Option ClassRef} :
    Insists (emitFunction node decl kind sig owner) decl.Compiles :=
  fun s hnone => ⟨node, kind, sig, owner, s, hnone⟩

/-- Methods are found again among the members whose types are known. -/
theorem exists_method_mapM {members : List MemberDecl} (h : .method m ∈ members) (s : State) :
    ∃ sig, TypedMember.method m sig ∈ (members.mapM (declareMember c) s).answer.1 := by
  induction members generalizing s with
  | nil => cases h
  | cons a members ih =>
    rw [List.mapM_cons]
    rcases List.mem_cons.mp h with rfl | h
    · have hfirst : (declareMember c (.method m) s).answer.1 =
          .method m (methodSignature m.function s).answer.1 := by
        dsimp only [declareMember]
        cases m.isOperator <;> rfl
      exact ⟨_, List.mem_cons.mpr (.inl hfirst.symm)⟩
    · exact (ih h _).imp fun sig hsig => .tail _ hsig

theorem insists_classValue (h : .method m ∈ cls.members) :
    Insists (compileClassValue node cls c) m.function.Compiles := by
  rw [compileClassValue_eq]
  refine .withPlaceholders (fun s hnone => ?_) _
  have hmembers : (declareMembers cls c s).answer.1 =
      (cls.members.mapM (declareMember c) s).answer.1 := by
    unfold declareMembers
    cases cls.constructor <;> rfl
  obtain ⟨sig, hsig⟩ := exists_method_mapM (c := c) h s
  rw [← hmembers] at hsig
  have hmethod : Insists (compileMemberValue node c (.method m sig)) m.function.Compiles :=
    .withPlaceholders insists_emitFunction _
  have hrest := (List.append_eq_nil_iff.mp hnone).2
  cases hparent : cls.parent with
  | none =>
    rw [hparent] at hrest
    exact (hmethod.ofMem (List.mem_reverse.mpr hsig)).first _ hrest
  | some name =>
    rw [hparent] at hrest
    exact (Insists.later fun _ => (hmethod.ofMem (List.mem_reverse.mpr hsig)).first) _ hrest

theorem insists_class (h : .method m ∈ cls.members) :
    Insists (compileClass node cls) m.function.Compiles := by
  have hrest (place : Place) (parent : Option ClassRef) : Insists (do
      let c ← enterClass cls parent
      modifyFrame fun f => { f with types := f.types.define cls.name (.classObject c) }
      place.retype cls.name (.classObject c)
      compileClassValue node cls c
      place.store cls.span.line) m.function.Compiles := by
    refine .later fun c => .later fun _ => .later fun _ => ?_
    exact (insists_classValue h).first
  refine .later fun place => ?_
  cases cls.parent with
  | none => exact hrest place none
  | some name => exact .later fun parent => hrest place parent

end Codegen

/-- The functions that a node lays down, apart from a constructor. -/
def ExprKind.laid : ExprKind → List FunctionDecl
  | .functionDecl decl | .lambda decl => [decl]
  | .decorated _ target =>
    match target.kind with
    | .functionDecl decl => [decl]
    | _ => []
  | .classDecl decl => decl.members.filterMap fun
    | .method m => some m.function
    | .field _ => none
  | _ => []

theorem Codegen.insists_kind {node : NodeCompiler} {kind : ExprKind}
    (h : decl ∈ kind.laid) (position : Position) (span : Span) :
    Insists (compileKind node kind position span) decl.Compiles := by
  cases kind with
  | functionDecl d =>
    cases List.mem_singleton.mp h
    -- the steps before the function may report what they like; if they do, nothing is insisted on
    refine Insists.first (.withPlaceholders (.later fun sig => .later fun place => ?_) _)
    exact insists_emitFunction.first
  | lambda d =>
    cases List.mem_singleton.mp h
    have hlambda : Insists (compileLambda node decl) decl.Compiles :=
      .withPlaceholders (.later fun sig => insists_emitFunction.first) _
    exact fun s hnone => hlambda s (reports_map s ▸ hnone)
  | decorated decorator target =>
    obtain ⟨kind, _⟩ := target
    cases kind with
    | functionDecl d =>
      cases List.mem_singleton.mp h
      refine Insists.first (.withPlaceholders (.later fun sig => .later fun place => .later fun ty => ?_) _)
      exact insists_emitFunction.first
    | _ => cases h
  | classDecl cls =>
    obtain ⟨m, hm, hdecl⟩ := List.mem_filterMap.mp h
    cases m with
    | field f => cases hdecl
    | method m =>
      cases hdecl
      exact (insists_class hm).first
  | _ => cases h

/-- The functions of a program that compiles compile. -/
theorem compiles_of_visited {p : Program} {o : Options} {m : Module} {n : Nat} {e : Expr}
    {position : Position} {s : State} (h : compile p o = .ok m) (hv : Visited p o n e position s)
    (hdecl : decl ∈ e.kind.laid) : decl.Compiles := by
  obtain ⟨hentered, -, hreports, -⟩ := endsAs_of_visited h hv
  rw [hentered] at hreports
  have hinsists : Insists (compileEntered e position (compilerAt o (n + 1))) decl.Compiles :=
    (insists_kind hdecl position e.span).first
  exact hinsists s.enter hreports

/-! ## The text of a signature -/

/-- **The marks in a signature.** The text of the signature of a function that compiles has behind
each parameter the mark that the declaration calls for, unless the function has both optional
parameters and a rest parameter. Functions that do not, and whose types are not named like a
mark, require the same number of arguments if their parameters are written alike. -/
theorem signature_marks {decl : FunctionDecl} (h : decl.Compiles) (s : State) :
    let sig := (functionSignature decl s).answer.1
    sig.text = sig.result.text ++ "<" ++ ", ".intercalate sig.paramTexts ++ ">" ∧
    sig.paramTexts = List.zipWith Mark.after (Ty.texts sig.params) sig.marks ∧
    (sig.marks = decl.marks ↔ (decl.varargs.isSome = true → decl.defaults = [])) ∧
    ∀ decl' s', decl'.Compiles →
      let sig' := (functionSignature decl' s').answer.1
      sig.marks = decl.marks → sig'.marks = decl'.marks →
      (∀ t ∈ Ty.texts sig.params, Unmarked t) → (∀ t ∈ Ty.texts sig'.params, Unmarked t) →
      sig.paramTexts = sig'.paramTexts → sig.requiredArity = sig'.requiredArity := by
  intro sig
  refine ⟨sig.text_eq, sig.paramTexts_eq, marks_functionSignature h.defaultsLast s, ?_⟩
  intro decl' s' h' sig' hright hright' hnames hnames' heq
  have hlength (f : Signature) : (Ty.texts f.params).length = f.marks.length := by
    rw [Ty.length_texts, Signature.marks, length_marksOf]
  rw [sig.paramTexts_eq, sig'.paramTexts_eq] at heq
  have hmarks := marks_eq_of_zipWith hnames hnames' (hlength sig) (hlength sig') heq
  rw [hright, hright', FunctionDecl.marks, FunctionDecl.marks, h.defaultsLast.map_mark,
    h'.defaultsLast.map_mark] at hmarks
  have hplain := congrArg (List.count Mark.plain) hmarks
  rw [requiredArity_functionSignature, requiredArity_functionSignature]
  simpa [List.count_append, List.count_replicate] using hplain

theorem compiles_alone (h : (layProgram (alone decl) {}).reports = []) : decl.Compiles :=
  compiles_of_visited (compile_eq_ok h) (visited_first rfl) (.head _)

/-- A function `f` with these parameters, which may be left out as told. -/
def withParams (params : List (String × Bool)) (varargs : Option String) : FunctionDecl :=
  { name := "f", generics := [], kwargs := none, returnType := none, body := []
    params := params.map fun q => ⟨q.1, none, if q.2 then some ⟨.int 1, .zero⟩ else none, .zero⟩
    varargs := varargs.map fun name => ⟨name, none, none, .zero⟩
    isAsync := false, catchesResult := false, span := .zero }

theorem signature_marks_optional :
    let decl := withParams [("number", false), ("digits", true)] none
    let decl' := withParams [("text", false), ("width", true)] none
    (decl.Compiles ∧ decl'.Compiles) ∧
    (functionSignature decl default).answer.1.text = "any<any, any?>" ∧
    (functionSignature decl default).answer.1.marks = decl.marks ∧
    (functionSignature decl default).answer.1.requiredArity =
      (functionSignature decl' default).answer.1.requiredArity := by
  intro decl decl'
  have h : decl.Compiles := compiles_alone (by decide +kernel)
  have h' : decl'.Compiles := compiles_alone (by decide +kernel)
  have hnames : ∀ t ∈ ["any", "any"], Unmarked t := by decide
  obtain ⟨-, -, hmarks, harity⟩ := signature_marks h default
  obtain ⟨-, -, hmarks', -⟩ := signature_marks h' default
  have hright := hmarks.mpr fun h => (Bool.false_ne_true h).elim
  have hright' := hmarks'.mpr fun h => (Bool.false_ne_true h).elim
  exact ⟨⟨h, h'⟩, by decide +kernel, hright,
    harity decl' default h' hright hright' hnames hnames (by decide +kernel)⟩

/-- With a rest parameter an optional parameter is written like a required one: the tables of the
two modules say the same of functions that require different numbers of arguments. -/
theorem same_text_with_rest :
    let decl := withParams [("first", false), ("second", true)] (some "others")
    let decl' := withParams [("first", false), ("second", false)] (some "others")
    (∃ m, compile (alone decl) {} = .ok m ∧
      (m.main.manifest.globals.find? "f").map GlobalInfo.typeName = some "any<any, any, any*>") ∧
    (∃ m, compile (alone decl') {} = .ok m ∧
      (m.main.manifest.globals.find? "f").map GlobalInfo.typeName = some "any<any, any, any*>") ∧
    (functionSignature decl default).answer.1.requiredArity = 1 ∧
    (functionSignature decl' default).answer.1.requiredArity = 2 := by
  intro decl decl'
  exact ⟨⟨_, compile_eq_ok (by decide +kernel), by decide +kernel⟩,
    ⟨_, compile_eq_ok (by decide +kernel), by decide +kernel⟩, by decide +kernel, by decide +kernel⟩

end Strand
