import Strand.Proofs.JumpIntegrity
import Strand.Proofs.StackDiscipline

/-!
# Variables keep their values

A variable is read from the slot that its value was declared in, and on the way from its
declaration to where it is read no instruction takes the value off the stack or puts
another in its place, assignments to the variable apart. This holds on every path through
a unit when what leaves a local stands in bodies or as a first operand.

It fails for a declaration in another operand. The code around it then addresses values
by their distance from the top, with a local among them that it does not count.
-/

namespace Strand

open Codegen

variable {u : CodeUnit} {source : Source} {layout : Tree} {entry : List Resident}
  {view : Nat → View}

namespace CodeUnit

variable {path : List (Nat × Int)}

/-- A path through the unit from its entry, given by the offsets and heights that it
passes, the last first. -/
inductive Path (u : CodeUnit) : List (Nat × Int) → Prop where
  | entry : Path u [(0, 1 + u.header.totalArity.toNat)]
  | step {o o' : Nat} {h h' : Int} {rest : List (Nat × Int)} (hpath : Path u ((o, h) :: rest))
      (he : Edge u.code o h o' h') : Path u ((o', h') :: (o, h) :: rest)

/-- At the end of a path the slot of a variable holds its value: the unit was entered with
it, or it was on top of the stack where the variable was declared, and from there on the
path leaves it alone. Only code that writes to the variable by its name puts another
value in its place. -/
inductive Holds (u : CodeUnit) (source : Source) (layout : Tree) (r : Resident) :
    List (Nat × Int) → Prop where
  | entry {h : Int} (hname : source.nameIn r.slot.toNat = some r.name) :
      Holds u source layout r [(0, h)]
  | declared {o : Nat} {h : Int} {rest : List (Nat × Int)}
      (hplace : (o, r.name) ∈ layout.declares source.binds 0) (htop : (r.slot.toNat : Int) + 1 = h) :
      Holds u source layout r ((o, h) :: rest)
  | spared {o o' : Nat} {h h' : Int} {rest : List (Nat × Int)} {i : Instr}
      (hheld : Holds u source layout r ((o, h) :: rest)) (hi : u.code[o]? = some i)
      (hbelow : (r.slot.toNat : Int) + i.takes < h)
      (hwrites : ∀ names, (o, names, Instr.setLocal r.slot) ∈ layout.ops (.outer source.binds) 0 →
        r.name ∈ names.writes) :
      Holds u source layout r ((o', h') :: (o, h) :: rest)

/-- Whichever way control comes to an instruction that reads a variable, the slot that it
reads holds the value of a variable of that name, or the receiver. -/
def ReadsDeclared (u : CodeUnit) (source : Source) (layout : Tree) : Prop :=
  ∀ o h rest, u.Path ((o, h) :: rest) → ∀ names slot name,
    (o, names, Instr.getLocal slot) ∈ layout.ops (.outer source.binds) 0 →
    names.reads = some name →
    ∃ r : Resident, r.slot = slot ∧ (r.name = name ∨ r.name = "this") ∧
      u.Holds source layout r ((o, h) :: rest)

theorem Path.reaches (h : u.Path path) : ∀ x ∈ path.head?, u.Reaches x.1 x.2 := by
  induction h with
  | entry =>
    intro x hx
    cases Option.some.inj hx
    exact .entry
  | step _ he ih =>
    intro x hx
    cases Option.some.inj hx
    exact .step (ih _ rfl) he

/-- What is in scope at the end of a path is held there, by induction on the path: a
variable was in scope one step before and was spared by that step, or it is new and lies
on top. -/
theorem Path.holds {p : Program} (hfollows : Follows p u source layout entry view)
    (h : u.Path path) : ∀ x ∈ path.head?, ∀ r ∈ (view x.1).scope, u.Holds source layout r path := by
  induction h with
  | entry =>
    intro x hx r hr
    cases Option.some.inj hx
    rcases hfollows.chart.start r hr with hentry | ⟨hslot, hplace⟩
    · exact .entry (hfollows.entered r hentry)
    · refine .declared hplace ?_
      rw [hslot]
      omega
  | @step o o' h h' rest hpath he ih =>
    intro x hx r hr
    cases Option.some.inj hx
    have hreach : u.Reaches o h := hpath.reaches _ rfl
    -- nothing comes into scope on a step except what was declared where it leads
    rcases hfollows.chart.scope hreach he r hr with hbefore | ⟨htop, hplace⟩
    · obtain ⟨i, hi, hcarries, -⟩ := hfollows.chart.keeps hreach
      have hheight := hfollows.chart.height hreach
      have hspared := hcarries.spared r hbefore
      refine .spared (ih _ rfl r hbefore) hi (by omega) fun names hmem => ?_
      exact (hfollows.names _ hmem).writes _ rfl r hbefore rfl
    · exact .declared hplace htop

end CodeUnit

theorem Codegen.Follows.readsDeclared {p : Program} (h : Follows p u source layout entry view) :
    u.ReadsDeclared source layout := by
  intro o height rest hpath names slot name hmem hreads
  obtain ⟨r, hr, hslot, hname⟩ := (h.names _ hmem).reads slot rfl name hreads
  exact ⟨r, hslot, hname, hpath.holds h _ rfl r hr⟩

/-- In every unit of a compiled module all paths agree on the height of the stack, and each
variable is read from the slot that holds its value, also where a declaration is the
first operand of the node around it. -/
theorem compile_readsDeclared {p : Program} {o : Options} {m : Module}
    (h : compile p o = .ok m) (hfirst : DeclaresFirst p) (hreceiver : KeepsReceiver p)
    (hparams : FewParameters p) : ∀ u ∈ m.units, u.StackDisciplined ∧
      ∃ source layout, source.DeclaredIn p ∧ u.header = source.header ∧ LaidOut p u layout ∧
        u.ReadsDeclared source layout := by
  intro u hu
  obtain ⟨budget, source, hsource, hheader, layout, c', hscheme, hcode, hsize, hclosed⟩ :=
    (compile_translated h).2 u hu
  have hplain := hfirst.plainOperands
  have hnode := balances_of_plain hplain hreceiver hparams budget
  obtain ⟨entry, view, hfollows⟩ := follows_of_scheme hnode hparams hsource
    (Source.later_plain hplain hsource) hheader hscheme hcode hclosed
  have hlaid : LaidOut p u layout :=
    ⟨⟨budget, source, c', hsource, hheader, hscheme⟩, hcode, hsize, hclosed⟩
  exact ⟨hfollows.chart.stackDisciplined, source, layout, hsource, hheader, hlaid,
    hfollows.readsDeclared⟩

/-- A function whose first array starts with a declaration, and a second array that reads
what was declared there. -/
def declaredFirst : Program :=
  let node (kind : ExprKind) : Expr := ⟨kind, .zero⟩
  let seen := node (.letDecl "seen" none (some (node (.var "limit"))) false)
  ⟨[node (.functionDecl
    { name := "pick", generics := [], params := [⟨"limit", none, none, .zero⟩]
      varargs := none, kwargs := none, returnType := none
      isAsync := false, catchesResult := false, span := .zero
      body := [node (.array [seen, node (.var "seen")]),
        node (.array [node (.var "seen"), node (.var "limit")])] })]⟩

theorem compile_readsDeclared_declaredFirst : ∃ m, compile declaredFirst {} = .ok m ∧
    DeclaresFirst declaredFirst ∧ KeepsReceiver declaredFirst ∧ FewParameters declaredFirst ∧
    m.units.length = 2 ∧ ∀ u ∈ m.units, u.StackDisciplined ∧
      ∃ source layout, source.DeclaredIn declaredFirst ∧ u.header = source.header ∧
        LaidOut declaredFirst u layout ∧ u.ReadsDeclared source layout := by
  have hend : (declaredFirst.nodesAt 7).isEmpty = true := by decide +kernel
  have hfirst : DeclaresFirst declaredFirst := declaresFirst_of_nodesAt hend
    (not_isMacro_of_nodesAt hend (by decide +kernel)) (by decide +kernel)
  have hkeeps : KeepsReceiver declaredFirst := keepsReceiver_of_nodesAt hend (by decide +kernel)
  have hparams : FewParameters declaredFirst := fewParameters_of_nodesAt hend (by decide +kernel)
  have hcount : (compile declaredFirst {}).toOption.map (fun m => m.units.length) = some 2 := by
    decide +kernel
  cases hm : compile declaredFirst {} with
  | error e =>
    rw [hm] at hcount
    cases hcount
  | ok m =>
    rw [hm] at hcount
    exact ⟨m, rfl, hfirst, hkeeps, hparams, Option.some.inj hcount,
      compile_readsDeclared hm hfirst hkeeps hparams⟩

/-- A function that declares a local in one branch of a choice between two values. -/
def declaredInBranch : Program :=
  let node (kind : ExprKind) : Expr := ⟨kind, .zero⟩
  let seen := node (.letDecl "seen" none (some (node (.int 1))) false)
  ⟨[node (.functionDecl
    { name := "pick", generics := [], params := [], varargs := none, kwargs := none
      returnType := none, isAsync := false, catchesResult := false, span := .zero
      body := [node (.ternary (node (.bool true)) seen (node (.int 2)))] })]⟩

/-- Where the two branches meet, the stack has two heights: the local is still there on the
way through the branch that declares it. -/
theorem reaches_declaredInBranch : ∃ m u, compile declaredInBranch {} = .ok m ∧ u ∈ m.units ∧
    u.Reaches 8 3 ∧ u.Reaches 8 2 := by
  have hcode : (compile declaredInBranch {}).toOption.map (fun m =>
      m.units[1]?.map fun u => (u.header.totalArity, (List.range 8).map fun o => u.code[o]?)) =
        some (some (0, [some .pushTrue, some (.jumpIfFalse 4), some .pop, some (.constant 0),
          some .pushNull, some (.jump 2), some .pop, some (.constant 1)])) := by decide +kernel
  cases hm : compile declaredInBranch {} with
  | error e =>
    rw [hm] at hcode
    cases hcode
  | ok m =>
    rw [hm] at hcode
    obtain ⟨u, hu, hunit⟩ := Option.map_eq_some_iff.mp (Option.some.inj hcode)
    obtain ⟨harity, hinstrs⟩ := Prod.mk.inj hunit
    simp only [List.range, List.range.loop, List.map_cons, List.map_nil, List.cons.injEq,
      and_true] at hinstrs
    obtain ⟨h0, h1, h2, h3, h4, h5, h6, h7⟩ := hinstrs
    have htest : u.Reaches 1 2 := by
      have hentry := CodeUnit.Reaches.entry (u := u)
      rw [harity] at hentry
      exact .step hentry (.next h0 rfl)
    refine ⟨m, u, rfl, List.mem_of_getElem? hu, ?_, ?_⟩
    · have hvalue : u.Reaches 4 2 :=
        .step (.step (.step htest (.next h1 rfl)) (.next h2 rfl)) (.next h3 rfl)
      have hjump : jumpTarget? u.code 5 = some 8 := jumpTarget_of_forward (k := .always) h5
      exact .step (.step hvalue (.next h4 rfl)) (.taken h5 hjump)
    · have hjump : jumpTarget? u.code 1 = some 6 := jumpTarget_of_forward (k := .ifFalse) h1
      exact .step (.step (.step htest (.taken h1 hjump)) (.next h6 rfl)) (.next h7 rfl)

end Strand
