import Mathlib.Data.List.Basic
import Strand.Proofs.Steps
import Strand.Proofs.TypeChecking

/-!
# Parameters that a function type declares itself

A function type may declare generic parameters of its own, and inside it their names mean these.
A substitution that respects this leaves them alone and replaces all other parameters that are
bound. `Ty.substitute` looks at the bindings only, so it gives the same type as long as no
parameter that it should leave alone is bound to something else, and another type as soon as one
is.

Attributes are read from instances in this way. A method that declares a parameter by a name that
its class uses too loses it: what it takes is then fixed by the instance.
-/

namespace Strand

open Codegen

variable {b : Bindings}

/-! ## Substitution that respects declarations -/

mutual

/-- Replace the generic parameters that are bound, but for those in `own` and for those that a
function type around them declares. -/
def Ty.substituteFree (b : Bindings) (own : List String) : Ty → Ty
  | .generic name => if name ∈ own then .generic name else (b.find? name).getD (.generic name)
  | .tuple items => .tuple (Ty.substituteFreeAll b own items)
  | .ref target => .ref (target.substituteFree b own)
  | .inst c args => .inst c (Ty.substituteFreeAll b own args)
  | .fn sig => .fn (sig.substituteFree b own)
  | .prim p => .prim p
  | .classObject c => .classObject c
  | .enumObject e => .enumObject e
  | .variant v => .variant v

/-- From here on, the parameters that the function declares are its own as well. -/
def Signature.substituteFree (b : Bindings) (own : List String) : Signature → Signature
  | ⟨result, params, generics, hasVarargs, defaultCount⟩ =>
    ⟨result.substituteFree b (generics ++ own), Ty.substituteFreeAll b (generics ++ own) params,
      generics, hasVarargs, defaultCount⟩

/-- The same in several types. -/
def Ty.substituteFreeAll (b : Bindings) (own : List String) : List Ty → List Ty
  | [] => []
  | t :: ts => t.substituteFree b own :: Ty.substituteFreeAll b own ts

end

mutual

/-- The parameters that are in `own` or that a function type around them declares, as often as
they occur. -/
def Ty.ownPlaceholders (own : List String) : Ty → List String
  | .generic name => if name ∈ own then [name] else []
  | .tuple items => Ty.ownPlaceholdersAll own items
  | .ref target => target.ownPlaceholders own
  | .inst _ args => Ty.ownPlaceholdersAll own args
  | .fn sig => sig.ownPlaceholders own
  | .prim _ | .classObject _ | .enumObject _ | .variant _ => []

/-- From here on, the parameters that the function declares count too. -/
def Signature.ownPlaceholders (own : List String) : Signature → List String
  | ⟨result, params, generics, _, _⟩ =>
    result.ownPlaceholders (generics ++ own) ++ Ty.ownPlaceholdersAll (generics ++ own) params

/-- The same in several types. -/
def Ty.ownPlaceholdersAll (own : List String) : List Ty → List String
  | [] => []
  | t :: ts => t.ownPlaceholders own ++ Ty.ownPlaceholdersAll own ts

end

/-! ## When the two agree -/

/-- The parameter is not bound, or to itself. -/
def Bindings.Keeps (b : Bindings) (name : String) : Prop :=
  (b.find? name).getD (.generic name) = .generic name

mutual

theorem Ty.substitute_eq_free_iff {own : List String} : ∀ {t : Ty},
    t.substitute b = t.substituteFree b own ↔ ∀ name ∈ t.ownPlaceholders own, b.Keeps name
  | .generic name => by
    rw [Ty.substitute, Ty.substituteFree, Ty.ownPlaceholders]
    by_cases hown : name ∈ own
    · rw [if_pos hown, if_pos hown, List.forall_mem_singleton]
      exact Iff.rfl
    · rw [if_neg hown, if_neg hown]
      exact iff_of_true rfl (List.forall_mem_nil _)
  | .tuple items => by
    rw [Ty.substitute, Ty.substituteFree, Ty.tuple.injEq]
    exact Ty.substituteAll_eq_free_iff
  | .ref target => by
    rw [Ty.substitute, Ty.substituteFree, Ty.ref.injEq]
    exact Ty.substitute_eq_free_iff (t := target)
  | .inst c args => by
    rw [Ty.substitute, Ty.substituteFree, Ty.inst.injEq]
    exact (and_iff_right rfl).trans Ty.substituteAll_eq_free_iff
  | .fn sig => by
    rw [Ty.substitute, Ty.substituteFree, Ty.fn.injEq]
    exact Signature.substitute_eq_free_iff
  | .prim _ | .classObject _ | .enumObject _ | .variant _ =>
    iff_of_true rfl (List.forall_mem_nil _)

theorem Signature.substitute_eq_free_iff {own : List String} : ∀ {f : Signature},
    f.substitute b = f.substituteFree b own ↔ ∀ name ∈ f.ownPlaceholders own, b.Keeps name
  | ⟨result, params, generics, _, _⟩ => by
    rw [Signature.substitute, Signature.substituteFree, Signature.ownPlaceholders,
      Signature.mk.injEq, List.forall_mem_append, ← Ty.substitute_eq_free_iff,
      ← Ty.substituteAll_eq_free_iff]
    simp only [and_true]

theorem Ty.substituteAll_eq_free_iff {own : List String} : ∀ {ts : List Ty},
    Ty.substituteAll b ts = Ty.substituteFreeAll b own ts ↔
      ∀ name ∈ Ty.ownPlaceholdersAll own ts, b.Keeps name
  | [] => iff_of_true rfl (List.forall_mem_nil _)
  | t :: ts => by
    rw [Ty.substituteAll, Ty.substituteFreeAll, Ty.ownPlaceholdersAll, List.cons.injEq,
      List.forall_mem_append, Ty.substitute_eq_free_iff, Ty.substituteAll_eq_free_iff]

end

/-! ## Reading attributes -/

namespace Codegen

variable {node : NodeCompiler} {object : Expr} {name : String} {span : Span} {s s' : State}
variable {c : ClassRef} {args : List Ty} {t : Ty}

/-- The declared type of an attribute of instances. A static one can be read from them too. -/
def State.member? (s : State) (c : ClassRef) (name : String) : Option Ty :=
  s.decls.field? c name <|> s.decls.staticField? c name

/-- What is read from an instance has the declared type, with what the class takes put in. -/
theorem attributeType_inst (h : s.member? c name = some t) :
    (attributeType (.inst c args) name span s).answer.1 = t.substitute (c.bindGenerics args) := by
  unfold State.member? at h
  unfold attributeType
  rw [get_bind_run]
  simp only [h]
  rfl

theorem compileMember_inst (hobject : (node object .value s).answer = (.inst c args, s'))
    (h : s'.member? c name = some t) :
    (compileMember node object name span s).answer.1 = t.substitute (c.bindGenerics args) := by
  have hty : (compileMember node object name span s).answer.1 =
      (attributeType (node object .value s).answer.1 name span
        (node object .value s).answer.2).answer.1 := rfl
  rw [hty, hobject, attributeType_inst h]

end Codegen

/-- Substitution leaves the parameters alone that function types declare themselves, and replaces
all others that are bound, exactly when none of the former is bound to something else. The same
holds of what is read from an instance: it keeps its own parameters exactly when the class takes
nothing else by their names. -/
theorem Ty.substitute_respects_iff (t : Ty) :
    (∀ b : Bindings, t.substitute b = t.substituteFree b [] ↔
      ∀ own ∈ t.ownPlaceholders [], b.Keeps own) ∧
    ∀ node object name span s s' c args, (node object .value s).answer = (.inst c args, s') →
      s'.member? c name = some t →
        ((compileMember node object name span s).answer.1 = t.substituteFree (c.bindGenerics args) [] ↔
          ∀ own ∈ t.ownPlaceholders [], Bindings.Keeps (c.bindGenerics args) own) := by
  refine ⟨fun b => Ty.substitute_eq_free_iff, ?_⟩
  intro node object name span s s' c args hobject hmember
  rw [compileMember_inst hobject hmember]
  exact Ty.substitute_eq_free_iff

/-- A method that takes something of its own beside what its class takes keeps the former. -/
theorem Ty.substitute_respects_iff_apart :
    let c : ClassRef := { id := 0, name := "Box", generics := ["T"], ancestors := [] }
    let put : Ty := .fn ⟨.generic "U", [.generic "U", .generic "T"], ["U"], false, 0⟩
    let s : State := { frame := moduleFrame [], decls := ⟨#[{ fields := Table.insert ∅ "put" put }], #[]⟩
                       typeCheck := true }
    (compileMember (fun _ _ => pure (.inst c [.int])) default "put" .zero s).answer.1 =
      .fn ⟨.generic "U", [.generic "U", .int], ["U"], false, 0⟩ := by
  intro c put s
  exact ((Ty.substitute_respects_iff put).2 _ default "put" .zero s s c [.int] rfl rfl).mpr (by
    simp [put, Ty.ownPlaceholders, Signature.ownPlaceholders, Ty.ownPlaceholdersAll, c,
      ClassRef.bindGenerics, Bindings.Keeps, Bindings.find?])

/-- A class that takes a parameter `T`, with a method that takes a parameter too and returns what
it is given. The method of an instance for integers is called with a text. -/
def boxes (own : String) : Program :=
  let node (kind : ExprKind) : Expr := ⟨kind, .zero⟩
  let pick : FunctionDecl :=
    { name := "pick", generics := [own], params := [⟨"x", some [.name own], none, .zero⟩]
      varargs := none, kwargs := none, returnType := some [.name own]
      body := [node (.ret (some (node (.var "x"))))]
      isAsync := false, catchesResult := false, span := .zero }
  ⟨[node (.classDecl
      { name := "Box", generics := ["T"], parent := none, constructor := none
        members := [.method ⟨pick, false, false, false⟩], span := .zero }),
    node (.letDecl "b" (some [.name "Box", .lparen, .name "i64", .rparen]) none false),
    node (.call (node (.member (node (.var "b")) "pick")) [.positional (node (.str "s"))])]⟩

/-- The call is in order, unless the method calls its parameter as the class does. -/
theorem compile_boxes :
    let pick : Signature := ⟨.generic "T", [.generic "T"], ["T"], false, 0⟩
    pick.substitute [("T", .int)] = ⟨.int, [.int], ["T"], false, 0⟩ ∧
      pick.substituteFree [("T", .int)] [] = pick ∧
      diagnosticsOf (compile (boxes "U") {}) = [] ∧
      diagnosticsOf (compile (boxes "T") {}) = [⟨.typeMismatch "i64" "str", .zero⟩] :=
  ⟨rfl, rfl, by decide +kernel, by decide +kernel⟩

end Strand
