import Strand.Ty.Basic

/-!
# Assignability

Whether a value of one type may stand where another is expected. Cells are invariant
and functions are contravariant in their parameters, so deciding one direction for a
pair of types needs the other direction for pairs inside it. `fits` therefore carries
the direction along: `fits .co a b` says that `a` may stand where `b` is expected, and
`fits .contra a b` says it of `b` and `a`. Both recurse on the first type.
-/

namespace Strand

inductive Direction where
  | co | contra
deriving DecidableEq, Inhabited

namespace Direction

def flip : Direction → Direction
  | .co => .contra
  | .contra => .co

/-- Ask a question about two things in the given direction. -/
def ask {α : Type} (d : Direction) (r : α → α → Bool) (a b : α) : Bool :=
  match d with
  | .co => r a b
  | .contra => r b a

end Direction

mutual

/-- Assignability in a direction. A dynamic type fits everywhere, a tuple may stand
for a list, and a variant for its enum. Instances of one class are compared argument
by argument, but an instance of a proper subclass fits whatever its arguments. -/
def Ty.fits (d : Direction) : Ty → Ty → Bool
  | .prim p, b =>
    p == .any || b.isDynamic ||
      match b with
      | .prim q => d.ask Primitive.widensTo p q
      | .tuple _ => p == .list && d == .contra
      | _ => false
  | .generic _, _ => true
  | .tuple xs, b =>
    b.isDynamic ||
      match b with
      | .tuple ys => Ty.fitsAll d xs ys
      | .prim .list => d == .co
      | _ => false
  | .ref x, b =>
    b.isDynamic ||
      match b with
      | .ref y => x.fits .co y && x.fits .contra y
      | _ => false
  | .classObject c, b =>
    b.isDynamic ||
      match b with
      | .classObject e => d.ask ClassRef.isSubclassOf c e
      | _ => false
  | .inst c xs, b =>
    b.isDynamic ||
      match b with
      | .inst e ys =>
        d.ask ClassRef.isSubclassOf c e && (c.name != e.name || Ty.fitsAll d xs ys)
      | _ => false
  | .fn f, b =>
    b.isDynamic ||
      match b with
      | .fn g => f.fits d g
      | _ => false
  | .enumObject e, b =>
    b.isDynamic ||
      match b with
      | .enumObject e' => e.name == e'.name
      | .variant w => d == .contra && w.enumName == e.name
      | _ => false
  | .variant v, b =>
    b.isDynamic ||
      match b with
      | .enumObject e => d == .co && v.enumName == e.name
      | .variant w => v.enumName == w.enumName && v.name == w.name
      | _ => false

/-- Functions fit when they have equally many parameters and agree about a rest
parameter, their parameters fit the other way round, and their results fit. -/
def Signature.fits (d : Direction) : Signature → Signature → Bool
  | ⟨result, params, _, hasVarargs, _⟩, g =>
    hasVarargs == g.hasVarargs && Ty.fitsAll d.flip params g.params && result.fits d g.result

/-- Lists of equal length that fit item by item. -/
def Ty.fitsAll (d : Direction) : List Ty → List Ty → Bool
  | [], [] => true
  | x :: xs, y :: ys => x.fits d y && Ty.fitsAll d xs ys
  | _, _ => false

end

/-- Whether a value of type `a` may be stored where `b` is expected. -/
def Ty.assignableTo (a b : Ty) : Bool := a.fits .co b

/-- The common type of two branches. -/
def Ty.unify (a b : Ty) : Ty :=
  if a.same b then a
  else if a.isDynamic || b.isDynamic then .any
  else if b.assignableTo a then a
  else if a.assignableTo b then b
  else .any

end Strand
