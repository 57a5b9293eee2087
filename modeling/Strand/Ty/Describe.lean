import Strand.Text.Quoted
import Strand.Ty.Declarations

/-!
# Summaries of declared classes and enums

One-line summaries that show what has been declared so far: the parent, the generic
parameters and the fields of a class, and the variants of an enum. Inherited fields
and static ones are left out.
-/

namespace Strand.Declarations

open Strand.Text

def describeClass (d : Declarations) (c : ClassRef) : String :=
  let parent := match c.parentName? with
    | some name => "Some(" ++ quoted name ++ ")"
    | none => "None"
  "ClassType \x7b name: " ++ quoted c.name ++ ", parent: " ++ parent ++ ", generics: "
    ++ quotedList c.generics ++ ", fields: " ++ quotedList (d.membersAt c.id).fields.names
    ++ " \x7d"

def describeEnum (d : Declarations) (e : EnumRef) : String :=
  "EnumType \x7b name: " ++ quoted e.name ++ ", variants: " ++ quotedList (d.variants e).names
    ++ " \x7d"

end Strand.Declarations
