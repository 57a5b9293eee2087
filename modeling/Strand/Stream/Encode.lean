import Strand.Code.Unit
import Strand.Stream.Instr

/-!
# Writing a module as a stream

```text
module   := magic version kind str(source name) unit(main)
unit     := str(name) arity totalArity defaultCount flags names(params)
            count capture* chunk
chunk    := optStr(package) optStr(export target) optStr(entry point)
            names(exports) optimize
            count constant* count global* count instruction* count line*
str      := length codePoint*
optStr   := -1 | str
names    := count str*
```

Every list is preceded by its length, so a stream needs no terminators and says
itself where it ends.
-/

namespace Strand.Stream

/-- The first word of every stream: `STRN`. -/
def magic : Int := 0x5354524E

def version : Int := 1

/-- The word that says a stream holds a module. -/
def moduleKind : Int := 1

/-- A 64-bit pattern as a signed word. -/
def signed (bits : UInt64) : Int :=
  if bits.toNat < 9223372036854775808 then bits.toNat else (bits.toNat : Int) - 18446744073709551616

def flagWord (b : Bool) : Int := if b then 1 else 0

/-- Flags packed into one word, the first in the lowest bit. -/
def packFlags : List Bool → Int
  | [] => 0
  | b :: rest => flagWord b + 2 * packFlags rest

def encodeList {α : Type} (f : α → List Int) (items : List α) : List Int :=
  (items.length : Int) :: items.flatMap f

def encodeString (s : String) : List Int :=
  encodeList (fun c => [(c.toNat : Int)]) s.toList

def encodeString? : Option String → List Int
  | none => [-1]
  | some s => encodeString s

def encodeStrings (ss : List String) : List Int := encodeList encodeString ss

def encodeCapture : CaptureSource → List Int
  | .slot n => [0, n.toNat]
  | .upvalue n => [1, n.toNat]
  | .global name => 2 :: encodeString name

def encodeHeader (h : UnitHeader) : List Int :=
  encodeString h.name ++
    [(h.arity.toNat : Int), h.totalArity.toNat, h.defaultCount.toNat,
      packFlags [h.hasVarargs, h.hasKwargs, h.isAsync, h.catchesResult, h.isMethod]] ++
    encodeStrings h.paramNames

/-- The part of a manifest that precedes the pool. -/
def encodeModuleHeader (m : Manifest) : List Int :=
  encodeString? m.package ++ encodeString? m.exportTarget ++ encodeString? m.entryPoint ++
    encodeStrings m.exports ++ [flagWord m.optimize]

def encodeGlobal (g : String × GlobalInfo) : List Int :=
  encodeString g.1 ++ encodeString g.2.typeName ++ [flagWord g.2.isConst]

def encodeMember (m : MemberDescriptor) : List Int :=
  encodeString m.name ++
    [match m.kind with
      | .field => 0
      | .method => 1,
      packFlags [m.isStatic, m.isPrivate, m.isOperator]]

def encodeClass (d : ClassDescriptor) : List Int :=
  encodeString d.name ++ [flagWord d.hasParent, flagWord d.hasConstructor] ++
    encodeList encodeMember d.members ++ encodeStrings d.generics

def encodeVariant (v : VariantDescriptor) : List Int :=
  encodeString v.name ++ encodeStrings v.params

def encodeEnum (d : EnumDescriptor) : List Int :=
  encodeString d.name ++ encodeList encodeVariant d.variants

mutual

def encodeUnit : CodeUnit → List Int
  | ⟨header, captures, manifest, constants, code, lines⟩ =>
    encodeHeader header ++ encodeList encodeCapture captures ++ encodeModuleHeader manifest ++
      ((constants.length : Int) :: encodeConstants constants) ++
      encodeList encodeGlobal manifest.globals.entries ++
      encodeList Instr.encode code.toList ++
      encodeList (fun line => [signed line]) lines.toList

def encodeConstants : List Constant → List Int
  | [] => []
  | k :: rest => encodeConstant k ++ encodeConstants rest

def encodeConstant : Constant → List Int
  | .int n => [0, n.toInt]
  | .float bits => [1, signed bits]
  | .str s => 2 :: encodeString s
  | .names ss => 3 :: encodeStrings ss
  | .function u => 4 :: encodeUnit u
  | .classType d => 5 :: encodeClass d
  | .enumType d => 6 :: encodeEnum d

end

/-- The stream of a module. -/
def encode (m : Module) : List Int :=
  [magic, version, moduleKind] ++ encodeString m.sourceName ++ encodeUnit m.main

end Strand.Stream
