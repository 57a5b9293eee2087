import Mathlib.Data.List.Forall2
import Strand.Proofs.TypeGrammar

/-!
# Reading a type back from its text

The text of a type as tokens, and the proof that an annotation of these tokens denotes
that very type wherever the names in it have their own meaning. Since the parser accepts
what the grammar derives, it is enough to derive every type from its tokens, by induction
on the type.
-/

namespace Strand

open TypeExpr

variable {parts : List (List Token)} {ts : List Token}

/-! ## The tokens of a type -/

/-- How parameter `i` of `n` is marked in a text. -/
def TypeExpr.markAt (hasVarargs : Bool) (defaultCount n i : Nat) : Mark :=
  if hasVarargs && i + 1 == n then .rest
  else if n - min defaultCount n ≤ i then .optional
  else .plain

/-- The marks of all `n` parameters. -/
def TypeExpr.marksOf (hasVarargs : Bool) (defaultCount n : Nat) : List Mark :=
  (List.range n).map (markAt hasVarargs defaultCount n)

/-- Put commas between the parts. -/
def TypeExpr.separate (parts : List (List Token)) : List Token := [Token.comma].intercalate parts

mutual

/-- The tokens that the text of a type consists of. -/
def Ty.tokens : Ty → List Token
  | .prim p => [.name p.name]
  | .tuple items =>
    let parts := Ty.tokenLists items
    .lparen :: (separate parts ++ (if parts.length = 1 then [.comma] else []) ++ [.rparen])
  | .ref target => .lbracket :: (target.tokens ++ [.rbracket])
  | .generic name => [.name name]
  | .classObject c => [.name c.name]
  | .inst c args =>
    if args.isEmpty then [.name c.name]
    else .name c.name :: .lparen :: (separate (Ty.tokenLists args) ++ [.rparen])
  | .fn sig => sig.tokens
  | .enumObject e => [.name e.name]
  | .variant v => [.name (v.enumName ++ "." ++ v.name)]

/-- The tokens of a function type. Its own generic parameters are not written. -/
def Signature.tokens : Signature → List Token
  | ⟨result, params, _, hasVarargs, defaultCount⟩ =>
    let parts := Ty.tokenLists params
    let marked := List.zipWith (fun part mark => part ++ Mark.tokens mark) parts
      (marksOf hasVarargs defaultCount parts.length)
    result.tokens ++ .langle :: (separate marked ++ [.rangle])

/-- The tokens of each of several types. -/
def Ty.tokenLists : List Ty → List (List Token)
  | [] => []
  | t :: ts => t.tokens :: Ty.tokenLists ts

end

/-- The text that tokens make. A comma brings a blank with it, unless it comes last before
a closing parenthesis. -/
def TypeExpr.spell : List Token → String
  | [] => ""
  | .comma :: rest => (if rest.head? = some .rparen then "," else ", ") ++ spell rest
  | tok :: rest => tok.text ++ spell rest

mutual

/-- The type can be written in an annotation: its names mean what they mean in the type,
an instance has an argument for each generic parameter of its class, and no function has
generic parameters of its own, a rest parameter without parameters, or both a rest
parameter and optional ones. -/
def Ty.WritableIn (lookup : String → Option Ty) : Ty → Prop
  | .prim p => lookup p.name = some (.prim p)
  | .tuple items => Ty.AllWritableIn lookup items
  | .ref target => target.WritableIn lookup
  | .generic name => lookup name = some (.generic name)
  | .classObject _ => False
  | .inst c args =>
    lookup c.name = some (.classObject c) ∧ args.length = c.generics.length ∧
      Ty.AllWritableIn lookup args
  | .fn sig => sig.WritableIn lookup
  | .enumObject e => lookup e.name = some (.enumObject e)
  | .variant _ => False

/-- The same for a function, whose marks have to fit together. -/
def Signature.WritableIn (lookup : String → Option Ty) : Signature → Prop
  | ⟨result, params, generics, hasVarargs, defaultCount⟩ =>
    result.WritableIn lookup ∧ Ty.AllWritableIn lookup params ∧ generics = [] ∧
      (hasVarargs = true → params ≠ []) ∧ defaultCount ≤ params.length ∧
      ¬ (hasVarargs = true ∧ 0 < defaultCount)

/-- The same for several types. -/
def Ty.AllWritableIn (lookup : String → Option Ty) : List Ty → Prop
  | [] => True
  | t :: ts => t.WritableIn lookup ∧ Ty.AllWritableIn lookup ts

end

/-! ## Marks -/

namespace TypeExpr

variable {hasVarargs : Bool} {defaultCount n i : Nat} {t : Ty}

theorem length_marksOf : (marksOf hasVarargs defaultCount n).length = n := by
  rw [marksOf, List.length_map, List.length_range]

theorem markAt_eq_rest :
    markAt hasVarargs defaultCount n i = .rest ↔ hasVarargs = true ∧ i + 1 = n := by
  unfold markAt
  split
  · rename_i hlast
    simpa using hlast
  · rename_i hlast
    split <;> simpa using hlast

theorem markAt_eq_plain (hplain : markAt hasVarargs defaultCount n i = .plain) :
    i < n - min defaultCount n := by
  unfold markAt at hplain
  split at hplain
  · cases hplain
  · split at hplain
    · cases hplain
    · omega

theorem markAt_eq_optional (hoptional : markAt hasVarargs defaultCount n i = .optional) :
    n - min defaultCount n ≤ i := by
  unfold markAt at hoptional
  split at hoptional
  · cases hoptional
  · split at hoptional
    · assumption
    · cases hoptional

/-- Marks that are derived from the counts are in an order that can be read back. -/
theorem marksFit_marksOf (hboth : ¬ (hasVarargs = true ∧ 0 < defaultCount)) :
    MarksFit (marksOf hasVarargs defaultCount n) := by
  constructor
  · -- the rest parameter is the last one, and from an optional one on all are optional
    rw [marksOf, List.pairwise_map]
    refine List.pairwise_lt_range.imp_of_mem ?_
    intro i j _ hj hij
    have hjn := List.mem_range.mp hj
    constructor
    · intro hrest
      have hlast := (markAt_eq_rest.mp hrest).2
      omega
    · intro hoptional hplain
      have hi := markAt_eq_optional hoptional
      have hj := markAt_eq_plain hplain
      omega
  · intro hrest hoptional
    obtain ⟨i, -, hi⟩ := List.mem_map.mp hrest
    obtain ⟨j, hjn, hj⟩ := List.mem_map.mp hoptional
    have hvarargs := (markAt_eq_rest.mp hi).1
    have hj' := markAt_eq_optional hj
    have hjn' := List.mem_range.mp hjn
    exact hboth ⟨hvarargs, by omega⟩

theorem rest_mem_marksOf : .rest ∈ marksOf hasVarargs defaultCount n ↔ hasVarargs = true ∧ 0 < n := by
  rw [marksOf, List.mem_map]
  constructor
  · rintro ⟨i, -, hi⟩
    have h := markAt_eq_rest.mp hi
    exact ⟨h.1, by omega⟩
  · rintro ⟨hvarargs, hn⟩
    exact ⟨n - 1, List.mem_range.mpr (by omega), markAt_eq_rest.mpr ⟨hvarargs, by omega⟩⟩

/-- Without a rest parameter the optional parameters are the last ones. -/
theorem marksOf_false (h : defaultCount ≤ n) : marksOf false defaultCount n =
    List.replicate (n - defaultCount) .plain ++ List.replicate defaultCount .optional := by
  apply List.ext_getElem
  · rw [length_marksOf, List.length_append, List.length_replicate, List.length_replicate]
    omega
  · intro i hi _
    have hmin : min defaultCount n = defaultCount := Nat.min_eq_left h
    simp only [marksOf, List.getElem_map, List.getElem_range, markAt, Bool.false_and,
      Bool.false_eq_true, if_false, hmin, List.getElem_append, List.length_replicate,
      List.getElem_replicate]
    by_cases hopt : n - defaultCount ≤ i
    · rw [if_pos hopt, dif_neg (by omega)]
    · rw [if_neg hopt, dif_pos (by omega)]

theorem count_optional_marksOf (hle : defaultCount ≤ n)
    (hboth : ¬ (hasVarargs = true ∧ 0 < defaultCount)) :
    (marksOf hasVarargs defaultCount n).count .optional = defaultCount := by
  cases hasVarargs with
  | false =>
    rw [marksOf_false hle, List.count_append, List.count_replicate, List.count_replicate]
    simp
  | true =>
    have hnone : defaultCount = 0 := by
      by_contra hne
      exact hboth ⟨rfl, by omega⟩
    subst hnone
    rw [List.count_eq_zero]
    intro hmem
    obtain ⟨i, hin, hi⟩ := List.mem_map.mp hmem
    have h := markAt_eq_optional hi
    have hin' := List.mem_range.mp hin
    omega

/-! ## Deriving a type from its tokens -/

variable {lookup : String → Option Ty} {D : List Token → Ty → Prop}

theorem separate_cons_cons (part next : List Token) (parts : List (List Token)) :
    separate (part :: next :: parts) = part ++ .comma :: separate (next :: parts) := by
  rw [separate, List.intercalate_cons_cons, List.append_assoc, List.singleton_append, separate]

theorem separated_separate {α : Type} {E : List Token → α → Prop}
    {items : List α} (h : List.Forall₂ E parts items) (hne : items ≠ []) :
    Separated E (separate parts) items := by
  induction h with
  | nil => exact absurd rfl hne
  | cons hfirst hrest ih =>
    cases hrest with
    | nil =>
      rw [separate, List.intercalate_singleton]
      exact .one hfirst
    | cons hnext hmore =>
      rw [separate_cons_cons]
      exact .cons hfirst (ih (List.cons_ne_nil _ _))

theorem listed_separate {items : List Ty}
    (h : List.Forall₂ D parts items) : Listed D (separate parts) items false := by
  cases h with
  | nil => exact .empty
  | cons hfirst hrest => exact .plain (separated_separate (.cons hfirst hrest) (List.cons_ne_nil _ _))

theorem forall₂_param {params : List Ty} (h : List.Forall₂ D parts params) (marks : List Mark) :
    List.Forall₂ (Param D) (List.zipWith (fun part mark => part ++ Mark.tokens mark) parts marks)
      (params.zip marks) := by
  induction h generalizing marks with
  | nil => exact .nil
  | cons hfirst _ ih =>
    cases marks with
    | nil => exact .nil
    | cons mark marks => exact .cons (.mk mark hfirst) (ih marks)

theorem Suffixes.append {ss us : List Token} {t' t'' : Ty} (h : Suffixes D ss t t')
    (hus : Suffixes D us t' t'') : Suffixes D (ss ++ us) t t'' := by
  induction h with
  | nil => exact hus
  | empty _ ih => exact .empty (ih hus)
  | params hparams hmarks _ ih =>
    rw [List.cons_append, List.append_assoc, List.cons_append]
    exact .params hparams hmarks (ih hus)

theorem Derives.of_primary (h : Primary lookup (Derives lookup) ts t) : Derives lookup ts t := by
  have hderives := Derives.mk h .nil
  rw [List.append_nil] at hderives
  exact hderives

/-- A parameter list behind a type. -/
theorem Derives.function {ps : List Token} {params : List (Ty × Mark)}
    (h : Derives lookup ts t) (hparams : params = [] ∧ ps = [] ∨ Separated (Param (Derives lookup)) ps params)
    (hmarks : MarksFit (params.map Prod.snd)) :
    Derives lookup (ts ++ .langle :: (ps ++ [.rangle])) (.fn (signatureOf t params)) := by
  obtain ⟨hprimary, hsuffixes⟩ := h
  rw [List.append_assoc]
  refine .mk hprimary (hsuffixes.append ?_)
  rcases hparams with ⟨rfl, rfl⟩ | hparams
  · exact .empty .nil
  · exact .params hparams hmarks .nil

end TypeExpr

theorem Ty.length_tokenLists (ts : List Ty) : (Ty.tokenLists ts).length = ts.length := by
  induction ts with
  | nil => rfl
  | cons t ts ih => rw [Ty.tokenLists, List.length_cons, ih, List.length_cons]

/-- Parameters with their marks. -/
def TypeExpr.marked (hasVarargs : Bool) (defaultCount : Nat) (params : List Ty) : List (Ty × Mark) :=
  params.zip (marksOf hasVarargs defaultCount params.length)

section

variable {hasVarargs : Bool} {defaultCount : Nat} {params : List Ty}

theorem TypeExpr.map_fst_marked : (marked hasVarargs defaultCount params).map Prod.fst = params :=
  List.map_fst_zip (Nat.le_of_eq length_marksOf.symm)

theorem TypeExpr.map_snd_marked : (marked hasVarargs defaultCount params).map Prod.snd =
    marksOf hasVarargs defaultCount params.length :=
  List.map_snd_zip (Nat.le_of_eq length_marksOf)

theorem TypeExpr.signatureOf_marked {result : Ty} (hrest : hasVarargs = true → params ≠ [])
    (hle : defaultCount ≤ params.length) (hboth : ¬ (hasVarargs = true ∧ 0 < defaultCount)) :
    signatureOf result (marked hasVarargs defaultCount params) =
      ⟨result, params, [], hasVarargs, defaultCount⟩ := by
  have hvarargs :
      (signatureOf result (marked hasVarargs defaultCount params)).hasVarargs = hasVarargs := by
    rw [Bool.eq_iff_iff, signatureOf_hasVarargs, map_snd_marked, rest_mem_marksOf]
    constructor
    · exact And.left
    · intro h
      exact ⟨h, List.length_pos_iff.mpr (hrest h)⟩
  have hcount :
      (signatureOf result (marked hasVarargs defaultCount params)).defaultCount = defaultCount := by
    show List.count _ _ = _
    rw [map_snd_marked, count_optional_marksOf hle hboth]
  simp only [signatureOf] at hvarargs hcount ⊢
  rw [map_fst_marked, hvarargs, hcount]

end

mutual

variable {lookup : String → Option Ty}

/-- A type that can be written is derived from its own tokens. -/
theorem Ty.derives_tokens : ∀ {t : Ty}, t.WritableIn lookup → Derives lookup t.tokens t
  | .prim p, h => .of_primary (.named h fun _ => Ty.noConfusion)
  | .tuple items, h => by
    have hparts : List.Forall₂ (Derives lookup) (Ty.tokenLists items) items :=
      Ty.derives_tokenLists h
    rw [Ty.tokens, Ty.length_tokenLists]
    -- only a tuple of one item needs the comma, to be told from a type in parentheses
    by_cases hone : items.length = 1
    · have hne : items ≠ [] := by
        rintro rfl
        cases hone
      rw [if_pos hone]
      exact .of_primary (.tuple (.trailing (separated_separate hparts hne)) (.inr rfl))
    · rw [if_neg hone, List.append_nil]
      exact .of_primary (.tuple (listed_separate hparts) (.inl hone))
  | .ref target, h => .of_primary (.cell (Ty.derives_tokens (t := target) h))
  | .generic name, h => .of_primary (.named h fun _ => Ty.noConfusion)
  | .classObject _, h => h.elim
  | .inst c args, h => by
    obtain ⟨hknown, hcount, hargs⟩ := h
    rw [Ty.tokens]
    -- a class without arguments is written as its name alone
    by_cases hempty : args.isEmpty = true
    · rw [if_pos hempty]
      obtain rfl := List.isEmpty_iff.mp hempty
      have hbare := Primary.bare (D := Derives lookup) hknown
      rw [List.length_eq_zero_iff.mp hcount.symm] at hbare
      exact .of_primary hbare
    · rw [if_neg hempty]
      exact .of_primary (.applied hknown (listed_separate (Ty.derives_tokenLists hargs)) hcount)
  | .fn sig, h => Signature.derives_tokens (f := sig) h
  | .enumObject e, h => .of_primary (.named h fun _ => Ty.noConfusion)
  | .variant _, h => h.elim

theorem Signature.derives_tokens :
    ∀ {f : Signature}, f.WritableIn lookup → Derives lookup f.tokens (.fn f)
  | ⟨result, params, generics, hasVarargs, defaultCount⟩, h => by
    obtain ⟨hresult, hparams, rfl, hrest, hle, hboth⟩ := h
    have hparts := forall₂_param (Ty.derives_tokenLists hparams)
      (marksOf hasVarargs defaultCount params.length)
    have hfit : MarksFit ((marked hasVarargs defaultCount params).map Prod.snd) := by
      rw [map_snd_marked]
      exact marksFit_marksOf hboth
    rw [Signature.tokens, Ty.length_tokenLists, ← signatureOf_marked hrest hle hboth]
    refine (Ty.derives_tokens hresult).function ?_ hfit
    by_cases hnone : params = []
    · subst hnone
      exact .inl ⟨rfl, rfl⟩
    · have hne : marked hasVarargs defaultCount params ≠ [] := by
        intro hnil
        have hparams' := congrArg (List.map Prod.fst) hnil
        rw [map_fst_marked] at hparams'
        exact hnone hparams'
      exact .inr (separated_separate hparts hne)

theorem Ty.derives_tokenLists : ∀ {ts : List Ty}, Ty.AllWritableIn lookup ts →
      List.Forall₂ (Derives lookup) (Ty.tokenLists ts) ts
  | [], _ => .nil
  | _ :: _, h => .cons (Ty.derives_tokens h.1) (Ty.derives_tokenLists h.2)

end

/-! ## The text of the tokens -/

namespace TypeExpr

variable {texts : List String}

/-- What a mark is printed as. -/
def Mark.text : Mark → String
  | .plain => ""
  | .rest => "*"
  | .optional => "?"

theorem markParams_eq (hasVarargs : Bool) (defaultCount : Nat) (params : List String) :
    markParams hasVarargs defaultCount params =
      List.zipWith (fun p mark => p ++ Mark.text mark) params
        (marksOf hasVarargs defaultCount params.length) := by
  apply List.ext_getElem
  · simp [markParams, length_marksOf]
  · intro i hi _
    simp only [markParams, marksOf, markAt, List.getElem_map, List.getElem_zipIdx,
      List.getElem_zipWith, List.getElem_range, Nat.zero_add]
    split
    · rfl
    · split
      · rfl
      · exact (String.append_empty).symm

/-- The tokens are spelled like this whatever follows, and do not start by closing a
parenthesis. -/
structure Spells (ts : List Token) (text : String) : Prop where
  append : ∀ rest, spell (ts ++ rest) = text ++ spell rest
  ne_nil : ts ≠ []
  head : ts.head? ≠ some .rparen

theorem spells_name (name : String) : Spells [.name name] name :=
  ⟨fun _ => rfl, List.cons_ne_nil _ _, by simp⟩

theorem Spells.mark {text : String} (h : Spells ts text) (mark : Mark) :
    Spells (ts ++ mark.tokens) (text ++ mark.text) where
  append rest := by
    rw [List.append_assoc, h.append, String.append_assoc]
    cases mark with
    | plain => rw [Mark.text, String.empty_append]; rfl
    | rest => rfl
    | optional => rfl
  ne_nil hnil := h.ne_nil (List.append_eq_nil_iff.mp hnil).1
  head := by
    rw [List.head?_append_of_ne_nil _ h.ne_nil]
    exact h.head

theorem spell_cons {tok : Token} (h : tok ≠ .comma) (rest : List Token) :
    spell (tok :: rest) = tok.text ++ spell rest := by
  cases tok with
  | comma => exact absurd rfl h
  | _ => rfl

/-- Something in brackets. -/
theorem spell_enclosed {opening closing : Token} {inner : List Token} {text : String}
    (hopening : opening ≠ .comma) (hclosing : closing ≠ .comma)
    (hinner : ∀ rest, spell (inner ++ closing :: rest) = text ++ spell (closing :: rest))
    (rest : List Token) : spell (opening :: (inner ++ [closing]) ++ rest) =
      opening.text ++ text ++ closing.text ++ spell rest := by
  rw [List.cons_append, List.append_assoc, List.singleton_append, spell_cons hopening, hinner,
    spell_cons hclosing]
  simp only [String.append_assoc]

theorem head?_separate {part : List Token} (hne : part ≠ []) (parts : List (List Token))
    (rest : List Token) : (separate (part :: parts) ++ rest).head? = part.head? := by
  cases parts with
  | nil => rw [separate, List.intercalate_singleton, List.head?_append_of_ne_nil _ hne]
  | cons next parts =>
    rw [separate_cons_cons, List.append_assoc, List.head?_append_of_ne_nil _ hne]

theorem spell_separate (h : List.Forall₂ Spells parts texts) (rest : List Token) :
    spell (separate parts ++ rest) = ", ".intercalate texts ++ spell rest := by
  induction h with
  | nil => rfl
  | cons hfirst hrest ih =>
    cases hrest with
    | nil =>
      rw [separate, List.intercalate_singleton, String.intercalate_singleton]
      exact hfirst.append rest
    | cons hnext hmore =>
      rw [separate_cons_cons, List.append_assoc, List.cons_append, hfirst.append, spell,
        head?_separate hnext.ne_nil, if_neg hnext.head, ih, String.intercalate_cons_cons]
      simp only [String.append_assoc]

theorem forall₂_mark (h : List.Forall₂ Spells parts texts) (marks : List Mark) :
    List.Forall₂ Spells (List.zipWith (fun part mark => part ++ Mark.tokens mark) parts marks)
      (List.zipWith (fun text mark => text ++ Mark.text mark) texts marks) := by
  induction h generalizing marks with
  | nil => exact .nil
  | cons hfirst _ ih =>
    cases marks with
    | nil => exact .nil
    | cons mark marks => exact .cons (hfirst.mark mark) (ih marks)

end TypeExpr

theorem Ty.length_texts (ts : List Ty) : (Ty.texts ts).length = ts.length := by
  induction ts with
  | nil => rfl
  | cons t ts ih => rw [Ty.texts, List.length_cons, ih, List.length_cons]

mutual

/-- The tokens of a type spell its text. -/
theorem Ty.spells_tokens : ∀ t : Ty, Spells t.tokens t.text
  | .prim p => spells_name p.name
  | .tuple items => by
    have hparts := Ty.spells_tokenLists items
    rw [Ty.tokens, Ty.text, Ty.length_tokenLists, Ty.length_texts]
    have hitems : ∀ rest, spell (separate (Ty.tokenLists items) ++
        (if items.length = 1 then [.comma] else []) ++ .rparen :: rest) =
          (", ".intercalate (Ty.texts items) ++ if items.length = 1 then "," else "") ++
            spell (.rparen :: rest) := by
      intro rest
      rw [List.append_assoc, spell_separate hparts, String.append_assoc]
      -- a tuple of one item is written with a comma behind it
      by_cases hone : items.length = 1
      · rw [if_pos hone, if_pos hone]
        rfl
      · rw [if_neg hone, if_neg hone, String.empty_append]
        rfl
    refine ⟨fun rest => ?_, List.cons_ne_nil _ _, by simp⟩
    rw [spell_enclosed Token.noConfusion Token.noConfusion hitems]
    simp only [String.append_assoc]
    rfl
  | .ref target => by
    have htarget := Ty.spells_tokens target
    rw [Ty.tokens, Ty.text]
    exact ⟨spell_enclosed (by decide) (by decide) fun rest => htarget.append _,
      List.cons_ne_nil _ _, by simp⟩
  | .generic name => spells_name name
  | .classObject c => spells_name c.name
  | .inst c args => by
    have hparts := Ty.spells_tokenLists args
    rw [Ty.tokens, Ty.text]
    by_cases hempty : args.isEmpty = true
    · rw [if_pos hempty, if_pos hempty]
      exact spells_name c.name
    · rw [if_neg hempty, if_neg hempty]
      have hargs : ∀ rest, spell (.lparen :: (separate (Ty.tokenLists args) ++ [.rparen]) ++ rest) =
          "(" ++ ", ".intercalate (Ty.texts args) ++ ")" ++ spell rest :=
        spell_enclosed (by decide) (by decide) fun rest => spell_separate hparts _
      refine ⟨fun rest => ?_, List.cons_ne_nil _ _, by simp⟩
      rw [List.cons_append, spell_cons (by simp), hargs]
      simp only [String.append_assoc]
      rfl
  | .fn sig => Signature.spells_tokens sig
  | .enumObject e => spells_name e.name
  | .variant v => spells_name (v.enumName ++ "." ++ v.name)

theorem Signature.spells_tokens : ∀ f : Signature, Spells f.tokens f.text
  | ⟨result, params, _, hasVarargs, defaultCount⟩ => by
    have hresult := Ty.spells_tokens result
    have hparts := forall₂_mark (Ty.spells_tokenLists params)
      (marksOf hasVarargs defaultCount params.length)
    rw [Signature.tokens, Signature.text, markParams_eq, Ty.length_tokenLists, Ty.length_texts]
    refine ⟨fun rest => ?_, ?_, ?_⟩
    · rw [List.append_assoc, hresult.append,
        spell_enclosed Token.noConfusion Token.noConfusion fun rest => spell_separate hparts _]
      simp only [String.append_assoc]
      rfl
    · intro hnil
      exact hresult.ne_nil (List.append_eq_nil_iff.mp hnil).1
    · rw [List.head?_append_of_ne_nil _ hresult.ne_nil]
      exact hresult.head

theorem Ty.spells_tokenLists : ∀ ts : List Ty,
    List.Forall₂ Spells (Ty.tokenLists ts) (Ty.texts ts)
  | [] => .nil
  | t :: ts => .cons (Ty.spells_tokens t) (Ty.spells_tokenLists ts)

end

/-- The tokens of a type make its text, and as an annotation they denote the type. -/
theorem Ty.parse_tokens (lookup : String → Option Ty) (t : Ty) (h : t.WritableIn lookup) :
    spell t.tokens = t.text ∧ parse lookup t.tokens = .ok t := by
  constructor
  · have hspell := (Ty.spells_tokens t).append []
    rw [List.append_nil] at hspell
    rw [hspell]
    exact String.append_empty
  · exact parse_eq_ok_iff.mpr (Ty.derives_tokens h)

/-- The primitives, a class with one generic parameter, an enum and a generic parameter. -/
def cityTypes : TypeNames :=
  ((TypeNames.builtins.define "Street" (.classObject ⟨0, "Street", ["T"], []⟩)).define
    "Side" (.enumObject ⟨0, "Side"⟩)).define "T" (.generic "T")

/-- A function with an optional parameter that returns a function with a rest parameter,
with tuples of no, one and two items inside. -/
theorem Ty.parse_tokens_curried :
    let t : Ty := .fn ⟨.fn ⟨.tuple [.inst ⟨0, "Street", ["T"], []⟩ [.ref .int]], [.tuple []], [], true, 0⟩,
      [.enumObject ⟨0, "Side"⟩, .tuple [.generic "T", .str]], [], false, 1⟩
    t.text = "(Street([i64]),)<()*><Side, (T, str)?>" ∧ parse cityTypes.find? t.tokens = .ok t := by
  refine ⟨rfl, (Ty.parse_tokens cityTypes.find? _ ?_).2⟩
  refine ⟨⟨⟨⟨rfl, rfl, ⟨rfl, trivial⟩⟩, trivial⟩, ⟨trivial, trivial⟩, rfl, ?_, Nat.zero_le _, ?_⟩,
    ⟨rfl, ⟨rfl, rfl, trivial⟩, trivial⟩, rfl, ?_, ?_, ?_⟩
  all_goals simp

end Strand
