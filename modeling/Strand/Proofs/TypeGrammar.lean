import Strand.Ty.Names
import Strand.TypeExpr.Grammar

/-!
# What annotations the parser accepts

The grammar of annotations as a relation between token lists and types, and the proof
that `parse` accepts exactly the lists that it derives a type for, with that type.

The relations for the parts of a type take the relation for types as a parameter, just as
the rules of the parser take the rule for types; `Derives` ties the knot. Both directions
then go rule by rule: a rule that uses a sound rule for types is sound, and one that uses
a rule that reads all derivations of at most `n` tokens reads all that are longer by one.
-/

namespace Strand.TypeExpr

variable {ps rest ts : List Token} {result t : Ty} {done items : List Ty} {last : Bool} {fuel : Nat}
  {sig : Signature} {name : String} {lookup : String → Option Ty}

/-! ## The grammar -/

/-- Items with commas between them. -/
inductive Separated {α : Type} (D : List Token → α → Prop) : List Token → List α → Prop where
  | one {ts : List Token} {a : α} (h : D ts a) : Separated D ts [a]
  | cons {ts us : List Token} {a : α} {as : List α} (h : D ts a) (hrest : Separated D us as) :
      Separated D (ts ++ .comma :: us) (a :: as)

/-- What stands between parentheses: no types or some, and whether a comma comes last. -/
inductive Listed (D : List Token → Ty → Prop) : List Token → List Ty → Bool → Prop where
  | empty : Listed D [] [] false
  | plain {ts : List Token} {items : List Ty} (h : Separated D ts items) : Listed D ts items false
  | trailing {ts : List Token} {items : List Ty} (h : Separated D ts items) :
      Listed D (ts ++ [.comma]) items true

/-- What may stand behind the type of a parameter: nothing, a star for a rest parameter,
or a question mark for one that may be left out. -/
inductive Mark where
  | plain | rest | optional
deriving DecidableEq

/-- The token that a mark is written as. -/
def Mark.tokens : Mark → List Token
  | .plain => []
  | .rest => [.star]
  | .optional => [.question]

/-- A type and the mark behind it. -/
inductive Param (D : List Token → Ty → Prop) : List Token → Ty × Mark → Prop where
  | mk {ts : List Token} {t : Ty} (mark : Mark) (h : D ts t) : Param D (ts ++ mark.tokens) (t, mark)

/-- Nothing comes after a rest parameter, and only optional ones after an optional one
(a rest parameter does not, since the two are not combined at all). -/
def Mark.MayPrecede (m later : Mark) : Prop := m ≠ .rest ∧ (m = .optional → later ≠ .plain)

/-- Which marks the parameters of one list may have. -/
def MarksFit (marks : List Mark) : Prop :=
  marks.Pairwise Mark.MayPrecede ∧ (.rest ∈ marks → .optional ∉ marks)

/-- The function type that a list of parameters makes of the type in front of it. -/
def signatureOf (result : Ty) (params : List (Ty × Mark)) : Signature where
  result := result
  params := params.map Prod.fst
  generics := []
  hasVarargs := (params.map Prod.snd).any fun m => decide (m = .rest)
  defaultCount := (params.map Prod.snd).count .optional

/-- The parameter lists behind a type, and the types before and after them. -/
inductive Suffixes (D : List Token → Ty → Prop) : List Token → Ty → Ty → Prop where
  | nil {t : Ty} : Suffixes D [] t t
  | empty {ss : List Token} {t t' : Ty} (hrest : Suffixes D ss (.fn (signatureOf t [])) t') :
      Suffixes D (.langle :: .rangle :: ss) t t'
  | params {ps ss : List Token} {params : List (Ty × Mark)} {t t' : Ty}
      (hparams : Separated (Param D) ps params) (hmarks : MarksFit (params.map Prod.snd))
      (hrest : Suffixes D ss (.fn (signatureOf t params)) t') :
      Suffixes D (.langle :: (ps ++ .rangle :: ss)) t t'

/-- A type without parameter lists behind it. Names mean what `lookup` says. -/
inductive Primary (lookup : String → Option Ty) (D : List Token → Ty → Prop) :
    List Token → Ty → Prop where
  | named {name : String} {t : Ty} (hknown : lookup name = some t)
      (hclass : ∀ c, t ≠ .classObject c) : Primary lookup D [.name name] t
  | bare {name : String} {c : ClassRef} (hknown : lookup name = some (.classObject c)) :
      Primary lookup D [.name name] (.inst c (c.generics.map fun _ => .any))
  | applied {name : String} {c : ClassRef} {ts : List Token} {args : List Ty} {comma : Bool}
      (hknown : lookup name = some (.classObject c)) (hargs : Listed D ts args comma)
      (hcount : args.length = c.generics.length) :
      Primary lookup D (.name name :: .lparen :: (ts ++ [.rparen])) (.inst c args)
  | grouped {ts : List Token} {t : Ty} (h : D ts t) :
      Primary lookup D (.lparen :: (ts ++ [.rparen])) t
  | tuple {ts : List Token} {items : List Ty} {comma : Bool} (hitems : Listed D ts items comma)
      (hgroup : items.length ≠ 1 ∨ comma = true) :
      Primary lookup D (.lparen :: (ts ++ [.rparen])) (.tuple items)
  | cell {ts : List Token} {t : Ty} (h : D ts t) :
      Primary lookup D (.lbracket :: (ts ++ [.rbracket])) (.ref t)

/-- The tokens are an annotation for the type. -/
inductive Derives (lookup : String → Option Ty) : List Token → Ty → Prop where
  | mk {ps ss : List Token} {t t' : Ty} (hprimary : Primary lookup (Derives lookup) ps t)
      (hsuffixes : Suffixes (Derives lookup) ss t t') : Derives lookup (ps ++ ss) t'

/-! ## What a type starts with -/

/-- A type may start with the token. -/
def Token.opens : Token → Bool
  | .name _ | .lparen | .lbracket => true
  | _ => false

/-- Whatever derives a type starts with a token that opens one. -/
def Opens (D : List Token → Ty → Prop) : Prop :=
  ∀ ⦃ts : List Token⦄ ⦃t : Ty⦄, D ts t → ∃ tok us, ts = tok :: us ∧ tok.opens = true

theorem opens_derives (lookup : String → Option Ty) : Opens (Derives lookup) := by
  intro ts t h
  obtain ⟨hprimary, -⟩ := h
  cases hprimary with
  | named => exact ⟨_, _, rfl, rfl⟩
  | bare => exact ⟨_, _, rfl, rfl⟩
  | applied => exact ⟨_, _, rfl, rfl⟩
  | grouped => exact ⟨_, _, rfl, rfl⟩
  | tuple => exact ⟨_, _, rfl, rfl⟩
  | cell => exact ⟨_, _, rfl, rfl⟩

variable {tokens : List Token}

section

variable {lookup : String → Option Ty} {ty : TypeRule} {D : List Token → Ty → Prop} {α : Type}
  {n : Nat} {sig' : Signature} {comma : Bool} {c : ClassRef} {before after : List Mark}
  {ss : List Token} {params : List (Ty × Mark)} {x : Except Fault α}

/-! ## Soundness -/

/-- What the rule reads derives the type that it answers, and the rest is left. -/
def Sound (ty : TypeRule) (D : List Token → Ty → Prop) : Prop :=
  ∀ ⦃tokens : List Token⦄ ⦃t : Ty⦄ ⦃rest : List Token⦄, ty tokens = .ok (t, rest) →
    ∃ read, tokens = read ++ rest ∧ D read t

/-- A rule after a rule. -/
theorem ok_of_bind {ε β : Type} {x : Except ε α} {f : α → Except ε β} {b : β}
    (h : (x >>= f) = .ok b) : ∃ a, x = .ok a ∧ f a = .ok b := by
  cases x with
  | error e => cases h
  | ok a => exact ⟨a, rfl, h⟩

theorem Listed.cons {us : List Token} (ht : D ts t) (hitems : Listed D us items last) (hne : items ≠ []) :
    Listed D (ts ++ .comma :: us) (t :: items) last := by
  cases hitems with
  | empty => exact absurd rfl hne
  | plain h => exact .plain (.cons ht h)
  | trailing h =>
    rw [← List.cons_append, ← List.append_assoc]
    exact .trailing (.cons ht h)

theorem ok_of_expect {wanted : Token}
    (h : expect wanted tokens = .ok rest) : tokens = wanted :: rest := by
  cases tokens with
  | nil => cases h
  | cons t ts =>
    rw [expect] at h
    split at h
    · rename_i heq
      cases h
      rw [heq]
    · cases h

/-- What comes behind one of several types: a comma and more of them, or the end. -/
def parseFollowing (ty : TypeRule) (fuel : Nat) (done : List Ty) :
    List Token → Except Fault (Parsed (List Ty × Bool))
  | .comma :: rest => parseTypes ty fuel done true rest
  | rest => .ok ((done, false), rest)

theorem parseTypes_close (ty : TypeRule) (fuel : Nat) (done : List Ty) (comma : Bool)
    (rest : List Token) :
    parseTypes ty fuel done comma (.rparen :: rest) = .ok ((done, comma), .rparen :: rest) := by
  cases fuel <;> rfl

theorem parseTypes_zero (hopen : tokens.head? ≠ some .rparen) :
    parseTypes ty 0 done comma tokens = reject .outOfFuel := by
  unfold parseTypes
  split
  · exact absurd rfl hopen
  · rfl
  · rename_i hfuel _
    cases hfuel

theorem parseTypes_succ (hopen : tokens.head? ≠ some .rparen) :
    parseTypes ty (fuel + 1) done comma tokens =
      ty tokens >>= fun p => parseFollowing ty fuel (done ++ [p.1]) p.2 := by
  conv => lhs; unfold parseTypes
  split
  · exact absurd rfl hopen
  · rename_i hfuel _
    cases hfuel
  · rename_i hfuel _
    cases hfuel
    rfl

theorem parseFollowing_inv (h : parseFollowing ty fuel done tokens = .ok ((items, last), rest)) :
    (∃ rest', tokens = .comma :: rest' ∧
        parseTypes ty fuel done true rest' = .ok ((items, last), rest)) ∨
      (tokens = rest ∧ items = done ∧ last = false) := by
  unfold parseFollowing at h
  split at h
  · exact .inl ⟨_, rfl, h⟩
  · cases h
    exact .inr ⟨rfl, rfl, rfl⟩

/-- Either the list is closed, or a type is read and what may follow it. -/
theorem parseTypes_inv (h : parseTypes ty fuel done comma tokens = .ok ((items, last), rest)) :
    (tokens = rest ∧ items = done ∧ last = comma) ∨
      ∃ fuel' t rest', fuel = fuel' + 1 ∧ ty tokens = .ok (t, rest') ∧
        parseFollowing ty fuel' (done ++ [t]) rest' = .ok ((items, last), rest) := by
  by_cases hopen : tokens.head? = some .rparen
  · obtain ⟨us, rfl⟩ := List.head?_eq_some_iff.mp hopen
    rw [parseTypes_close] at h
    cases h
    exact .inl ⟨rfl, rfl, rfl⟩
  · cases fuel with
    | zero =>
      rw [parseTypes_zero hopen] at h
      cases h
    | succ fuel =>
      rw [parseTypes_succ hopen] at h
      obtain ⟨⟨t, rest'⟩, ht, hstep⟩ := ok_of_bind h
      exact .inr ⟨fuel, t, rest', rfl, ht, hstep⟩

/-- Reading types after those in `done` adds what the tokens list to them. -/
theorem sound_parseTypes (hty : Sound ty D) :
    ∀ {fuel : Nat} {done items : List Ty} {comma last : Bool} {tokens rest : List Token},
      parseTypes ty fuel done comma tokens = .ok ((items, last), rest) →
      ∃ read more, tokens = read ++ rest ∧ items = done ++ more ∧
        (read = [] ∧ more = [] ∧ last = comma ∨ more ≠ [] ∧ Listed D read more last) := by
  intro fuel
  induction fuel with
  | zero =>
    intro done items comma last tokens rest h
    rcases parseTypes_inv h with ⟨rfl, rfl, rfl⟩ | ⟨_, _, _, hfuel, -⟩
    · exact ⟨[], [], rfl, (List.append_nil _).symm, .inl ⟨rfl, rfl, rfl⟩⟩
    · cases hfuel
  | succ fuel ih =>
    intro done items comma last tokens rest h
    rcases parseTypes_inv h with ⟨rfl, rfl, rfl⟩ | ⟨_, t, rest1, hfuel, ht, hstep⟩
    · exact ⟨[], [], rfl, (List.append_nil _).symm, .inl ⟨rfl, rfl, rfl⟩⟩
    · cases hfuel
      obtain ⟨ts, rfl, hts⟩ := hty ht
      rcases parseFollowing_inv hstep with ⟨rest2, rfl, hmore⟩ | ⟨rfl, rfl, rfl⟩
      · obtain ⟨us, more, rfl, rfl, hus⟩ := ih hmore
        refine ⟨ts ++ .comma :: us, t :: more, by simp, by simp, .inr ⟨List.cons_ne_nil _ _, ?_⟩⟩
        -- a comma that nothing follows is a trailing one
        rcases hus with ⟨rfl, rfl, rfl⟩ | ⟨hne, hlisted⟩
        · exact .trailing (.one hts)
        · exact hlisted.cons hts hne
      · exact ⟨ts, [t], rfl, rfl, .inr ⟨List.cons_ne_nil _ _, .plain (.one hts)⟩⟩

theorem sound_parseTypes_listed (hty : Sound ty D)
    (h : parseTypes ty fuel [] false tokens = .ok ((items, last), rest)) :
    ∃ read, tokens = read ++ rest ∧ Listed D read items last := by
  obtain ⟨read, more, hread, rfl, hmore⟩ := sound_parseTypes hty h
  rcases hmore with ⟨rfl, rfl, rfl⟩ | ⟨-, hlisted⟩
  · exact ⟨[], hread, .empty⟩
  · exact ⟨read, hread, hlisted⟩

/-- One more parameter. -/
def addParam (sig : Signature) (t : Ty) : Mark → Signature
  | .plain => { sig with params := sig.params ++ [t] }
  | .rest => { sig with params := sig.params ++ [t], hasVarargs := true }
  | .optional => { sig with params := sig.params ++ [t], defaultCount := sig.defaultCount + 1 }

theorem signatureOf_concat (result : Ty) (done : List (Ty × Mark)) (t : Ty) (mark : Mark) :
    signatureOf result (done ++ [(t, mark)]) = addParam (signatureOf result done) t mark := by
  cases mark <;> simp [signatureOf, addParam]

/-- The mark behind the type of a parameter, which is added then. -/
def parseMark (sig : Signature) (t : Ty) : List Token → Except Fault (Parsed Signature)
  | .star :: rest =>
    if rest.head? = some .rangle then .ok (addParam sig t .rest, rest)
    else reject .varargsNotLast
  | .question :: rest => .ok (addParam sig t .optional, rest)
  | rest =>
    if 0 < sig.defaultCount then reject .requiredAfterOptional
    else .ok (addParam sig t .plain, rest)

theorem parseMark_unmarked (sig : Signature) (t : Ty) (rest : List Token)
    (hstar : ∀ more, rest = .star :: more → False)
    (hquestion : ∀ more, rest = .question :: more → False) :
    parseMark sig t rest =
      if 0 < sig.defaultCount then reject .requiredAfterOptional
      else .ok (addParam sig t .plain, rest) := by
  unfold parseMark
  split
  · exact (hstar _ rfl).elim
  · exact (hquestion _ rfl).elim
  · rfl

/-- What comes behind a parameter: more of them or the closing bracket. -/
def parseMore (ty : TypeRule) (fuel : Nat) (sig : Signature) :
    List Token → Except Fault (Parsed Signature)
  | .comma :: rest => parseParams ty fuel sig rest
  | rest => do
    let rest ← expect .rangle rest
    if sig.hasVarargs && 0 < sig.defaultCount then reject .varargsWithOptional
    else .ok (sig, rest)

theorem parseParams_succ (ty : TypeRule) (fuel : Nat) (sig : Signature) (tokens : List Token) :
    parseParams ty (fuel + 1) sig tokens = (do
      let p ← ty tokens
      let marked ← parseMark sig p.1 p.2
      parseMore ty fuel marked.1 marked.2) := by
  rw [parseParams]
  cases ty tokens with
  | error fault => rfl
  | ok p =>
    obtain ⟨t, rest⟩ := p
    dsimp only [bind, Except.bind]
    split
    · dsimp only [parseMark]
      split <;> rfl
    · rfl
    · rename_i hstar hquestion
      rw [parseMark_unmarked sig t rest hstar hquestion]
      split <;> rfl

theorem parseMark_inv (h : parseMark sig t tokens = .ok (sig', rest)) :
    ∃ mark, tokens = Mark.tokens mark ++ rest ∧ sig' = addParam sig t mark ∧
      (mark = .rest → rest.head? = some .rangle) ∧ (mark = .plain → sig.defaultCount = 0) := by
  unfold parseMark at h
  split at h
  · split at h
    · rename_i hlast
      cases h
      exact ⟨.rest, rfl, rfl, fun _ => hlast, Mark.noConfusion⟩
    · cases h
  · cases h
    exact ⟨.optional, rfl, rfl, Mark.noConfusion, Mark.noConfusion⟩
  · split at h
    · cases h
    · rename_i hnone
      cases h
      exact ⟨.plain, rfl, rfl, Mark.noConfusion, fun _ => by omega⟩

theorem parseMore_inv (h : parseMore ty fuel sig tokens = .ok (sig', rest)) :
    (∃ rest', tokens = .comma :: rest' ∧ parseParams ty fuel sig rest' = .ok (sig', rest)) ∨
      (tokens = .rangle :: rest ∧ sig' = sig ∧ (sig.hasVarargs = true → sig.defaultCount = 0)) := by
  unfold parseMore at h
  split at h
  · exact .inl ⟨_, rfl, h⟩
  · obtain ⟨rest', hexpect, hstep⟩ := ok_of_bind h
    have htokens := ok_of_expect hexpect
    split at hstep
    · cases hstep
    · rename_i hboth
      cases hstep
      refine .inr ⟨htokens, rfl, fun hvarargs => ?_⟩
      simpa [hvarargs] using hboth

/-- Behind a rest parameter nothing may follow, behind an optional one nothing plain. -/
theorem pairwise_concat {marks : List Mark} {m : Mark} (h : marks.Pairwise Mark.MayPrecede)
    (hrest : .rest ∉ marks) (hplain : m = .plain → .optional ∉ marks) :
    (marks ++ [m]).Pairwise Mark.MayPrecede := by
  rw [List.pairwise_append]
  refine ⟨h, List.pairwise_singleton _ _, ?_⟩
  intro m1 hm1 m2 hm2
  cases List.mem_singleton.mp hm2
  refine ⟨fun heq => hrest (heq ▸ hm1), fun heq hm => ?_⟩
  exact hplain hm (heq ▸ hm1)

/-- The marks of the parameters in `done` allow for more parameters. -/
def Unfinished (done : List (Ty × Mark)) : Prop :=
  (done.map Prod.snd).Pairwise Mark.MayPrecede ∧ .rest ∉ done.map Prod.snd

theorem unfinished_nil : Unfinished [] := ⟨List.Pairwise.nil, List.not_mem_nil⟩

theorem signatureOf_defaultCount_eq_zero :
    (signatureOf result params).defaultCount = 0 ↔ .optional ∉ params.map Prod.snd :=
  List.count_eq_zero

theorem signatureOf_hasVarargs :
    (signatureOf result params).hasVarargs = true ↔ .rest ∈ params.map Prod.snd := by
  simp [signatureOf]

/-- Reading parameters after those in `done` adds what the tokens list to them. -/
theorem sound_parseParams (hty : Sound ty D) :
    ∀ {fuel : Nat} {done : List (Ty × Mark)} {sig : Signature} {tokens rest : List Token},
      Unfinished done → parseParams ty fuel (signatureOf result done) tokens = .ok (sig, rest) →
      ∃ read params, tokens = read ++ .rangle :: rest ∧ Separated (Param D) read params ∧
        sig = signatureOf result (done ++ params) ∧ MarksFit ((done ++ params).map Prod.snd) := by
  intro fuel
  induction fuel with
  | zero =>
    intro done sig tokens rest _ h
    cases h
  | succ fuel ih =>
    intro done sig tokens rest hdone h
    rw [parseParams_succ] at h
    obtain ⟨⟨t, rest1⟩, ht, h1⟩ := ok_of_bind h
    obtain ⟨⟨sig1, rest2⟩, hmark, h2⟩ := ok_of_bind h1
    obtain ⟨ts, rfl, hts⟩ := hty ht
    obtain ⟨mark, hrest1, rfl, hlast, hplain⟩ := parseMark_inv hmark
    dsimp only at hrest1 h2
    subst hrest1
    rw [← signatureOf_concat] at h2
    have hparam : Param D (ts ++ mark.tokens) (t, mark) := .mk mark hts
    have hmarks : ((done ++ [(t, mark)]).map Prod.snd).Pairwise Mark.MayPrecede := by
      rw [List.map_append]
      refine pairwise_concat hdone.1 hdone.2 fun hm => ?_
      exact signatureOf_defaultCount_eq_zero.mp (hplain hm)
    -- either a comma was read and more parameters follow, or the list was closed
    rcases parseMore_inv h2 with ⟨rest3, rfl, h3⟩ | ⟨rfl, rfl, hboth⟩
    · have hnotRest : mark ≠ .rest := fun hm => by cases hlast hm
      have hmore : Unfinished (done ++ [(t, mark)]) := by
        refine ⟨hmarks, ?_⟩
        rw [List.map_append, List.mem_append, List.map_singleton, List.mem_singleton]
        rintro (hmem | hmem)
        · exact hdone.2 hmem
        · exact hnotRest hmem.symm
      obtain ⟨us, params, rfl, hus, rfl, hfit⟩ := ih hmore h3
      refine ⟨ts ++ mark.tokens ++ .comma :: us, (t, mark) :: params, by simp, .cons hparam hus, ?_, ?_⟩
      · rw [List.append_assoc, List.singleton_append]
      · rw [List.append_assoc, List.singleton_append] at hfit
        exact hfit
    · refine ⟨ts ++ mark.tokens, [(t, mark)], by simp, .one hparam, rfl, hmarks, fun hvarargs => ?_⟩
      exact signatureOf_defaultCount_eq_zero.mp (hboth (signatureOf_hasVarargs.mpr hvarargs))

/-- What was read as suffixes is a list of them. -/
theorem sound_parseSuffixes (hty : Sound ty D) :
    ∀ {fuel : Nat} {t t' : Ty} {tokens rest : List Token},
      parseSuffixes ty fuel t tokens = .ok (t', rest) →
      ∃ read, tokens = read ++ rest ∧ Suffixes D read t t' := by
  intro fuel
  induction fuel with
  | zero =>
    intro t t' tokens rest h
    unfold parseSuffixes at h
    split at h
    · cases h
    · rename_i hfuel
      cases hfuel
    · cases h
      exact ⟨[], rfl, .nil⟩
  | succ fuel ih =>
    intro t t' tokens rest h
    unfold parseSuffixes at h
    split at h
    · rename_i hfuel
      cases hfuel
    · rename_i hfuel
      cases hfuel
      split at h
      · obtain ⟨ss, rfl, hss⟩ := ih h
        exact ⟨_, rfl, .empty hss⟩
      · obtain ⟨⟨sig, rest1⟩, hparams, hstep⟩ := ok_of_bind h
        obtain ⟨ps, params, rfl, hps, rfl, hmarks⟩ := sound_parseParams hty unfinished_nil hparams
        obtain ⟨ss, rfl, hss⟩ := ih hstep
        exact ⟨.langle :: (ps ++ .rangle :: ss), by simp, .params hps hmarks hss⟩
    · cases h
      exact ⟨[], rfl, .nil⟩

theorem sound_parseNamed (hty : Sound ty D) (h : parseNamed lookup ty name tokens = .ok (t, rest)) :
    ∃ read, .name name :: tokens = read ++ rest ∧ Primary lookup D read t := by
  unfold parseNamed at h
  split at h
  · cases h
  · rename_i found hknown
    split at h
    · obtain ⟨⟨⟨args, last⟩, rest1⟩, hargs, h1⟩ := ok_of_bind h
      obtain ⟨rest2, hclose, h2⟩ := ok_of_bind h1
      obtain ⟨ts, rfl, hts⟩ := sound_parseTypes_listed hty hargs
      obtain rfl := ok_of_expect hclose
      split at h2
      · rename_i hcount
        cases h2
        exact ⟨_, by simp, .applied hknown hts hcount⟩
      · cases h2
    · cases h
    · cases h
      exact ⟨[.name name], rfl, .bare hknown⟩
    · rename_i hclass _
      cases h
      exact ⟨[.name name], rfl, .named hknown hclass⟩

theorem sound_parsePrimary (hty : Sound ty D) :
    Sound (parsePrimary lookup ty) (Primary lookup D) := by
  intro tokens t rest h
  unfold parsePrimary at h
  split at h
  · cases h
  · exact sound_parseNamed hty h
  · obtain ⟨⟨⟨items, last⟩, rest1⟩, hitems, h1⟩ := ok_of_bind h
    obtain ⟨rest2, hclose, h2⟩ := ok_of_bind h1
    obtain ⟨ts, rfl, hts⟩ := sound_parseTypes_listed hty hitems
    obtain rfl := ok_of_expect hclose
    split at h2
    · cases h2
      -- without a comma there is only one way to have one item
      cases hts with
      | plain hsep =>
        cases hsep with
        | one ht => exact ⟨_, by simp, .grouped ht⟩
        | cons _ hrest => cases hrest
    · rename_i hgroup
      cases h2
      refine ⟨_, by simp, .tuple hts ?_⟩
      by_cases hlength : items.length = 1
      · obtain ⟨t, rfl⟩ := List.length_eq_one_iff.mp hlength
        exact .inr (eq_true_of_ne_false fun hlast => hgroup t rfl hlast)
      · exact .inl hlength
  · obtain ⟨⟨t1, rest1⟩, ht, h1⟩ := ok_of_bind h
    obtain ⟨rest2, hclose, h2⟩ := ok_of_bind h1
    obtain ⟨ts, rfl, hts⟩ := hty ht
    obtain rfl := ok_of_expect hclose
    cases h2
    exact ⟨_, by simp, .cell hts⟩
  · cases h

/-- By induction on the fuel, only types of the grammar are accepted. -/
theorem sound_parseType (lookup : String → Option Ty) :
    ∀ fuel : Nat, Sound (parseType lookup fuel) (Derives lookup)
  | 0 => by
    intro tokens t rest h
    cases h
  | fuel + 1 => by
    intro tokens t rest h
    have hty := sound_parseType lookup fuel
    obtain ⟨⟨t1, rest1⟩, hprimary, hsuffixes⟩ := ok_of_bind h
    obtain ⟨ps, rfl, hps⟩ := sound_parsePrimary hty hprimary
    obtain ⟨ss, rfl, hss⟩ := sound_parseSuffixes hty hsuffixes
    exact ⟨ps ++ ss, (List.append_assoc _ _ _).symm, .mk hps hss⟩

/-! ## Completeness -/

/-- What comes next does not go on with a type, as arguments or parameters would. -/
def EndsType (rest : List Token) : Prop := rest.head? ≠ some .lparen ∧ rest.head? ≠ some .langle

/-- The rule reads every derivation of at most `n` tokens that the type ends after. -/
def CompleteTo (n : Nat) (ty : TypeRule) (D : List Token → Ty → Prop) : Prop :=
  ∀ ⦃ts : List Token⦄ ⦃t : Ty⦄ ⦃rest : List Token⦄, ts.length ≤ n → D ts t →
    EndsType rest → ty (ts ++ rest) = .ok (t, rest)

theorem expect_cons (wanted : Token) (rest : List Token) :
    expect wanted (wanted :: rest) = .ok rest := if_pos rfl

theorem Opens.head?_ne (hopens : Opens D) (h : D ts t)
    {tok : Token} (htok : tok.opens = false) : (ts ++ rest).head? ≠ some tok := by
  obtain ⟨first, us, rfl, hfirst⟩ := hopens h
  intro heq
  cases heq
  rw [hfirst] at htok
  cases htok

theorem Opens.length_pos (hopens : Opens D) (h : D ts t) : 0 < ts.length := by
  obtain ⟨first, us, rfl, -⟩ := hopens h
  exact Nat.succ_pos _

theorem complete_parseTypes (hty : CompleteTo n ty D) (hopens : Opens D)
    (h : Separated D ts items) (last : Bool) :
    ∀ {fuel : Nat} {done : List Ty} {comma : Bool} {rest : List Token},
      ts.length ≤ n → ts.length ≤ fuel →
      parseTypes ty fuel done comma (ts ++ ((if last then [.comma] else []) ++ .rparen :: rest)) =
        .ok ((done ++ items, last), .rparen :: rest) := by
  induction h with
  | @one ts t ht =>
    intro fuel done comma rest hn hfuel
    have hpos := hopens.length_pos ht
    obtain ⟨fuel, rfl⟩ : ∃ k, fuel = k + 1 := ⟨fuel - 1, by omega⟩
    rw [parseTypes_succ (hopens.head?_ne ht rfl), hty hn ht (by cases last <;> simp [EndsType])]
    cases last with
    | false => rfl
    | true => exact parseTypes_close ..
  | @cons ts us t items ht _ ih =>
    intro fuel done comma rest hn hfuel
    simp only [List.length_append, List.length_cons] at hn hfuel
    obtain ⟨fuel, rfl⟩ : ∃ k, fuel = k + 1 := ⟨fuel - 1, by omega⟩
    rw [List.append_assoc, List.cons_append, parseTypes_succ (hopens.head?_ne ht rfl),
      hty (by omega) ht (by simp [EndsType])]
    show parseTypes ty fuel (done ++ [t]) true _ = _
    rw [ih (by omega) (by omega), List.append_assoc, List.singleton_append]

theorem complete_parseTypes_listed (hty : CompleteTo n ty D) (hopens : Opens D)
    (h : Listed D ts items last) (hn : ts.length ≤ n) :
    parseTypes ty ((ts ++ .rparen :: rest).length + 1) [] false (ts ++ .rparen :: rest) =
      .ok ((items, last), .rparen :: rest) := by
  cases h with
  | empty => exact parseTypes_close ..
  | plain h =>
    exact complete_parseTypes hty hopens h false hn (by rw [List.length_append]; omega)
  | @trailing ts _ h =>
    rw [List.append_assoc]
    rw [List.length_append] at hn
    exact complete_parseTypes hty hopens h true (by omega) (by rw [List.length_append]; omega)

theorem parseMark_tokens {mark : Mark}
    (hlast : mark = .rest → rest.head? = some .rangle) (hplain : mark = .plain → sig.defaultCount = 0)
    (hstar : rest.head? ≠ some .star) (hquestion : rest.head? ≠ some .question) :
    parseMark sig t (mark.tokens ++ rest) = .ok (addParam sig t mark, rest) := by
  cases mark with
  | plain =>
    have hunmarked := parseMark_unmarked sig t rest
      (fun more heq => hstar (by rw [heq]; rfl)) (fun more heq => hquestion (by rw [heq]; rfl))
    rw [hplain rfl] at hunmarked
    exact hunmarked
  | rest => exact if_pos (hlast rfl)
  | optional => rfl

/-- A mark that the ones before it allow. -/
theorem optional_not_mem_of_pairwise
    (h : (before ++ .plain :: after).Pairwise Mark.MayPrecede) : .optional ∉ before := by
  intro hmem
  exact ((List.pairwise_append.mp h).2.2 _ hmem _ (.head _)).2 rfl rfl

theorem rest_not_mem_of_pairwise
    (h : (before ++ after).Pairwise Mark.MayPrecede) (hafter : after ≠ []) : .rest ∉ before := by
  intro hmem
  obtain ⟨m, hm⟩ := List.exists_mem_of_ne_nil after hafter
  exact ((List.pairwise_append.mp h).2.2 _ hmem _ hm).1 rfl

/-- One parameter is read up to the comma or bracket behind it. -/
theorem parseParams_param (hty : CompleteTo n ty D) {mark : Mark} (hn : ts.length ≤ n) (ht : D ts t)
    (hrest : rest.head? = some .comma ∨ rest.head? = some .rangle)
    (hlast : mark = .rest → rest.head? = some .rangle) (hplain : mark = .plain → sig.defaultCount = 0) :
    parseParams ty (fuel + 1) sig (ts ++ mark.tokens ++ rest) =
      parseMore ty fuel (addParam sig t mark) rest := by
  have hafter : ∀ tok, tok ≠ .comma → tok ≠ .rangle → rest.head? ≠ some tok := by
    intro tok hcomma hrangle heq
    rcases hrest with h | h
    · exact hcomma (Option.some.inj (heq.symm.trans h))
    · exact hrangle (Option.some.inj (heq.symm.trans h))
  have hmark : EndsType (mark.tokens ++ rest) := by
    cases mark with
    | plain => exact ⟨hafter .lparen (by decide) (by decide), hafter .langle (by decide) (by decide)⟩
    | rest => simp [EndsType, Mark.tokens]
    | optional => simp [EndsType, Mark.tokens]
  rw [List.append_assoc, parseParams_succ, hty hn ht hmark]
  show parseMark sig t (mark.tokens ++ rest) >>= _ = _
  rw [parseMark_tokens hlast hplain (hafter .star (by decide) (by decide))
    (hafter .question (by decide) (by decide))]
  rfl

/-- The closing bracket ends the parameters, since stars and question marks are not combined. -/
theorem parseMore_rangle
    (hmarks : MarksFit (params.map Prod.snd)) (fuel : Nat) (rest : List Token) :
    parseMore ty fuel (signatureOf result params) (.rangle :: rest) =
      .ok (signatureOf result params, rest) := by
  have hboth : ((signatureOf result params).hasVarargs &&
      decide (0 < (signatureOf result params).defaultCount)) = false := by
    rw [Bool.and_eq_false_imp]
    intro hvarargs
    rw [signatureOf_defaultCount_eq_zero.mpr (hmarks.2 (signatureOf_hasVarargs.mp hvarargs))]
    rfl
  show (if ((signatureOf result params).hasVarargs &&
    decide (0 < (signatureOf result params).defaultCount)) = true then _ else _) = _
  rw [hboth]
  rfl

theorem Separated.ne_nil {E : List Token → α → Prop} {items : List α}
    (h : Separated E ts items) : items ≠ [] := by
  cases h <;> exact List.cons_ne_nil _ _

theorem Separated.head?_ne (h : Separated (Param D) ps params) (hopens : Opens D) {tok : Token}
    (htok : tok.opens = false) : (ps ++ rest).head? ≠ some tok := by
  cases h with
  | one hparam =>
    obtain ⟨mark, ht⟩ := hparam
    rw [List.append_assoc]
    exact hopens.head?_ne ht htok
  | cons hparam _ =>
    obtain ⟨mark, ht⟩ := hparam
    rw [List.append_assoc, List.append_assoc]
    exact hopens.head?_ne ht htok

/-- Parameters are read to the end, with the marks they were written with. -/
theorem complete_parseParams (hty : CompleteTo n ty D) (hopens : Opens D)
    (h : Separated (Param D) ps params) :
    ∀ (fuel : Nat) (done : List (Ty × Mark)) (rest : List Token),
      ps.length ≤ n → ps.length ≤ fuel → MarksFit ((done ++ params).map Prod.snd) →
      parseParams ty fuel (signatureOf result done) (ps ++ .rangle :: rest) =
        .ok (signatureOf result (done ++ params), rest) := by
  induction h with
  | one hparam =>
    intro fuel done rest hn hfuel hmarks
    obtain ⟨mark, ht⟩ := hparam
    have hpos := hopens.length_pos ht
    rw [List.length_append] at hn hfuel
    obtain ⟨fuel, rfl⟩ : ∃ k, fuel = k + 1 := ⟨fuel - 1, by omega⟩
    have hplain : mark = .plain → (signatureOf result done).defaultCount = 0 := by
      rintro rfl
      have hpairwise := hmarks.1
      rw [List.map_append] at hpairwise
      exact signatureOf_defaultCount_eq_zero.mpr (optional_not_mem_of_pairwise hpairwise)
    rw [parseParams_param hty (by omega) ht (.inr rfl) (fun _ => rfl) hplain,
      ← signatureOf_concat]
    exact parseMore_rangle hmarks fuel rest
  | @cons ps us p params hparam hseparated ih =>
    intro fuel done rest hn hfuel hmarks
    obtain ⟨mark, ht⟩ := hparam
    simp only [List.length_append, List.length_cons] at hn hfuel
    obtain ⟨fuel, rfl⟩ : ∃ k, fuel = k + 1 := ⟨fuel - 1, by omega⟩
    have hpairwise := hmarks.1
    rw [List.map_append, List.map_cons] at hpairwise
    have hplain : mark = .plain → (signatureOf result done).defaultCount = 0 := by
      rintro rfl
      exact signatureOf_defaultCount_eq_zero.mpr (optional_not_mem_of_pairwise hpairwise)
    -- a rest parameter comes last, so more parameters rule it out
    have hlast : mark ≠ .rest := by
      rintro rfl
      rw [List.append_cons] at hpairwise
      refine rest_not_mem_of_pairwise hpairwise ?_ (List.mem_append_right _ (.head _))
      exact fun hnil => hseparated.ne_nil (List.map_eq_nil_iff.mp hnil)
    rw [List.append_assoc, List.cons_append,
      parseParams_param hty (by omega) ht (.inl rfl) (fun h => absurd h hlast) hplain,
      ← signatureOf_concat]
    rw [List.append_cons] at hmarks
    have hmore := ih fuel _ rest (by omega) (by omega) hmarks
    rw [← List.append_cons] at hmore
    exact hmore

theorem parseSuffixes_end (ty : TypeRule) (fuel : Nat) (t : Ty)
    (hrest : rest.head? ≠ some .langle) : parseSuffixes ty fuel t rest = .ok (t, rest) := by
  unfold parseSuffixes
  split
  · exact absurd rfl hrest
  · exact absurd rfl hrest
  · rfl

theorem parseSuffixes_params (ty : TypeRule) (fuel : Nat) (t : Ty) (hrest : rest.head? ≠ some .rangle) :
    parseSuffixes ty (fuel + 1) t (.langle :: rest) =
      parseParams ty (rest.length + 1) (.simple [] t) rest >>= fun p =>
        parseSuffixes ty fuel (.fn p.1) p.2 := by
  conv => lhs; unfold parseSuffixes
  dsimp only
  split
  · exact absurd rfl hrest
  · rfl

theorem complete_parseSuffixes (hty : CompleteTo n ty D) (hopens : Opens D)
    {t' : Ty} (h : Suffixes D ss t t') :
    ∀ (fuel : Nat) (rest : List Token), ss.length ≤ n + 1 → ss.length ≤ fuel →
      rest.head? ≠ some .langle → parseSuffixes ty fuel t (ss ++ rest) = .ok (t', rest) := by
  induction h with
  | nil =>
    intro fuel rest _ _ hrest
    exact parseSuffixes_end ty fuel _ hrest
  | empty _ ih =>
    intro fuel rest hn hfuel hrest
    simp only [List.length_cons] at hn hfuel
    obtain ⟨fuel, rfl⟩ : ∃ k, fuel = k + 1 := ⟨fuel - 1, by omega⟩
    exact ih fuel rest (by omega) (by omega) hrest
  | @params ps ss params t t' hparams hmarks _ ih =>
    intro fuel rest hn hfuel hrest
    simp only [List.length_append, List.length_cons] at hn hfuel
    obtain ⟨fuel, rfl⟩ : ∃ k, fuel = k + 1 := ⟨fuel - 1, by omega⟩
    have hread : parseParams ty ((ps ++ .rangle :: (ss ++ rest)).length + 1) (.simple [] t)
        (ps ++ .rangle :: (ss ++ rest)) = .ok (signatureOf t params, ss ++ rest) :=
      complete_parseParams hty hopens hparams _ [] _ (by omega) (by rw [List.length_append]; omega) hmarks
    rw [List.cons_append, List.append_assoc, List.cons_append,
      parseSuffixes_params ty fuel t (hparams.head?_ne hopens rfl), hread]
    exact ih fuel rest (by omega) (by omega) hrest

theorem complete_parseNamed (hty : CompleteTo n ty D) (hopens : Opens D) {args : List Ty}
    (hknown : lookup name = some (.classObject c)) (hargs : Listed D ts args last)
    (hcount : args.length = c.generics.length) (hn : ts.length ≤ n) :
    parseNamed lookup ty name (.lparen :: (ts ++ .rparen :: rest)) = .ok (.inst c args, rest) := by
  rw [parseNamed, hknown]
  dsimp only
  rw [complete_parseTypes_listed hty hopens hargs hn]
  dsimp only [bind, Except.bind]
  rw [expect_cons]
  exact if_pos hcount

theorem parseNamed_bare (ty : TypeRule)
    (hknown : lookup name = some (.classObject c)) (hrest : rest.head? ≠ some .lparen) :
    parseNamed lookup ty name rest = .ok (.inst c (c.generics.map fun _ => .any), rest) := by
  rw [parseNamed, hknown]
  dsimp only
  split
  · exact absurd rfl hrest
  · exact absurd rfl hrest
  · rename_i heq
    cases heq
    rfl
  · rename_i hclass _
    exact absurd rfl (hclass c)

theorem parseNamed_other (ty : TypeRule)
    (hknown : lookup name = some t) (hclass : ∀ c, t ≠ .classObject c)
    (hrest : rest.head? ≠ some .lparen) : parseNamed lookup ty name rest = .ok (t, rest) := by
  rw [parseNamed, hknown]
  dsimp only
  split
  · exact absurd rfl hrest
  · exact absurd rfl hrest
  · exact absurd rfl (hclass _)
  · rfl

theorem complete_parsePrimary (hty : CompleteTo n ty D) (hopens : Opens D)
    (h : Primary lookup D ps t) (hn : ps.length ≤ n + 1) (hrest : rest.head? ≠ some .lparen) :
    parsePrimary lookup ty (ps ++ rest) = .ok (t, rest) := by
  cases h with
  | named hknown hclass => exact parseNamed_other ty hknown hclass hrest
  | bare hknown => exact parseNamed_bare ty hknown hrest
  | applied hknown hargs hcount =>
    simp only [List.length_append, List.length_cons] at hn
    rw [List.cons_append, List.cons_append, List.append_assoc]
    exact complete_parseNamed hty hopens hknown hargs hcount (by omega)
  | grouped ht =>
    simp only [List.length_append, List.length_cons] at hn
    rw [List.cons_append, List.append_assoc, List.singleton_append, parsePrimary,
      complete_parseTypes_listed hty hopens (.plain (.one ht)) (by omega)]
    dsimp only [bind, Except.bind]
    rw [expect_cons]
  | tuple hitems hgroup =>
    simp only [List.length_append, List.length_cons] at hn
    rw [List.cons_append, List.append_assoc, List.singleton_append, parsePrimary,
      complete_parseTypes_listed hty hopens hitems (by omega)]
    dsimp only [bind, Except.bind]
    rw [expect_cons]
    dsimp only
    split
    · exact absurd hgroup (by simp)
    · rfl
  | cell ht =>
    simp only [List.length_append, List.length_cons] at hn
    rw [List.cons_append, List.append_assoc, List.singleton_append, parsePrimary,
      hty (by omega) ht (by simp [EndsType])]
    dsimp only [bind, Except.bind]
    rw [expect_cons]

theorem Suffixes.head?_ne {t' : Ty} (h : Suffixes D ss t t')
    (hrest : rest.head? ≠ some .lparen) : (ss ++ rest).head? ≠ some .lparen := by
  cases h with
  | nil => exact hrest
  | empty => simp
  | params => simp

theorem Primary.length_pos (h : Primary lookup D ps t) : 0 < ps.length := by
  cases h <;> exact Nat.succ_pos _

/-- By induction on the fuel, types of at most that length are read. -/
theorem complete_parseType (lookup : String → Option Ty) :
    ∀ fuel : Nat, CompleteTo fuel (parseType lookup fuel) (Derives lookup)
  | 0 => by
    intro ts t rest hn h _
    have hpos := (opens_derives lookup).length_pos h
    omega
  | fuel + 1 => by
    intro ts t rest hn h hrest
    have hty := complete_parseType lookup fuel
    have hopens := opens_derives lookup
    obtain ⟨hprimary, hsuffixes⟩ := h
    have hpos := hprimary.length_pos
    rw [List.length_append] at hn
    rw [parseType, List.append_assoc,
      complete_parsePrimary hty hopens hprimary (by omega) (hsuffixes.head?_ne hrest.1)]
    exact complete_parseSuffixes hty hopens hsuffixes _ rest (by omega) (by rw [List.length_append]; omega) hrest.2

/-! ## Fuel -/

/-- The outcomes are the same, and it is not that the fuel has run out. -/
def Settled {α : Type} (x x' : Except Fault α) : Prop := x = x' ∧ x ≠ reject .outOfFuel

/-- The two rules settle on the same with at most `n` tokens. -/
def AgreeTo (n : Nat) (ty ty' : TypeRule) : Prop :=
  ∀ ⦃tokens : List Token⦄, tokens.length ≤ n → Settled (ty tokens) (ty' tokens)

theorem Settled.of_ne (h : x ≠ reject .outOfFuel) : Settled x x := ⟨rfl, h⟩

theorem settled_ok (a : α) : Settled (.ok a : Except Fault α) (.ok a) :=
  .of_ne fun heq => by cases heq

theorem settled_error {fault : Fault} (h : fault ≠ .form .outOfFuel) :
    Settled (.error fault : Except Fault α) (.error fault) :=
  .of_ne fun heq => h (Except.error.inj heq)

theorem settled_reject {fault : FormFault} (h : fault ≠ .outOfFuel) :
    Settled (reject fault : Except Fault α) (reject fault) :=
  settled_error fun heq => h (Fault.form.inj heq)

/-- What comes after the same outcome may rely on it. -/
theorem Settled.bind {β : Type} {x' : Except Fault α} {f g : α → Except Fault β} (h : Settled x x')
    (hstep : ∀ a, x' = .ok a → Settled (f a) (g a)) : Settled (x >>= f) (x' >>= g) := by
  obtain ⟨rfl, hx⟩ := h
  cases x with
  | error fault => exact settled_error fun heq => hx (congrArg Except.error heq)
  | ok a => exact hstep a rfl

theorem settled_expect (wanted : Token) (tokens : List Token) :
    Settled (expect wanted tokens) (expect wanted tokens) := by
  refine .of_ne fun h => ?_
  cases tokens with
  | nil => cases h
  | cons t ts =>
    rw [expect] at h
    split at h <;> cases h

variable {ty' : TypeRule} {n : Nat}

/-- A rule takes at least one token. -/
theorem Sound.length_lt (hty : Sound ty D) (hopens : Opens D)
    (h : ty tokens = .ok (t, rest)) : rest.length < tokens.length := by
  obtain ⟨read, rfl, hread⟩ := hty h
  have hpos := hopens.length_pos hread
  rw [List.length_append]
  omega

/-- Each round takes a token, so the two come to the same end before their fuel does. -/
theorem agree_parseTypes (h : AgreeTo n ty ty') (hty : Sound ty' D) (hopens : Opens D) :
    ∀ (fuel fuel' : Nat) (done : List Ty) (comma : Bool) (tokens : List Token),
      tokens.length ≤ n → tokens.length < fuel → tokens.length < fuel' →
      Settled (parseTypes ty fuel done comma tokens) (parseTypes ty' fuel' done comma tokens) := by
  intro fuel
  induction fuel with
  | zero => exact fun _ _ _ _ _ hfuel => absurd hfuel (Nat.not_lt_zero _)
  | succ fuel ih =>
    intro fuel' done comma tokens hn hfuel hfuel'
    by_cases hopen : tokens.head? = some .rparen
    · obtain ⟨us, rfl⟩ := List.head?_eq_some_iff.mp hopen
      rw [parseTypes_close, parseTypes_close]
      exact settled_ok _
    · obtain ⟨fuel', rfl⟩ : ∃ k, fuel' = k + 1 := ⟨fuel' - 1, by omega⟩
      rw [parseTypes_succ hopen, parseTypes_succ hopen]
      refine (h hn).bind fun p hp => ?_
      have hless := hty.length_lt hopens hp
      unfold parseFollowing
      split
      · rename_i hrest
        rw [hrest, List.length_cons] at hless
        exact ih _ _ _ _ (by omega) (by omega) (by omega)
      · exact settled_ok _

theorem length_parseMark_le
    (h : parseMark sig t tokens = .ok (sig', rest)) : rest.length ≤ tokens.length := by
  obtain ⟨mark, rfl, -⟩ := parseMark_inv h
  rw [List.length_append]
  omega

theorem settled_parseMark (sig : Signature) (t : Ty) (tokens : List Token) :
    Settled (parseMark sig t tokens) (parseMark sig t tokens) := by
  unfold parseMark
  split
  · split
    · exact settled_ok _
    · exact settled_reject (by decide)
  · exact settled_ok _
  · split
    · exact settled_reject (by decide)
    · exact settled_ok _

/-- A parameter takes a token as well, and its mark gives none back. -/
theorem agree_parseParams (h : AgreeTo n ty ty') (hty : Sound ty' D) (hopens : Opens D) :
    ∀ (fuel fuel' : Nat) (sig : Signature) (tokens : List Token),
      tokens.length ≤ n → tokens.length < fuel → tokens.length < fuel' →
      Settled (parseParams ty fuel sig tokens) (parseParams ty' fuel' sig tokens) := by
  intro fuel
  induction fuel with
  | zero => exact fun _ _ _ _ hfuel => absurd hfuel (Nat.not_lt_zero _)
  | succ fuel ih =>
    intro fuel' sig tokens hn hfuel hfuel'
    obtain ⟨fuel', rfl⟩ : ∃ k, fuel' = k + 1 := ⟨fuel' - 1, by omega⟩
    rw [parseParams_succ, parseParams_succ]
    refine (h hn).bind fun p hp => (settled_parseMark _ _ _).bind fun marked hmarked => ?_
    have hless := hty.length_lt hopens hp
    have hle := length_parseMark_le hmarked
    unfold parseMore
    split
    · rename_i hrest
      rw [hrest, List.length_cons] at hle
      exact ih _ _ _ (by omega) (by omega) (by omega)
    · refine (settled_expect _ _).bind fun rest' _ => ?_
      split
      · exact settled_reject (by decide)
      · exact settled_ok _

/-- Parameters take tokens too. -/
theorem length_parseParams_lt (hty : Sound ty D)
    (h : parseParams ty fuel (.simple [] result) tokens = .ok (sig, rest)) :
    rest.length < tokens.length := by
  obtain ⟨read, params, rfl, -⟩ := sound_parseParams hty unfinished_nil h
  simp only [List.length_append, List.length_cons]
  omega

theorem agree_parseSuffixes (h : AgreeTo n ty ty') (hty : Sound ty' D) (hopens : Opens D) :
    ∀ (fuel fuel' : Nat) (t : Ty) (tokens : List Token),
      tokens.length ≤ n + 1 → tokens.length < fuel → tokens.length < fuel' →
      Settled (parseSuffixes ty fuel t tokens) (parseSuffixes ty' fuel' t tokens) := by
  intro fuel
  induction fuel with
  | zero => exact fun _ _ _ _ hfuel => absurd hfuel (Nat.not_lt_zero _)
  | succ fuel ih =>
    intro fuel' t tokens hn hfuel hfuel'
    obtain ⟨fuel', rfl⟩ : ∃ k, fuel' = k + 1 := ⟨fuel' - 1, by omega⟩
    by_cases hopen : tokens.head? = some .langle
    · obtain ⟨us, rfl⟩ := List.head?_eq_some_iff.mp hopen
      rw [List.length_cons] at hn hfuel hfuel'
      by_cases hclose : us.head? = some .rangle
      · obtain ⟨vs, rfl⟩ := List.head?_eq_some_iff.mp hclose
        rw [List.length_cons] at hn hfuel hfuel'
        exact ih _ _ vs (by omega) (by omega) (by omega)
      · rw [parseSuffixes_params ty fuel t hclose, parseSuffixes_params ty' fuel' t hclose]
        refine (agree_parseParams h hty hopens _ _ _ _ (by omega) (by omega) (by omega)).bind fun p hp => ?_
        have hless := length_parseParams_lt hty hp
        exact ih _ _ _ (by omega) (by omega) (by omega)
    · rw [parseSuffixes_end ty _ t hopen, parseSuffixes_end ty' _ t hopen]
      exact settled_ok _

/-- The types between parentheses, read with as much fuel as it takes. -/
theorem agree_parseTypes_all (h : AgreeTo n ty ty') (hty : Sound ty' D) (hopens : Opens D)
    (hn : tokens.length ≤ n) : Settled (parseTypes ty (tokens.length + 1) [] false tokens)
      (parseTypes ty' (tokens.length + 1) [] false tokens) :=
  agree_parseTypes h hty hopens _ _ _ _ _ hn (Nat.lt_succ_self _) (Nat.lt_succ_self _)

theorem agree_parseNamed (h : AgreeTo n ty ty') (hty : Sound ty' D) (hopens : Opens D)
    (name : String) (hn : tokens.length ≤ n) :
    Settled (parseNamed lookup ty name tokens) (parseNamed lookup ty' name tokens) := by
  cases hknown : lookup name with
  | none =>
    rw [parseNamed, parseNamed, hknown]
    exact settled_error Fault.noConfusion
  | some found =>
    by_cases hopen : tokens.head? = some .lparen
    · obtain ⟨us, rfl⟩ := List.head?_eq_some_iff.mp hopen
      rw [List.length_cons] at hn
      rw [parseNamed, parseNamed, hknown]
      cases found with
      -- only a class reads on, and the tokens in its parentheses are fewer
      | classObject c =>
        refine (agree_parseTypes_all h hty hopens (by omega)).bind fun p _ => ?_
        refine (settled_expect _ _).bind fun rest _ => ?_
        split
        · exact settled_ok _
        · exact settled_error Fault.noConfusion
      | _ => exact settled_reject FormFault.noConfusion
    · cases found with
      | classObject c =>
        rw [parseNamed_bare ty hknown hopen, parseNamed_bare ty' hknown hopen]
        exact settled_ok _
      | _ =>
        rw [parseNamed_other ty hknown (fun _ => Ty.noConfusion) hopen,
          parseNamed_other ty' hknown (fun _ => Ty.noConfusion) hopen]
        exact settled_ok _

theorem agree_parsePrimary (h : AgreeTo n ty ty') (hty : Sound ty' D) (hopens : Opens D)
    (hn : tokens.length ≤ n + 1) :
    Settled (parsePrimary lookup ty tokens) (parsePrimary lookup ty' tokens) := by
  cases tokens with
  | nil => exact settled_reject (by decide)
  | cons tok us =>
    rw [List.length_cons] at hn
    cases tok with
    | name name => exact agree_parseNamed h hty hopens name (by omega)
    | lparen =>
      refine (agree_parseTypes_all h hty hopens (by omega)).bind fun p _ => ?_
      refine (settled_expect _ _).bind fun rest _ => ?_
      split <;> exact settled_ok _
    | lbracket =>
      have hus : us.length ≤ n := by omega
      exact (h hus).bind fun p _ => (settled_expect _ _).bind fun rest _ => settled_ok _
    | _ => exact settled_reject (by decide)

/-- More fuel than there are tokens is enough: it never runs out, and with more of it nothing
changes. -/
theorem settled_parseType (lookup : String → Option Ty) :
    ∀ (n m : Nat) (tokens : List Token), tokens.length < n → tokens.length < m →
      Settled (parseType lookup n tokens) (parseType lookup m tokens)
  | 0, _, _, hn, _ => absurd hn (Nat.not_lt_zero _)
  | _, 0, _, _, hm => absurd hm (Nat.not_lt_zero _)
  | n + 1, m + 1, tokens, hn, hm => by
    by_cases hempty : tokens = []
    · rw [hempty]
      exact settled_reject (by decide)
    have hpos := List.length_pos_iff.mpr hempty
    -- inside, there is a token less
    have hagree : AgreeTo (min n m - 1) (parseType lookup n) (parseType lookup m) := by
      intro ts hts
      exact settled_parseType lookup n m ts (by omega) (by omega)
    have hty := sound_parseType lookup m
    have hopens := opens_derives lookup
    refine (agree_parsePrimary hagree hty hopens (by omega)).bind fun p hp => ?_
    obtain ⟨read, hread, -⟩ := sound_parsePrimary hty hp
    have hle : p.2.length ≤ tokens.length := by
      rw [hread, List.length_append]
      omega
    exact agree_parseSuffixes hagree hty hopens _ _ _ _ (by omega) (by omega) (by omega)

end

/-- The parser accepts exactly the types of the grammar. -/
theorem parse_eq_ok_iff : parse lookup tokens = .ok t ↔ Derives lookup tokens t := by
  constructor
  · intro h
    unfold parse at h
    split at h
    · cases h
    · obtain ⟨⟨t1, rest⟩, hty, hstep⟩ := ok_of_bind h
      obtain ⟨read, rfl, hread⟩ := sound_parseType lookup _ hty
      dsimp only at hstep
      split at hstep
      · cases hstep
        rw [List.append_nil]
        exact hread
      · cases hstep
  · intro h
    have hpos := (opens_derives lookup).length_pos h
    have hread : parseType lookup (tokens.length + 1) (tokens ++ []) = .ok (t, []) :=
      complete_parseType lookup _ (Nat.le_succ _) h (by simp [EndsType])
    rw [List.append_nil] at hread
    unfold parse
    split
    · exact absurd hpos (Nat.lt_irrefl 0)
    · rw [hread]
      rfl

theorem parse_ne_outOfFuel : parse lookup tokens ≠ reject .outOfFuel := by
  cases tokens with
  | nil => exact (settled_reject (by decide)).2
  | cons tok tokens =>
    have hread := settled_parseType lookup ((tok :: tokens).length + 1) _ (tok :: tokens)
      (Nat.lt_succ_self _) (Nat.lt_succ_self _)
    refine (hread.bind fun p _ => .of_ne ?_).2
    obtain ⟨t, rest⟩ := p
    cases rest with
    | nil => exact (settled_ok t).2
    | cons extra rest => exact (settled_reject FormFault.noConfusion).2

/-- **The parser decides the grammar.** It accepts exactly the annotations that have a type there.
It always comes to its own end: with more fuel than there are tokens neither a type nor one of
the loops inside it ever runs out, and none of them depends on how much more that is. What a type
leaves unread is the end of the tokens. -/
theorem parse_accepts_grammar (lookup : String → Option Ty) (tokens : List Token) :
    (∀ t, parse lookup tokens = .ok t ↔ Derives lookup tokens t) ∧
    parse lookup tokens ≠ reject .outOfFuel ∧
    (∀ fuel fuel', tokens.length < fuel → tokens.length < fuel' →
      Settled (parseType lookup fuel tokens) (parseType lookup fuel' tokens) ∧
      ∀ depth, tokens.length < depth → let ty := parseType lookup depth
        (∀ done comma, Settled (parseTypes ty fuel done comma tokens)
          (parseTypes ty fuel' done comma tokens)) ∧
        (∀ sig, Settled (parseParams ty fuel sig tokens) (parseParams ty fuel' sig tokens)) ∧
        ∀ t, Settled (parseSuffixes ty fuel t tokens) (parseSuffixes ty fuel' t tokens)) ∧
    ∀ fuel t rest, parseType lookup fuel tokens = .ok (t, rest) → rest <:+ tokens := by
  have hopens := opens_derives lookup
  refine ⟨fun t => parse_eq_ok_iff, ?_, fun fuel fuel' hfuel hfuel' => ⟨?_, fun depth hdepth => ?_⟩,
    fun fuel t rest h => ?_⟩
  · exact parse_ne_outOfFuel
  · exact settled_parseType lookup _ _ tokens hfuel hfuel'
  · have hagree : AgreeTo tokens.length (parseType lookup depth) (parseType lookup depth) := by
      intro ts hts
      exact settled_parseType lookup _ _ ts (by omega) (by omega)
    have hty := sound_parseType lookup depth
    refine ⟨fun done comma => ?_, fun sig => ?_, fun t => ?_⟩
    · exact agree_parseTypes hagree hty hopens _ _ _ _ _ (Nat.le_refl _) hfuel hfuel'
    · exact agree_parseParams hagree hty hopens _ _ _ _ (Nat.le_refl _) hfuel hfuel'
    · exact agree_parseSuffixes hagree hty hopens _ _ _ _ (Nat.le_succ _) hfuel hfuel'
  · obtain ⟨read, hread, -⟩ := sound_parseType lookup fuel h
    exact ⟨read, hread.symm⟩

/-- The primitives and a class with one generic parameter. -/
def shelfTypes : TypeNames :=
  TypeNames.builtins.define "Shelf" (.classObject ⟨0, "Shelf", ["T"], []⟩)

/-- A function on a string and an optional truth value that returns a shelf, with a comma
after the only argument of the class. -/
theorem parse_accepts_grammar_shelf :
    Derives shelfTypes.find?
      [.name "Shelf", .lparen, .name "i64", .comma, .rparen,
        .langle, .name "str", .comma, .name "bool", .question, .rangle]
      (.fn ⟨.inst ⟨0, "Shelf", ["T"], []⟩ [.int], [.str, .bool], [], false, 1⟩) ∧
    [.rangle] <:+ [Token.name "str", .rangle] :=
  ⟨((parse_accepts_grammar _ _).1 _).mp rfl,
    (parse_accepts_grammar shelfTypes.find? _).2.2.2 2 .str _ rfl⟩

end Strand.TypeExpr
