import Strand.Proofs.Meaning.Nodes

/-!
# Code that always ends

Without loops and returns an evaluation is never undefined: it fails, or it gives something
and the names are those that are declared in the end. What is evaluated inside a node may
fail, and then so does the node.
-/

namespace Strand.Machine

open Codegen

variable {V σ E : Type} {I : Interp V σ E} {rounds : Nat} {scope scope1 scope2 : List String}
  {e : Expr} {value : Option Expr} {rest : List Expr}

variable {name : String} {news : List String}

/-- Where the names in `scope` are declared, the evaluation gives something, and then those in
`scope'` are declared, or it fails. -/
def Total {α : Type} (scope scope' : List String) (m : Eval V σ E α) : Prop :=
  ∀ ⦃env s⦄, env.names = scope →
    (∃ a env' s', m (env, s) = some (.ok (a, env', s')) ∧ env'.names = scope') ∨
      ∃ e, m (env, s) = some (.error (.fail e))

section

variable {α β : Type} {m : Eval V σ E α}

theorem total_pure (a : α) : Total scope scope (pure a : Eval V σ E α) :=
  fun env s hnames => .inl ⟨a, env, s, rfl, hnames⟩

theorem Total.bind {f : α → Eval V σ E β} (hm : Total scope scope1 m)
    (hf : ∀ a, Total scope1 scope2 (f a)) : Total scope scope2 (m >>= f) := by
  intro env s hnames
  rcases hm (s := s) hnames with ⟨a, env', s', ha, hnames'⟩ | ⟨e, he⟩
  · rw [bind_of_ok ha]
    exact hf a hnames'
  · rw [bind_of_error he]
    exact .inr ⟨e, rfl⟩

theorem Total.map (hm : Total scope scope1 m) (f : α → β) : Total scope scope1 (f <$> m) := by
  rw [map_eq_pure_bind]
  exact hm.bind fun a => total_pure (f a)

theorem total_compute (o : Operation) (args : List V) : Total scope scope (compute I o args) := by
  intro env s hnames
  cases hr : I.apply o args s with
  | ok r => exact .inl ⟨r.1, env, r.2, by rw [compute, hr]; rfl, hnames⟩
  | error e => exact .inr ⟨e, by rw [compute, hr]; rfl⟩

theorem total_readName (hname : name ∈ scope) : Total scope scope (readName name : Eval V σ E V) := by
  intro env s hnames
  subst hnames
  obtain ⟨b, hb, rfl⟩ := List.mem_map.mp hname
  cases hv : env.lookup b.1 with
  | some v => exact .inl ⟨v, env, s, by rw [readName, hv]; rfl, rfl⟩
  | none =>
    have hne := List.lookup_eq_none_iff.mp hv b hb
    simp at hne

theorem total_assignName (hname : name ∈ scope) (v : V) :
    Total scope scope (assignName name v : Eval V σ E Unit) := by
  intro env s hnames
  exact .inl ⟨(), env.assign name v, s, if_pos (hnames ▸ hname), (env.names_assign name v).trans hnames⟩

theorem total_declareName (name : String) (v : V) :
    Total scope (name :: scope) (declareName name v : Eval V σ E Unit) :=
  fun env s hnames => .inl ⟨(), (name, v) :: env, s, rfl, congrArg (name :: ·) hnames⟩

theorem total_select {v : V} {yes no : Eval V σ E α} (hyes : Total scope scope1 yes)
    (hno : Total scope scope1 no) : Total scope scope1 (select I v yes no) := by
  intro env s hnames
  cases htruthy : I.truthy s v with
  | true =>
    rw [select_of_true (s := (env, s)) htruthy]
    exact hyes hnames
  | false =>
    rw [select_of_false (s := (env, s)) htruthy]
    exact hno hnames

/-- A block forgets what is declared in it, and that is on top of the rest. -/
theorem Total.inBlock (hm : Total scope (news ++ scope) m) : Total scope scope (inBlock m) := by
  intro env s hnames
  rw [inBlock_apply]
  rcases hm (s := s) hnames with ⟨a, env', s', ha, hnames'⟩ | ⟨e, he⟩
  · rw [bind_of_ok ha]
    have hlength : env.length = scope.length := by rw [← hnames, Env.names, List.length_map]
    refine .inl ⟨a, _, s', rfl, ?_⟩
    rw [hlength]
    exact Env.names_outermost (hnames' ▸ List.suffix_append news scope)
  · rw [bind_of_error he]
    exact .inr ⟨e, rfl⟩

end

/-! ## Expressions -/

theorem total_items {items : List Expr} (h : ∀ e ∈ items, Total scope scope (evalExpr I rounds e)) :
    Total scope scope (evalItems I rounds items) := by
  induction items with
  | nil => exact total_pure []
  | cons e rest ih =>
    exact (h e List.mem_cons_self).bind fun v =>
      (ih fun e he => h e (.tail _ he)).bind fun vs => total_pure _

theorem total_parts {parts : List TextPart}
    (h : ∀ e, .expr e ∈ parts → Total scope scope (evalExpr I rounds e)) :
    Total scope scope (evalParts I rounds parts) := by
  induction parts with
  | nil => exact total_pure []
  | cons part rest ih =>
    have hpart : Total scope scope (evalPart I rounds part) := by
      cases part with
      | literal text => exact total_compute _ _
      | expr e => exact h e List.mem_cons_self
    exact hpart.bind fun v =>
      (ih fun e he => h e (.tail _ he)).bind fun vs => total_pure _

theorem total_pairs {pairs : List (Expr × Expr)}
    (hkeys : ∀ e ∈ pairs, Total scope scope (evalExpr I rounds e.1))
    (hvalues : ∀ e ∈ pairs, Total scope scope (evalExpr I rounds e.2)) :
    Total scope scope (evalPairs I rounds pairs) := by
  induction pairs with
  | nil => exact total_pure []
  | cons e rest ih =>
    exact (hkeys e List.mem_cons_self).bind fun k => (hvalues e List.mem_cons_self).bind fun v =>
      (ih (fun e he => hkeys e (.tail _ he))
        fun e he => hvalues e (.tail _ he)).bind fun vs => total_pure _

theorem total_branches {branches : List Branch} {m : Eval V σ E V} (hm : Total scope scope m)
    (hconditions : ∀ b ∈ branches, Total scope scope (evalExpr I rounds b.condition))
    (hbodies : ∀ b ∈ branches, Total scope scope (inBlock (evalBody I rounds b.body))) :
    Total scope scope (evalBranches I rounds branches m) := by
  induction branches with
  | nil => exact hm
  | cons b rest ih =>
    obtain ⟨condition, body⟩ := b
    exact (hconditions _ List.mem_cons_self).bind fun v =>
      total_select (hbodies _ List.mem_cons_self)
        (ih (fun b hb => hconditions b (.tail _ hb))
          fun b hb => hbodies b (.tail _ hb))

theorem evalEffect_of_straight (he : Plain .straight scope e) :
    evalEffect I rounds e = (fun _ => ()) <$> evalExpr I rounds e := by
  cases he with
  | whileLoop h | doWhile h | rangeFor h | forEach h | ret h => exact absurd rfl h
  | _ => rfl

theorem total_init (h : ∀ e, value = some e → Total scope scope (evalExpr I rounds e)) :
    Total scope scope (evalInit I rounds value) := by
  cases value with
  | none => exact total_compute _ _
  | some e => exact h e rfl

/-- A body that starts with an expression. -/
theorem total_element
    (hplain : Plain .straight scope e) (he : Total scope scope (evalExpr I rounds e))
    (hrest : Total scope (news ++ scope) (evalBody I rounds rest)) :
    ∃ news, Total scope (news ++ scope) (evalBody I rounds (e :: rest)) := by
  cases rest with
  | nil =>
    refine ⟨[], ?_⟩
    rw [evalBody, evalLast_of_plain hplain, ← evalExpr_eq]
    exact he
  | cons e' rest =>
    refine ⟨news, ?_⟩
    rw [evalBody, evalEffect_of_straight hplain]
    · exact (he.map _).bind fun _ => hrest
    · rintro ⟨⟩

/-- A body that starts with a declaration. -/
theorem total_declare {typeExpr : Option (List TypeExpr.Token)} {isConst : Bool} {span : Span}
    (hvalue : ∀ e, value = some e → Total scope scope (evalExpr I rounds e))
    (hrest : Total (name :: scope) (news ++ name :: scope) (evalBody I rounds rest)) :
    ∃ news, Total scope (news ++ scope)
      (evalBody I rounds (⟨.letDecl name typeExpr value isConst, span⟩ :: rest)) := by
  have hdeclare := (total_init hvalue).bind fun v => total_declareName name v
  cases rest with
  | nil =>
    exact ⟨[name], (total_init hvalue).bind fun v =>
      (total_declareName name v).bind fun _ => total_compute _ _⟩
  | cons e' rest =>
    refine ⟨news ++ [name], ?_⟩
    rw [List.append_assoc]
    exact hdeclare.bind fun _ => hrest

/-- Without loops an evaluation always comes to an end. -/
theorem total_of_plain {r : Region} (he : Plain r scope e) (hr : r = .straight) :
    Total scope scope (evalExpr I rounds e) := by
  -- the nodes of bodies come before the bodies, so the induction is on both at once
  induction he using Plain.rec (motive_2 := fun r scope body _ => r = .straight →
    ∃ news, Total scope (news ++ scope) (evalBody I rounds body)) with
  | int | float | str | bool | null => exact total_compute _ _
  | interpolated _ ih =>
    exact (total_parts fun e he => ih e he hr).bind fun vs => total_compute _ vs
  | array _ ih | tuple _ ih =>
    exact (total_items fun e he => ih e he hr).bind fun vs => total_compute _ vs
  | map _ _ ihkeys ihvalues =>
    exact (total_pairs (fun e he => ihkeys e he hr) fun e he => ihvalues e he hr).bind fun vs =>
      total_compute _ vs
  | var _ h => exact total_readName h
  | assign _ h _ ih =>
    exact (ih hr).bind fun v => (total_assignName h v).bind fun _ => total_pure v
  | index _ _ ihleft ihright | binary _ _ ihleft ihright =>
    exact (ihleft hr).bind fun v => (ihright hr).bind fun w => total_compute _ _
  | unary _ ih => exact (ih hr).bind fun v => total_compute _ _
  | @logical _ _ _ b _ _ _ _ ihleft ihright =>
    cases b with
    | and => exact (ihleft hr).bind fun v => total_select (ihright hr) (total_pure v)
    | or => exact (ihleft hr).bind fun v => total_select (total_pure v) (ihright hr)
  | ternary _ _ _ ih ihthen ihelse =>
    exact (ih hr).bind fun v => total_select (ihthen hr) (ihelse hr)
  | @cond _ scope _ otherwise _ _ _ _ ihconditions ihbodies ihelse =>
    have hotherwise : Total scope scope (evalOtherwise I rounds otherwise) := by
      cases otherwise with
      | none => exact total_compute _ _
      | some body =>
        obtain ⟨news, hbody⟩ := ihelse body rfl hr
        exact hbody.inBlock
    refine total_branches hotherwise (fun b hb => ihconditions b hb hr) fun b hb => ?_
    obtain ⟨news, hbody⟩ := ihbodies b hb hr
    exact hbody.inBlock
  | whileLoop h | doWhile h | rangeFor h | forEach h | ret h => exact absurd hr h
  | breakLoop | continueLoop => cases hr
  | nil => exact ⟨[], total_compute _ _⟩
  | element he _ ih ihrest hr =>
    obtain ⟨news, hrest⟩ := ihrest hr
    exact total_element (hr ▸ he) (ih hr) hrest
  | declare _ _ ih ihrest hr =>
    obtain ⟨news, hrest⟩ := ihrest hr
    exact total_declare (fun e he => ih e he hr) hrest

theorem total_of_plainBody {body : List Expr} (hbody : PlainBody .straight scope body) :
    ∃ news, Total scope (news ++ scope) (evalBody I rounds body) := by
  induction body generalizing scope with
  | nil => exact ⟨[], total_compute _ _⟩
  | cons e rest ih =>
    cases hbody with
    | element he hrest =>
      obtain ⟨news, hrest⟩ := ih hrest
      exact total_element he (total_of_plain he rfl) hrest
    | declare hvalue hrest =>
      obtain ⟨news, hrest⟩ := ih hrest
      exact total_declare (fun e he => total_of_plain (hvalue e he) rfl) hrest

end Strand.Machine
