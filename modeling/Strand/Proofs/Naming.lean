import Strand.Proofs.Holding

/-!
# What names denote

Resolving a name captures variables, and that is all it changes: which slot a local
has, or that there is none, can be read off the scene. Where the receiver of a method
can be reached it is found, unless some method gives it up.
-/

namespace Strand.Codegen

open Scheme (op found unfound)

variable {p : Program} {α β : Type} {s s' : State} {x : Scheme} {π : List (Label × Nat)}

variable {name : String} {line : UInt64}

/-! ## Captures -/

theorem Frame.addCapture_like (f : Frame) (source : CaptureSource) :
    f.Like (f.addCapture source).2 :=
  ⟨rfl, rfl, rfl, rfl, rfl, rfl, fun _ h => h⟩

theorem capture?_like : ∀ {outer : List Frame} {f f' : Frame} {c : Capture}
    {outer' : List Frame}, capture? name f outer = some (c, f', outer') →
      f.Like f' ∧ AllLike outer outer'
  | [], _, _, _, _, h => by cases h
  | parent :: outer, f, f', c, outer', h => by
    unfold capture? at h
    split at h
    · cases h
      exact ⟨f.addCapture_like _, .refl _⟩
    · split at h
      · rename_i hinner
        obtain ⟨hparent, houter⟩ := capture?_like hinner
        cases h
        exact ⟨f.addCapture_like _, .cons hparent houter⟩
      · split at h
        · cases h
          exact ⟨f.addCapture_like _, .refl _⟩
        · cases h

theorem isQuiet_captureName : IsQuiet (captureName name) := by
  intro s
  cases h : capture? name s.frame s.outer with
  | none =>
    have hsame : ((captureName name) s).answer.2 = s := by
      simp only [captureName, modifyGet, MonadStateOf.modifyGet, StateT.modifyGet, pure, h]
    rw [hsame]
    exact .refl s
  | some r =>
    obtain ⟨c, f, outer⟩ := r
    have hnew : ((captureName name) s).answer.2 = { s with frame := f, outer } := by
      simp only [captureName, modifyGet, MonadStateOf.modifyGet, StateT.modifyGet, pure, h]
    obtain ⟨hframe, houter⟩ := capture?_like h
    rw [hnew]
    exact ⟨hframe, houter, .refl _, rfl, rfl⟩

/-! ## Macros -/

theorem expands_of_findInline {value : Expr} :
    ∀ {frames : List Frame}, (∀ f ∈ frames, f.Sound p) → findInline? name frames = some value →
      Expands p name value
  | [], _, h => by cases h
  | f :: rest, hsound, h => by
    unfold findInline? at h
    rw [List.findSome?_cons] at h
    split at h
    · rename_i hfound
      cases h
      obtain ⟨m, hm, rfl⟩ := Option.map_eq_some_iff.mp hfound
      have hname : m.name = name := by simpa using List.find?_some hm
      rw [← hname]
      exact (hsound f (.head _)).macros m (List.mem_of_find?_eq_some hm)
    · exact expands_of_findInline (fun g hg => hsound g (.tail _ hg)) h

theorem Inv.chain (hs : Inv p s) : ∀ f ∈ s.chain, f.Sound p := by
  intro f hf
  rcases List.mem_cons.mp hf with rfl | hf
  · exact hs.frame
  · exact hs.outer f hf

theorem eraseInline_like (name : String) : ∀ frames : List Frame,
    AllLike frames (eraseInline name frames)
  | [] => .nil
  | f :: rest => by
    unfold eraseInline
    split
    · exact .cons ⟨rfl, rfl, rfl, rfl, rfl, rfl, fun _ h => List.mem_of_mem_eraseP h⟩
        (AllLike.refl rest)
    · exact .cons (.refl f) (eraseInline_like name rest)

theorem isQuiet_dropInline : IsQuiet (dropInline name) := by
  intro s
  have hlike : AllLike (s.frame :: s.outer) (eraseInline name s.chain) := eraseInline_like name _
  cases h : eraseInline name s.chain with
  | nil =>
    rw [h] at hlike
    cases hlike
  | cons f outer =>
    have hnew : ((dropInline name) s).answer.2 = { s with frame := f, outer } := by
      simp only [dropInline, modify, modifyGet, MonadStateOf.modifyGet, StateT.modifyGet, pure, h]
    rw [h] at hlike
    rw [hnew]
    cases hlike with
    | cons hframe houter => exact ⟨hframe, houter, .refl _, rfl, rfl⟩

/-! ## The receiver -/

theorem Scene.HoldsReceiver.found {c : Scene} (h : c.HoldsReceiver) :
    c.findLocal? "this" ≠ none := by
  obtain ⟨v, hlast, hname, hdropped, _⟩ := h
  unfold findLocal?
  rw [if_neg (by decide), ne_eq, List.find?_eq_none]
  intro hnone
  exact hnone v (List.mem_of_getLast? hlast) (by simp [hname, hdropped])

/-- Where the receiver can be reached, it is a local or can be captured. -/
theorem capture?_receiver (hkeeps : KeepsReceiver p) : ∀ {outer : List Frame} {f : Frame},
    (∀ g ∈ f :: outer, g.Sound p) → reachesReceiver (f :: outer) = true →
      f.scene.findLocal? "this" = none → capture? "this" f outer ≠ none := by
  intro outer
  induction outer with
  | nil =>
    intro f hsound hreach hnone
    have hhas : f.kind.hasReceiver = true := by
      unfold reachesReceiver at hreach
      cases hkind : f.kind <;> simp_all [reachesReceiver, UnitKind.hasReceiver]
    exact absurd hnone ((hsound f (.head _)).receiver hkeeps hhas).found
  | cons parent outer ih =>
    intro f hsound hreach hnone
    have hnot : f.kind.hasReceiver ≠ true := fun hhas =>
      ((hsound f (.head _)).receiver hkeeps hhas).found hnone
    have hparent : reachesReceiver (parent :: outer) = true := by
      rw [reachesReceiver] at hreach
      cases hkind : f.kind <;> simp_all [UnitKind.hasReceiver]
    have hsounds := fun g hg => hsound g (List.mem_cons_of_mem f hg)
    unfold capture?
    cases hlocal : parent.findLocal? "this" with
    | some l => simp
    | none =>
      have hscene : parent.scene.findLocal? "this" = none := by
        rw [Frame.findLocal?_scene, hlocal, Option.map_none]
      obtain ⟨r, hr⟩ := Option.ne_none_iff_exists'.mp (ih hsounds hparent hscene)
      simp [hr]

theorem reachesReceiver_congr {fs gs : List Frame} (h : AllLike fs gs) :
    reachesReceiver gs = reachesReceiver fs := by
  induction h with
  | nil => rfl
  | cons hfg _ ih => rw [reachesReceiver, reachesReceiver, hfg.kind, hfg.owner, ih]

theorem Beside.reachesReceiver (h : Beside s s') :
    reachesReceiver s'.chain = reachesReceiver s.chain := by
  unfold State.chain
  rw [Codegen.reachesReceiver, Codegen.reachesReceiver, h.kind, h.owner,
    reachesReceiver_congr h.outer]

/-- Pushing the receiver. If there is none it cannot be reached, or is not kept. -/
theorem ensures_emitReceiver (hs : Inv p s) : Ensures s (emitReceiver line) fun r s' =>
      (r.isSome = true → Ran p s .receiver [] s') ∧
        (r = none → Quiet s s' ∧ (reachesReceiver s.chain = true → ¬ KeepsReceiver p)) := by
  refine Ensures.ofGet ?_
  cases hlocal : s.frame.findLocal? "this" with
  | some l =>
    have hfound : s.scene.findLocal? "this" = some l.var := by
      rw [State.scene, Frame.findLocal?_scene, hlocal, Option.map_some]
    have h0 : Ran p s (found "this" l.var) [] s := .requires hs hfound
    refine Does.then (does_emit rfl) h0 fun _ s1 h1 =>
      ensures_pure ⟨fun _ => ?_, fun h => by cases h⟩
    exact .thisOne (h1.choose l.var)
  | none =>
    have hunfound : s.scene.findLocal? "this" = none := by
      rw [State.scene, Frame.findLocal?_scene, hlocal, Option.map_none]
    refine Ensures.ofGet ?_
    -- without a local of that name the receiver is captured, if a unit around has one
    split
    · have hcapture : Ensures s (captureName "this") fun c s' =>
          Quiet s s' ∧ (c = none → ¬ KeepsReceiver p) := by
        refine fun _ => ⟨isQuiet_captureName s, fun hnone hkeeps => ?_⟩
        obtain ⟨⟨c, f, outer⟩, hr⟩ :=
          Option.ne_none_iff_exists'.mp (capture?_receiver hkeeps hs.chain ‹_› hunfound)
        simp only [captureName, modifyGet, MonadStateOf.modifyGet, StateT.modifyGet, pure,
          hr] at hnone
        cases hnone
      refine hcapture.bind fun c s1 h => ?_
      obtain ⟨hquiet, hkept⟩ := h
      cases c with
      | none => exact ensures_pure ⟨fun h => (by cases h), fun _ => ⟨hquiet, fun _ => hkept rfl⟩⟩
      | some c =>
        have h1 : Ran p s (unfound "this") [] s1 := (Ran.requires hs hunfound).quiet hquiet
        refine Does.then (does_emit rfl) h1 fun _ s2 h2 =>
          ensures_pure ⟨fun _ => ?_, fun h => by cases h⟩
        exact .another (.thisOne (h2.choose c.index))
    · rename_i hreach
      exact ensures_pure ⟨fun h => (by cases h), fun _ => ⟨.refl s, fun h => absurd h hreach⟩⟩

/-- Pushing the receiver for an attribute that is named without it. -/
theorem ensures_implicitReceiver (hs : Inv p s) (hreach : reachesReceiver s.chain = true) :
    Ensures s (emitReceiver line) fun _ s' => Ran p s (.implicitReceiver p) [] s' := by
  refine (ensures_emitReceiver hs).imp fun r s' ⟨hsome, hnone⟩ => ?_
  cases r with
  | some ty => exact .thisOne (hsome rfl)
  | none =>
    obtain ⟨hquiet, hlost⟩ := hnone rfl
    have h0 : Ran p s (.requires fun _ => ¬ KeepsReceiver p) [] s' :=
      (Ran.requires hs (hlost hreach)).quiet hquiet
    exact .another (.thisOne h0)

theorem Ran.implicitReceiver (h : Ran p s x π s') (hreach : reachesReceiver s'.chain = true) :
    Ensures s' (emitReceiver line) fun _ s'' => Ran p s (x ++ .implicitReceiver p) π s'' :=
  (ensures_implicitReceiver h.inv hreach).imp fun _ _ h' => h.closed h'

/-! ## Resolution -/

/-- What the answer to a name says about the state. -/
def Denotes (p : Program) (s : State) (name : String) : Option Meaning → Prop
  | some (.inline value) => Expands p name value
  | some (.slot slot _ _) => ∃ v, s.scene.findLocal? name = some v ∧ v.slot = slot
  | some (.captured _) | some (.global _ _) => s.scene.findLocal? name = none
  | some (.ofReceiver _) =>
    s.scene.findLocal? name = none ∧ reachesReceiver s.chain = true
  | none => True

theorem ensures_resolveName (hs : Inv p s) :
    Ensures s (resolveName name) fun m s' => Quiet s s' ∧ Denotes p s name m := by
  refine Ensures.ofGet ?_
  -- the cases follow the order in which the meanings of a name are tried
  cases hmacro : findInline? name s.chain with
  | some value => exact ensures_pure ⟨.refl s, expands_of_findInline hs.chain hmacro⟩
  | none =>
    refine Ensures.ofGet ?_
    have hscene : s.scene.findLocal? name = (s.frame.findLocal? name).map Local.var :=
      Frame.findLocal?_scene ..
    cases hlocal : s.frame.findLocal? name with
    | some l =>
      rw [hlocal] at hscene
      exact ensures_pure ⟨.refl s, l.var, hscene, rfl⟩
    | none =>
      rw [hlocal] at hscene
      have hquiet : Ensures s (captureName name) fun _ s' => Quiet s s' :=
        fun _ => isQuiet_captureName s
      refine hquiet.bind fun c s1 hq => ?_
      cases c with
      | some c => exact ensures_pure ⟨hq, hscene⟩
      | none =>
        refine Ensures.ofGet ?_
        cases s1.frame.globals.find? name with
        | some g => exact ensures_pure ⟨hq, hscene⟩
        | none =>
          refine Ensures.ofGet (ensures_pure ⟨hq, ?_⟩)
          cases hattr : s1.receiverAttribute? name with
          | none => trivial
          | some ty =>
            refine ⟨hscene, ?_⟩
            rw [← hq.beside.reachesReceiver]
            simp only [State.receiverAttribute?, Option.bind_eq_bind,
              Option.bind_eq_some_iff, Option.ite_none_right_eq_some] at hattr
            obtain ⟨_, _, _, _, hreach, _⟩ := hattr
            exact hreach

end Strand.Codegen
