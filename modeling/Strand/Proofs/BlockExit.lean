import Strand.Proofs.Moves.Visited

/-!
# The end of a block

A block declares locals and macros of its own. At its end the locals are taken off the stack, one
instruction each, and what the names mean is again what they meant before, apart from macros that
a node of the block gave up.
-/

namespace Strand.Codegen

open Typed (Sound)

variable {α : Type} {limit budget : Nat} {s s' : State} {dropped : String → Prop}
  {act : NodeCompiler → Build α} {carry : Bool} {line : UInt64} {name : String}

/-! ## Macros that are given up -/

theorem find?_eraseP {β : Type} {p q : β → Bool} (h : ∀ a, p a = true → q a = false) :
    ∀ xs : List β, (xs.eraseP p).find? q = xs.find? q
  | [] => rfl
  | a :: xs => by
    cases ha : p a with
    | true => rw [List.eraseP_cons_of_pos ha, List.find?_cons, h a ha]
    | false =>
      rw [List.eraseP_cons_of_neg (ha ▸ Bool.false_ne_true), List.find?_cons, List.find?_cons,
        find?_eraseP h xs]

/-- A macro is found as before if its name is not given up. -/
theorem DroppedBy.find? {xs ys : List InlineDef} (h : DroppedBy dropped xs ys)
    (hname : ¬ dropped name) : (ys.find? fun m => m.name == name) = xs.find? fun m => m.name == name := by
  induction h with
  | none => rfl
  | @next left _ other hother ih =>
    rw [← ih]
    refine find?_eraseP (fun m hm => ?_) left
    have hother' : m.name = other := eq_of_beq hm
    refine beq_false_of_ne fun heq => hname ?_
    rw [← heq, hother']
    exact hother

theorem findInline?_of_droppedBy {fs gs : List Frame} (hname : ¬ dropped name)
    (h : List.Forall₂ (fun f g => DroppedBy dropped f.inlines g.inlines) fs gs) :
    findInline? name gs = findInline? name fs := by
  induction h with
  | nil => rfl
  | cons hfg _ ih =>
    unfold findInline? at ih ⊢
    rw [List.findSome?_cons, List.findSome?_cons, hfg.find? hname, ih]

/-! ## Leaving a block -/

/-- How a block ends that was opened in the state `s`: `inner` is the state after its nodes and `s'`
the one after the block. -/
structure Exits (i : Instr) (dropped : String → Prop) (s inner s' : State) : Prop where
  /-- All that follows is one instruction for each local of the block. -/
  code : ∃ new, inner.frame.locals = new ++ s'.frame.locals ∧
    (∀ l ∈ new, l.depth = s.frame.depth + 1) ∧
    s'.frame.chunk.code.toList = inner.frame.chunk.code.toList ++ List.replicate new.length i
  locals : List.Forall₂ Local.Kept s.frame.locals s'.frame.locals
  /-- In the unit and in those around only macros that were given up are gone. -/
  macros : List.Forall₂ (fun f g => DroppedBy dropped f.inlines g.inlines) s.chain s'.chain
  visible : ∀ name, ¬ dropped name → findInline? name s'.chain = findInline? name s.chain

theorem Frame.emitTimes_code (i : Instr) (line : UInt64) : ∀ (n : Nat) (f : Frame),
    (f.emitTimes i line n).chunk.code.toList = f.chunk.code.toList ++ List.replicate n i
  | 0, f => by rw [emitTimes, List.replicate_zero, List.append_nil]
  | n + 1, f => by
    rw [emitTimes, emitTimes_code i line n, List.replicate_succ]
    show (f.chunk.code.push i).toList ++ _ = _
    rw [Array.toList_push, List.append_assoc, List.singleton_append]

/-- Closing a block pops what was declared in it. -/
theorem State.Held.exits (hs : s.frame.Proper (.dropping dropped))
    (h : s.opened.Held (.dropping dropped) s') :
    Exits (if carry then .popUnder else .pop) dropped s s'
      (s'.withFrame (s'.frame.closeScope carry line)) := by
  obtain ⟨new, old, hlocals, hnew, hold, hcount⟩ := h.frame.takeWhile_locals hs.settled
  have hleft : (s'.frame.closeScope carry line).locals = old := by
    show (Frame.emitTimes s'.frame _ line _).locals.drop _ = old
    rw [Frame.emitTimes_locals, hcount, hlocals, List.drop_left]
  have hcode : (s'.frame.closeScope carry line).chunk.code.toList =
      s'.frame.chunk.code.toList ++ List.replicate new.length (if carry then .popUnder else .pop) := by
    show (Frame.emitTimes s'.frame _ line _).chunk.code.toList = _
    rw [Frame.emitTimes_code, hcount]
  have hmacros := h.macros.closed hs.macros carry line
  exact ⟨⟨new, hleft ▸ hlocals, hnew, hcode⟩, hleft ▸ hold, hmacros,
    fun _ hname => findInline?_of_droppedBy hname hmacros⟩

end Strand.Codegen
