/-!
# Ordered tables

A table of named entries that remembers the order in which names were first
entered. Entering a name again replaces its entry and leaves it where it was;
removing a name closes the gap. Globals, members of classes and variants of enums
are kept this way, because their order shows in the code stream and in listings.
-/

namespace Strand

/-- Named entries in the order their names were first entered. -/
structure Table (α : Type) where
  entries : List (String × α)
  /-- No name is entered twice. -/
  distinct : (entries.map Prod.fst).Nodup

namespace Table

variable {α β : Type}

def empty : Table α := ⟨[], .nil⟩

instance : EmptyCollection (Table α) := ⟨empty⟩
instance : Inhabited (Table α) := ⟨empty⟩

/-- Replace the entry called `name`, or put it at the end. -/
def insertEntry (name : String) (value : α) : List (String × α) → List (String × α)
  | [] => [(name, value)]
  | (n, v) :: rest =>
    if n = name then (n, value) :: rest else (n, v) :: insertEntry name value rest

/-- Entering a name adds at most that name. -/
theorem mem_names_insertEntry {name n : String} {value : α} :
    ∀ {entries : List (String × α)},
      n ∈ (insertEntry name value entries).map Prod.fst → n = name ∨ n ∈ entries.map Prod.fst
  | [], h => .inl (by simpa [insertEntry] using h)
  | (m, v) :: rest, h => by
    unfold insertEntry at h
    split at h
    · exact .inr h
    · rcases List.mem_cons.mp h with rfl | h
      · exact .inr (.head _)
      · exact (mem_names_insertEntry h).imp id (List.mem_cons_of_mem _)

theorem nodup_insertEntry {name : String} {value : α} :
    ∀ {entries : List (String × α)}, (entries.map Prod.fst).Nodup →
      ((insertEntry name value entries).map Prod.fst).Nodup
  | [], _ => by simp [insertEntry]
  | (m, v) :: rest, h => by
    unfold insertEntry
    split
    · exact h
    · rename_i hne
      obtain ⟨hm, hrest⟩ := List.nodup_cons.mp h
      refine List.nodup_cons.mpr ⟨fun hmem => ?_, nodup_insertEntry hrest⟩
      exact (mem_names_insertEntry hmem).elim hne hm

def insert (t : Table α) (name : String) (value : α) : Table α :=
  ⟨insertEntry name value t.entries, nodup_insertEntry t.distinct⟩

def find? (t : Table α) (name : String) : Option α :=
  (t.entries.find? fun e => e.1 == name).map Prod.snd

def contains (t : Table α) (name : String) : Bool := t.entries.any fun e => e.1 == name

/-- Take out what does not satisfy `p`, keeping the order of the rest, and change each
entry that stays. -/
def filterMap (t : Table α) (p : String × α → Bool) (f : α → β) : Table β :=
  ⟨(t.entries.filter p).map fun e => (e.1, f e.2), by
    have h := List.filter_sublist (p := p) (l := t.entries) |>.map Prod.fst
    simpa [Function.comp_def] using t.distinct.sublist h⟩

/-- Take `name` out, keeping the order of the others. -/
def erase (t : Table α) (name : String) : Table α := t.filterMap (fun e => e.1 != name) id

def names (t : Table α) : List String := t.entries.map Prod.fst

def size (t : Table α) : Nat := t.entries.length

def ofList (entries : List (String × α)) : Table α :=
  entries.foldl (fun t e => t.insert e.1 e.2) empty

/-- Change the entry called `name` if there is one. -/
def modify (t : Table α) (name : String) (f : α → α) : Table α :=
  ⟨t.entries.map fun e => (e.1, if e.1 = name then f e.2 else e.2), by
    simpa [Function.comp_def] using t.distinct⟩

/-- The same names with the same entries, in whatever order. -/
def agrees [BEq α] (a b : Table α) : Bool :=
  a.size == b.size && a.entries.all fun e => b.find? e.1 == some e.2

end Table

end Strand
