import Mathlib.Data.List.Forall2
import Strand.Listing

/-!
# The order in which units are visited

The units of a module are visited with a stack, which is pushed from the first unit of a pool
to the last and popped from the last to the first. What comes out is the walk through the tree
of units that takes the units of each pool from the last to the first.

A unit is told apart from an equal one by its address, the places in their pools of the units
that lead to it. `Before` orders addresses as the walk does; each address of a module comes up
exactly once. A listing walks through the same tree in the other direction.
-/

namespace Strand

/-! ## Addresses -/

variable {a : List Nat}

/-- The unit at an address: where it stands in the pool of the one around it comes last. -/
def CodeUnit.at? (u : CodeUnit) : List Nat → Option CodeUnit
  | [] => some u
  | i :: inside =>
    match u.constants[i]? with
    | some (.function v) => v.at? inside
    | _ => none

/-- The order of the walk: a unit before those inside it, and of two units in one pool the later
one first, with all that is inside it. -/
inductive Before : List Nat → List Nat → Prop where
  | around {i : Nat} {a : List Nat} : Before [] (i :: a)
  | beside {i j : Nat} {a b : List Nat} (h : j < i) : Before (i :: a) (j :: b)
  | inside {i : Nat} {a b : List Nat} (h : Before a b) : Before (i :: a) (i :: b)

theorem Before.ne {b : List Nat} (h : Before a b) : a ≠ b := by
  induction h with
  | around => exact (List.cons_ne_nil _ _).symm
  | beside h =>
    rintro ⟨⟩
    exact Nat.lt_irrefl _ h
  | inside _ ih => exact fun heq => ih (List.cons.inj heq).2

namespace CodeUnit

variable {v : CodeUnit}

mutual

/-- The addresses of the units in a unit, in the order of the walk. -/
def addresses : CodeUnit → List (List Nat)
  | ⟨_, _, _, constants, _, _⟩ => [] :: addressesFrom 0 constants

/-- Those of the units in the end of a pool that starts at a given place. -/
def addressesFrom : Nat → List Constant → List (List Nat)
  | _, [] => []
  | i, .function u :: rest => addressesFrom (i + 1) rest ++ u.addresses.map (i :: ·)
  | i, _ :: rest => addressesFrom (i + 1) rest

end

variable {pool : List Constant}

theorem addresses_eq (u : CodeUnit) : u.addresses = [] :: addressesFrom 0 u.constants := by
  cases u
  rw [addresses]

theorem exists_of_mem_addressesFrom {n : Nat} (h : a ∈ addressesFrom n pool) :
    ∃ i inside, a = i :: inside ∧ n ≤ i := by
  induction pool generalizing n with
  | nil => exact absurd h List.not_mem_nil
  | cons k rest ih =>
    have hrest : a ∈ addressesFrom (n + 1) rest → ∃ i inside, a = i :: inside ∧ n ≤ i := fun hmem =>
      (ih hmem).imp fun i => Exists.imp fun _ hi => ⟨hi.1, Nat.le_of_succ_le hi.2⟩
    cases k with
    | function u =>
      rcases List.mem_append.mp h with hmem | hmem
      · exact hrest hmem
      · obtain ⟨inside, -, rfl⟩ := List.mem_map.mp hmem
        exact ⟨n, inside, rfl, Nat.le_refl n⟩
    | _ => exact hrest h

mutual

/-- The addresses are in the order of the walk. -/
theorem pairwise_addresses : ∀ u : CodeUnit, u.addresses.Pairwise Before
  | ⟨_, _, _, constants, _, _⟩ => by
    rw [addresses]
    refine List.pairwise_cons.mpr ⟨fun a ha => ?_, pairwise_addressesFrom 0 constants⟩
    obtain ⟨i, inside, rfl, -⟩ := exists_of_mem_addressesFrom ha
    exact .around

/-- Units are listed in the order of their addresses. -/
theorem pairwise_addressesFrom : ∀ (n : Nat) (pool : List Constant),
    (addressesFrom n pool).Pairwise Before
  | _, [] => .nil
  | n, .function u :: rest => by
    rw [addressesFrom]
    refine List.pairwise_append.mpr ⟨pairwise_addressesFrom (n + 1) rest, ?_, fun a ha b hb => ?_⟩
    · exact (pairwise_addresses u).map _ fun _ _ h => .inside h
    · obtain ⟨i, _, rfl, hi⟩ := exists_of_mem_addressesFrom ha
      obtain ⟨_, -, rfl⟩ := List.mem_map.mp hb
      exact .beside hi
  | n, .int _ :: rest | n, .float _ :: rest | n, .str _ :: rest | n, .names _ :: rest
  | n, .classType _ :: rest | n, .enumType _ :: rest => pairwise_addressesFrom (n + 1) rest

end

mutual

/-- The walk comes to the unit at each address in turn. -/
theorem forall₂_addresses : ∀ u : CodeUnit,
    List.Forall₂ (fun a v => u.at? a = some v) u.addresses u.units
  | ⟨header, captures, manifest, constants, code, lines⟩ => by
    rw [addresses, units]
    exact .cons rfl (forall₂_addressesFrom ⟨header, captures, manifest, constants, code, lines⟩
      [] constants rfl)

theorem forall₂_addressesFrom (u : CodeUnit) : ∀ before pool : List Constant,
    u.constants = before ++ pool →
    List.Forall₂ (fun a v => u.at? a = some v) (addressesFrom before.length pool) (unitsBackwards pool)
  | _, [], _ => .nil
  | before, k :: rest, hpool => by
    have hrest := forall₂_addressesFrom u (before ++ [k]) rest (by simp [hpool])
    rw [List.length_append, List.length_singleton] at hrest
    cases k with
    | function v =>
      rw [addressesFrom, unitsBackwards]
      -- the units of a constant come behind those of the constants after it
      refine List.rel_append hrest (List.forall₂_map_left_iff.mpr ?_)
      refine (forall₂_addresses v).imp fun a w hw => ?_
      have hat : u.constants[before.length]? = some (.function v) := by simp [hpool]
      rw [at?, hat]
      exact hw
    | _ => exact hrest

end

theorem mem_addressesFrom {n i : Nat} (hi : pool[i]? = some (.function v)) (ha : a ∈ v.addresses) :
    (n + i) :: a ∈ addressesFrom n pool := by
  induction pool generalizing n i with
  | nil => cases hi
  | cons k rest ih =>
    cases i with
    | zero =>
      cases Option.some.inj hi
      exact List.mem_append_right _ (List.mem_map_of_mem ha)
    | succ i =>
      have hrest := ih (n := n + 1) hi
      rw [Nat.add_assoc, Nat.add_comm 1 i] at hrest
      cases k with
      | function u => exact List.mem_append_left _ hrest
      | _ => exact hrest

/-- No address is left out. -/
theorem mem_addresses : ∀ {a : List Nat} {u : CodeUnit}, u.at? a = some v → a ∈ u.addresses
  | [], u, _ => by
    rw [addresses_eq]
    exact .head _
  | i :: inside, u, h => by
    rw [at?] at h
    split at h
    · rename_i w hi
      have hmem := mem_addressesFrom (n := 0) hi (mem_addresses h)
      rw [Nat.zero_add] at hmem
      rw [addresses_eq]
      exact .tail _ hmem
    · cases h

/-! ## Listings -/

mutual

/-- A unit and every unit inside it, those of each pool from the first to the last. -/
def listed : CodeUnit → List CodeUnit
  | ⟨header, captures, manifest, constants, code, lines⟩ =>
    ⟨header, captures, manifest, constants, code, lines⟩ :: listedPool constants

/-- Every unit in a pool. -/
def listedPool : List Constant → List CodeUnit
  | [] => []
  | .function u :: rest => u.listed ++ listedPool rest
  | _ :: rest => listedPool rest

end

mutual

theorem perm_listed : ∀ u : CodeUnit, u.units.Perm u.listed
  | ⟨_, _, _, constants, _, _⟩ => by
    rw [units, listed]
    exact (perm_listedPool constants).cons _

theorem perm_listedPool : ∀ pool : List Constant, (unitsBackwards pool).Perm (listedPool pool)
  | [] => .nil
  | .function u :: rest => by
    rw [unitsBackwards, listedPool]
    exact List.perm_append_comm.trans ((perm_listed u).append (perm_listedPool rest))
  | .int _ :: rest | .float _ :: rest | .str _ :: rest | .names _ :: rest
  | .classType _ :: rest | .enumType _ :: rest => perm_listedPool rest

end

end CodeUnit

namespace Listing

/-- The listing of a unit without the units inside it. -/
def ofUnitAlone (u : CodeUnit) : String :=
  heading u.header u.captures ++ capturesText u.captures ++ codeText u.code u.lines u.constants.toArray

mutual

theorem ofUnit_eq_join : ∀ u : CodeUnit,
    "\n" ++ ofUnit u = String.join (u.listed.map fun v => "\n" ++ ofUnitAlone v)
  | ⟨header, captures, manifest, constants, code, lines⟩ => by
    rw [ofUnit, CodeUnit.listed, List.map_cons, String.join_cons, ofPool_eq_join constants,
      ← String.append_assoc]
    rfl

theorem ofPool_eq_join : ∀ pool : List Constant,
    ofPool pool = String.join ((CodeUnit.listedPool pool).map fun v => "\n" ++ ofUnitAlone v)
  | [] => rfl
  | .function u :: rest => by
    rw [ofPool, CodeUnit.listedPool, List.map_append, String.join_append, ofUnit_eq_join u,
      ofPool_eq_join rest]
  | .int _ :: rest | .float _ :: rest | .str _ :: rest | .names _ :: rest
  | .classType _ :: rest | .enumType _ :: rest => ofPool_eq_join rest

end

end Listing

/-! ## The walk -/

/-- **The stack walks through the tree of units.** The units of a module come out as the walk
from `main` that goes on with the units of each pool from the last to the first. The unit at each
address comes up once, after those around it; and a listing is made of the same units. -/
theorem Module.units_walk (m : Module) :
    (m.units = m.main.units ∧ ∀ u : CodeUnit, u.units = u :: u.nested.reverse.flatMap CodeUnit.units) ∧
    (∃ addresses : List (List Nat), addresses.Nodup ∧ addresses.Pairwise Before ∧
      (∀ a, a ∈ addresses ↔ ∃ u, m.main.at? a = some u) ∧
      List.Forall₂ (fun a u => m.main.at? a = some u) addresses m.units) ∧
    m.units.Perm m.main.listed ∧
    "\n" ++ Listing.ofUnit m.main =
      String.join (m.main.listed.map fun u => "\n" ++ Listing.ofUnitAlone u) := by
  have hordered := m.main.pairwise_addresses
  have hunits := m.main.forall₂_addresses
  rw [m.units_eq]
  refine ⟨⟨rfl, CodeUnit.units_eq_nested⟩, ⟨m.main.addresses, hordered.imp Before.ne, hordered, ?_, hunits⟩,
    m.main.perm_listed, Listing.ofUnit_eq_join m.main⟩
  refine fun a => ⟨fun ha => ?_, fun hat => hat.elim fun _ => CodeUnit.mem_addresses⟩
  obtain ⟨n, hn, rfl⟩ := List.getElem_of_mem ha
  exact ⟨_, hunits.get hn (hunits.length_eq ▸ hn)⟩

end Strand
