import Mathlib.Data.Finmap
import Mathlib.Logic.Equiv.List
import Mathlib.Tactic

/-!
The maps of Go. A map is `nil` or a finite table; both can be read, and
an absent key reads the same in either, but only a table can be written:
an assignment to an entry of a `nil` map is a panic, here `none`.
-/

namespace RaftShardedKv

inductive GoMap (K V : Type*)
  | nil
  | table (entries : Finmap fun _ : K => V)

namespace GoMap

variable {K V : Type*}

def make : GoMap K V := table ∅

/-- What a loop over the map leaves that deletes what is not in `p`. -/
def filter (p : K → Bool) : GoMap K V → GoMap K V
  | nil => nil
  | table entries => table
      { entries := entries.entries.filter fun e => p e.1
        nodupKeys := Multiset.nodup_keys.mp (Multiset.nodup_of_le
          (Multiset.map_le_map (Multiset.filter_le _ _)) entries.nodupKeys.nodup_keys) }

/-- The map, made if it is `nil`. -/
def orMake : GoMap K V → GoMap K V
  | nil => make
  | table entries => table entries

def len : GoMap K V → ℕ
  | nil => 0
  | table entries => entries.keys.card

variable [DecidableEq K]

def get : GoMap K V → K → Option V
  | nil, _ => none
  | table entries, k => entries.lookup k

def set : GoMap K V → K → V → Option (GoMap K V)
  | nil, _, _ => none
  | table entries, k, v => some (table (entries.insert k v))

def delete (m : GoMap K V) (k : K) : GoMap K V := m.filter fun k' => k' ≠ k

variable (m : GoMap K V) (k : K)

@[simp] theorem get_nil : (nil : GoMap K V).get k = none := rfl

@[simp] theorem get_make : (make : GoMap K V).get k = none := rfl

@[simp] theorem get_orMake : m.orMake.get k = m.get k := by
  cases m <;> rfl

@[simp] theorem get_filter (p : K → Bool) :
    (m.filter p).get k = if p k then m.get k else none := by
  cases m with
  | nil => simp [filter]
  | table entries =>
      ext v
      split
      · rename_i hp
        simp [get, filter, Finmap.lookup_eq_some_iff, hp]
      · rename_i hp
        simp [get, filter, Finmap.lookup_eq_some_iff, hp]

@[simp] theorem get_delete (k' : K) :
    (m.delete k).get k' = if k' = k then none else m.get k' := by
  simp [delete]

theorem len_eq_card (keys : Finset K) (h : ∀ k, k ∈ keys ↔ m.get k ≠ none) :
    m.len = keys.card := by
  cases m with
  | nil =>
      have hempty : keys = ∅ := Finset.eq_empty_of_forall_notMem fun k hk => (h k).mp hk rfl
      rw [hempty]
      rfl
  | table entries =>
      have hkeys : entries.keys = keys := by
        ext k
        rw [h, Finmap.mem_keys, ← Finmap.lookup_isSome, Option.isSome_iff_ne_none]
        rfl
      exact congrArg Finset.card hkeys

omit [DecidableEq K] in
theorem orMake_ne_nil : m.orMake ≠ nil := by
  cases m <;> simp [orMake, make]

omit [DecidableEq K] in
theorem orMake_of_ne_nil (h : m ≠ nil) : m.orMake = m := by
  cases m with
  | nil => exact absurd rfl h
  | table entries => rfl

omit [DecidableEq K] in
theorem filter_ne_nil {m : GoMap K V} (p : K → Bool) (h : m ≠ nil) : m.filter p ≠ nil := by
  cases m with
  | nil => exact absurd rfl h
  | table entries => simp [filter]

theorem exists_set {m : GoMap K V} (h : m ≠ nil) (k : K) (v : V) : ∃ m', m.set k v = some m' := by
  cases m with
  | nil => exact absurd rfl h
  | table entries => exact ⟨_, rfl⟩

section

variable {m m' : GoMap K V} {k : K} {v : V} (h : m.set k v = some m')

include h

theorem get_set (k' : K) : m'.get k' = if k' = k then some v else m.get k' := by
  cases m with
  | nil => cases h
  | table entries =>
      cases h
      split
      · rename_i heq
        rw [heq]
        exact Finmap.lookup_insert _
      · rename_i hne
        exact Finmap.lookup_insert_of_ne _ hne

theorem set_ne_nil : m' ≠ nil := by
  cases m with
  | nil => cases h
  | table entries =>
      cases h
      simp

end

end GoMap

end RaftShardedKv
