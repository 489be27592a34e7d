/-!
# Stores that keep what was used last

A store of limited size keeps the entries that were used last. When there is no room for another
one, it gives up the entry whose last use is longest ago.
-/

namespace JsonStencil

variable {κ ν : Type} [DecidableEq κ]

/-- Entries with one for the key in front, and no other entry for the key. -/
def moveToFront (k : κ) (v : ν) (entries : List (κ × ν)) : List (κ × ν) :=
  (k, v) :: entries.filter (·.1 ≠ k)

/-- A store with room for some entries, by what it does to these. -/
structure LruStore (κ ν : Type) [DecidableEq κ] where
  State : Type
  ofCapacity : Nat → State
  capacity : State → Nat
  /-- The entries in a store, the one used last in front. -/
  entries : State → List (κ × ν)
  get : κ → State → Option ν × State
  put : κ → ν → State → State
  clear : State → State
  capacity_ofCapacity : ∀ n, capacity (ofCapacity n) = n
  entries_ofCapacity : ∀ n, entries (ofCapacity n) = []
  capacity_get : ∀ k s, capacity (get k s).2 = capacity s
  get_value : ∀ k s, (get k s).1 = List.lookup k (entries s)
  get_promotes : ∀ k s v, List.lookup k (entries s) = some v →
    entries (get k s).2 = moveToFront k v (entries s)
  get_missing : ∀ k s, List.lookup k (entries s) = none → (get k s).2 = s
  capacity_put : ∀ k v s, capacity (put k v s) = capacity s
  put_evicts : ∀ k v s, entries (put k v s) = (moveToFront k v (entries s)).take (capacity s)
  capacity_clear : ∀ s, capacity (clear s) = capacity s
  entries_clear : ∀ s, entries (clear s) = []

namespace LruStore

structure Bounded (κ ν : Type) where
  capacity : Nat
  entries : List (κ × ν)

/-- A store that is the list of its entries. -/
def list : LruStore κ ν where
  State := Bounded κ ν
  ofCapacity n := ⟨n, []⟩
  capacity := Bounded.capacity
  entries := Bounded.entries
  get k s :=
    match List.lookup k s.entries with
    | some v => (some v, { s with entries := moveToFront k v s.entries })
    | none => (none, s)
  put k v s := { s with entries := (moveToFront k v s.entries).take s.capacity }
  clear s := { s with entries := [] }
  capacity_ofCapacity _ := rfl
  entries_ofCapacity _ := rfl
  capacity_get k s := by split <;> rfl
  get_value k s := by
    split
    next v hv => exact hv.symm
    next hnone => exact hnone.symm
  get_promotes k s v hv := by rw [hv]
  get_missing k s hnone := by rw [hnone]
  capacity_put _ _ _ := rfl
  put_evicts _ _ _ := rfl
  capacity_clear _ := rfl
  entries_clear _ := rfl

end LruStore

end JsonStencil
