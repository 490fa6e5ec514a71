import Mathlib.Data.List.Basic
import Mathlib.Tactic.Common

/-!
# Flat memories

A memory is a total function from addresses to cells. `load` copies a range
out of it and `store` copies a list of cells into it: the two halves of a
`memcpy`.

Results:
1. `load_store_self`, `load_store_disjoint`: a load sees the last store to its
   range and none of the stores beside it.
2. `load_append`, `store_append`: adjacent ranges join.
-/

namespace Memory

variable {α : Type}

/-- A memory with cells of type `α`. Its bounds, where they matter, are those of the code that uses
it. -/
abbrev Mem (α : Type) := Nat → α

/-- The `k` cells of `m` from address `p` on. -/
def load (m : Mem α) (p k : Nat) : List α :=
  (List.range k).map fun i => m (p + i)

/-- `m` with the cells `xs` copied to the addresses from `p` on. -/
def store (m : Mem α) (p : Nat) (xs : List α) : Mem α := fun i =>
  if p ≤ i then xs[i - p]?.getD (m i) else m i

@[simp] theorem length_load (m : Mem α) (p k : Nat) : (load m p k).length = k := by
  simp [load]

@[simp] theorem load_zero (m : Mem α) (p : Nat) : load m p 0 = [] := rfl

theorem load_getElem (m : Mem α) {p k i : Nat} (h : i < (load m p k).length) :
    (load m p k)[i] = m (p + i) := by
  simp [load]

theorem load_getElem? (m : Mem α) {p k i : Nat} (h : i < k) :
    (load m p k)[i]? = some (m (p + i)) := by
  rw [List.getElem?_eq_getElem (by simpa using h), load_getElem]

@[simp] theorem store_nil (m : Mem α) (p : Nat) : store m p [] = m := by
  funext i
  simp [store]

/-! ## 1. Loads and stores -/

theorem store_apply_of_lt {m : Mem α} {p i : Nat} {xs : List α} (h : i < p) :
    store m p xs i = m i := by
  simp [store, Nat.not_le.mpr h]

theorem store_apply_of_ge {m : Mem α} {p i : Nat} {xs : List α} (h : p + xs.length ≤ i) :
    store m p xs i = m i := by
  have h1 : xs[i - p]? = none := List.getElem?_eq_none (by omega)
  simp [store, h1]

theorem store_apply_add {m : Mem α} {p j : Nat} {xs : List α} (h : j < xs.length) :
    store m p xs (p + j) = xs[j] := by
  simp [store, h]

theorem store_cell (m : Mem α) (p : Nat) (x : α) : store m p [x] p = x := by
  simp [store]

theorem load_congr {m m' : Mem α} {p k : Nat} (h : ∀ i, p ≤ i → i < p + k → m i = m' i) :
    load m p k = load m' p k := by
  refine List.ext_getElem (by simp) fun i h1 _ => ?_
  rw [length_load] at h1
  simp only [load_getElem]
  exact h _ (by omega) (by omega)

/-- A load of the range just stored returns the stored cells. -/
@[simp] theorem load_store_self (m : Mem α) (p : Nat) (xs : List α) :
    load (store m p xs) p xs.length = xs := by
  refine List.ext_getElem (by simp) fun i _ h2 => ?_
  rw [load_getElem, store_apply_add h2]

/-- A store leaves every load beside its range as it was. -/
theorem load_store_disjoint {m : Mem α} {p q k : Nat} {xs : List α}
    (h : p + k ≤ q ∨ q + xs.length ≤ p) : load (store m q xs) p k = load m p k := by
  refine load_congr fun i h1 h2 => ?_
  rcases h with h | h
  · exact store_apply_of_lt (by omega)
  · exact store_apply_of_ge (by omega)

/-- A store to the same range replaces the one before. -/
theorem store_store (m : Mem α) (p : Nat) {xs ys : List α} (h : xs.length = ys.length) :
    store (store m p xs) p ys = store m p ys := by
  funext i
  rcases Nat.lt_or_ge i p with h1 | h1
  · rw [store_apply_of_lt h1, store_apply_of_lt h1, store_apply_of_lt h1]
  obtain ⟨j, rfl⟩ := Nat.exists_eq_add_of_le h1
  rcases Nat.lt_or_ge j ys.length with h2 | h2
  · rw [store_apply_add h2, store_apply_add h2]
  · rw [store_apply_of_ge (by omega), store_apply_of_ge (by omega), store_apply_of_ge (by omega)]

/-! ## 2. Adjacent ranges -/

theorem load_append (m : Mem α) (p j k : Nat) :
    load m p (j + k) = load m p j ++ load m (p + j) k := by
  simp only [load, List.range_add, List.map_append, List.map_map]
  congr 1
  refine List.map_congr_left fun i _ => ?_
  simp [Nat.add_assoc]

theorem load_take (m : Mem α) {p j k : Nat} (h : j ≤ k) : (load m p k).take j = load m p j := by
  obtain ⟨d, rfl⟩ := Nat.exists_eq_add_of_le h
  rw [load_append]
  simp

theorem load_drop (m : Mem α) {p j k : Nat} (h : j ≤ k) :
    (load m p k).drop j = load m (p + j) (k - j) := by
  obtain ⟨d, rfl⟩ := Nat.exists_eq_add_of_le h
  rw [load_append]
  simp

theorem store_append (m : Mem α) (p : Nat) (xs ys : List α) :
    store m p (xs ++ ys) = store (store m p xs) (p + xs.length) ys := by
  funext i
  rcases Nat.lt_or_ge i p with h1 | h1
  · rw [store_apply_of_lt h1, store_apply_of_lt (by omega), store_apply_of_lt h1]
  obtain ⟨j, rfl⟩ := Nat.exists_eq_add_of_le h1
  rcases Nat.lt_or_ge j xs.length with h2 | h2
  · rw [store_apply_add (by simp; omega), store_apply_of_lt (by omega), store_apply_add h2,
      List.getElem_append_left h2]
  obtain ⟨d, rfl⟩ := Nat.exists_eq_add_of_le h2
  rcases Nat.lt_or_ge d ys.length with h3 | h3
  · rw [store_apply_add (by simp; omega), ← Nat.add_assoc, store_apply_add h3]
    simp [List.getElem_append_right]
  · rw [store_apply_of_ge (by simp; omega), store_apply_of_ge (by omega),
      store_apply_of_ge (by omega)]

end Memory
