import Picore.Lib.Memory
import Picore.Lib.Fuel

/-!
# Accesses with bounds

An array of `n` cells in a flat memory. An access to a cell behind its end is a
fault. An access to no cell at all never is.

Results:
1. `readAt_ok`, `loadAt_ok`, `writeAt_ok`: accesses in bounds.
2. `loadAt_fault`, `writeAt_fault`: accesses that are not.
-/

namespace Memory

open Fuel

variable {α : Type}

/-- An access behind the end of an array, which ends a computation, and the index that it has asked
for. -/
structure OutOfBounds where
  index : Nat

/-- Read cell `i` of an array of `n` cells. -/
def readAt (n : Nat) (m : Mem α) (i : Nat) : Outcome OutOfBounds α :=
  if i < n then .ok (m i) else .error (.fault ⟨i⟩)

/-- Read `k` cells from cell `i` of an array of `n` cells on. The error has the first index that is
not in the array. -/
def loadAt (n : Nat) (m : Mem α) (i k : Nat) : Outcome OutOfBounds (List α) :=
  if k = 0 ∨ i + k ≤ n then .ok (load m i k) else .error (.fault ⟨max i n⟩)

/-- Write cells from cell `i` of an array of `n` cells on, or none of them if they do not all fit.
-/
def writeAt (n : Nat) (m : Mem α) (i : Nat) (xs : List α) : Outcome OutOfBounds (Mem α) :=
  if xs.length = 0 ∨ i + xs.length ≤ n then .ok (store m i xs) else .error (.fault ⟨max i n⟩)

theorem readAt_ok {n i : Nat} (m : Mem α) (h : i < n) : readAt n m i = .ok (m i) :=
  if_pos h

theorem loadAt_ok {n i k : Nat} (m : Mem α) (h : i + k ≤ n) : loadAt n m i k = .ok (load m i k) :=
  if_pos (.inr h)

theorem loadAt_fault {n i k : Nat} (m : Mem α) (h : n < i + k) (hk : 0 < k) :
    loadAt n m i k = .error (.fault ⟨max i n⟩) :=
  if_neg (not_or.mpr ⟨Nat.ne_of_gt hk, Nat.not_le_of_lt h⟩)

theorem writeAt_ok {n i : Nat} (m : Mem α) {xs : List α} (h : i + xs.length ≤ n) :
    writeAt n m i xs = .ok (store m i xs) :=
  if_pos (.inr h)

theorem writeAt_fault {n i : Nat} (m : Mem α) {xs : List α} (h : n < i + xs.length)
    (hne : xs ≠ []) : writeAt n m i xs = .error (.fault ⟨max i n⟩) := by
  refine if_neg (not_or.mpr ⟨?_, Nat.not_le_of_lt h⟩)
  exact fun h0 => hne (List.eq_nil_of_length_eq_zero h0)

end Memory
