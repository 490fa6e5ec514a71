import Picore.Lib.Memory

/-!
# Reading a partly known memory

A computation reads cells of a memory through a function that returns nothing at an address
whose cell is not known. There the computation ends without a result. So a computation that has
a result although only the first `n` cells are known has read none of the others.

Results:
1. `Settled.some`, `Settled.read`, `Settled.bind`, `Settled.ite`: computations that keep their
   result when more cells become known.
2. `Settled.of_known`, `Settled.congr`: a result from the first cells is that of every memory
   with these cells.
-/

namespace Reads

open Memory

variable {α β γ : Type}

/-- A memory of which only the first `n` cells can be read. -/
def known (m : Mem α) (n : Nat) : Nat → Option α := fun i => if i < n then some (m i) else none

/-- A memory of which every cell can be read, as the code sees it. -/
def all (m : Mem α) : Nat → Option α := fun i => some (m i)

/-- What can be read with `read` is also read with `more`. -/
def Extends (more read : Nat → Option α) : Prop := ∀ i a, read i = some a → more i = some a

def Settled (c : (Nat → Option α) → Option β) : Prop :=
  ∀ (more read : Nat → Option α) (b : β), Extends more read → c read = some b → c more = some b

theorem known_of_lt {m : Mem α} {n i : Nat} (h : i < n) : known m n i = some (m i) := if_pos h

theorem known_of_ge {m : Mem α} {n i : Nat} (h : n ≤ i) : known m n i = none :=
  if_neg (Nat.not_lt.2 h)

theorem known_congr {m m' : Mem α} {n : Nat} (h : ∀ i < n, m i = m' i) :
    known m n = known m' n := by
  funext i
  rcases Nat.lt_or_ge i n with hi | hi
  · rw [known_of_lt hi, known_of_lt hi, h i hi]
  · rw [known_of_ge hi, known_of_ge hi]

theorem all_extends (m : Mem α) (n : Nat) : Extends (all m) (known m n) := by
  intro i a h
  rcases Nat.lt_or_ge i n with hi | hi
  · rwa [known_of_lt hi] at h
  · rw [known_of_ge hi] at h
    cases h

/-! ## 1. Computations -/

theorem Settled.some (b : β) : Settled fun _ : Nat → Option α => some b := fun _ _ _ _ h => h

theorem Settled.read (i : Nat) : Settled fun read : Nat → Option α => read i :=
  fun _ _ b hext => hext i b

theorem Settled.bind {c : (Nat → Option α) → Option β} {d : β → (Nat → Option α) → Option γ}
    (hc : Settled c) (hd : ∀ b, Settled (d b)) :
    Settled fun read => (c read).bind fun b => d b read := by
  intro more read r hext h
  obtain ⟨b, hb, hr⟩ := Option.bind_eq_some_iff.1 h
  exact Option.bind_eq_some_iff.2 ⟨b, hc more read b hext hb, hd b more read r hext hr⟩

theorem Settled.ite {p : Prop} [Decidable p] {c d : (Nat → Option α) → Option β}
    (hc : Settled c) (hd : Settled d) : Settled fun read => if p then c read else d read := by
  by_cases hp : p
  · simpa only [if_pos hp] using hc
  · simpa only [if_neg hp] using hd

/-! ## 2. Results -/

/-- A result that is read from the first `n` cells alone is the result of the whole memory. -/
theorem Settled.of_known {c : (Nat → Option α) → Option β} (hc : Settled c) {m : Mem α} {n : Nat}
    (h : c (known m n) ≠ none) : c (all m) = c (known m n) := by
  obtain ⟨b, hb⟩ := Option.ne_none_iff_exists'.1 h
  rw [hb]
  exact hc _ _ b (all_extends m n) hb

/-- A result that is read from the first `n` cells alone is the result of every memory that has
these cells. -/
theorem Settled.congr {c : (Nat → Option α) → Option β} (hc : Settled c) {m m' : Mem α} {n : Nat}
    (heq : ∀ i < n, m i = m' i) (h : c (known m n) ≠ none) : c (all m') = c (all m) := by
  rw [hc.of_known h, known_congr heq]
  rw [known_congr heq] at h
  exact hc.of_known h

end Reads
