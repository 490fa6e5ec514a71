import Mathlib.Data.Int.GCD
import Mathlib.Tactic.Ring
import Picore.Lib.Memory

/-!
# Ring buffers

A ring of `size` cells stores a window of an unbounded stream: position `p` of
the stream lives in cell `p % size`. Two positions of a window that is no
longer than the ring never share a cell, so a store at the end of the window
keeps the rest of it.

Results:
1. `mod_ne_of_window`, `mod_add_of_fits`, `advance_eq`: positions and cells.
   `exists_steps_zero`: steps of more than one cell.
   `store_other`, `store_own`: what a store does to them.
2. `contents`: the cells from a start position on, with wrap-around;
   `load_eq_contents`, `contents_add`, `contents_wrap` split it at the end of
   the memory; `contents_store` appends to it.
3. `Holds`: a window of a stream is in the ring; `Holds.store`, `Holds.load`,
   `Holds.contents`.
-/

namespace Ring

open Memory

variable {α : Type}

/-! ## 1. Positions and cells -/

theorem mod_lt_or_zero (p size : Nat) : p % size < size ∨ size = 0 := by
  rcases Nat.eq_zero_or_pos size with h | h
  · exact .inr h
  · exact .inl (Nat.mod_lt p h)

/-- A pointer stays in the ring, also in one without cells as long as it does not move. -/
theorem mod_le_of_zero {p size : Nat} (h : size = 0 → p = 0) : p % size ≤ size := by
  rcases mod_lt_or_zero p size with h1 | h1
  · exact Nat.le_of_lt h1
  · rw [h h1, Nat.zero_mod]
    exact Nat.zero_le size

/-- Two positions less than one revolution apart are in different cells. -/
theorem mod_ne_of_window {size p q : Nat} (h : p < q) (hw : q < p + size) :
    p % size ≠ q % size := by
  intro he
  have hd : size ∣ q - p := Nat.dvd_of_mod_eq_zero (Nat.sub_mod_eq_zero_of_mod_eq he.symm)
  have := Nat.le_of_dvd (by omega) hd
  omega

theorem mod_ne_of_ne {size lo p q : Nat} (hp : lo ≤ p) (hp' : p < lo + size) (hq : lo ≤ q)
    (hq' : q < lo + size) (hne : p ≠ q) : p % size ≠ q % size := by
  rcases Nat.lt_or_gt_of_ne hne with h | h
  · exact mod_ne_of_window h (by omega)
  · exact (mod_ne_of_window h (by omega)).symm

theorem mod_add_of_fits {size p i k : Nat} (h : p % size + k ≤ size) (hi : i < k) :
    p % size + i = (p + i) % size := by
  rw [← Nat.mod_add_mod, Nat.mod_eq_of_lt (a := p % size + i) (by omega)]

/-- Steps of `d` cells lead from cell `p` to cell 0, if `p` is a multiple of what `d` and the size
have in common. -/
theorem exists_steps_zero {size p d : Nat} (hsize : 0 < size) (h : Nat.gcd d size ∣ p) :
    ∃ k, (p + k * d) % size = 0 := by
  rcases Nat.lt_or_ge (Nat.gcd d size) size with hlt | hge
  · obtain ⟨m, -, hm⟩ := Nat.exists_mul_mod_eq_gcd hlt
    obtain ⟨c, rfl⟩ := h
    obtain ⟨n, rfl⟩ := Nat.exists_eq_succ_of_ne_zero (Nat.ne_of_gt (Nat.zero_lt_of_lt hlt))
    -- `m` steps lead as far as the common divisor, and `n` times as far is back by it.
    have hdiv := Nat.div_add_mod (d * m) (n + 1)
    rw [hm] at hdiv
    refine ⟨m * (n * c), Nat.mod_eq_zero_of_dvd
      ⟨d * m / (n + 1) * (n * c) + Nat.gcd d (n + 1) * c, ?_⟩⟩
    calc Nat.gcd d (n + 1) * c + m * (n * c) * d
        = Nat.gcd d (n + 1) * c + d * m * (n * c) := by ring
      _ = Nat.gcd d (n + 1) * c +
            ((n + 1) * (d * m / (n + 1)) + Nat.gcd d (n + 1)) * (n * c) := by rw [hdiv]
      _ = (n + 1) * (d * m / (n + 1) * (n * c) + Nat.gcd d (n + 1) * c) := by ring
  · rw [Nat.le_antisymm (Nat.gcd_le_right d hsize) hge] at h
    exact ⟨0, by rw [Nat.zero_mul, Nat.add_zero, Nat.mod_eq_zero_of_dvd h]⟩

/-- Moving a pointer forward inside the ring, with the jump back to zero at the
end, is advancing the position. -/
theorem advance_eq {size p k : Nat} (h : p % size + k ≤ size) :
    (if p % size + k = size then 0 else p % size + k) = (p + k) % size := by
  rw [← Nat.mod_add_mod]
  split
  · next he => rw [he, Nat.mod_self]
  · next hne => rw [Nat.mod_eq_of_lt (a := p % size + k) (by omega)]

/-- A store at a position leaves the cells of the other positions as they were. -/
theorem store_other {m : Mem α} {size p q : Nat} {xs : List α}
    (hfit : p % size + xs.length ≤ size) (hne : ∀ j < xs.length, (p + j) % size ≠ q % size) :
    store m (p % size) xs (q % size) = m (q % size) := by
  rcases Nat.lt_or_ge (q % size) (p % size) with h1 | h1
  · exact store_apply_of_lt h1
  · refine store_apply_of_ge (Nat.le_of_not_lt fun h2 => ?_)
    refine hne (q % size - p % size) (by omega) ?_
    rw [← mod_add_of_fits hfit (by omega)]
    omega

/-- A store of a piece that fits before the end of the ring puts each element into the cell of its
own position. -/
theorem store_own {m : Mem α} {size p j : Nat} {xs : List α}
    (hfit : p % size + xs.length ≤ size) (hj : j < xs.length) :
    store m (p % size) xs ((p + j) % size) = xs[j] := by
  rw [← mod_add_of_fits hfit hj, store_apply_add hj]

/-! ## 2. Contents -/

/-- The `n` cells of a ring of `size` cells from the position `start` on. -/
def contents (m : Mem α) (size start n : Nat) : List α :=
  (List.range n).map fun i => m ((start + i) % size)

@[simp] theorem length_contents (m : Mem α) (size start n : Nat) :
    (contents m size start n).length = n := by
  simp [contents]

theorem contents_getElem (m : Mem α) {size start n i : Nat}
    (h : i < (contents m size start n).length) :
    (contents m size start n)[i] = m ((start + i) % size) := by
  simp [contents]

theorem contents_add (m : Mem α) (size start j k : Nat) :
    contents m size start (j + k) = contents m size start j ++ contents m size (start + j) k := by
  simp only [contents, List.range_add, List.map_append, List.map_map]
  congr 1
  refine List.map_congr_left fun i _ => ?_
  simp [Nat.add_assoc]

theorem contents_take (m : Mem α) {size start j k : Nat} (h : j ≤ k) :
    (contents m size start k).take j = contents m size start j := by
  obtain ⟨d, rfl⟩ := Nat.exists_eq_add_of_le h
  rw [contents_add]
  simp

theorem contents_drop (m : Mem α) {size start j k : Nat} (h : j ≤ k) :
    (contents m size start k).drop j = contents m size (start + j) (k - j) := by
  obtain ⟨d, rfl⟩ := Nat.exists_eq_add_of_le h
  rw [contents_add]
  simp

/-- The contents only depend on the cell of the start position. -/
theorem contents_mod (m : Mem α) (size start n : Nat) :
    contents m size (start % size) n = contents m size start n := by
  refine List.ext_getElem (by simp) fun i _ _ => ?_
  simp [contents_getElem]

/-- A run of cells that does not wrap is one load. -/
theorem load_eq_contents (m : Mem α) {size p k : Nat} (h : p + k ≤ size) :
    load m p k = contents m size p k := by
  refine List.ext_getElem (by simp) fun i h1 _ => ?_
  rw [length_load] at h1
  rw [load_getElem, contents_getElem, Nat.mod_eq_of_lt (by omega)]

/-- A run of cells that wraps once is a load up to the end of the memory and a
load from its beginning. -/
theorem contents_wrap (m : Mem α) {size p k : Nat} (hp : p ≤ size) (hk : k ≤ size)
    (h : size - p < k) :
    contents m size p k = load m p (size - p) ++ load m 0 (k - (size - p)) := by
  have hsplit : k = (size - p) + (k - (size - p)) := by omega
  rw [hsplit, contents_add, load_eq_contents m (by omega : p + (size - p) ≤ size)]
  congr 1
  rw [show p + (size - p) = size by omega, ← contents_mod, Nat.mod_self]
  rw [Nat.add_sub_cancel_left, load_eq_contents m (by omega : 0 + (k - (size - p)) ≤ size)]

/-- A store behind the contents that does not wrap appends to them. -/
theorem contents_store (m : Mem α) {size start n : Nat} {xs : List α}
    (hfit : (start + n) % size + xs.length ≤ size) (hroom : n + xs.length ≤ size) :
    contents (store m ((start + n) % size) xs) size start (n + xs.length) =
      contents m size start n ++ xs := by
  rw [contents_add]
  congr 1
  · refine List.map_congr_left fun i hi => store_other hfit fun j hj => ?_
    have hi := List.mem_range.mp hi
    exact (mod_ne_of_window (by omega) (by omega)).symm
  · refine List.ext_getElem (by simp) fun i h1 h2 => ?_
    rw [contents_getElem, store_own hfit h2]

/-! ## 3. Windows of a stream -/

/-- The positions `lo, …, hi - 1` of the stream `s` are in their cells. -/
def Holds (m : Mem α) (size : Nat) (s : List α) (lo hi : Nat) : Prop :=
  ∀ p, lo ≤ p → p < hi → s[p]? = some (m (p % size))

theorem Holds.mono {m : Mem α} {size lo hi lo' hi' : Nat} {s : List α} (h : Holds m size s lo hi)
    (hlo : lo ≤ lo') (hhi : hi' ≤ hi) : Holds m size s lo' hi' :=
  fun p h1 h2 => h p (Nat.le_trans hlo h1) (Nat.lt_of_lt_of_le h2 hhi)

/-- A window that is in the ring is read back by the contents from its start. -/
theorem Holds.contents {m : Mem α} {size lo k : Nat} {s : List α} (h : Holds m size s lo (lo + k)) :
    contents m size lo k = (s.drop lo).take k := by
  refine List.ext_getElem? fun i => ?_
  rcases Nat.lt_or_ge i k with hi | hi
  · rw [List.getElem?_take_of_lt hi, List.getElem?_drop, h _ (by omega) (by omega)]
    simp [Ring.contents, hi]
  · rw [List.getElem?_eq_none (by simpa using hi), List.getElem?_eq_none]
    exact Nat.le_trans (List.length_take_le _ _) hi

/-- A load at the start of the window returns that part of the stream. -/
theorem Holds.load {m : Mem α} {size lo k : Nat} {s : List α} (h : Holds m size s lo (lo + k))
    (hfit : lo % size + k ≤ size) : load m (lo % size) k = (s.drop lo).take k := by
  rw [load_eq_contents m hfit, contents_mod, h.contents]

/-- A store at the end of the window extends it and keeps what it held, as long
as the extended window is no longer than the ring. -/
theorem Holds.store {m : Mem α} {size lo : Nat} {s xs : List α}
    (h : Holds m size s lo s.length) (hfit : s.length % size + xs.length ≤ size)
    (hw : s.length + xs.length ≤ lo + size) :
    Holds (store m (s.length % size) xs) size (s ++ xs) lo (s.length + xs.length) := by
  intro p h1 h2
  rcases Nat.lt_or_ge p s.length with hp | hp
  · -- the stored cells belong to later positions of the same revolution
    rw [List.getElem?_append_left hp, h p h1 hp, store_other hfit fun j hj => ?_]
    exact (mod_ne_of_window (by omega) (by omega)).symm
  · obtain ⟨j, rfl⟩ := Nat.exists_eq_add_of_le hp
    have hj : j < xs.length := by omega
    rw [store_own hfit hj]
    simp [hj]

end Ring
