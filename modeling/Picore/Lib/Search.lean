import Mathlib.Data.List.Basic

/-!
# Searching forward

A search goes through the indices from `i` on, below `n`, up to the first one with a property. The
next search goes on behind it.

Results:
1. `First`: where a search stops; `First.next`, `First.skip`: it goes on, with less left
   (`First.rest`).
2. `hits`: all indices with the property; `First.hits_some`, `First.hits_none`: what one search
   leaves of them; `First.head_hits`: it stops at the first one.
-/

namespace Search

variable {p q : Nat → Prop} {i j n : Nat} {r : Option Nat}

/-- A search from `i` on stops at `r`, or finds nothing below `n`. -/
def First (p : Nat → Prop) (i n : Nat) : Option Nat → Prop
  | some j => i ≤ j ∧ j < n ∧ p j ∧ ∀ k, i ≤ k → k < j → ¬ p k
  | none => ∀ k, i ≤ k → k < n → ¬ p k

/-- The indices from `i` on, below `n`, that have the property. -/
def hits (p : Nat → Prop) [DecidablePred p] (i n : Nat) : List Nat :=
  (List.range' i (n - i)).filter p

/-! ## 1. One search -/

theorem First.empty (h : n ≤ i) : First p i n none :=
  fun _ hik hkn => absurd (Nat.lt_of_le_of_lt hik hkn) (Nat.not_lt.2 h)

theorem First.here (hi : i < n) (h : p i) : First p i n (some i) :=
  ⟨Nat.le_refl i, hi, h, fun _ hik hki => absurd hki (Nat.not_lt.2 hik)⟩

/-- A search that stops at `j` for a property goes on behind `j` for a stronger one. -/
theorem First.skip (hj : First p i n (some j)) (himp : ∀ k, q k → p k) (hq : ¬ q j)
    (h : First q (j + 1) n r) : First q i n r := by
  obtain ⟨hij, -, -, hbefore⟩ := hj
  have hskip : ∀ k, i ≤ k → k < j + 1 → ¬ q k := by
    intro k hik hk hqk
    rcases Nat.lt_succ_iff_lt_or_eq.1 hk with hlt | rfl
    · exact hbefore k hik hlt (himp k hqk)
    · exact hq hqk
  cases r with
  | none =>
    intro k hik hkn
    rcases Nat.lt_or_ge k (j + 1) with hlt | hge
    · exact hskip k hik hlt
    · exact h k hge hkn
  | some m =>
    obtain ⟨hjm, hm, hqm, hbetween⟩ := h
    refine ⟨Nat.le_trans hij (Nat.le_of_succ_le hjm), hm, hqm, fun k hik hkm => ?_⟩
    rcases Nat.lt_or_ge k (j + 1) with hlt | hge
    · exact hskip k hik hlt
    · exact hbetween k hge hkm

/-- A search goes on behind an index without the property. -/
theorem First.next (hp : ¬ p i) (h : First p (i + 1) n r) : First p i n r := by
  rcases Nat.lt_or_ge i n with hi | hi
  · exact (First.here (p := fun _ => True) hi trivial).skip (fun _ _ => trivial) hp h
  · cases r with
    | none => exact .empty hi
    | some j => exact absurd (Nat.lt_trans h.1 h.2.1) (Nat.not_lt.2 hi)

/-- Behind the index at which it stops there are fewer left. -/
theorem First.rest {d : Nat} (h : First p i n (some j)) (hi : i + d = n) :
    ∃ rest < d, j + 1 + rest = n := by
  obtain ⟨hij, hjn, -⟩ := h
  exact ⟨n - (j + 1), by omega, Nat.add_sub_cancel' hjn⟩

theorem First.mono_none (himp : ∀ k, q k → p k) (h : First p i n none) : First q i n none :=
  fun k hik hkn hqk => h k hik hkn (himp k hqk)

theorem First.mono_some (himp : ∀ k, q k → p k) (h : First p i n (some j)) (hq : q j) :
    First q i n (some j) :=
  ⟨h.1, h.2.1, hq, fun k hik hkj hqk => h.2.2.2 k hik hkj (himp k hqk)⟩

/-! ## 2. All indices -/

theorem First.hits_none [DecidablePred p] (h : First p i n none) : hits p i n = [] := by
  refine List.filter_eq_nil_iff.2 fun k hk => ?_
  obtain ⟨hik, hkn⟩ := List.mem_range'_1.1 hk
  have hp : ¬ p k := h k hik (by omega)
  simpa using hp

/-- The indices that are found are the first one and those that a search from behind it finds. -/
theorem First.hits_some [DecidablePred p] (h : First p i n (some j)) :
    hits p i n = j :: hits p (j + 1) n := by
  obtain ⟨hij, hjn, hp, hbefore⟩ := h
  have hsplit : List.range' i (n - i) =
      List.range' i (j - i) ++ j :: List.range' (j + 1) (n - (j + 1)) := by
    have hlen : n - i = (j - i) + ((n - (j + 1)) + 1) := by omega
    have hmid : i + 1 * (j - i) = j := by omega
    rw [hlen, ← List.range'_append, hmid, List.range'_succ]
  have hnone : (List.range' i (j - i)).filter p = [] := First.hits_none (n := j) hbefore
  rw [hits, hsplit, List.filter_append, hnone, List.nil_append, List.filter_cons_of_pos (by simpa)]
  rfl

theorem First.head_hits [DecidablePred p] (h : First p i n r) : (hits p i n).head? = r := by
  cases r with
  | none => rw [h.hits_none, List.head?_nil]
  | some j => rw [h.hits_some, List.head?_cons]

end Search
