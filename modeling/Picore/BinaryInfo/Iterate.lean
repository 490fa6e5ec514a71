import Picore.BinaryInfo.Basic

/-!
# The table, and the loop over it

`pr_bi_next` steps from the last slot to the end of the table, and from there to 0. The loop in the
header only tests for 0, so that it has one more turn than the table has entries.

Results:
1. `pos`: the states of the slots; `next_pos`, `get_pos`: one step.
2. `iterate_pos`: the loop obtains the entries, and `NULL` after the last.
3. `iterate_not_table`: it never obtains exactly the entries.
-/

namespace Picore.BinaryInfo

open Fuel

namespace Descriptor

def count (desc : Descriptor) : Nat := (desc.stop.toNat - desc.start.toNat) / 4

/-- The state of the slot `i`. That of `count` is the end of the table. -/
def pos (desc : Descriptor) (i : Nat) : UInt32 := desc.start + 4 * UInt32.ofNat i

def table (flash : Flash) (desc : Descriptor) : List UInt32 :=
  (List.range desc.count).map fun i => flash.word (desc.pos i)

/-- A table that starts after address 0, does not end before it starts, and holds whole pointers.
This is what the linker script of the SDK makes, and what a descriptor found in flash need not be.
-/
structure Valid (desc : Descriptor) : Prop where
  pos : 0 < desc.start.toNat
  le : desc.start.toNat ≤ desc.stop.toNat
  aligned : (desc.stop.toNat - desc.start.toNat) % 4 = 0

end Descriptor

/-! ## 1. Slots -/

section Slots

variable {flash : Flash} {desc : Descriptor} {i : Nat}

theorem stop_eq (h : desc.Valid) : desc.stop.toNat = desc.start.toNat + 4 * desc.count := by
  have h1 := h.le
  have h2 := h.aligned
  simp only [Descriptor.count]
  omega

theorem pos_toNat (h : desc.Valid) (hi : i ≤ desc.count) :
    (desc.pos i).toNat = desc.start.toNat + 4 * i := by
  have hstop := stop_eq h
  have hlt := desc.stop.toNat_lt
  rw [Descriptor.pos, UInt32.toNat_add, UInt32.toNat_mul, UInt32.toNat_ofNat']
  simp only [UInt32.toNat_ofNat]
  omega

theorem pos_zero (desc : Descriptor) : desc.pos 0 = desc.start := by
  simp [Descriptor.pos]

theorem pos_ne_zero (h : desc.Valid) (hi : i ≤ desc.count) : desc.pos i ≠ 0 := by
  intro h0
  have h1 := pos_toNat h hi
  have h2 := h.pos
  rw [h0] at h1
  simp at h1
  omega

theorem pos_lt_stop (h : desc.Valid) (hi : i ≤ desc.count) :
    desc.pos i < desc.stop ↔ i < desc.count := by
  rw [UInt32.lt_iff_toNat_lt, pos_toNat h hi, stop_eq h]
  omega

theorem pos_add_four (desc : Descriptor) (i : Nat) : desc.pos i + 4 = desc.pos (i + 1) := by
  have h4 : UInt32.ofNat (i + 1) = UInt32.ofNat i + 1 := UInt32.ofNat_add i 1
  rw [Descriptor.pos, Descriptor.pos, h4, UInt32.mul_add, UInt32.add_assoc]
  rfl

theorem pos_inside (h : desc.Valid) (hi : i < desc.count) :
    desc.pos i ≠ 0 ∧ desc.pos i < desc.stop :=
  ⟨pos_ne_zero h (Nat.le_of_lt hi), (pos_lt_stop h (Nat.le_of_lt hi)).2 hi⟩

theorem end_not_inside (h : desc.Valid) :
    ¬ (desc.pos desc.count ≠ 0 ∧ desc.pos desc.count < desc.stop) :=
  fun hin => Nat.lt_irrefl _ ((pos_lt_stop h (Nat.le_refl _)).1 hin.2)

theorem next_pos (h : desc.Valid) (hi : i < desc.count) :
    prBiNext desc (desc.pos i) = desc.pos (i + 1) := by
  rw [prBiNext, if_pos (pos_inside h hi), pos_add_four]

theorem next_end (h : desc.Valid) : prBiNext desc (desc.pos desc.count) = 0 :=
  if_neg (end_not_inside h)

theorem get_pos (h : desc.Valid) (hi : i < desc.count) :
    prBiGet flash desc (desc.pos i) = flash.word (desc.pos i) :=
  if_pos (pos_inside h hi)

theorem get_end (h : desc.Valid) : prBiGet flash desc (desc.pos desc.count) = 0 :=
  if_neg (end_not_inside h)

@[simp] theorem length_table (flash : Flash) (desc : Descriptor) :
    (desc.table flash).length = desc.count := by
  simp [Descriptor.table]

theorem table_drop (hi : i < desc.count) :
    (desc.table flash).drop i = flash.word (desc.pos i) :: (desc.table flash).drop (i + 1) := by
  rw [List.drop_eq_getElem_cons (by simpa using hi)]
  simp [Descriptor.table]

theorem table_drop_count : (desc.table flash).drop desc.count = [] :=
  List.drop_eq_nil_of_le (by simp)

end Slots

/-! ## 2. The loop -/

/-- From the slot `i` on, with fuel for the slots, the end and 0. -/
theorem iterate_pos (flash : Flash) {desc : Descriptor} (h : desc.Valid) {i d : Nat}
    (hi : i + d = desc.count) {fuel : Nat} (hfuel : d + 1 < fuel) :
    iterate flash desc fuel (desc.pos i) = .ok ((desc.table flash).drop i ++ [0]) := by
  induction d generalizing i fuel with
  | zero =>
    obtain rfl : i = desc.count := hi
    obtain ⟨fuel, rfl⟩ := Nat.exists_eq_add_of_lt hfuel
    rw [table_drop_count, show 0 + 1 + fuel + 1 = fuel + 1 + 1 by omega, iterate,
      if_neg (pos_ne_zero h (Nat.le_refl _)), next_end h, get_end h, iterate, if_pos rfl]
    rfl
  | succ d ih =>
    obtain ⟨fuel, rfl⟩ := Nat.exists_eq_add_one_of_ne_zero (Nat.ne_zero_of_lt hfuel)
    have hlt : i < desc.count := by omega
    rw [iterate, if_neg (pos_ne_zero h (Nat.le_of_lt hlt)), next_pos h hlt, get_pos h hlt,
      ih (by omega) (by omega), table_drop hlt]
    rfl

theorem iterate_fueled (flash : Flash) (desc : Descriptor) (state : UInt32) :
    Fueled fun fuel => iterate flash desc fuel state := by
  intro fuel
  induction fuel generalizing state with
  | zero => exact .timeout _
  | succ fuel ih =>
    simp only [iterate]
    split
    · exact .refl _
    · exact (ih _).bind fun _ => .refl _

/-! ## 3. What the loop obtains -/

/-- The loop ends, and has obtained exactly the entries of the table, none of them `NULL`. -/
def VisitsTable (flash : Flash) (desc : Descriptor) : Prop :=
  ∃ infos, Returns (fun fuel => iterate flash desc fuel (prBiStart desc)) infos ∧
    infos = desc.table flash ∧ 0 ∉ infos

/-- The loop ends, and obtains `NULL` after the entries. -/
theorem iterate_returns (flash : Flash) {desc : Descriptor} (h : desc.Valid) :
    Returns (fun fuel => iterate flash desc fuel (prBiStart desc)) (desc.table flash ++ [0]) := by
  refine ⟨desc.count + 2, ?_⟩
  have hrun := iterate_pos flash h (Nat.zero_add desc.count) (Nat.lt_succ_self _)
  rwa [pos_zero, List.drop_zero] at hrun

/-- Whatever the table, the loop in the header obtains a `NULL` that is not in it. Behind the last
entry `pr_bi_next` returns the end of the table and not 0, so the loop takes one turn more, and
`pr_bi_get` finds no entry there. -/
theorem iterate_not_table (flash : Flash) {desc : Descriptor} (h : desc.Valid) :
    ¬ VisitsTable flash desc := by
  rintro ⟨infos, hrun, -, hnull⟩
  obtain rfl := (iterate_fueled flash desc _).returns_unique (iterate_returns flash h) hrun
  exact hnull (by simp)

namespace IterateLemmas

def flash : Flash := ⟨fun _ => 0x10000200, fun _ => ⟨5, 0x5052, 0, 0⟩⟩

def desc : Descriptor := ⟨0x10000100, 0x10000104⟩

theorem valid : desc.Valid := ⟨by decide, by decide, by decide⟩

end IterateLemmas

open IterateLemmas in
theorem iterate_not_table_oneEntry :
    desc.Valid ∧ desc.table flash = [0x10000200] ∧ ¬ VisitsTable flash desc :=
  ⟨valid, by decide, iterate_not_table flash valid⟩

open IterateLemmas in
/-- A table with one entry: the loop has two turns, and obtains `NULL` in the second one. -/
theorem iterate_oneEntry :
    Returns (fun fuel => iterate flash desc fuel (prBiStart desc)) [0x10000200, 0] ∧
      ¬ VisitsTable flash desc := by
  have hrun : Returns (fun fuel => iterate flash desc fuel (prBiStart desc)) [0x10000200, 0] :=
    ⟨3, rfl⟩
  refine ⟨hrun, ?_⟩
  rintro ⟨infos, hinfos, -, hnull⟩
  obtain rfl := (iterate_fueled flash desc _).returns_unique hrun hinfos
  exact hnull (by decide)

end Picore.BinaryInfo
