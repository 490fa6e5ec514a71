import Mathlib.Algebra.Group.Nat.Defs
import Picore.BinaryInfo.Iterate
import Picore.Lib.Search

/-!
# Searching the table

A search steps past a slot before it looks at the entry, so that its state is behind the entry that
it returns. A search that has come to the end leaves 0, with which the next one starts again.

Results:
1. `findLoop_pos`, `findIdLoop_pos`: a search stops at the first matching slot.
2. `findLoop_ends`, `findIdLoop_ends`: from any state, it ends.
3. `find_exact`: the same state returns all matching entries and then `NULL`; the searches for an
   integer and a string return the first value from the state on.
-/

namespace Picore.BinaryInfo

open Fuel Search

/-- `pr_bi_find` is called `k` times with the same state. -/
def finds (flash : Flash) (desc : Descriptor) (type tag : UInt16) (fuel : Nat) :
    Nat → UInt32 → Outcome Empty (List UInt32)
  | 0, _ => .ok []
  | k + 1, state => do
    let (c, state) ← prBiFind flash desc type tag fuel (some state)
    let cs ← finds flash desc type tag fuel k (state.getD 0)
    .ok (c :: cs)

def Descriptor.slot (flash : Flash) (desc : Descriptor) (i : Nat) : UInt32 :=
  flash.word (desc.pos i)

/-- The state stands for the slot `i`. 0 stands for the first one. -/
def Descriptor.At (desc : Descriptor) (state : UInt32) (i : Nat) : Prop :=
  (state = desc.pos i ∧ i ≤ desc.count) ∨ (state = 0 ∧ i = 0)

/-- The slot has an entry with the type, the tag and the id. -/
def SlotHas (flash : Flash) (desc : Descriptor) (type tag : UInt16) (id : UInt32) (i : Nat) :
    Prop :=
  flash.Matches type tag (desc.slot flash i) ∧ (flash.entry (desc.slot flash i)).id = id

/-- The entries with the type and the tag, from the slot `i` on. -/
def found (flash : Flash) (desc : Descriptor) (type tag : UInt16) (i : Nat) : List UInt32 :=
  (hits (fun k => flash.Matches type tag (desc.slot flash k)) i desc.count).map (desc.slot flash)

/-- What a search returns that stops at a slot, and the state that it leaves. -/
def outcome (flash : Flash) (desc : Descriptor) : Option Nat → UInt32 × UInt32
  | some j => (desc.slot flash j, desc.pos (j + 1))
  | none => (0, 0)

/-! ## 1. One search -/

section Table

variable (flash : Flash) {desc : Descriptor} (type tag : UInt16) (id : UInt32) {i d fuel : Nat}

/-- From the slot `i` on, with fuel for the slots, the end and 0. -/
theorem findLoop_pos (h : desc.Valid) (hi : i + d = desc.count) (hfuel : d + 1 < fuel) :
    ∃ r, First (fun k => flash.Matches type tag (desc.slot flash k)) i desc.count r ∧
      findLoop flash desc type tag fuel (desc.pos i) = .ok (outcome flash desc r) := by
  induction d generalizing i fuel with
  | zero =>
    obtain rfl : i = desc.count := hi
    obtain ⟨fuel, rfl⟩ : ∃ n, fuel = n + 1 + 1 := ⟨fuel - 2, by omega⟩
    have hnull : ¬ flash.Matches type tag 0 := fun hm => hm.1 rfl
    refine ⟨none, .empty (Nat.le_refl _), ?_⟩
    rw [findLoop, if_neg (pos_ne_zero h (Nat.le_refl _)), next_end h, get_end h, if_neg hnull,
      findLoop, if_pos rfl]
    rfl
  | succ d ih =>
    obtain ⟨fuel, rfl⟩ := Nat.exists_eq_add_one_of_ne_zero (Nat.ne_zero_of_lt hfuel)
    have hlt : i < desc.count := by omega
    rw [findLoop, if_neg (pos_ne_zero h (Nat.le_of_lt hlt)), next_pos h hlt, get_pos h hlt]
    by_cases hm : flash.Matches type tag (flash.word (desc.pos i))
    · exact ⟨some i, .here hlt hm, if_pos hm⟩
    · obtain ⟨r, hr, hrun⟩ := ih (i := i + 1) (by omega) (by omega : d + 1 < fuel)
      exact ⟨r, hr.next hm, (if_neg hm).trans hrun⟩

theorem at_start (h : desc.Valid) {state : UInt32} (hs : desc.At state i) :
    i ≤ desc.count ∧ (if state = 0 then prBiStart desc else state) = desc.pos i := by
  rcases hs with ⟨rfl, hle⟩ | ⟨rfl, rfl⟩
  · exact ⟨hle, if_neg (pos_ne_zero h hle)⟩
  · exact ⟨Nat.zero_le _, (if_pos rfl).trans (pos_zero desc).symm⟩

theorem prBiFind_at (h : desc.Valid) {state : UInt32} (hs : desc.At state i)
    (hi : i + d = desc.count) (hfuel : d + 1 < fuel) :
    ∃ r, First (fun k => flash.Matches type tag (desc.slot flash k)) i desc.count r ∧
      prBiFind flash desc type tag fuel (some state) =
        .ok ((outcome flash desc r).1, some (outcome flash desc r).2) := by
  obtain ⟨r, hr, hrun⟩ := findLoop_pos flash type tag h hi hfuel
  refine ⟨r, hr, ?_⟩
  simp only [prBiFind, Option.getD_some, (at_start h hs).2, hrun, bind_ok, Option.map_some]

/-- The calls of one loop for an id, from the slot `i` on. -/
theorem findIdLoop_at (h : desc.Valid) {state : UInt32} (hs : desc.At state i)
    (hi : i + d = desc.count) (hfuel : d + 2 < fuel) :
    ∃ r, First (SlotHas flash desc type tag id) i desc.count r ∧
      findIdLoop flash desc type tag id fuel state = .ok (outcome flash desc r) := by
  induction d using Nat.strongRecOn generalizing i fuel state with
  | ind d ih =>
  obtain ⟨fuel, rfl⟩ := Nat.exists_eq_add_one_of_ne_zero (Nat.ne_zero_of_lt hfuel)
  obtain ⟨r, hr, hrun⟩ := prBiFind_at flash type tag h hs hi (by omega : d + 1 < fuel)
  have himp : ∀ k, SlotHas flash desc type tag id k →
      flash.Matches type tag (desc.slot flash k) := fun _ hk => hk.1
  rw [findIdLoop, hrun, bind_ok]
  cases r with
  | none => exact ⟨none, hr.mono_none himp, if_pos rfl⟩
  | some j =>
    have hjn : j + 1 ≤ desc.count := hr.2.1
    have hne : desc.slot flash j ≠ 0 := hr.2.2.1.1
    simp only [outcome, Option.getD_some, if_neg hne, ne_eq, pos_ne_zero h hjn, not_false_eq_true,
      if_true]
    by_cases hid : (flash.entry (desc.slot flash j)).id = id
    · exact ⟨some j, hr.mono_some himp ⟨hr.2.2.1, hid⟩, if_pos hid⟩
    · -- the entry has another id, and the loop goes on behind it
      obtain ⟨rest, hlt, hrest⟩ := hr.rest hi
      obtain ⟨r, hr', hrun'⟩ := ih rest hlt (.inl ⟨rfl, hjn⟩) hrest (by omega : rest + 2 < fuel)
      exact ⟨r, hr.skip himp (fun hhas => hid hhas.2) hr', (if_neg hid).trans hrun'⟩

/-- Repeated calls return what is left of the table, and then `NULL`. -/
theorem finds_at (h : desc.Valid) {state : UInt32} (hs : desc.At state i)
    (hi : i + d = desc.count) (hfuel : desc.count + 1 < fuel) :
    finds flash desc type tag fuel ((found flash desc type tag i).length + 1) state =
      .ok (found flash desc type tag i ++ [0]) := by
  induction d using Nat.strongRecOn generalizing i state with
  | ind d ih =>
  obtain ⟨r, hr, hrun⟩ := prBiFind_at flash type tag h hs hi (by omega : d + 1 < fuel)
  rw [finds, hrun, bind_ok]
  cases r with
  | none =>
    have hfound : found flash desc type tag i = [] := by rw [found, hr.hits_none]; rfl
    rw [hfound]
    rfl
  | some j =>
    have hjn : j + 1 ≤ desc.count := hr.2.1
    obtain ⟨rest, hlt, hrest⟩ := hr.rest hi
    have hfound : found flash desc type tag i =
        desc.slot flash j :: found flash desc type tag (j + 1) := by
      rw [found, hr.hits_some]
      rfl
    have hnext := ih rest hlt (.inl ⟨rfl, hjn⟩) hrest
    rw [hfound]
    simp only [outcome, List.length_cons, Option.getD_some, hnext, bind_ok]
    rfl

theorem found_zero : found flash desc type tag 0 =
    (desc.table flash).filter fun c => flash.Matches type tag c := by
  rw [found, hits, Descriptor.table, List.filter_map, ← List.range_eq_range', Nat.sub_zero]
  rfl

end Table

/-! ## 2. Searches end -/

section Ends

variable (flash : Flash) {desc : Descriptor} (type tag : UInt16) (id : UInt32) {fuel : Nat}

/-- A step is a step forward, since it does not wrap around. -/
theorem next_forward (hstop : desc.stop.toNat < 2 ^ 32 - 4) (state : UInt32) :
    prBiNext desc state = 0 ∨
      (state.toNat < desc.stop.toNat ∧ state.toNat < (prBiNext desc state).toNat) := by
  rw [prBiNext]
  split
  · next h =>
    have hlt : state.toNat < desc.stop.toNat := UInt32.lt_iff_toNat_lt.1 h.2
    have h4 : (4 : UInt32).toNat = 4 := rfl
    refine .inr ⟨hlt, ?_⟩
    rw [UInt32.toNat_add, h4]
    omega
  · exact .inl rfl

/-- From any state, the loop leaves 0 or a state further on. -/
theorem findLoop_ends (hstop : desc.stop.toNat < 2 ^ 32 - 4) (state : UInt32)
    (hfuel : desc.stop.toNat - state.toNat + 1 < fuel) :
    ∃ r, findLoop flash desc type tag fuel state = .ok r ∧
      (r.2 = 0 ∨ (state.toNat < desc.stop.toNat ∧ state.toNat < r.2.toNat)) := by
  induction fuel generalizing state with
  | zero => exact absurd hfuel (Nat.not_lt_zero _)
  | succ fuel ih =>
    rw [findLoop]
    split
    · exact ⟨_, rfl, .inl rfl⟩
    have hnext := next_forward hstop state
    dsimp only
    split
    · exact ⟨_, rfl, hnext⟩
    rcases hnext with h0 | ⟨hlt, hforward⟩
    · obtain ⟨fuel, rfl⟩ := Nat.exists_eq_add_one_of_ne_zero
        (Nat.ne_zero_of_lt (Nat.lt_of_succ_lt_succ hfuel))
      rw [h0, findLoop, if_pos rfl]
      exact ⟨_, rfl, .inl rfl⟩
    · obtain ⟨r, hrun, hr⟩ := ih (prBiNext desc state) (by omega)
      exact ⟨r, hrun, hr.imp_right fun h => ⟨hlt, Nat.lt_trans hforward h.2⟩⟩

/-- The state with which `pr_bi_find` starts. -/
def Descriptor.first (desc : Descriptor) (state : UInt32) : UInt32 :=
  if state = 0 then prBiStart desc else state

theorem prBiFind_ends (hstop : desc.stop.toNat < 2 ^ 32 - 4) (state : UInt32)
    (hfuel : desc.stop.toNat - (desc.first state).toNat + 1 < fuel) :
    ∃ c s', prBiFind flash desc type tag fuel (some state) = .ok (c, some s') ∧
      (s' = 0 ∨ ((desc.first state).toNat < desc.stop.toNat ∧
        (desc.first state).toNat < s'.toNat)) := by
  obtain ⟨r, hrun, hr⟩ := findLoop_ends flash type tag hstop _ hfuel
  refine ⟨r.1, r.2, ?_, hr⟩
  simp only [Descriptor.first] at hrun
  simp only [prBiFind, Option.getD_some, hrun, bind_ok, Option.map_some]

theorem findIdLoop_ends (hstop : desc.stop.toNat < 2 ^ 32 - 4) {state : UInt32}
    (hfuel : desc.stop.toNat - (desc.first state).toNat + 2 < fuel) :
    ∃ r, findIdLoop flash desc type tag id fuel state = .ok r := by
  induction fuel generalizing state with
  | zero => exact absurd hfuel (Nat.not_lt_zero _)
  | succ fuel ih =>
    obtain ⟨c, s', hrun, hs'⟩ := prBiFind_ends flash type tag hstop state
      (by omega : _ < fuel)
    rw [findIdLoop, hrun, bind_ok]
    simp only [Option.getD_some]
    split
    · exact ⟨_, rfl⟩
    split
    · exact ⟨_, rfl⟩
    split
    · next hne =>
      obtain ⟨hlt, hforward⟩ := hs'.resolve_left hne
      have hfirst : desc.first s' = s' := if_neg hne
      exact ih (by rw [hfirst]; omega)
    · exact ⟨_, rfl⟩

end Ends

/-! ## 3. The searches -/

/-- The value of a search for an id, in terms of the slot it stops at. -/
def valueAt {α : Type} (flash : Flash) (desc : Descriptor) (value : UInt32 → α) (null : α) :
    Option Nat → α × Option UInt32
  | some j => (value (flash.entry (desc.slot flash j)).value, some (desc.pos (j + 1)))
  | none => (null, some 0)

/-- The searches for an id only differ in the type and in what they make of the value. -/
theorem findIdLoop_value {α : Type} (flash : Flash) {desc : Descriptor} (h : desc.Valid)
    (type tag : UInt16) (id : UInt32) (value : UInt32 → α) (null : α) {state : UInt32} {i : Nat}
    (hs : desc.At state i) :
    ∃ r, First (SlotHas flash desc type tag id) i desc.count r ∧
      Returns (fun fuel => findIdLoop flash desc type tag id fuel state >>= fun (bi, s) =>
          (.ok (if bi = 0 then null else value (flash.entry bi).value, some s) :
            Outcome Empty (α × Option UInt32)))
        (valueAt flash desc value null r) := by
  obtain ⟨r, hr, hrun⟩ := findIdLoop_at flash type tag id h hs
    (Nat.add_sub_cancel' (at_start h hs).1) (Nat.lt_succ_self _)
  refine ⟨r, hr, _, (congrArg (· >>= _) hrun).trans ?_⟩
  cases r with
  | none => rfl
  | some j =>
    have hne : desc.slot flash j ≠ 0 := hr.2.2.1.1.1
    simp only [outcome, bind_ok, if_neg hne, valueAt]

/-- In a table that starts after 0: calls of `pr_bi_find` with the same state, from 0 or the start
on, return each entry with the type and the tag once, in the order of the table, and then `NULL`.
From any slot on, `pr_bi_find_int` and `pr_bi_find_string` return the first value with the tag and
the id and leave the state behind it, or they return -1 or `NULL` and leave 0. From any state, each
call ends. -/
theorem find_exact (flash : Flash) {desc : Descriptor} (h : desc.Valid)
    (hstop : desc.stop.toNat < 2 ^ 32 - 4) :
    (∀ type tag state, state = 0 ∨ state = desc.start →
      let found := (desc.table flash).filter fun c => flash.Matches type tag c
      Returns (fun fuel => finds flash desc type tag fuel (found.length + 1) state)
        (found ++ [0])) ∧
    (∀ tag id state i, desc.At state i →
      (∃ r, First (SlotHas flash desc binaryInfoTypeIdAndInt tag id) i desc.count r ∧
        Returns (fun fuel => prBiFindInt flash desc tag id fuel (some state))
          (valueAt flash desc (·.toInt32) (-1) r)) ∧
      ∃ r, First (SlotHas flash desc binaryInfoTypeIdAndString tag id) i desc.count r ∧
        Returns (fun fuel => prBiFindString flash desc tag id fuel (some state))
          (valueAt flash desc (fun value => value) 0 r)) ∧
    ∀ type tag id state,
      (∃ r, Returns (fun fuel => prBiFind flash desc type tag fuel (some state)) r) ∧
      (∃ r, Returns (fun fuel => prBiFindInt flash desc tag id fuel (some state)) r) ∧
      ∃ r, Returns (fun fuel => prBiFindString flash desc tag id fuel (some state)) r := by
  refine ⟨fun type tag state hstate => ?_, fun tag id state i hs => ⟨?_, ?_⟩,
    fun type tag id state => ⟨?_, ?_, ?_⟩⟩
  · have hs : desc.At state 0 := by
      rcases hstate with rfl | rfl
      · exact .inr ⟨rfl, rfl⟩
      · exact .inl ⟨(pos_zero desc).symm, Nat.zero_le _⟩
    have hrun := finds_at flash type tag h hs (Nat.zero_add _) (Nat.lt_succ_self _)
    rw [found_zero] at hrun
    exact ⟨_, hrun⟩
  · exact findIdLoop_value flash h _ tag id (·.toInt32) (-1) hs
  · exact findIdLoop_value flash h _ tag id (fun value => value) 0 hs
  · obtain ⟨c, s', hrun, -⟩ := prBiFind_ends flash type tag hstop state (Nat.lt_succ_self _)
    exact ⟨_, _, hrun⟩
  · obtain ⟨r, hrun⟩ := findIdLoop_ends flash binaryInfoTypeIdAndInt tag id hstop
      (Nat.lt_succ_self (desc.stop.toNat - (desc.first state).toNat + 2))
    exact ⟨_, _, congrArg (· >>= _) hrun⟩
  · obtain ⟨r, hrun⟩ := findIdLoop_ends flash binaryInfoTypeIdAndString tag id hstop
      (Nat.lt_succ_self (desc.stop.toNat - (desc.first state).toNat + 2))
    exact ⟨_, _, congrArg (· >>= _) hrun⟩

namespace FindLemmas

/-- A table of three slots, the second one `NULL`, with two strings. -/
def flash : Flash where
  word a := if a = 0x10000100 then 0x10000200 else if a = 0x10000108 then 0x10000210 else 0
  entry a := ⟨binaryInfoTypeIdAndString, 0x5052, a, a + 12⟩

def desc : Descriptor := ⟨0x10000100, 0x1000010c⟩

theorem valid : desc.Valid := ⟨by decide, by decide, by decide⟩

end FindLemmas

open FindLemmas in
theorem find_exact_threeSlots :
    desc.Valid ∧ desc.stop.toNat < 2 ^ 32 - 4 ∧
      Returns (fun fuel => finds flash desc binaryInfoTypeIdAndString 0x5052 fuel 3 0)
        [0x10000200, 0x10000210, 0] := by
  have hstop : desc.stop.toNat < 2 ^ 32 - 4 := by decide
  have hfinds := (find_exact flash valid hstop).1 binaryInfoTypeIdAndString 0x5052 0 (.inl rfl)
  have hfound : ((desc.table flash).filter fun c =>
      flash.Matches binaryInfoTypeIdAndString 0x5052 c) = [0x10000200, 0x10000210] := by decide
  rw [hfound] at hfinds
  exact ⟨valid, hstop, hfinds⟩

end Picore.BinaryInfo
