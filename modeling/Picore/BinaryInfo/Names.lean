import Picore.BinaryInfo.Find

/-!
# Names in flash

The name of the program, its build date and the name of the board are strings of the table whose
descriptor is found by its markers in the first 512 bytes of flash.

Results:
1. `descFindLoop_first`: the first word between the markers.
2. `round_at`: the calls of one round.
3. `values_cyclic`: the same state returns all values with a tag and an id, round after round.
4. `names_exact`: the three names are those of the first such entries.
-/

namespace Picore.BinaryInfo

open Fuel Search

/-! ## 1. The descriptor -/

def xipBase : UInt32 := 0x10000000

def binaryInfoMarkerStart : UInt32 := 0x7188ebf2

def binaryInfoMarkerEnd : UInt32 := 0xe71aa390

/-- The two marker words of a descriptor are at `ptr` and 16 bytes behind it, which is all that
`pr_bi_desc_find` tests. -/
def Flash.Marked (flash : Flash) (ptr : UInt32) : Prop :=
  flash.word ptr = binaryInfoMarkerStart ∧ flash.word (ptr + 16) = binaryInfoMarkerEnd

instance (flash : Flash) : DecidablePred flash.Marked :=
  fun _ => inferInstanceAs (Decidable (_ ∧ _))

/-- The loop of `pr_bi_desc_find`, from `ptr` on. -/
def descFindLoop (flash : Flash) (ptr : UInt32) : Option UInt32 :=
  if ptr < xipBase + 512 then
    if flash.Marked ptr then some ptr else descFindLoop flash (ptr + 4)
  else none
termination_by (xipBase + 512).toNat - ptr.toNat
decreasing_by
  have hlt : ptr.toNat < 0x10000200 := UInt32.lt_iff_toNat_lt.mp ‹_›
  have hnext : (ptr + 4).toNat = ptr.toNat + 4 := by
    rw [UInt32.toNat_add]
    exact Nat.mod_eq_of_lt (Nat.lt_trans (Nat.add_lt_add_right hlt 4) (by decide))
  have hend : (xipBase + 512).toNat = 0x10000200 := rfl
  omega

def prBiDescFind (flash : Flash) : Option UInt32 := descFindLoop flash xipBase

def Flash.descriptor (flash : Flash) (ptr : UInt32) : Descriptor :=
  ⟨flash.word (ptr + 4), flash.word (ptr + 8)⟩

def binaryInfoTagRaspberryPi : UInt16 := 0x5052

def binaryInfoIdRpProgramName : UInt32 := 0x02031c86

def binaryInfoIdRpProgramBuildDateString : UInt32 := 0x9da22254

def binaryInfoIdRpPicoBoard : UInt32 := 0xb63cffbb

def namedString (flash : Flash) (id : UInt32) (fuel : Nat) : Outcome Empty UInt32 :=
  match prBiDescFind flash with
  | none => .ok 0
  | some ptr => do
    let (value, _) ←
      prBiFindString flash (flash.descriptor ptr) binaryInfoTagRaspberryPi id fuel none
    .ok value

def prBinaryInfoProgramName (flash : Flash) : Nat → Outcome Empty UInt32 :=
  namedString flash binaryInfoIdRpProgramName

def prBinaryInfoBuildDate (flash : Flash) : Nat → Outcome Empty UInt32 :=
  namedString flash binaryInfoIdRpProgramBuildDateString

def prBinaryInfoBoardName (flash : Flash) : Nat → Outcome Empty UInt32 :=
  namedString flash binaryInfoIdRpPicoBoard

def flashWord (i : Nat) : UInt32 := xipBase + 4 * UInt32.ofNat i

namespace NamesLemmas

theorem flashWord_lt {i : Nat} (hi : i ≤ 128) : flashWord i < xipBase + 512 ↔ i < 128 := by
  have htoNat : (flashWord i).toNat = 0x10000000 + 4 * i := by
    have hbase : xipBase.toNat = 0x10000000 := rfl
    rw [flashWord, UInt32.toNat_add, UInt32.toNat_mul, UInt32.toNat_ofNat', hbase]
    simp only [UInt32.toNat_ofNat]
    omega
  have hend : (xipBase + 512).toNat = 0x10000200 := rfl
  rw [UInt32.lt_iff_toNat_lt, htoNat, hend]
  omega

theorem flashWord_next (i : Nat) : flashWord i + 4 = flashWord (i + 1) := by
  have h4 : UInt32.ofNat (i + 1) = UInt32.ofNat i + 1 := UInt32.ofNat_add i 1
  rw [flashWord, flashWord, h4, UInt32.mul_add, UInt32.add_assoc]
  rfl

theorem descFindLoop_first (flash : Flash) {i d : Nat} (hi : i + d = 128) :
    ∃ r, First (fun k => flash.Marked (flashWord k)) i 128 r ∧
      descFindLoop flash (flashWord i) = r.map flashWord := by
  induction d generalizing i with
  | zero =>
    obtain rfl : i = 128 := hi
    refine ⟨none, .empty (Nat.le_refl _), ?_⟩
    rw [descFindLoop, if_neg fun h => Nat.lt_irrefl _ ((flashWord_lt (Nat.le_refl _)).mp h)]
    rfl
  | succ d ih =>
    have hlt : i < 128 := by omega
    rw [descFindLoop, if_pos ((flashWord_lt (Nat.le_of_lt hlt)).mpr hlt)]
    by_cases hm : flash.Marked (flashWord i)
    · exact ⟨some i, .here hlt hm, if_pos hm⟩
    · obtain ⟨r, hr, hrun⟩ := ih (i := i + 1) (by omega)
      rw [if_neg hm, flashWord_next]
      exact ⟨r, hr.next hm, hrun⟩

end NamesLemmas

/-! ## 2. A round -/

/-- A function is called `k` times with the same state: what it returns, and the state. -/
def calls {α : Type} (f : UInt32 → Outcome Empty (α × Option UInt32)) :
    Nat → UInt32 → Outcome Empty (List α × UInt32)
  | 0, state => .ok ([], state)
  | k + 1, state => do
    let (value, state) ← f state
    let (values, state) ← calls f k (state.getD 0)
    .ok (value :: values, state)

/-- The values with the type, the tag and the id, in the order of the table. -/
def values {α : Type} (flash : Flash) (desc : Descriptor) (type tag : UInt16) (id : UInt32)
    (value : UInt32 → α) : List α :=
  ((desc.table flash).filter fun c => flash.Matches type tag c ∧ (flash.entry c).id = id).map
    fun c => value (flash.entry c).value

namespace NamesLemmas

variable {α : Type}

theorem calls_append {f : UInt32 → Outcome Empty (α × Option UInt32)} {k l : Nat}
    {state state' state'' : UInt32} {xs ys : List α} (hk : calls f k state = .ok (xs, state'))
    (hl : calls f l state' = .ok (ys, state'')) :
    calls f (k + l) state = .ok (xs ++ ys, state'') := by
  induction k generalizing state xs with
  | zero =>
    cases hk
    rw [Nat.zero_add]
    exact hl
  | succ k ih =>
    rw [calls] at hk
    obtain ⟨⟨value, next⟩, hf, hrest⟩ := bind_eq_ok.mp hk
    obtain ⟨⟨rest, last⟩, hcalls, hok⟩ := bind_eq_ok.mp hrest
    cases hok
    rw [Nat.succ_add, calls, hf, bind_ok]
    simp only [ih hcalls, bind_ok]
    rfl

instance (flash : Flash) (desc : Descriptor) (type tag : UInt16) (id : UInt32) :
    DecidablePred (SlotHas flash desc type tag id) :=
  fun _ => inferInstanceAs (Decidable (_ ∧ _))

def valuesFrom (flash : Flash) (desc : Descriptor) (type tag : UInt16) (id : UInt32)
    (value : UInt32 → α) (i : Nat) : List α :=
  (hits (SlotHas flash desc type tag id) i desc.count).map fun k =>
    value (flash.entry (desc.slot flash k)).value

theorem valuesFrom_zero (flash : Flash) (desc : Descriptor) (type tag : UInt16) (id : UInt32)
    (value : UInt32 → α) :
    valuesFrom flash desc type tag id value 0 = values flash desc type tag id value := by
  rw [valuesFrom, values, hits, Descriptor.table, List.filter_map, List.map_map,
    ← List.range_eq_range', Nat.sub_zero]
  rfl

section Round

variable {flash : Flash} {desc : Descriptor} {type tag : UInt16} {id : UInt32}
  {value : UInt32 → α} {null : α} {f : UInt32 → Outcome Empty (α × Option UInt32)}

/-- From a slot on, the calls return what is left of the values and then `null`, and they leave
0. -/
theorem round_at (hf : ∀ state i, desc.At state i →
      ∃ r, First (SlotHas flash desc type tag id) i desc.count r ∧
        f state = .ok (valueAt flash desc value null r))
    {state : UInt32} {i d : Nat} (hs : desc.At state i) (hi : i + d = desc.count) :
    calls f ((valuesFrom flash desc type tag id value i).length + 1) state =
      .ok (valuesFrom flash desc type tag id value i ++ [null], 0) := by
  induction d using Nat.strongRecOn generalizing i state with
  | ind d ih =>
  obtain ⟨r, hr, hrun⟩ := hf state i hs
  rw [calls, hrun, bind_ok]
  cases r with
  | none =>
    have hvalues : valuesFrom flash desc type tag id value i = [] := by
      rw [valuesFrom, hr.hits_none]
      rfl
    rw [hvalues]
    rfl
  | some j =>
    have hjn : j + 1 ≤ desc.count := hr.2.1
    obtain ⟨rest, hlt, hrest⟩ := hr.rest hi
    have hvalues : valuesFrom flash desc type tag id value i =
        value (flash.entry (desc.slot flash j)).value ::
          valuesFrom flash desc type tag id value (j + 1) := by
      rw [valuesFrom, hr.hits_some]
      rfl
    have hnext := ih rest hlt (.inl ⟨rfl, hjn⟩) hrest
    rw [hvalues]
    simp only [valueAt, List.length_cons, Option.getD_some, hnext, bind_ok]
    rfl

/-- The state is 0 after a round, with which the next one starts. -/
theorem rounds (hf : ∀ state i, desc.At state i →
      ∃ r, First (SlotHas flash desc type tag id) i desc.count r ∧
        f state = .ok (valueAt flash desc value null r)) (n : Nat) :
    calls f (n * ((values flash desc type tag id value).length + 1)) 0 =
      .ok ((List.replicate n (values flash desc type tag id value ++ [null])).flatten, 0) := by
  induction n with
  | zero =>
    rw [Nat.zero_mul]
    rfl
  | succ n ih =>
    have hround := round_at hf (.inr ⟨rfl, rfl⟩) (Nat.zero_add desc.count)
    rw [valuesFrom_zero] at hround
    rw [Nat.succ_mul, Nat.add_comm, List.replicate_succ, List.flatten_cons]
    exact calls_append hround ih

end Round

/-- One search for an id, with fuel for the table. -/
theorem findIdLoop_valueAt (flash : Flash) {desc : Descriptor} (h : desc.Valid)
    (type tag : UInt16) (id : UInt32) (value : UInt32 → α) (null : α) {fuel : Nat}
    (hfuel : desc.count + 2 < fuel) (state : UInt32) (i : Nat) (hs : desc.At state i) :
    ∃ r, First (SlotHas flash desc type tag id) i desc.count r ∧
      (findIdLoop flash desc type tag id fuel state >>= fun (bi, s) =>
          (.ok (if bi = 0 then null else value (flash.entry bi).value, some s) :
            Outcome Empty (α × Option UInt32))) = .ok (valueAt flash desc value null r) := by
  have hi := (at_start h hs).1
  obtain ⟨r, hr, hrun⟩ := findIdLoop_at flash type tag id h hs (Nat.add_sub_cancel' hi)
    (by omega : desc.count - i + 2 < fuel)
  refine ⟨r, hr, (congrArg (· >>= _) hrun).trans ?_⟩
  cases r with
  | none => rfl
  | some j =>
    have hne : desc.slot flash j ≠ 0 := hr.2.2.1.1.1
    simp only [outcome, bind_ok, if_neg hne, valueAt]

end NamesLemmas

/-! ## 3. Round after round -/

/-- The addresses of the strings that the table has under `tag` and `id`, in its order. -/
def strings (flash : Flash) (desc : Descriptor) (tag : UInt16) (id : UInt32) : List UInt32 :=
  values flash desc binaryInfoTypeIdAndString tag id fun value => value

/-- The integers that the table has under `tag` and `id`, in its order, as the signed numbers that
`pr_bi_find_int` returns. -/
def ints (flash : Flash) (desc : Descriptor) (tag : UInt16) (id : UInt32) : List Int32 :=
  values flash desc binaryInfoTypeIdAndInt tag id (·.toInt32)

open NamesLemmas in
/-- Calls of `pr_bi_find_string`, or of `pr_bi_find_int`, with a state that is 0 at first: round
after round they return the values with the tag and the id, in the order of the table, and `NULL` or
-1 behind them. -/
theorem values_cyclic (flash : Flash) {desc : Descriptor} (h : desc.Valid) (tag : UInt16)
    (id : UInt32) (n : Nat) :
    Returns (fun fuel => calls (fun state => prBiFindString flash desc tag id fuel (some state))
        (n * ((strings flash desc tag id).length + 1)) 0)
      ((List.replicate n (strings flash desc tag id ++ [0])).flatten, 0) ∧
    Returns (fun fuel => calls (fun state => prBiFindInt flash desc tag id fuel (some state))
        (n * ((ints flash desc tag id).length + 1)) 0)
      ((List.replicate n (ints flash desc tag id ++ [-1])).flatten, 0) := by
  have hfuel : desc.count + 2 < desc.count + 3 := Nat.lt_succ_self _
  exact ⟨⟨_, rounds (findIdLoop_valueAt flash h _ tag id (fun value => value) 0 hfuel) n⟩,
    ⟨_, rounds (findIdLoop_valueAt flash h _ tag id (·.toInt32) (-1) hfuel) n⟩⟩

open FindLemmas in
theorem values_cyclic_twice :
    Returns (fun fuel => calls (fun state => prBiFindString flash desc 0x5052 0x10000210 fuel
      (some state)) 4 0) ([0x1000021c, 0, 0x1000021c, 0], 0) := by
  have hrounds := (values_cyclic flash valid 0x5052 0x10000210 2).1
  have hstrings : strings flash desc 0x5052 0x10000210 = [0x1000021c] := by decide
  rw [hstrings] at hrounds
  exact hrounds

/-! ## 4. The three names -/

/-- The descriptor in flash: the first one that is marked. -/
def firstDescriptor (flash : Flash) : Option Descriptor :=
  (((List.range 128).map flashWord).find? fun ptr => flash.Marked ptr).map flash.descriptor

/-- The first string with the tag of Raspberry Pi and the id, or `NULL`. -/
def nameIn (flash : Flash) (id : UInt32) (desc : Descriptor) : UInt32 :=
  (strings flash desc binaryInfoTagRaspberryPi id).headD 0

namespace NamesLemmas

theorem prBiDescFind_eq (flash : Flash) :
    (prBiDescFind flash).map flash.descriptor = firstDescriptor flash := by
  obtain ⟨r, hr, hrun⟩ := descFindLoop_first flash (Nat.zero_add 128)
  have hfirst := hr.head_hits
  rw [hits, List.head?_filter, Nat.sub_zero, ← List.range_eq_range'] at hfirst
  have hzero : flashWord 0 = xipBase := rfl
  rw [prBiDescFind, ← hzero, hrun, firstDescriptor, List.find?_map, ← hfirst]
  rfl

/-- The value of the first search is the first of all. -/
theorem valueAt_head {α : Type} {flash : Flash} {desc : Descriptor} {type tag : UInt16}
    {id : UInt32} (value : UInt32 → α) (null : α) {r : Option Nat}
    (hr : First (SlotHas flash desc type tag id) 0 desc.count r) :
    (valueAt flash desc value null r).1 = (values flash desc type tag id value).headD null := by
  rw [← valuesFrom_zero, valuesFrom]
  cases r with
  | none =>
    rw [hr.hits_none]
    rfl
  | some j =>
    rw [hr.hits_some]
    rfl

theorem namedString_returns (flash : Flash) (id : UInt32)
    (h : ∀ desc, firstDescriptor flash = some desc → desc.Valid) :
    Returns (namedString flash id) ((firstDescriptor flash).elim 0 (nameIn flash id)) := by
  have hfind := prBiDescFind_eq flash
  unfold namedString
  cases hptr : prBiDescFind flash with
  | none =>
    rw [hptr] at hfind
    rw [← hfind]
    exact ⟨0, rfl⟩
  | some ptr =>
    rw [hptr] at hfind
    have hvalid := h _ hfind.symm
    obtain ⟨r, hr, hrun⟩ := findIdLoop_at flash binaryInfoTypeIdAndString binaryInfoTagRaspberryPi
      id hvalid (.inr ⟨rfl, rfl⟩) (Nat.zero_add _)
      (Nat.lt_succ_self ((flash.descriptor ptr).count + 2))
    have hhead := valueAt_head (fun value => value) 0 hr
    rw [← hfind, Option.map_some, Option.elim_some, nameIn, strings, ← hhead]
    refine ⟨(flash.descriptor ptr).count + 3, ?_⟩
    simp only [prBiFindString, Option.getD_none, hrun, bind_ok]
    cases r with
    | none => rfl
    | some j =>
      have hne : (flash.descriptor ptr).slot flash j ≠ 0 := hr.2.2.1.1.1
      exact congrArg Except.ok (if_neg hne)

end NamesLemmas

open NamesLemmas in
/-- The three functions return the first string of the first descriptor in flash, for their ids, or
`NULL` if there is no such string or no descriptor. -/
theorem names_exact (flash : Flash)
    (h : ∀ desc, firstDescriptor flash = some desc → desc.Valid) :
    Returns (prBinaryInfoProgramName flash)
        ((firstDescriptor flash).elim 0 (nameIn flash binaryInfoIdRpProgramName)) ∧
      Returns (prBinaryInfoBuildDate flash)
        ((firstDescriptor flash).elim 0 (nameIn flash binaryInfoIdRpProgramBuildDateString)) ∧
      Returns (prBinaryInfoBoardName flash)
        ((firstDescriptor flash).elim 0 (nameIn flash binaryInfoIdRpPicoBoard)) :=
  ⟨namedString_returns flash _ h, namedString_returns flash _ h, namedString_returns flash _ h⟩

namespace NamesLemmas

/-- A descriptor at the third word, with a table of two names. -/
def image : Flash where
  word a :=
    if a = 0x10000008 then binaryInfoMarkerStart
    else if a = 0x1000000c then 0x10000100
    else if a = 0x10000010 then 0x10000108
    else if a = 0x10000018 then binaryInfoMarkerEnd
    else if a = 0x10000100 then 0x10000200
    else if a = 0x10000104 then 0x10000210
    else 0
  entry a :=
    if a = 0x10000200 then ⟨6, 0x5052, binaryInfoIdRpPicoBoard, 0x10000300⟩
    else ⟨6, 0x5052, binaryInfoIdRpProgramName, 0x10000310⟩

end NamesLemmas

open NamesLemmas in
theorem names_exact_image :
    Returns (prBinaryInfoProgramName image) 0x10000310 ∧
      Returns (prBinaryInfoBuildDate image) 0 ∧
      Returns (prBinaryInfoBoardName image) 0x10000300 := by
  have hfirst : firstDescriptor image = some ⟨0x10000100, 0x10000108⟩ := rfl
  have hvalid : ∀ desc, firstDescriptor image = some desc → desc.Valid := by
    intro desc hdesc
    rw [hfirst] at hdesc
    cases hdesc
    exact ⟨by decide, by decide, by decide⟩
  have hnames := names_exact image hvalid
  rw [hfirst] at hnames
  exact hnames

end Picore.BinaryInfo
