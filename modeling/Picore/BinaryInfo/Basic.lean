import Picore.Lib.Fuel

/-!
# Binary info (`src/binary_info_reader/bi_reader.c`)

The descriptor has the addresses of a table of pointers to entries. The state of an iteration is the
address of a slot of the table, and 0 stands for none. The loops are given fuel, since there are
descriptors with which they do not end.
-/

namespace Picore.BinaryInfo

open Fuel

/-- `struct binary_info_descriptor`: the addresses of the first slot of the table and of the one
behind its last. The two markers are where `pr_bi_desc_find` looks for them, and the mapping table
is read by no function here. -/
structure Descriptor where
  start : UInt32
  stop : UInt32

/-- An entry: `binary_info_core_t`, and the fields that `binary_info_id_and_int_t` and
`binary_info_id_and_string_t` have. The value is that of the integer, or the pointer. -/
structure Entry where
  type : UInt16
  tag : UInt16
  id : UInt32
  value : UInt32

/-- What is in flash: the word at an address, and the entry at one. -/
structure Flash where
  word : UInt32 → UInt32
  entry : UInt32 → Entry

def binaryInfoTypeIdAndInt : UInt16 := 5

def binaryInfoTypeIdAndString : UInt16 := 6

def prBiStart (desc : Descriptor) : UInt32 := desc.start

def prBiNext (desc : Descriptor) (state : UInt32) : UInt32 :=
  if state ≠ 0 ∧ state < desc.stop then state + 4 else 0

/-- `pr_bi_get`. The result is the address of an entry, or 0 for `NULL`. -/
def prBiGet (flash : Flash) (desc : Descriptor) (state : UInt32) : UInt32 :=
  if state ≠ 0 ∧ state < desc.stop then flash.word state else 0

/-- The entry is there and has the type and the tag. -/
def Flash.Matches (flash : Flash) (type tag : UInt16) (c : UInt32) : Prop :=
  c ≠ 0 ∧ (flash.entry c).type = type ∧ (flash.entry c).tag = tag

instance (flash : Flash) (type tag : UInt16) : DecidablePred (flash.Matches type tag) :=
  fun _ => inferInstanceAs (Decidable (_ ∧ _))

/-- The `while` loop of `pr_bi_find`: the entry or 0, and the state. -/
def findLoop (flash : Flash) (desc : Descriptor) (type tag : UInt16) :
    Nat → UInt32 → Outcome Empty (UInt32 × UInt32)
  | 0, _ => .error .timeout
  | fuel + 1, state =>
    if state = 0 then .ok (0, 0)
    else
      let c := prBiGet flash desc state
      let state := prBiNext desc state
      if flash.Matches type tag c then .ok (c, state) else findLoop flash desc type tag fuel state

/-- `pr_bi_find`. `none` is a `NULL` pointer to the state. -/
def prBiFind (flash : Flash) (desc : Descriptor) (type tag : UInt16) (fuel : Nat)
    (state : Option UInt32) : Outcome Empty (UInt32 × Option UInt32) := do
  let s := state.getD 0
  let s := if s = 0 then prBiStart desc else s
  let (c, s) ← findLoop flash desc type tag fuel s
  .ok (c, state.map fun _ => s)

/-- The `do` loop of `pr_bi_find_int` and `pr_bi_find_string`: the entry or 0, and the state. -/
def findIdLoop (flash : Flash) (desc : Descriptor) (type tag : UInt16) (id : UInt32) :
    Nat → UInt32 → Outcome Empty (UInt32 × UInt32)
  | 0, _ => .error .timeout
  | fuel + 1, state => do
    let (bi, state) ← prBiFind flash desc type tag fuel (some state)
    let state := state.getD 0
    if bi = 0 then .ok (0, state)
    else if (flash.entry bi).id = id then .ok (bi, state)
    else if state ≠ 0 then findIdLoop flash desc type tag id fuel state
    else .ok (0, state)

def prBiFindInt (flash : Flash) (desc : Descriptor) (tag : UInt16) (id : UInt32) (fuel : Nat)
    (state : Option UInt32) : Outcome Empty (Int32 × Option UInt32) := do
  let (bi, s) ← findIdLoop flash desc binaryInfoTypeIdAndInt tag id fuel (state.getD 0)
  .ok (if bi = 0 then -1 else (flash.entry bi).value.toInt32, state.map fun _ => s)

/-- `pr_bi_find_string`. The result is a pointer, or 0 for `NULL`. -/
def prBiFindString (flash : Flash) (desc : Descriptor) (tag : UInt16) (id : UInt32) (fuel : Nat)
    (state : Option UInt32) : Outcome Empty (UInt32 × Option UInt32) := do
  let (bi, s) ← findIdLoop flash desc binaryInfoTypeIdAndString tag id fuel (state.getD 0)
  .ok (if bi = 0 then 0 else (flash.entry bi).value, state.map fun _ => s)

/-- The loop in the header, from `state` on: what `pr_bi_get` returns in each turn. -/
def iterate (flash : Flash) (desc : Descriptor) : Nat → UInt32 → Outcome Empty (List UInt32)
  | 0, _ => .error .timeout
  | fuel + 1, state =>
    if state = 0 then .ok []
    else do
      let info := prBiGet flash desc state
      let infos ← iterate flash desc fuel (prBiNext desc state)
      .ok (info :: infos)

end Picore.BinaryInfo
