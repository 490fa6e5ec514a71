import Picore.I2c.EepromTrace
import Picore.Lib.Transition

/-!
# The range check of the EEPROM drivers

All four functions start with a check of `addr + size` against the capacity of the chip. The sum
is computed in 32 bits. Behind the check a write goes through its chunks with a 16-bit offset and
a counter of attempts that every success resets.

Results:
1. `endsWithin`, `neverWraps`: a write in the range of the chip.
2. `range_exact_iff`: the check is exact iff the address alone is out of range or the sum does not
   wrap. `sum_wraps`: a read of almost the whole address space that is not rejected.
-/

namespace Picore.I2c

open Memory Fuel Retry Transition

variable {σ : Type}

/-- A transaction that is an attempt at chunk `k` of a write, whatever it returns. -/
def AtChunk (w : WriteCall) (k : Nat) (x : Xfer) : Prop :=
  let t := transaction w.type.part w.addr w.data k
  ∃ err, x = .write (w.type.part.slave w.saddr t.1) (w.type.part.header t.1 ++ t.2) false err

/-- A poll: a write, and the read of a byte if the write has succeeded. -/
inductive IsPoll : List Xfer → Prop
  | write {saddr : UInt8} {bytes : List UInt8} {err : Int} :
      IsPoll [.write saddr bytes true err]
  | writeRead {saddr : UInt8} {bytes : List UInt8} {err err' : Int} :
      IsPoll [.write saddr bytes true err, .read saddr 1 false err']

/-- A write on the bus ends, after at most 128 attempts at each of its chunks and 128 polls. -/
def EndsWithin (w : WriteCall) (inst : I2cInst σ) (s : σ) (saddr0 : UInt8) (buf0 : Mem UInt8) :
    Prop :=
  ∃ r s' groups polls,
    Returns (w.run (traced inst) (s, []) saddr0 buf0)
      (r, s', List.flatten groups ++ List.flatten polls) ∧
    groups.length ≤ w.count ∧
    (∀ k xs, groups[k]? = some xs → xs.length ≤ 128 ∧ ∀ x ∈ xs, AtChunk w k x) ∧
    polls.length ≤ 128 ∧ ∀ xs ∈ polls, IsPoll xs

def turn (w : WriteCall) (inst : I2cInst σ) (st : WriteState σ) : Unit → Option (WriteState σ)
  | () =>
    if st.offset < w.data.length then
      match writeChunk w.type.part inst w.saddr w.addr w.data w.data.length st with
      | (.ok, st') => some st'
      | _ => none
    else none

def turns (w : WriteCall) (inst : I2cInst σ) (s : σ) (saddr0 : UInt8) (buf0 : Mem UInt8) :
    Lts (WriteState σ) Unit :=
  Lts.ofFun (fun st => st = ⟨s, 0, saddr0, buf0⟩) (turn w inst)

/-- In no turn of the loop is `offset` advanced past its 16 bits. -/
def NeverWraps (w : WriteCall) (inst : I2cInst σ) (s : σ) (saddr0 : UInt8) (buf0 : Mem UInt8) :
    Prop :=
  ∀ st, (turns w inst s saddr0 buf0).Reachable st → st.offset < w.data.length →
    st.offset + chuckSize w.type.part w.addr w.data.length st.offset < 2 ^ 16

/-- Both functions return `PR_ERR_INVAL` for this range, on every bus and with every local content,
and make no call of the SDK. -/
def Rejects (type : PrI2cEepromType) (addr size : Nat) : Prop :=
  ∀ (σ : Type) (inst : I2cInst σ) (s : σ) (saddr : UInt8),
    prI2cEepromRead type (traced inst) (s, []) saddr addr size = (.inval, [], s, []) ∧
    ∀ (data : List UInt8) (saddr0 : UInt8) (buf0 : Mem UInt8), data.length = size →
      Returns (prI2cEepromWrite type (traced inst) (s, []) saddr addr data size saddr0 buf0)
        (.inval, s, [])

/-- What is out of the range of the chip is rejected. Any other write ends and keeps `offset` in
its bits. -/
structure RangeExact (type : PrI2cEepromType) (addr : UInt16) (size : UInt32) : Prop where
  out : type.part.size < addr.toNat + size.toNat → Rejects type addr.toNat size.toNat
  within : addr.toNat + size.toNat ≤ type.part.size →
    ∀ (σ : Type) (inst : I2cInst σ) (s : σ) (saddr : UInt8) (data : List UInt8) (saddr0 : UInt8)
      (buf0 : Mem UInt8), data.length = size.toNat →
      EndsWithin ⟨type, saddr, addr.toNat, data⟩ inst s saddr0 buf0 ∧
        NeverWraps ⟨type, saddr, addr.toNat, data⟩ inst s saddr0 buf0

namespace EepromRangeLemmas

/-! ## 1. Writes in the range of the chip -/

variable {w : WriteCall} {inst : I2cInst σ} {s s' : σ}

/-- The data of a chunk, as long as `offset` does not wrap. -/
theorem payload_eq (hrange : w.addr + w.data.length ≤ w.type.part.size) {k : Nat}
    (hk : k < w.count) :
    w.payload k = (transaction w.type.part w.addr w.data k).2 := by
  rw [WriteCall.payload, chuckSize_eq, w.offset_of_lt hrange hk, transaction,
    List.take_eq_take_iff, List.length_drop, Nat.min_assoc, Nat.min_self]

/-- The calls for the chunks that are acknowledged, and for one more. -/
theorem atChunk_of_tries (hrange : w.addr + w.data.length ≤ w.type.part.size) {k : Nat}
    (hk : k < w.count) {err : PrError} {s'' : σ} {xs : List Xfer}
    (h : ChunkTries w inst k s' err s'' xs) : xs.length ≤ 128 ∧ ∀ x ∈ xs, AtChunk w k x := by
  refine ⟨h.tries.length_le, fun x hx => ?_⟩
  obtain ⟨ret, rfl⟩ := h.tries.call hx
  rw [AtChunk, ← payload_eq hrange hk, WriteCall.slave, WriteCall.header,
    w.offset_of_lt hrange hk]
  exact ⟨ret, rfl⟩

/-- One more group behind those of the chunks that are acknowledged. -/
theorem groups_concat {n : Nat} {groups : List (List Xfer)} {xs : List Xfer}
    (hlen : groups.length = n)
    (h : ∀ k xs, groups[k]? = some xs → xs.length ≤ 128 ∧ ∀ x ∈ xs, AtChunk w k x)
    (hn : xs.length ≤ 128 ∧ ∀ x ∈ xs, AtChunk w n x) :
    (groups ++ [xs]).length = n + 1 ∧
      ∀ k ys, (groups ++ [xs])[k]? = some ys → ys.length ≤ 128 ∧ ∀ y ∈ ys, AtChunk w k y := by
  refine ⟨by rw [List.length_append, hlen, List.length_singleton], fun k ys hys => ?_⟩
  rcases Nat.lt_or_ge k groups.length with hlt | hge
  · rw [List.getElem?_append_left hlt] at hys
    exact h k ys hys
  · rw [List.getElem?_append_right hge, List.getElem?_singleton] at hys
    split at hys
    · next hk =>
      obtain rfl : k = n := Nat.le_antisymm (hlen ▸ Nat.sub_eq_zero_iff_le.mp hk) (hlen ▸ hge)
      cases hys
      exact hn
    · cases hys

theorem acked_groups (hrange : w.addr + w.data.length ≤ w.type.part.size) {n : Nat}
    {groups : List (List Xfer)} (h : Acked w inst s n s' groups) :
    groups.length = n ∧
      ∀ k xs, groups[k]? = some xs → xs.length ≤ 128 ∧ ∀ x ∈ xs, AtChunk w k x := by
  induction h with
  | zero => exact ⟨rfl, fun k xs hxs => by cases hxs⟩
  | succ hacked hchunk ih =>
    have hk := (hacked.succ hchunk).le_count hrange
    exact groups_concat ih.1 ih.2 (atChunk_of_tries hrange hk hchunk)

theorem isPoll_exchanged (inst : I2cInst σ) (saddr : UInt8) (wdata : List UInt8) (s : σ) :
    IsPoll (exchanged inst saddr wdata 1 s) := by
  rw [exchanged]
  simp only
  split
  · exact .writeRead
  · exact .write

theorem endsWithin (hrange : w.addr + w.data.length ≤ w.type.part.size) (inst : I2cInst σ) (s : σ)
    (saddr0 : UInt8) (buf0 : Mem UInt8) : EndsWithin w inst s saddr0 buf0 := by
  obtain ⟨r, s', log, hends, hret⟩ := eepromWrite_returns hrange inst s saddr0 buf0
  cases hends with
  | refused href =>
    cases href with
    | last hacked hchunk _ =>
      obtain ⟨hlen, hgroups⟩ := acked_groups hrange hacked
      have hk := w.lt_count_of_offset hrange hchunk.lt
      obtain ⟨hlen', hgroups'⟩ :=
        groups_concat hlen hgroups (atChunk_of_tries hrange hk hchunk)
      refine ⟨r, s', _, [], ?_, hlen' ▸ hk, hgroups', Nat.zero_le _, nofun⟩
      rwa [List.flatten_nil, List.append_nil]
  | polled hacked _ _ hpolls =>
    obtain ⟨hlen, hgroups⟩ := acked_groups hrange hacked
    refine ⟨_, _, _, _, hret, hlen ▸ hacked.le_count hrange, hgroups, hpolls.length_le,
      fun xs hxs => ?_⟩
    obtain ⟨i, -, rfl⟩ := hpolls.mem hxs
    exact isPoll_exchanged _ _ _ _

theorem neverWraps (hrange : w.addr + w.data.length ≤ w.type.part.size) (inst : I2cInst σ) (s : σ)
    (saddr0 : UInt8) (buf0 : Mem UInt8) : NeverWraps w inst s saddr0 buf0 := by
  intro st _ hlt
  have hsize := partSize_le w.type
  rw [chuckSize_eq]
  omega

/-! ## 2. The check -/

theorem rejects {type : PrI2cEepromType} {addr size : Nat}
    (hout : outOfRange type.part addr size = true) : Rejects type addr size := by
  intro σ inst s saddr
  refine ⟨?_, fun data saddr0 buf0 hlen => ⟨0, ?_⟩⟩
  · rw [prI2cEepromRead_eq, eepromRead, if_pos hout]
  · subst hlen
    exact eepromWrite_rejected (w := ⟨type, saddr, addr, data⟩) hout

def silentBus : I2cInst Unit where
  errorGeneric := -1
  errorTimeout := -2
  writeBlocking s _ _ _ := (-1, s)
  readBlocking s _ _ _ := (-1, [], s)

/-- A read that passes the check calls the SDK. -/
theorem not_rejects {type : PrI2cEepromType} {addr size : Nat}
    (hin : outOfRange type.part addr size = false) : ¬ Rejects type addr size := by
  intro h
  have hread := (h Unit silentBus () 0).1
  have hlog := prI2cEepromRead_log hin silentBus () 0
  rw [hread] at hlog
  obtain ⟨ret, rest, hcalls⟩ := exchanged_cons silentBus (type.part.slave 0 addr)
    (type.part.header addr) size ()
  rw [hcalls] at hlog
  cases hlog

end EepromRangeLemmas

open EepromRangeLemmas

/-- The range check is exact iff the address alone is out of range or the sum has 32 bits. A sum
that wraps around passes for the small one that is left of it. -/
theorem range_exact_iff (type : PrI2cEepromType) (addr : UInt16) (size : UInt32) :
    RangeExact type addr size ↔
      type.part.size < addr.toNat ∨ addr.toNat + size.toNat < 2 ^ 32 := by
  constructor
  · intro h
    by_contra hwraps
    obtain ⟨haddr, hsum⟩ := not_or.mp hwraps
    have hin := accepted_of_overflow (Nat.le_of_not_lt haddr) size.toNat_lt
      (Nat.le_of_not_lt hsum)
    have hsize := partSize_le type
    have hout : type.part.size < addr.toNat + size.toNat :=
      Nat.lt_of_le_of_lt hsize (Nat.lt_of_lt_of_le (by decide) (Nat.le_of_not_lt hsum))
    exact not_rejects hin (h.out hout)
  · intro hexact
    refine ⟨fun hout => rejects ?_, fun hwithin σ inst s saddr data saddr0 buf0 hlen => ?_⟩
    · rcases hexact with haddr | hsum
      · rw [outOfRange, decide_eq_true haddr, Bool.true_or]
      · refine Bool.eq_true_of_not_eq_false fun hin => ?_
        exact Nat.not_lt_of_le ((range_accepted_iff type hsum).mp hin) hout
    · rw [← hlen] at hwithin
      exact ⟨endsWithin hwithin inst s saddr0 buf0, neverWraps hwithin inst s saddr0 buf0⟩

namespace EepromRangeLemmas

def openBus : I2cInst Unit where
  errorGeneric := -1
  errorTimeout := -2
  writeBlocking s _ bytes _ := (toInt bytes.length, s)
  readBlocking s _ n _ := (toInt n, List.replicate n 0xff, s)

end EepromRangeLemmas

open EepromRangeLemmas in
/-- A read of 2 ^ 32 - 1 bytes from address 1 on passes the check, the sum being 0, and gets to the
bus. -/
theorem sum_wraps :
    (prI2cEepromRead .eeprom24lc08 (traced openBus) ((), []) 0x50 1 0xffffffff).2.2.2 =
      [.write 0x50 [1] true 1, .read 0x50 0xffffffff false (-1)] ∧
    ¬ RangeExact .eeprom24lc08 1 0xffffffff := by
  refine ⟨by decide +kernel, fun h => ?_⟩
  exact not_rejects (by decide +kernel) (h.out (by decide +kernel))

end Picore.I2c
