import Mathlib.Data.Nat.Prime.Basic
import Picore.I2c.EepromTrace
import Picore.Lib.Ring

/-!
# Where EEPROM traffic goes

Every transaction of the drivers starts with a slave address and the bytes of a memory address.
The attempts at a chunk form both from its offset. The polls at the end of a write take what the
last chunk has left in the local variables, and the 24AA64 driver reads the answer of a poll into
the bytes of the address.

Results:
1. `acked_targeted`, `polls_targeted`: the transactions of a write in the range of the chip.
2. `exists_chunk_at_zero`: the offset wraps, and a chunk goes to the first byte of the chip.
3. `on_target_iff`: the transactions stay in the range iff it is not empty and the sum does not
   wrap. `empty_write_off_target`: a write of no byte.
-/

namespace Picore.I2c

open Memory Fuel Retry

variable {σ : Type}

/-- The slave address and the first bytes are those for a memory address of the chip in
`[addr, addr + size)`. -/
def Addresses (type : PrI2cEepromType) (saddr : UInt8) (addr size : Nat) (slave : UInt8)
    (bytes : List UInt8) : Prop :=
  ∃ a, addr ≤ a ∧ a < addr + size ∧ a < type.part.size ∧ slave = type.part.slave saddr a ∧
    bytes.take type.part.addrSize = type.part.header a

/-- All transactions go to such addresses. A read goes on from the write before it, to the same
slave. -/
inductive Targeted (type : PrI2cEepromType) (saddr : UInt8) (addr size : Nat) : List Xfer → Prop
  | nil : Targeted type saddr addr size []
  | write {slave : UInt8} {bytes : List UInt8} {nostop : Bool} {err : Int} {log : List Xfer} :
      Addresses type saddr addr size slave bytes → Targeted type saddr addr size log →
      Targeted type saddr addr size (.write slave bytes nostop err :: log)
  | writeRead {slave : UInt8} {bytes : List UInt8} {n : Nat} {err err' : Int} {log : List Xfer} :
      Addresses type saddr addr size slave bytes → Targeted type saddr addr size log →
      Targeted type saddr addr size
        (.write slave bytes true err :: .read slave n false err' :: log)

/-- A read of one byte that does not return one leaves none. -/
def LeavesNothing (inst : I2cInst σ) : Prop :=
  ∀ s saddr nostop, (inst.readBlocking s saddr 1 nostop).1 ≠ 1 →
    (inst.readBlocking s saddr 1 nostop).2.1 = []

/-- The transactions of reads and writes stay in the range, on every bus and whatever the local
variables hold at first. -/
def OnTarget (type : PrI2cEepromType) (addr : UInt16) (size : UInt32) : Prop :=
  ∀ (σ : Type) (inst : I2cInst σ), (type = .eeprom24aa64 → LeavesNothing inst) →
    ∀ (s : σ) (saddr : UInt8),
      Targeted type saddr addr.toNat size.toNat
        (prI2cEepromRead type (traced inst) (s, []) saddr addr.toNat size.toNat).2.2.2 ∧
      ∀ (data : List UInt8) (saddr0 : UInt8) (buf0 : Mem UInt8) (r : PrError) (s' : σ)
        (log : List Xfer), data.length = size.toNat →
        Returns (prI2cEepromWrite type (traced inst) (s, []) saddr addr.toNat data size.toNat
          saddr0 buf0) (r, s', log) →
        Targeted type saddr addr.toNat size.toNat log

theorem Targeted.append {type : PrI2cEepromType} {saddr : UInt8} {addr size : Nat}
    {log log' : List Xfer} (h : Targeted type saddr addr size log)
    (h' : Targeted type saddr addr size log') : Targeted type saddr addr size (log ++ log') := by
  induction h with
  | nil => exact h'
  | write haddr _ ih => exact .write haddr ih
  | writeRead haddr _ ih => exact .writeRead haddr ih

theorem Targeted.of_mem {type : PrI2cEepromType} {saddr : UInt8} {addr size : Nat}
    {log : List Xfer} (h : Targeted type saddr addr size log) {slave : UInt8} {bytes : List UInt8}
    {nostop : Bool} {err : Int} (hx : .write slave bytes nostop err ∈ log) :
    Addresses type saddr addr size slave bytes := by
  induction h with
  | nil => cases hx
  | write haddr _ ih =>
    rcases List.mem_cons.mp hx with heq | hx
    · cases heq
      exact haddr
    · exact ih hx
  | writeRead haddr _ ih =>
    rcases List.mem_cons.mp hx with heq | hx
    · cases heq
      exact haddr
    · rcases List.mem_cons.mp hx with heq | hx
      · cases heq
      · exact ih hx

namespace EepromTargetLemmas

/-! ## 1. Writes in the range of the chip -/

section
variable {type : PrI2cEepromType} {saddr : UInt8} {addr size : Nat}

theorem targeted_flatten {logs : List (List Xfer)}
    (h : ∀ log ∈ logs, Targeted type saddr addr size log) :
    Targeted type saddr addr size logs.flatten := by
  induction logs with
  | nil => exact .nil
  | cons log logs ih =>
    rw [List.flatten_cons]
    exact Targeted.append (h log List.mem_cons_self) (ih fun l hl => h l (.tail _ hl))

theorem targeted_exchanged {slave : UInt8} {bytes : List UInt8}
    (h : Addresses type saddr addr size slave bytes) (inst : I2cInst σ) (rsize : Nat) (s : σ) :
    Targeted type saddr addr size (exchanged inst slave bytes rsize s) := by
  rw [exchanged]
  simp only
  split
  · exact .writeRead h .nil
  · exact .write h .nil

theorem targeted_tries {inst : I2cInst σ} {slave : UInt8} {bytes : List UInt8} {s s' : σ}
    {err : PrError} {xs : List Xfer} (haddr : Addresses type saddr addr size slave bytes)
    (h : Tries inst slave bytes s err s' xs) : Targeted type saddr addr size xs := by
  have hall : ∀ x ∈ xs, ∃ ret, x = .write slave bytes false ret := fun x hx => h.call hx
  clear h
  induction xs with
  | nil => exact .nil
  | cons x xs ih =>
    obtain ⟨ret, rfl⟩ := hall x List.mem_cons_self
    exact .write haddr (ih fun x hx => hall x (.tail _ hx))

end

section
variable {w : WriteCall} {inst : I2cInst σ} {s s' : σ} {err : PrError}

theorem addresses_chunk (hrange : w.addr + w.data.length ≤ w.type.part.size) {k : Nat}
    (hk : w.offset k < w.data.length) (payload : List UInt8) :
    Addresses w.type w.saddr w.addr w.data.length (w.slave k) (w.header k ++ payload) := by
  have hlt := Nat.add_lt_add_left hk w.addr
  refine ⟨w.addr + w.offset k, Nat.le_add_right _ _, hlt, Nat.lt_of_lt_of_le hlt hrange, rfl, ?_⟩
  rw [← w.length_header k, List.take_left]
  rfl

theorem acked_targeted (hrange : w.addr + w.data.length ≤ w.type.part.size) {n : Nat}
    {groups : List (List Xfer)} (h : Acked w inst s n s' groups) :
    ∀ xs ∈ groups, Targeted w.type w.saddr w.addr w.data.length xs := by
  induction h with
  | zero => exact nofun
  | succ _ hchunk ih =>
    intro xs hxs
    rcases List.mem_append.mp hxs with hxs | hxs
    · exact ih xs hxs
    · obtain rfl := List.mem_singleton.mp hxs
      exact targeted_tries (addresses_chunk hrange hchunk.lt _) hchunk.tries

theorem refused_targeted (hrange : w.addr + w.data.length ≤ w.type.part.size) {k : Nat}
    {groups : List (List Xfer)} (h : Refused w inst s k err s' groups) :
    ∀ xs ∈ groups, Targeted w.type w.saddr w.addr w.data.length xs := by
  cases h with
  | last hacked hchunk _ =>
    intro xs hxs
    rcases List.mem_append.mp hxs with hxs | hxs
    · exact acked_targeted hrange hacked xs hxs
    · obtain rfl := List.mem_singleton.mp hxs
      exact targeted_tries (addresses_chunk hrange hchunk.lt _) hchunk.tries

theorem rdata_of_failed (hinst : LeavesNothing inst) {saddr : UInt8} {wdata : List UInt8}
    (h : (prI2cBusWriteRead inst s saddr wdata 1).1 ≠ .ok) :
    (prI2cBusWriteRead inst s saddr wdata 1).2.1 = [] := by
  revert h
  simp only [prI2cBusWriteRead]
  cases picoToPrErr inst (inst.writeBlocking s saddr wdata true).1 (toInt wdata.length)
  case ok =>
    intro h
    refine hinst _ _ _ fun h1 => h ?_
    show picoToPrErr inst _ _ = _
    rw [h1]
    exact picoToPrErr_self inst 1
  all_goals exact fun _ => rfl

/-- A poll that fails leaves the address where it is. -/
theorem pollOnce_keeps {type : PrI2cEepromType} (hinst : type = .eeprom24aa64 → LeavesNothing inst)
    {st : WriteState σ} (h : (pollOnce type.part inst st).1 ≠ .ok) :
    (pollOnce type.part inst st).2.saddr = st.saddr ∧
      load (pollOnce type.part inst st).2.buf 0 type.part.addrSize =
        load st.buf 0 type.part.addrSize := by
  have hbuf : (pollOnce type.part inst st).2.buf = store st.buf 1
    (prI2cBusWriteRead inst st.bus st.saddr (load st.buf 0 type.part.addrSize) 1).2.1 := rfl
  refine ⟨rfl, ?_⟩
  cases type with
  | eeprom24lc08 => exact load_store_disjoint (.inl (Nat.le_refl 1))
  | eeprom24aa64 =>
    have hnil := rdata_of_failed (hinst rfl) h
    rw [hbuf, hnil, store_nil]

theorem polls_targeted (hrange : w.addr + w.data.length ≤ w.type.part.size)
    (hinst : w.type = .eeprom24aa64 → LeavesNothing inst) {st st' : WriteState σ} {k : Nat}
    (hk : w.offset k < w.data.length) (hsaddr : st.saddr = w.slave k)
    (hheader : load st.buf 0 w.type.part.addrSize = w.header k) {polls : List (List Xfer)}
    (h : Polls w.type.part inst st err st' polls) :
    ∀ xs ∈ polls, Targeted w.type w.saddr w.addr w.data.length xs := by
  intro xs hxs
  obtain ⟨i, hfailed, rfl⟩ := h.mem hxs
  let I := fun st : WriteState σ =>
    st.saddr = w.slave k ∧ load st.buf 0 w.type.part.addrSize = w.header k
  have hkept : ∀ st, I st → ¬ (pollOnce w.type.part inst st).1 = .ok →
      I (pollOnce w.type.part inst st).2 := by
    rintro st ⟨h1, h2⟩ hne
    obtain ⟨h3, h4⟩ := pollOnce_keeps hinst hne
    exact ⟨h3.trans h1, h4.trans h2⟩
  obtain ⟨h1, h2⟩ := after_failed (I := I) (· = PrError.ok) hkept ⟨hsaddr, hheader⟩ hfailed
  have haddr := addresses_chunk hrange hk []
  rw [List.append_nil] at haddr
  rw [polled, h1, h2]
  exact targeted_exchanged haddr inst 1 _

end

/-! ## 2. Sizes whose sum wraps -/

/-- The address that a transaction carries is one of the chip. -/
theorem target_mod (type : PrI2cEepromType) (saddr : UInt8) (a : Nat) :
    type.part.slave saddr (a % type.part.size) = type.part.slave saddr a ∧
      type.part.header (a % type.part.size) = type.part.header a := by
  have hlow : ∀ a, a &&& 0xff = a % 256 := fun a => Nat.and_two_pow_sub_one_eq_mod a 8
  have hhigh : ∀ a, a >>> 8 = a / 256 := fun a => Nat.shiftRight_eq_div_pow a 8
  cases type with
  | eeprom24lc08 =>
    have hblock : ∀ a, a &&& 3 = a % 4 := fun a => Nat.and_two_pow_sub_one_eq_mod a 2
    have h1 : a % 1024 / 256 % 4 = a / 256 % 4 := by omega
    have h2 : a % 1024 % 256 = a % 256 := by omega
    simp only [PrI2cEepromType.part, part24lc08, hlow, hhigh, hblock, h1, h2, Nat.reduceMul,
      and_self]
  | eeprom24aa64 =>
    have hpage : ∀ a, a &&& 0x1f = a % 32 := fun a => Nat.and_two_pow_sub_one_eq_mod a 5
    have h1 : a % 8192 / 256 % 32 = a / 256 % 32 := by omega
    have h2 : a % 8192 % 256 = a % 256 := by omega
    simp only [PrI2cEepromType.part, part24aa64, hlow, hhigh, hpage, h1, h2, Nat.reduceShiftLeft,
      and_self]

/-- At the slave address 0x50 it tells the addresses of the chip apart. -/
theorem target_inj {type : PrI2cEepromType} {a b : Nat} (ha : a < type.part.size)
    (hb : b < type.part.size) (hslave : type.part.slave 0x50 a = type.part.slave 0x50 b)
    (hheader : type.part.header a = type.part.header b) : a = b := by
  let d : Device := ⟨type, 0x50, fun _ => rfl⟩
  have hda : d.decode (type.part.slave 0x50 a) (type.part.header a) = a := (addressed (d := d) ha).2
  have hdb : d.decode (type.part.slave 0x50 b) (type.part.header b) = b := (addressed (d := d) hb).2
  rw [← hda, hslave, hheader, hdb]

theorem dvd_two_pow_of_le {g m n : Nat} (h : g ∣ 2 ^ n) (hle : g ≤ 2 ^ m) : g ∣ 2 ^ m := by
  obtain ⟨i, -, rfl⟩ := (Nat.dvd_prime_pow Nat.prime_two).mp h
  exact Nat.pow_dvd_pow 2 ((Nat.pow_le_pow_iff_right (by decide)).mp hle)

theorem stride_le (type : PrI2cEepromType) (addr : Nat) :
    stride type.part addr ≤ type.part.pageSize := by
  rw [stride]
  split
  · exact Nat.sub_le _ _
  · cases type <;> decide

/-- What the stride and the size of the chip have in common divides the page, and so the
address. -/
theorem gcd_stride_dvd (type : PrI2cEepromType) (addr : Nat) :
    Nat.gcd (stride type.part addr) type.part.size ∣ addr := by
  have hpos : 0 < stride type.part addr := stride_pos ⟨type, 0x50, fun _ => rfl⟩ addr
  have hle := Nat.le_trans (Nat.le_of_dvd hpos (Nat.gcd_dvd_left _ type.part.size))
    (stride_le type addr)
  have hpage : Nat.gcd (stride type.part addr) type.part.size ∣ type.part.pageSize := by
    have hsize := Nat.gcd_dvd_right (stride type.part addr) type.part.size
    cases type with
    | eeprom24lc08 => exact dvd_two_pow_of_le (m := 4) (n := 10) hsize hle
    | eeprom24aa64 => exact dvd_two_pow_of_le (m := 5) (n := 13) hsize hle
  by_cases hr : addr % type.part.pageSize = 0
  · exact hpage.trans (Nat.dvd_of_mod_eq_zero hr)
  · have hfills : stride type.part addr = type.part.pageSize - addr % type.part.pageSize :=
      stride_fills (d := ⟨type, 0x50, fun _ => rfl⟩) hr
    have hrest := (Nat.gcd_dvd_left (stride type.part addr) type.part.size).trans
      (dvd_of_eq hfills)
    have hlt : addr % type.part.pageSize < type.part.pageSize :=
      Nat.mod_lt _ (pageSize_pos ⟨type, 0x50, fun _ => rfl⟩)
    have hmod := Nat.dvd_sub hpage hrest
    rw [Nat.sub_sub_self (Nat.le_of_lt hlt)] at hmod
    exact (Nat.dvd_mod_iff hpage).mp hmod

theorem stride_le_32 (type : PrI2cEepromType) (addr : Nat) : stride type.part addr ≤ 32 := by
  refine Nat.le_trans (stride_le type addr) ?_
  cases type <;> decide

section
variable {w : WriteCall}

theorem offset_of_long (hlong : 2 ^ 16 + 32 ≤ w.data.length) (k : Nat) :
    w.offset k = k * stride w.type.part w.addr % 2 ^ 16 := by
  have hstride := stride_le_32 w.type w.addr
  induction k with
  | zero => rw [Nat.zero_mul, Nat.zero_mod, WriteCall.offset]
  | succ k ih =>
    have hlt : w.offset k < 2 ^ 16 := ih ▸ Nat.mod_lt _ (Nat.two_pow_pos 16)
    have hfull : chuckSize w.type.part w.addr w.data.length (w.offset k) =
        stride w.type.part w.addr := by
      rw [chuckSize_eq]
      omega
    rw [WriteCall.offset, hfull, ih, Nat.mod_add_mod, Nat.succ_mul]

/-- One of the chunks goes to the first byte of the chip. -/
theorem exists_chunk_at_zero (hlong : 2 ^ 16 + 32 ≤ w.data.length) :
    ∃ k, (w.addr + w.offset k) % w.type.part.size = 0 := by
  have hsize : w.type.part.size ∣ 2 ^ 16 := by
    cases w.type <;> decide
  have hpos : 0 < w.type.part.size := Nat.pos_of_dvd_of_pos hsize (Nat.two_pow_pos 16)
  obtain ⟨k, hk⟩ := Ring.exists_steps_zero hpos (gcd_stride_dvd w.type w.addr)
  refine ⟨k, ?_⟩
  rw [offset_of_long hlong, Nat.add_mod, Nat.mod_mod_of_dvd _ hsize, ← Nat.add_mod, hk]

end

/-- A bus on which all writes succeed but those to the first byte of a chip at the slave address
0x50. -/
def guardedBus (type : PrI2cEepromType) : I2cInst Unit where
  errorGeneric := -1
  errorTimeout := -2
  writeBlocking s saddr bytes _ :=
    (if saddr = type.part.slave 0x50 0 ∧ bytes.take type.part.addrSize = type.part.header 0
      then -1 else toInt bytes.length, s)
  readBlocking s _ _ _ := (-1, [], s)

/-- The attempts on a bus without a state all come to the same. -/
theorem tries_unit (inst : I2cInst Unit) (saddr : UInt8) (bytes : List UInt8) :
    ∃ xs, Tries inst saddr bytes () (prI2cBusWrite inst () saddr bytes).1 () xs := by
  obtain ⟨err, s', xs, htries, -⟩ := retry_tries inst saddr bytes ((), [])
  obtain ⟨n, -, herr, -⟩ := htries.split
  obtain rfl : err = (prI2cBusWrite inst () saddr bytes).1 := herr
  exact ⟨xs, htries⟩

section
variable {w : WriteCall}

/-- The bus acknowledges a chunk that does not go to the first byte. -/
theorem guarded_ok (hsaddr : w.saddr = 0x50) {k : Nat}
    (hne : (w.addr + w.offset k) % w.type.part.size ≠ 0) :
    (prI2cBusWrite (guardedBus w.type) () (w.slave k) (w.header k ++ w.payload k)).1 = .ok := by
  have hsize : 0 < w.type.part.size := by cases w.type <;> decide
  obtain ⟨hslave, hheader⟩ := target_mod w.type w.saddr (w.addr + w.offset k)
  have hcond : ¬ (w.slave k = w.type.part.slave 0x50 0 ∧
      (w.header k ++ w.payload k).take w.type.part.addrSize = w.type.part.header 0) := by
    rw [← w.length_header k, List.take_left]
    rintro ⟨h1, h2⟩
    rw [WriteCall.slave, hsaddr] at h1
    rw [hsaddr] at hslave
    exact hne (target_inj (Nat.mod_lt _ hsize) hsize (hslave.trans h1) (hheader.trans h2))
  rw [prI2cBusWrite]
  simp only [guardedBus, if_neg hcond]
  exact picoToPrErr_self _ _

theorem guarded_refuses (hsaddr : w.saddr = 0x50) {k : Nat}
    (hzero : (w.addr + w.offset k) % w.type.part.size = 0) :
    (prI2cBusWrite (guardedBus w.type) () (w.slave k) (w.header k ++ w.payload k)).1 ≠ .ok := by
  obtain ⟨hslave, hheader⟩ := target_mod w.type w.saddr (w.addr + w.offset k)
  rw [hzero] at hslave hheader
  have hcond : w.slave k = w.type.part.slave 0x50 0 ∧
      (w.header k ++ w.payload k).take w.type.part.addrSize = w.type.part.header 0 := by
    rw [← w.length_header k, List.take_left]
    exact ⟨hslave.symm.trans (by rw [hsaddr]), hheader.symm⟩
  have hlen : (w.header k ++ w.payload k).length ≤ 34 := by
    have hstride := stride_le_32 w.type w.addr
    have hsize : w.type.part.addrSize ≤ 2 := by cases w.type <;> decide
    rw [List.length_append, w.length_header, w.length_payload, chuckSize_eq]
    omega
  rw [prI2cBusWrite]
  simp only [guardedBus, if_pos hcond]
  have hnever : ∀ n ≤ 34, (-1 : Int) ≠ toInt n := by decide
  exact picoToPrErr_ne_ok _ (hnever _ hlen)

theorem guarded_acked (hsaddr : w.saddr = 0x50) (hlong : 2 ^ 16 ≤ w.data.length) {n : Nat}
    (hne : ∀ k < n, (w.addr + w.offset k) % w.type.part.size ≠ 0) :
    ∃ groups, Acked w (guardedBus w.type) () n () groups := by
  induction n with
  | zero => exact ⟨[], .zero⟩
  | succ n ih =>
    obtain ⟨groups, hacked⟩ := ih fun k hk => hne k (Nat.lt_succ_of_lt hk)
    obtain ⟨xs, htries⟩ :=
      tries_unit (guardedBus w.type) (w.slave n) (w.header n ++ w.payload n)
    rw [guarded_ok hsaddr (hne n (Nat.lt_succ_self n))] at htries
    exact ⟨_, hacked.succ ⟨w.offset_lt_of_long hlong n, htries⟩⟩

/-- A write of such a size ends at the chunk for the first byte. -/
theorem guarded_refused (hsaddr : w.saddr = 0x50) (hlong : 2 ^ 16 + 32 ≤ w.data.length) :
    ∃ k err groups, (w.addr + w.offset k) % w.type.part.size = 0 ∧
      Refused w (guardedBus w.type) () k err () groups := by
  have hex := exists_chunk_at_zero hlong
  have hlong := Nat.le_trans (Nat.le_add_right _ 32) hlong
  obtain ⟨groups, hacked⟩ :=
    guarded_acked hsaddr hlong (n := Nat.find hex) fun k hk => Nat.find_min hex hk
  obtain ⟨xs, htries⟩ := tries_unit (guardedBus w.type) (w.slave (Nat.find hex))
    (w.header (Nat.find hex) ++ w.payload (Nat.find hex))
  exact ⟨Nat.find hex, _, _, Nat.find_spec hex, .last hacked
    ⟨w.offset_lt_of_long hlong _, htries⟩ (guarded_refuses hsaddr (Nat.find_spec hex))⟩

end

/-! ## 3. Reads and writes -/

theorem guardedBus_leaves (type : PrI2cEepromType) : LeavesNothing (guardedBus type) :=
  fun _ _ _ _ => rfl

/-- A read goes to its address, as long as it is not empty. -/
theorem read_targeted {type : PrI2cEepromType} {addr size : Nat} (hpos : 0 < size)
    (hrange : addr + size ≤ type.part.size) (inst : I2cInst σ) (s : σ) (saddr : UInt8) :
    Targeted type saddr addr size
      (prI2cEepromRead type (traced inst) (s, []) saddr addr size).2.2.2 := by
  rw [prI2cEepromRead_log (accepted_of_range hrange)]
  have hheader : (type.part.header addr).length = type.part.addrSize :=
    header_length ⟨type, 0x50, fun _ => rfl⟩ addr
  have hlt : addr < addr + size := Nat.lt_add_of_pos_right hpos
  exact targeted_exchanged ⟨addr, Nat.le_refl _, hlt, Nat.lt_of_lt_of_le hlt hrange, rfl,
    List.take_of_length_le (Nat.le_of_eq hheader)⟩ inst size s

/-- A read of no byte makes a transaction all the same. -/
theorem empty_read_off_target (type : PrI2cEepromType) {addr : Nat} (haddr : addr ≤ type.part.size)
    (inst : I2cInst σ) (s : σ) (saddr : UInt8) :
    ¬ Targeted type saddr addr 0
      (prI2cEepromRead type (traced inst) (s, []) saddr addr 0).2.2.2 := by
  rw [prI2cEepromRead_log (accepted_of_range haddr)]
  obtain ⟨ret, rest, hcalls⟩ := exchanged_cons inst (type.part.slave saddr addr)
    (type.part.header addr) 0 s
  intro htargeted
  rw [hcalls] at htargeted
  obtain ⟨a, hle, hlt, -⟩ := htargeted.of_mem List.mem_cons_self
  exact Nat.not_lt_of_le hle hlt

theorem write_targeted {w : WriteCall} (hpos : 0 < w.data.length)
    (hrange : w.addr + w.data.length ≤ w.type.part.size) {inst : I2cInst σ} {s s' : σ}
    (hinst : w.type = .eeprom24aa64 → LeavesNothing inst) {saddr0 : UInt8} {buf0 : Mem UInt8}
    {r : PrError} {log : List Xfer}
    (h : Returns (w.run (traced inst) (s, []) saddr0 buf0) (r, s', log)) :
    Targeted w.type w.saddr w.addr w.data.length log := by
  obtain ⟨r', s'', log', hends, hret⟩ := eepromWrite_returns hrange inst s saddr0 buf0
  have hsame := (prI2cEepromWrite_fueled _ _ _ _ _ _ _ _ _).returns_unique hret h
  obtain ⟨-, hbus⟩ := Prod.mk.inj hsame
  obtain ⟨-, rfl⟩ := Prod.mk.inj hbus
  cases hends with
  | refused href => exact targeted_flatten (refused_targeted hrange href)
  | @polled n _ _ _ _ _ hacked hend htarget hpolls =>
    cases n with
    | zero => exact absurd hpos (Nat.not_lt_of_le hend)
    | succ j =>
      obtain ⟨hsaddr, hheader⟩ := htarget j rfl
      have hpolls := polls_targeted hrange hinst (hacked.lt (Nat.lt_succ_self j)) hsaddr hheader
        hpolls
      exact Targeted.append (targeted_flatten (acked_targeted hrange hacked))
        (targeted_flatten hpolls)

/-- A write of a size whose sum wraps gets to the first byte of the chip. -/
theorem long_write_off_target {w : WriteCall} (hsaddr : w.saddr = 0x50)
    (hin : outOfRange w.type.part w.addr w.data.length = false)
    (hlong : 2 ^ 16 + 32 ≤ w.data.length) (haddr : 0 < w.addr) (saddr0 : UInt8)
    (buf0 : Mem UInt8) :
    ∃ r log, Returns (w.run (traced (guardedBus w.type)) ((), []) saddr0 buf0) (r, (), log) ∧
      ¬ Targeted w.type w.saddr w.addr w.data.length log := by
  obtain ⟨k, err, groups, hzero, href⟩ := guarded_refused hsaddr hlong
  refine ⟨err, _, href.returns hin saddr0 buf0, fun htargeted => ?_⟩
  cases href with
  | last hacked hchunk _ =>
    obtain ⟨x, hx, -⟩ := hchunk.tries.err_last
    have hmem := List.mem_of_getLast? hx
    obtain ⟨ret, rfl⟩ := hchunk.tries.call hmem
    rw [List.flatten_append, List.flatten_singleton] at htargeted
    obtain ⟨a, hle, -, ha, hslave, hheader⟩ := htargeted.of_mem (List.mem_append_right _ hmem)
    obtain ⟨hslave0, hheader0⟩ := target_mod w.type w.saddr (w.addr + w.offset k)
    rw [← w.length_header k, List.take_left] at hheader
    rw [hzero] at hslave0 hheader0
    have hslave := hslave0.trans hslave
    rw [hsaddr] at hslave
    have hzero : 0 = a :=
      target_inj (Nat.zero_lt_of_lt ha) ha hslave (hheader0.trans hheader)
    exact absurd (Nat.lt_of_lt_of_le haddr hle) (hzero ▸ Nat.lt_irrefl 0)

end EepromTargetLemmas

open EepromTargetLemmas

/-! ## 4. Main result -/

/-- All transactions stay in the range iff it is not empty and the sum does not wrap. For an empty
range no chunk sets the slave address and the buffer, and the final wait polls with what was in
these local variables. -/
theorem on_target_iff (type : PrI2cEepromType) (addr : UInt16) (size : UInt32)
    (hin : outOfRange type.part addr.toNat size.toNat = false) :
    OnTarget type addr size ↔ 0 < size.toNat ∧ addr.toNat + size.toNat < 2 ^ 32 := by
  constructor
  · intro h
    have hbus := h Unit (guardedBus type) (fun _ => guardedBus_leaves type) () 0x50
    refine ⟨Nat.pos_of_ne_zero fun hzero => ?_, Nat.lt_of_not_le fun hsum => ?_⟩
    · rw [hzero] at hbus
      exact empty_read_off_target type (addr_le_of_accepted hin) _ _ _ hbus.1
    · have haddr := Nat.le_trans (addr_le_of_accepted hin) (partSize_le type)
      have hsize := size.toNat_lt
      have hlen : (List.replicate size.toNat (0 : UInt8)).length = size.toNat :=
        List.length_replicate
      obtain ⟨r, log, hret, hoff⟩ := long_write_off_target
        (w := ⟨type, 0x50, addr.toNat, List.replicate size.toNat 0⟩) rfl (by rwa [hlen])
        (by rw [hlen]; omega) (by show 0 < addr.toNat; omega) 0 fun _ => 0
      rw [WriteCall.run, hlen] at hret
      rw [hlen] at hoff
      exact hoff (hbus.2 _ _ _ _ _ _ hlen hret)
  · rintro ⟨hpos, hsum⟩ σ inst hinst s saddr
    have hrange := (range_accepted_iff type hsum).mp hin
    refine ⟨read_targeted hpos hrange inst s saddr, fun data saddr0 buf0 r s' log hlen hret => ?_⟩
    rw [← hlen] at hpos hrange hret ⊢
    exact write_targeted (w := ⟨type, saddr, addr.toNat, data⟩) hpos hrange hinst hret

open EepromTargetLemmas in
theorem on_target_iff_oneByte :
    outOfRange part24lc08 0 1 = false ∧
    (OnTarget .eeprom24lc08 0 1 ↔
      0 < (1 : UInt32).toNat ∧ (0 : UInt16).toNat + (1 : UInt32).toNat < 2 ^ 32) :=
  ⟨by decide, on_target_iff .eeprom24lc08 0 1 (by decide)⟩

open EepromTargetLemmas in
/-- A write of no byte makes no chunk, and polls the slave that the local variable happens to name.
-/
theorem empty_write_off_target :
    outOfRange part24lc08 0 0 = false ∧
    Returns (prI2cEepromWrite .eeprom24lc08 (traced (guardedBus .eeprom24lc08)) ((), []) 0x50 0 [] 0
      0x20 fun _ => 0xff) (.ok, (), (List.replicate 128
        [.write 0x20 [0xff] true 1, .read 0x20 1 false (-1)]).flatten) ∧
    ¬ OnTarget .eeprom24lc08 0 0 := by
  have hrun : Returns (prI2cEepromWrite .eeprom24lc08 (traced (guardedBus .eeprom24lc08)) ((), [])
      0x50 0 [] 0 0x20 fun _ => 0xff) (.ok, (), (List.replicate 128
        [.write 0x20 [0xff] true 1, .read 0x20 1 false (-1)]).flatten) :=
    ⟨1, toOption_eq_some.mp (by decide +kernel)⟩
  refine ⟨by decide, hrun, fun h => ?_⟩
  have hbus := h Unit (guardedBus .eeprom24lc08) (fun _ => guardedBus_leaves _) () 0x50
  obtain ⟨a, hle, hlt, -⟩ := (hbus.2 _ _ _ _ _ _ rfl hrun).of_mem List.mem_cons_self
  exact Nat.not_lt_of_le hle hlt

end Picore.I2c
