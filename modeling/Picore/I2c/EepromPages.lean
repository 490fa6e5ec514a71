import Picore.I2c.Eeprom
import Mathlib.Logic.Function.Basic
import Mathlib.Data.Nat.ModEq
import Mathlib.Tactic.Ring

/-!
# EEPROM writes and pages

A chip takes the data bytes of one write transaction into a single page: past
the end of the page it goes on at its beginning. The driver cuts a write into
chunks so that no transaction runs past a page. It takes the size of every
chunk from the alignment of the address that the caller passed, not of the
address that the chunk starts at.

Results:
1. `pageStore_eq_store`: a transaction that stays in its page is a plain store.
2. `writeLoop_chip`: the transactions that a write issues.
3. `chunks_in_page_iff`: when all of them stay in their pages.
4. `eeprom_write_pages_iff`: when a write stays in its pages and reads back.
   `eeprom_write_crosses`: two writes that do not.
-/

namespace Picore.I2c

open Memory Fuel

/-! ## The chips -/

/-- A chip on the bus. A 24LC08 answers to four slave addresses, one for each
block of 256 bytes, so the two block bits of its base address are clear. -/
structure Device where
  type : PrI2cEepromType
  saddr : UInt8
  block_bits : type = .eeprom24lc08 → saddr &&& 3 = 0

def Device.part (d : Device) : Part := d.type.part

/-- The chip answers to the slave address `saddr`. A 24LC08 answers to four of them, whose low bits
are bits 8 and 9 of the address in the chip. -/
def Device.responds (d : Device) (saddr : UInt8) : Bool :=
  match d.type with
  | .eeprom24lc08 => saddr &&& 0xfc == d.saddr
  | .eeprom24aa64 => saddr == d.saddr

def Device.decode (d : Device) (saddr : UInt8) (header : List UInt8) : Nat :=
  match d.type with
  | .eeprom24lc08 => (saddr &&& 3).toNat * 256 + (header.getD 0 0).toNat
  | .eeprom24aa64 => (header.getD 0 0 &&& 0x1f).toNat * 256 + (header.getD 1 0).toNat

/-- The chip's memory, its address pointer, and the write transactions that it
has taken: the address of each and its data bytes. -/
structure Chip where
  mem : Mem UInt8
  cur : Nat
  writes : List (Nat × List UInt8)

/-- The memory after a write transaction at address `a`: byte `j` goes to
`page_start a + (a + j) mod page`. -/
def pageStore (page : Nat) (m : Mem UInt8) (a : Nat) (data : List UInt8) : Mem UInt8 :=
  data.zipIdx.foldl (fun m bj => Function.update m (a - a % page + (a + bj.2) % page) bj.1) m

def Chip.write (page : Nat) (c : Chip) (t : Nat × List UInt8) : Chip where
  mem := pageStore page c.mem t.1 t.2
  cur := t.1
  writes := c.writes ++ [t]

/-- A bus on which every transaction succeeds. A write of the address bytes
alone sets the address pointer, and a read goes on from it to the end of the
memory and from there to address zero. Transactions to other slave addresses do
not reach the chip. -/
def chipInst (d : Device) : I2cInst Chip where
  errorGeneric := -1
  errorTimeout := -2
  writeBlocking c saddr bytes _ :=
    let a := d.decode saddr (bytes.take d.part.addrSize)
    let data := bytes.drop d.part.addrSize
    (toInt bytes.length,
      if d.responds saddr then
        if data = [] then { c with cur := a } else c.write d.part.pageSize (a, data)
      else c)
  readBlocking c saddr n _ :=
    if d.responds saddr then
      (toInt n, (List.range n).map fun j => c.mem ((c.cur + j) % d.part.size),
        { c with cur := (c.cur + n) % d.part.size })
    else (toInt n, List.replicate n 0xff, c)

/-! ## 1. One transaction -/

theorem update_eq_store (m : Mem UInt8) (a : Nat) (b : UInt8) :
    Function.update m a b = store m a [b] := by
  funext i
  rcases Nat.lt_trichotomy i a with h | rfl | h
  · rw [store_apply_of_lt h, Function.update_of_ne (Nat.ne_of_lt h)]
  · rw [Function.update_self]
    exact (@store_apply_add _ m i 0 [b] Nat.zero_lt_one).symm
  · rw [store_apply_of_ge (by simpa using Nat.succ_le_of_lt h),
      Function.update_of_ne (Nat.ne_of_gt h)]

/-- A transaction that stays in its page is a plain store. -/
theorem pageStore_eq_store {page a : Nat} {data : List UInt8} (m : Mem UInt8)
    (h : a % page + data.length ≤ page) : pageStore page m a data = store m a data := by
  suffices hk : ∀ (data : List UInt8) (k : Nat) (m : Mem UInt8), a % page + k + data.length ≤ page →
      (data.zipIdx k).foldl
        (fun m bj => Function.update m (a - a % page + (a + bj.2) % page) bj.1) m =
        store m (a + k) data from hk data 0 m (by omega)
  intro data
  induction data with
  | nil => intro k m _; simp
  | cons b bs ih =>
    intro k m hfit
    rw [List.length_cons] at hfit
    have haddr : a - a % page + (a + k) % page = a + k := by
      have hle := Nat.mod_le a page
      rw [← Nat.mod_add_mod, Nat.mod_eq_of_lt (a := a % page + k) (by omega)]
      omega
    rw [List.zipIdx_cons, List.foldl_cons, ih (k + 1) _ (by omega), haddr, update_eq_store,
      ← Nat.add_assoc]
    exact (store_append m (a + k) [b] bs).symm

/-- The block bits of a slave address can be read back. -/
theorem block_bits_spec {base : UInt8} (hb : base &&& 3 = 0) {k : Nat} (hk : k < 4) :
    (base ||| UInt8.ofNat k) &&& 0xfc = base ∧ ((base ||| UInt8.ofNat k) &&& 3).toNat = k := by
  have hall : ∀ b < 256, UInt8.ofNat b &&& 3 = 0 → ∀ k < 4,
      (UInt8.ofNat b ||| UInt8.ofNat k) &&& 0xfc = UInt8.ofNat b ∧
      ((UInt8.ofNat b ||| UInt8.ofNat k) &&& 3).toNat = k := by
    decide +kernel
  have := hall base.toNat base.toNat_lt
  rw [UInt8.ofNat_toNat] at this
  exact this hb k hk

theorem header_length (d : Device) (a : Nat) : (d.part.header a).length = d.part.addrSize := by
  obtain ⟨type, saddr, hb⟩ := d
  cases type <;> rfl

/-- The chip takes a transaction that a driver forms for an address of the chip
to that address. -/
theorem addressed {d : Device} {a : Nat} (h : a < d.part.size) :
    d.responds (d.part.slave d.saddr a) = true ∧
    d.decode (d.part.slave d.saddr a) (d.part.header a) = a := by
  obtain ⟨type, saddr, hb⟩ := d
  have hlow : (UInt8.ofNat (a &&& 0xff)).toNat = a % 256 := by
    rw [Nat.and_two_pow_sub_one_eq_mod a 8]
    simp
  cases type with
  | eeprom24lc08 =>
    have ha : a < 1024 := h
    have hk : (a >>> 8) &&& 3 = a / 256 := by
      rw [Nat.and_two_pow_sub_one_eq_mod _ 2, Nat.shiftRight_eq_div_pow]
      omega
    obtain ⟨h1, h2⟩ := block_bits_spec (hb rfl) (k := a / 256) (by omega)
    simp only [Device.responds, Device.decode, Device.part, PrI2cEepromType.part, part24lc08, hk,
      h1, h2, List.getD_cons_zero, hlow, beq_self_eq_true, true_and]
    omega
  | eeprom24aa64 =>
    have ha : a < 8192 := h
    have hk : (UInt8.ofNat ((a >>> 8) &&& 0x1f) &&& 0x1f).toNat = a / 256 := by
      rw [UInt8.toNat_and, Nat.and_two_pow_sub_one_eq_mod _ 5, Nat.shiftRight_eq_div_pow]
      show (UInt8.ofNat _).toNat &&& (2 ^ 5 - 1) = _
      rw [Nat.and_two_pow_sub_one_eq_mod]
      simp only [UInt8.toNat_ofNat']
      omega
    simp only [Device.responds, Device.decode, Device.part, PrI2cEepromType.part, part24aa64,
      List.getD_cons_zero, List.getD_cons_succ, hk, hlow, beq_self_eq_true, true_and]
    omega

/-- A write transaction with data for an address of the chip. -/
theorem prI2cBusWrite_chip {d : Device} {a : Nat} (h : a < d.part.size) {data : List UInt8}
    (hd : data ≠ []) (c : Chip) :
    prI2cBusWrite (chipInst d) c (d.part.slave d.saddr a) (d.part.header a ++ data) =
      (.ok, c.write d.part.pageSize (a, data)) := by
  obtain ⟨hr, ha⟩ := addressed h
  have hlen := header_length d a
  simp [prI2cBusWrite, chipInst, hr, ha, hd, ← hlen]

/-- A write transaction without data only sets the address pointer. -/
theorem writeBlocking_header (d : Device) (c : Chip) (saddr : UInt8) {wdata : List UInt8}
    (hw : wdata.length = d.part.addrSize) (nostop : Bool) :
    (chipInst d).writeBlocking c saddr wdata nostop = (toInt wdata.length,
      if d.responds saddr then { c with cur := d.decode saddr wdata } else c) := by
  have hdrop : wdata.drop d.part.addrSize = [] := by simp [hw]
  have htake : wdata.take d.part.addrSize = wdata := by simp [← hw]
  simp only [chipInst, hdrop, htake, if_true]

/-- A read goes on from the address pointer and changes nothing else. -/
theorem readBlocking_chip (d : Device) (c : Chip) (saddr : UInt8) (n : Nat) (nostop : Bool) :
    ∃ rdata c', (chipInst d).readBlocking c saddr n nostop = (toInt n, rdata, c') ∧
      c'.mem = c.mem ∧ c'.writes = c.writes ∧ rdata.length = n ∧
      (d.responds saddr = true → c.cur + n ≤ d.part.size → rdata = load c.mem c.cur n) := by
  cases hr : d.responds saddr with
  | false =>
    exact ⟨_, c, by simp only [chipInst, hr]; rfl, rfl, rfl, List.length_replicate,
      fun h => nomatch h⟩
  | true =>
    refine ⟨_, { c with cur := (c.cur + n) % d.part.size }, by simp only [chipInst, hr]; rfl, rfl,
      rfl, by simp, fun _ hn => ?_⟩
    refine List.map_congr_left fun j hj => ?_
    rw [List.mem_range] at hj
    rw [Nat.mod_eq_of_lt (by omega)]

/-- Reading on from an address leaves the memory and the record of write
transactions as they are. -/
theorem prI2cBusWriteRead_chip (d : Device) (c : Chip) (saddr : UInt8) {wdata : List UInt8}
    (hw : wdata.length = d.part.addrSize) (n : Nat) :
    ∃ rdata c', prI2cBusWriteRead (chipInst d) c saddr wdata n = (.ok, rdata, c') ∧
      c'.mem = c.mem ∧ c'.writes = c.writes ∧ rdata.length = n := by
  have hwrite := writeBlocking_header d c saddr hw true
  obtain ⟨rdata, c', hread, hm, hl, hn, -⟩ := readBlocking_chip d
    (if d.responds saddr then { c with cur := d.decode saddr wdata } else c) saddr n false
  refine ⟨rdata, c', prI2cBusWriteRead_ok hwrite hread, ?_, ?_, hn⟩
  · rw [hm]
    split <;> rfl
  · rw [hl]
    split <;> rfl

/-- A read transaction for an address of the chip returns the bytes from there on. -/
theorem prI2cBusWriteRead_read {d : Device} {a n : Nat} (h : a < d.part.size)
    (hn : a + n ≤ d.part.size) (c : Chip) :
    ∃ c', prI2cBusWriteRead (chipInst d) c (d.part.slave d.saddr a) (d.part.header a) n =
      (.ok, load c.mem a n, c') := by
  obtain ⟨hr, ha⟩ := addressed h
  have hwrite := writeBlocking_header d c (d.part.slave d.saddr a) (header_length d a) true
  rw [hr, if_pos rfl, ha] at hwrite
  obtain ⟨rdata, c', hread, -, -, -, hdata⟩ :=
    readBlocking_chip d { c with cur := a } (d.part.slave d.saddr a) n false
  obtain rfl := hdata hr hn
  exact ⟨c', prI2cBusWriteRead_ok hwrite hread⟩

/-! ## 2. The transactions of a write -/

/-- The size of every chunk of a write but the last one. -/
def stride (p : Part) (addr : Nat) : Nat :=
  if addr % p.pageSize ≠ 0 then p.pageSize - addr % p.pageSize else 16

theorem chuckSize_eq (p : Part) (addr size offset : Nat) :
    chuckSize p addr size offset = min (stride p addr) (size - offset) := by
  simp only [chuckSize, stride]
  split <;> split <;> omega

/-- Chunk `i` of a write of `data` to `addr`. -/
def transaction (p : Part) (addr : Nat) (data : List UInt8) (i : Nat) : Nat × List UInt8 :=
  (addr + i * stride p addr, (data.drop (i * stride p addr)).take (stride p addr))

theorem length_transaction (p : Part) (addr : Nat) (data : List UInt8) (i : Nat) :
    (transaction p addr data i).2.length =
      min (stride p addr) (data.length - i * stride p addr) := by
  simp [transaction]

theorem pageSize_cases (d : Device) : d.part.pageSize = 16 ∨ d.part.pageSize = 32 := by
  obtain ⟨type, saddr, hb⟩ := d
  cases type with
  | eeprom24lc08 => exact .inl rfl
  | eeprom24aa64 => exact .inr rfl

theorem pageSize_pos (d : Device) : 0 < d.part.pageSize := by
  rcases pageSize_cases d with h | h <;> omega

theorem stride_pos (d : Device) (addr : Nat) : 0 < stride d.part addr := by
  have hlt := Nat.mod_lt addr (pageSize_pos d)
  unfold stride
  split <;> omega

/-- The range check is that of the sum, as long as the sum has 32 bits. -/
theorem range_accepted_iff (type : PrI2cEepromType) {addr size : Nat} (h : addr + size < 2 ^ 32) :
    outOfRange type.part addr size = false ↔ addr + size ≤ type.part.size := by
  rw [outOfRange, Nat.mod_eq_of_lt h, Bool.or_eq_false_iff, decide_eq_false_iff_not,
    decide_eq_false_iff_not, Nat.not_lt, Nat.not_lt]
  exact ⟨And.right, fun h => ⟨Nat.le_trans (Nat.le_add_right addr size) h, h⟩⟩

theorem partSize_le (type : PrI2cEepromType) : type.part.size ≤ 8192 := by
  cases type <;> decide

theorem sum_lt_of_range {type : PrI2cEepromType} {addr size : Nat}
    (h : addr + size ≤ type.part.size) : addr + size < 2 ^ 32 :=
  Nat.lt_of_le_of_lt (Nat.le_trans h (partSize_le type)) (by decide)

theorem accepted_of_range {type : PrI2cEepromType} {addr size : Nat}
    (h : addr + size ≤ type.part.size) : outOfRange type.part addr size = false :=
  (range_accepted_iff type (sum_lt_of_range h)).mpr h

theorem retry_ok {α : Type} {attempt : α → PrError × α} {s t : α} {n : Nat} (hn : n ≠ 0)
    (h : attempt s = (.ok, t)) : retry attempt n s = (.ok, t) := by
  cases n with
  | zero => exact absurd rfl hn
  | succ n => simp [retry, h]

/-- The slave address and the buffer of one turn of the loop. -/
def chunkSlave (p : Part) (saddr : UInt8) (addr : Nat) (st : WriteState σ) : UInt8 :=
  p.slave saddr (addr + st.offset)

def chunkBuf (p : Part) (addr : Nat) (data : List UInt8) (size : Nat) (st : WriteState σ) :
    Mem UInt8 :=
  store (store st.buf 0 (p.header (addr + st.offset))) p.addrSize
    ((data.drop st.offset).take (chuckSize p addr size st.offset))

/-- One turn of the loop, whatever the bus does, from what the attempts for the next chunk return.
-/
theorem writeChunk_eq (p : Part) (inst : I2cInst σ) (saddr : UInt8) (addr : Nat)
    (data : List UInt8) (size : Nat) (st : WriteState σ) {err : PrError} {bus : σ}
    (h : retry (fun s => prI2cBusWrite inst s (chunkSlave p saddr addr st)
      (load (chunkBuf p addr data size st) 0 (chuckSize p addr size st.offset + p.addrSize)))
      128 st.bus = (err, bus)) :
    writeChunk p inst saddr addr data size st = (err,
      { bus := bus
        offset := if err = .ok then (st.offset + chuckSize p addr size st.offset) % 2 ^ 16
          else st.offset
        saddr := chunkSlave p saddr addr st
        buf := chunkBuf p addr data size st }) := by
  unfold chunkSlave chunkBuf at h
  simp only [writeChunk, h]
  by_cases herr : err = .ok
  · rw [if_neg (not_not.mpr herr), if_pos herr, herr]
    rfl
  · rw [if_pos herr, if_neg herr]
    rfl

theorem length_payload (p : Part) (addr : Nat) (data : List UInt8) (offset : Nat) :
    ((data.drop offset).take (chuckSize p addr data.length offset)).length =
      chuckSize p addr data.length offset := by
  rw [List.length_take, List.length_drop, chuckSize_eq]
  exact Nat.min_eq_left (Nat.min_le_right _ _)

/-- The bytes on the bus are the address bytes and the data of the chunk. -/
theorem load_chunkBuf {p : Part} {addr : Nat} (data : List UInt8) {st : WriteState σ}
    (hheader : (p.header (addr + st.offset)).length = p.addrSize) :
    load (chunkBuf p addr data data.length st) 0
      (chuckSize p addr data.length st.offset + p.addrSize) =
      p.header (addr + st.offset) ++
        (data.drop st.offset).take (chuckSize p addr data.length st.offset) := by
  have hlen := length_payload p addr data st.offset
  have hjoin := store_append st.buf 0 (p.header (addr + st.offset))
    ((data.drop st.offset).take (chuckSize p addr data.length st.offset))
  rw [hheader, Nat.zero_add] at hjoin
  have hcount : chuckSize p addr data.length st.offset + p.addrSize =
      (p.header (addr + st.offset) ++
        (data.drop st.offset).take (chuckSize p addr data.length st.offset)).length := by
    rw [List.length_append, hheader, hlen, Nat.add_comm]
  rw [chunkBuf, ← hjoin, hcount, load_store_self]

theorem payload_eq_transaction (p : Part) (addr : Nat) (data : List UInt8) (i : Nat) :
    (data.drop (i * stride p addr)).take (chuckSize p addr data.length (i * stride p addr)) =
      (transaction p addr data i).2 := by
  rw [chuckSize_eq, transaction]
  refine List.take_eq_take_iff.mpr ?_
  rw [List.length_drop]
  exact Nat.min_eq_left (Nat.min_le_right _ _)

theorem writeChunk_chip {d : Device} {addr i : Nat} {data : List UInt8} {st : WriteState Chip}
    (hrange : addr + data.length ≤ d.part.size) (hi : i * stride d.part addr < data.length)
    (ho : st.offset = i * stride d.part addr) :
    writeChunk d.part (chipInst d) d.saddr addr data data.length st =
      (.ok, { bus := st.bus.write d.part.pageSize (transaction d.part addr data i)
              offset := min ((i + 1) * stride d.part addr) data.length
              saddr := chunkSlave d.part d.saddr addr st
              buf := chunkBuf d.part addr data data.length st }) := by
  have hpos := stride_pos d addr
  have hsize : d.part.size ≤ 8192 := partSize_le d.type
  have h128 : 128 ≠ 0 := by decide
  have hlen := length_transaction d.part addr data i
  have hne : (transaction d.part addr data i).2 ≠ [] := by
    intro he
    rw [he, List.length_nil] at hlen
    omega
  have haddr : addr + st.offset < d.part.size := by omega
  have hload := load_chunkBuf data (header_length d (addr + st.offset))
  have hpayload := payload_eq_transaction d.part addr data i
  rw [← ho] at hpayload
  have hwrite := prI2cBusWrite_chip haddr hne st.bus
  rw [← hpayload, ← hload] at hwrite
  have hoff : (st.offset + chuckSize d.part addr data.length st.offset) % 2 ^ 16 =
      min ((i + 1) * stride d.part addr) data.length := by
    have hmul : (i + 1) * stride d.part addr = i * stride d.part addr + stride d.part addr :=
      Nat.succ_mul _ _
    rw [chuckSize_eq, ho, hmul, Nat.mod_eq_of_lt (by omega)]
    omega
  rw [writeChunk_eq _ _ _ _ _ _ _ (retry_ok h128 hwrite), if_pos rfl, hoff, hpayload, ho]
  rfl

/-- The loop sends the chunks that are left, one after the other. -/
theorem writeLoop_chip {d : Device} {addr m : Nat} {data : List UInt8}
    (hrange : addr + data.length ≤ d.part.size) (hm : data.length ≤ m * stride d.part addr)
    (hlt : ∀ i, i < m → i * stride d.part addr < data.length) (k : Nat) :
    ∀ (i : Nat) (st : WriteState Chip), i + k = m →
      st.offset = min (i * stride d.part addr) data.length →
      ∃ st', writeLoop d.part (chipInst d) d.saddr addr data data.length (k + 1) st =
          .ok (.ok, st') ∧
        st'.bus = ((List.range' i k).map (transaction d.part addr data)).foldl
          (Chip.write d.part.pageSize) st.bus := by
  -- `k` chunks are left, of which the next is the one with number `i`.
  induction k with
  | zero =>
    intro i st hi ho
    obtain rfl : i = m := hi
    refine ⟨st, ?_, rfl⟩
    rw [writeLoop, if_neg (by omega)]
  | succ k ih =>
    intro i st hi ho
    have hlast := hlt i (by omega)
    have ho' : st.offset = i * stride d.part addr := by omega
    obtain ⟨st', hloop, hbus⟩ := ih (i + 1)
      { bus := st.bus.write d.part.pageSize (transaction d.part addr data i)
        offset := min ((i + 1) * stride d.part addr) data.length
        saddr := chunkSlave d.part d.saddr addr st
        buf := chunkBuf d.part addr data data.length st } (by omega) rfl
    refine ⟨st', ?_, ?_⟩
    · rw [writeLoop, if_pos (by omega), writeChunk_chip hrange hlast ho']
      simp only [ne_eq, not_true_eq_false, if_false]
      exact hloop
    · rw [hbus, List.range'_succ, List.map_cons, List.foldl_cons]

theorem writeLoop_fueled {σ : Type} (p : Part) (inst : I2cInst σ) (saddr : UInt8) (addr : Nat)
    (data : List UInt8) (size fuel : Nat) : ∀ st : WriteState σ,
      Approx (writeLoop p inst saddr addr data size fuel st)
        (writeLoop p inst saddr addr data size (fuel + 1) st) := by
  induction fuel with
  | zero => exact fun st => .timeout _
  | succ fuel ih =>
    intro st
    rw [writeLoop, writeLoop]
    split
    · rcases writeChunk p inst saddr addr data size st with ⟨err, st'⟩
      by_cases herr : err ≠ .ok
      · simp only [if_pos herr]
        exact .refl _
      · simp only [if_neg herr]
        exact ih st'
    · exact .refl _

/-- What a write returns, with the result of the final wait. -/
def PrI2cEepromType.finish : PrI2cEepromType → PrError → PrError
  | .eeprom24lc08, _ => .ok
  | .eeprom24aa64, err => err

/-- A write, for both drivers at once: the chunks go out until one fails, and the final wait comes
only after the last. The drivers differ in what they return behind it. -/
theorem prI2cEepromWrite_eq (type : PrI2cEepromType) (inst : I2cInst σ) (s : σ) (saddr : UInt8)
    (addr : Nat) (data : List UInt8) (size : Nat) (saddr0 : UInt8) (buf0 : Mem UInt8)
    (fuel : Nat) :
    prI2cEepromWrite type inst s saddr addr data size saddr0 buf0 fuel =
      if outOfRange type.part addr size then .ok (.inval, s)
      else writeLoop type.part inst saddr addr data size fuel ⟨s, 0, saddr0, buf0⟩ >>= fun r =>
        if r.1 ≠ .ok then .ok (r.1, r.2.bus)
        else
          let wait := pollReady type.part inst r.2
          .ok (type.finish wait.1, wait.2.bus) := by
  cases type <;> rfl

theorem prI2cEepromWrite_fueled {σ : Type} (type : PrI2cEepromType) (inst : I2cInst σ) (s : σ)
    (saddr : UInt8) (addr : Nat) (data : List UInt8) (size : Nat) (saddr0 : UInt8)
    (buf0 : Mem UInt8) :
    Fueled (prI2cEepromWrite type inst s saddr addr data size saddr0 buf0) := by
  intro fuel
  rw [prI2cEepromWrite_eq, prI2cEepromWrite_eq]
  split
  · exact .refl _
  · exact .bind (writeLoop_fueled _ _ _ _ _ _ _ _) fun _ => .refl _

/-- A write whose loop acknowledges all chunks returns what the driver makes of the final wait. -/
theorem prI2cEepromWrite_polled {type : PrI2cEepromType} {inst : I2cInst σ} {s : σ}
    {saddr saddr0 : UInt8} {addr size fuel : Nat} {data : List UInt8} {buf0 : Mem UInt8}
    {st1 st2 : WriteState σ} {err : PrError} (hin : outOfRange type.part addr size = false)
    (hloop : writeLoop type.part inst saddr addr data size fuel ⟨s, 0, saddr0, buf0⟩ =
      .ok (.ok, st1))
    (hpoll : pollReady type.part inst st1 = (err, st2)) :
    prI2cEepromWrite type inst s saddr addr data size saddr0 buf0 fuel =
      .ok (type.finish err, st2.bus) := by
  rw [prI2cEepromWrite_eq, if_neg (Bool.not_eq_true _ ▸ hin), hloop, bind_ok,
    if_neg (not_not.mpr rfl)]
  simp only [hpoll]

theorem pollReady_ok {σ : Type} {p : Part} {inst : I2cInst σ} {st : WriteState σ} {bus : σ}
    {rdata : List UInt8}
    (h : prI2cBusWriteRead inst st.bus st.saddr (load st.buf 0 p.addrSize) 1 = (.ok, rdata, bus)) :
    pollReady p inst st = (.ok, { st with bus := bus, buf := store st.buf 1 rdata }) := by
  have h128 : 128 ≠ 0 := by decide
  unfold pollReady
  exact retry_ok h128 (by simp only [h])

/-- The final wait succeeds and leaves the memory and the record of write
transactions as they are. -/
theorem pollReady_chip (d : Device) (st : WriteState Chip) :
    ∃ st', pollReady d.part (chipInst d) st = (.ok, st') ∧
      st'.bus.mem = st.bus.mem ∧ st'.bus.writes = st.bus.writes := by
  obtain ⟨rdata, c', hread, hm, hw, -⟩ := prI2cBusWriteRead_chip d st.bus st.saddr
    (length_load st.buf 0 d.part.addrSize) 1
  exact ⟨{ st with bus := c', buf := store st.buf 1 rdata }, pollReady_ok hread, hm, hw⟩

def chunkCount (p : Part) (addr size : Nat) : Nat :=
  (size + stride p addr - 1) / stride p addr

theorem lt_chunkCount (d : Device) (addr size i : Nat) :
    i < chunkCount d.part addr size ↔ i * stride d.part addr < size := by
  have hpos := stride_pos d addr
  rw [chunkCount, Nat.lt_iff_add_one_le, Nat.le_div_iff_mul_le hpos, Nat.succ_mul]
  omega

/-- The transactions of a write of `data` to `addr`. -/
def transactions (p : Part) (addr : Nat) (data : List UInt8) : List (Nat × List UInt8) :=
  (List.range (chunkCount p addr data.length)).map (transaction p addr data)

/-- A write in the range of the chip succeeds. The chip takes its transactions
in order. -/
theorem prI2cEepromWrite_chip {d : Device} {addr : Nat} {data : List UInt8}
    (hrange : addr + data.length ≤ d.part.size) (c : Chip) (saddr0 : UInt8) (buf0 : Mem UInt8) :
    ∃ c', Returns (prI2cEepromWrite d.type (chipInst d) c d.saddr addr data data.length saddr0 buf0)
        (.ok, c') ∧
      c'.mem = ((transactions d.part addr data).foldl (Chip.write d.part.pageSize) c).mem ∧
      c'.writes =
        ((transactions d.part addr data).foldl (Chip.write d.part.pageSize) c).writes := by
  have hlt := lt_chunkCount d addr data.length
  obtain ⟨st1, hloop, hbus⟩ := writeLoop_chip hrange
    (Nat.le_of_not_lt fun h => Nat.lt_irrefl _ ((hlt _).mpr h)) (fun i => (hlt i).mp)
    (chunkCount d.part addr data.length) 0 ⟨c, 0, saddr0, buf0⟩ (Nat.zero_add _) (by simp)
  rw [← List.range_eq_range', ← transactions] at hbus
  obtain ⟨st2, hpoll, hmem, hwrites⟩ := pollReady_chip d st1
  rw [hbus] at hmem hwrites
  have hwrite := prI2cEepromWrite_polled (accepted_of_range hrange) hloop hpoll
  have hfinish : d.type.finish .ok = .ok := by
    cases d.type with
    | eeprom24lc08 => rfl
    | eeprom24aa64 => rfl
  rw [hfinish] at hwrite
  exact ⟨st2.bus, ⟨_, hwrite⟩, hmem, hwrites⟩

/-! ## 3. Chunks and pages -/

def InPage (page : Nat) (t : Nat × List UInt8) : Prop := t.1 % page + t.2.length ≤ page

instance (page : Nat) (t : Nat × List UInt8) : Decidable (InPage page t) :=
  inferInstanceAs (Decidable (_ ≤ _))

/-- Tiles of `c` bytes from the start of a page on stay in their pages iff they
tile the pages or all of them lie in the first page. -/
theorem tiles_in_page_iff {page c n : Nat} (hc : 0 < c) (hle : c ≤ page) :
    (∀ j, j * c < n → j * c % page + min c (n - j * c) ≤ page) ↔ c ∣ page ∨ n ≤ page := by
  constructor
  · intro h
    by_contra hcon
    obtain ⟨hdvd, hn⟩ := not_or.mp hcon
    -- The tile that holds the end of the first page.
    have hsplit := Nat.div_add_mod' page c
    have hrest : page % c ≠ 0 := fun h0 => hdvd (Nat.dvd_of_mod_eq_zero h0)
    have hlt := Nat.mod_lt page hc
    have hcross := h (page / c) (by omega)
    rw [Nat.mod_eq_of_lt (by omega)] at hcross
    omega
  · rintro (⟨k, rfl⟩ | hn) j hj
    · have hk : 0 < k := Nat.pos_of_ne_zero fun h => by
        rw [h, Nat.mul_zero] at hle
        omega
      have htile := Nat.mul_le_mul_left c (Nat.succ_le_of_lt (Nat.mod_lt j hk))
      rw [Nat.mul_succ] at htile
      rw [Nat.mul_comm j c, Nat.mul_mod_mul_left]
      omega
    · rw [Nat.mod_eq_of_lt (by omega)]
      omega

/-- An aligned write goes in chunks of 16 bytes, which tile both page sizes. -/
theorem stride_dvd_of_aligned {d : Device} {addr : Nat} (hr : addr % d.part.pageSize = 0) :
    stride d.part addr ∣ d.part.pageSize := by
  have hc : stride d.part addr = 16 := by simp only [stride, hr, ne_eq, not_true, if_false]
  rw [hc]
  rcases pageSize_cases d with h | h
  · rw [h]
  · rw [h]
    decide

/-- The first chunk of a write that does not start at a page fills the rest of its page. -/
theorem stride_fills {d : Device} {addr : Nat} (hr : addr % d.part.pageSize ≠ 0) :
    stride d.part addr = d.part.pageSize - addr % d.part.pageSize := by
  simp only [stride, ne_eq, hr, not_false_eq_true, if_true]

/-- The chunks behind the first one are tiles from the start of a page on. -/
theorem chunk_offset {d : Device} {addr : Nat} (hr : addr % d.part.pageSize ≠ 0) (j : Nat) :
    (addr + (j + 1) * stride d.part addr) % d.part.pageSize =
      j * stride d.part addr % d.part.pageSize := by
  have hnext : (addr + stride d.part addr) % d.part.pageSize = 0 := by
    have hdiv := Nat.div_add_mod addr d.part.pageSize
    have hlt := Nat.mod_lt addr (pageSize_pos d)
    have hsum : addr + stride d.part addr = d.part.pageSize * (addr / d.part.pageSize + 1) := by
      rw [stride_fills hr, Nat.mul_succ]
      omega
    rw [hsum, Nat.mul_mod_right]
  rw [Nat.succ_mul, Nat.add_comm (j * _), ← Nat.add_assoc, Nat.add_mod, hnext, Nat.zero_add,
    Nat.mod_mod]

/-- The chunks of a write all stay in their pages iff chunks tile the pages or
the write is too short for the chunk that would not. -/
theorem chunks_in_page_iff (d : Device) (addr n : Nat) :
    (∀ i, i * stride d.part addr < n → (addr + i * stride d.part addr) % d.part.pageSize +
      min (stride d.part addr) (n - i * stride d.part addr) ≤ d.part.pageSize) ↔
    stride d.part addr ∣ d.part.pageSize ∨ n ≤ stride d.part addr + d.part.pageSize := by
  have hpos := stride_pos d addr
  by_cases hr : addr % d.part.pageSize = 0
  · have hdvd := stride_dvd_of_aligned hr
    refine iff_of_true (fun i hi => ?_) (.inl hdvd)
    rw [Nat.add_mod, hr, Nat.zero_add, Nat.mod_mod]
    exact (tiles_in_page_iff hpos (Nat.le_of_dvd (pageSize_pos d) hdvd)).mpr (.inl hdvd) i hi
  · have hc := stride_fills hr
    have hlt := Nat.mod_lt addr (pageSize_pos d)
    have htiles := tiles_in_page_iff (n := n - stride d.part addr) hpos
      (show stride d.part addr ≤ d.part.pageSize by omega)
    have hbound : n - stride d.part addr ≤ d.part.pageSize ↔
        n ≤ stride d.part addr + d.part.pageSize := by omega
    rw [← hbound, ← htiles]
    constructor
    · -- Chunk `j + 1` of the write is tile `j`.
      intro h j hj
      have hsucc : (j + 1) * stride d.part addr = _ := Nat.succ_mul j (stride d.part addr)
      have hchunk := h (j + 1) (by omega)
      rw [chunk_offset hr] at hchunk
      omega
    · intro h i hi
      cases i with
      | zero =>
        rw [Nat.zero_mul, Nat.add_zero]
        omega
      | succ j =>
        have hsucc : (j + 1) * stride d.part addr = _ := Nat.succ_mul j (stride d.part addr)
        have htile := h j (by omega)
        rw [chunk_offset hr]
        omega

theorem transactions_in_page_iff (d : Device) (addr : Nat) (data : List UInt8) :
    (∀ t ∈ transactions d.part addr data, InPage d.part.pageSize t) ↔
      stride d.part addr ∣ d.part.pageSize ∨
        data.length ≤ stride d.part addr + d.part.pageSize := by
  rw [← chunks_in_page_iff d addr data.length, transactions, List.forall_mem_map]
  refine forall_congr' fun i => ?_
  rw [List.mem_range, lt_chunkCount, InPage, length_transaction]
  rfl

/-! ## 4. The chip after a write -/

theorem foldl_write_writes (page : Nat) (ts : List (Nat × List UInt8)) (c : Chip) :
    (ts.foldl (Chip.write page) c).writes = c.writes ++ ts := by
  induction ts generalizing c with
  | nil => simp
  | cons t ts ih =>
    rw [List.foldl_cons, ih]
    simp [Chip.write]

/-- Chunks that stay in their pages store the data from `addr` on. -/
theorem foldl_write_mem {d : Device} {addr : Nat} {data : List UInt8} (c : Chip)
    (h : ∀ t ∈ transactions d.part addr data, InPage d.part.pageSize t) :
    ((transactions d.part addr data).foldl (Chip.write d.part.pageSize) c).mem =
      store c.mem addr data := by
  have hlt := lt_chunkCount d addr data.length
  suffices hk : ∀ k, k ≤ chunkCount d.part addr data.length →
      (((List.range k).map (transaction d.part addr data)).foldl
        (Chip.write d.part.pageSize) c).mem =
      store c.mem addr (data.take (k * stride d.part addr)) by
    have hall := hk _ (Nat.le_refl _)
    rwa [List.take_of_length_le] at hall
    exact Nat.le_of_not_lt fun hcon => Nat.lt_irrefl _ ((hlt _).mpr hcon)
  -- After `k` chunks the memory is as if so many bytes had been stored in one go.
  intro k
  induction k with
  | zero => simp
  | succ k ih =>
    intro hk
    have hpage := h (transaction d.part addr data k)
      (List.mem_map_of_mem (List.mem_range.mpr (Nat.lt_of_succ_le hk)))
    have hfull : (data.take (k * stride d.part addr)).length = k * stride d.part addr := by
      have := (hlt k).mp (Nat.lt_of_succ_le hk)
      simp
      omega
    have hjoin := store_append c.mem addr (data.take (k * stride d.part addr))
      (transaction d.part addr data k).2
    rw [hfull] at hjoin
    rw [List.range_succ, List.map_append, List.foldl_append, List.map_singleton,
      List.foldl_cons, List.foldl_nil, Chip.write, pageStore_eq_store _ hpage, ih (by omega),
      Nat.succ_mul, List.take_add]
    exact hjoin.symm

theorem prI2cEepromRead_eq (type : PrI2cEepromType) (inst : I2cInst σ) (s : σ) (saddr : UInt8)
    (addr size : Nat) :
    prI2cEepromRead type inst s saddr addr size = eepromRead type.part inst s saddr addr size := by
  cases type <;> rfl

/-- A read in the range of the chip returns its memory. -/
theorem prI2cEepromRead_chip {d : Device} {addr n : Nat} (h : addr + n ≤ d.part.size) (c : Chip) :
    ∃ c', prI2cEepromRead d.type (chipInst d) c d.saddr addr n = (.ok, load c.mem addr n, c') := by
  rw [prI2cEepromRead_eq, eepromRead, if_neg (Bool.not_eq_true _ ▸ accepted_of_range h)]
  rcases Nat.eq_zero_or_pos n with rfl | hn
  · obtain ⟨rdata, c', hr, -, -, hlen⟩ := prI2cBusWriteRead_chip d c (d.part.slave d.saddr addr)
      (header_length d addr) 0
    obtain rfl := List.eq_nil_of_length_eq_zero hlen
    exact ⟨c', hr⟩
  · exact prI2cBusWriteRead_read (by omega) h c

/-- What a caller expects of a write of `data` to `addr`: it succeeds, each of
its write transactions stays in one page, a read returns the data, and the rest
of the memory is as before. -/
def StaysAndReadsBack (d : Device) (addr : Nat) (data : List UInt8) (c : Chip) (saddr0 : UInt8)
    (buf0 : Mem UInt8) : Prop :=
  ∃ c' ts c'',
    Returns (prI2cEepromWrite d.type (chipInst d) c d.saddr addr data data.length saddr0 buf0)
      (.ok, c') ∧
    c'.writes = c.writes ++ ts ∧ (∀ t ∈ ts, InPage d.part.pageSize t) ∧
    prI2cEepromRead d.type (chipInst d) c' d.saddr addr data.length = (.ok, data, c'') ∧
    ∀ a, a < addr ∨ addr + data.length ≤ a → c'.mem a = c.mem a

/-- The write transactions of a write are its chunks. -/
theorem transactions_in_page {d : Device} {addr : Nat} {data : List UInt8}
    (hrange : addr + data.length ≤ d.part.size) {c : Chip} {saddr0 : UInt8} {buf0 : Mem UInt8}
    (h : StaysAndReadsBack d addr data c saddr0 buf0) :
    ∀ t ∈ transactions d.part addr data, InPage d.part.pageSize t := by
  obtain ⟨c', ts, -, hret, hts, hpage, -, -⟩ := h
  obtain ⟨c1, hret1, -, hwrites⟩ := prI2cEepromWrite_chip hrange c saddr0 buf0
  have hsame := (prI2cEepromWrite_fueled _ _ _ _ _ _ _ _ _).returns_unique hret hret1
  rw [foldl_write_writes, ← (Prod.mk.inj hsame).2, hts] at hwrites
  rwa [← List.append_cancel_left hwrites]

/-- A write in the range of the chip stays in its pages and reads back iff the
chunk size that its start address gives divides the page size or the write ends
at most one page after the first chunk. -/
theorem eeprom_write_pages_iff (d : Device) (addr : Nat) (data : List UInt8)
    (hrange : addr + data.length ≤ d.part.size) (c : Chip) (saddr0 : UInt8) (buf0 : Mem UInt8) :
    StaysAndReadsBack d addr data c saddr0 buf0 ↔
      stride d.part addr ∣ d.part.pageSize ∨
        data.length ≤ stride d.part addr + d.part.pageSize := by
  rw [← transactions_in_page_iff]
  constructor
  · exact transactions_in_page hrange
  · intro hpage
    obtain ⟨c', hret, hmem, hwrites⟩ := prI2cEepromWrite_chip hrange c saddr0 buf0
    obtain ⟨c'', hread⟩ := prI2cEepromRead_chip hrange c'
    rw [foldl_write_mem c hpage] at hmem
    rw [foldl_write_writes] at hwrites
    rw [hmem, load_store_self] at hread
    refine ⟨c', _, c'', hret, hwrites, hpage, hread, fun a ha => ?_⟩
    rw [hmem]
    rcases ha with ha | ha
    · exact store_apply_of_lt ha
    · exact store_apply_of_ge ha

namespace PageLemmas

def demo : Device := ⟨.eeprom24lc08, 0x50, fun _ => rfl⟩

def erased : Chip := ⟨fun _ => 0xff, 0, []⟩

end PageLemmas

open PageLemmas in
/-- 24 bytes at address 8 go in chunks of eight bytes, two to a page. -/
theorem eeprom_write_pages_iff_eights :
    8 + (List.replicate 24 (0 : UInt8)).length ≤ demo.part.size ∧
    (StaysAndReadsBack demo 8 (List.replicate 24 0) erased 0 (fun _ => 0) ↔
      stride demo.part 8 ∣ demo.part.pageSize ∨
        (List.replicate 24 (0 : UInt8)).length ≤ stride demo.part 8 + demo.part.pageSize) :=
  ⟨by decide, eeprom_write_pages_iff demo 8 (List.replicate 24 0) (by decide) erased 0 _⟩

open PageLemmas in
/-- 32 bytes at address 1 go in chunks of 15 bytes, and the third, of two bytes
at address 31, wraps to address 16. -/
theorem eeprom_write_crosses :
    1 + (List.replicate 32 (0 : UInt8)).length ≤ demo.part.size ∧
    ¬ StaysAndReadsBack demo 1 (List.replicate 32 0) erased 0 (fun _ => 0) := by
  refine ⟨by decide, fun h => ?_⟩
  have hpage := transactions_in_page (by decide) h (31, [0, 0])
    (List.mem_map.mpr ⟨2, by decide, rfl⟩)
  exact absurd hpage (by decide)

end Picore.I2c
