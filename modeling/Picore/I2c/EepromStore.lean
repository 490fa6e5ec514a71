import Picore.I2c.EepromTrace

/-!
# An EEPROM as a store of bytes

A chip does not acknowledge while it writes a page. The drivers attempt each chunk again, and poll
the chip behind the last one. A read is not attempted again: it relies on the polls of the write
before it.

Results:
1. `busyInst`: a chip that refuses some transactions after each write.
2. `writeLoop_busy`, `pollReady_busy`: a write gets through, and leaves the chip ready.
3. `store_refined`: over every sequence of reads and writes, driver and chip are an array of bytes
   with a range check.
-/

namespace Picore.I2c

open Memory Fuel Retry

/-! ## 1. The chip -/

/-- A chip that refuses the next `busy` transactions. `cycles` has how many it refuses after each
write to come. -/
structure BusyChip where
  chip : Chip
  busy : Nat
  cycles : Nat → Nat

def BusyChip.written (c : BusyChip) (chip : Chip) : BusyChip :=
  ⟨chip, c.cycles 0, fun n => c.cycles (n + 1)⟩

/-- A bus with the chip on it, and nothing else. A transaction that nobody acknowledges returns
`PICO_ERROR_GENERIC`. -/
def busyInst (d : Device) : I2cInst BusyChip where
  errorGeneric := -1
  errorTimeout := -2
  writeBlocking c saddr bytes nostop :=
    if d.responds saddr = false then (-1, c)
    else if 0 < c.busy then (-1, { c with busy := c.busy - 1 })
    else
      let (err, chip) := (chipInst d).writeBlocking c.chip saddr bytes nostop
      (err, if bytes.drop d.part.addrSize = [] then { c with chip := chip } else c.written chip)
  readBlocking c saddr n nostop :=
    if d.responds saddr = false then (-1, [], c)
    else if 0 < c.busy then (-1, [], { c with busy := c.busy - 1 })
    else
      let (err, rdata, chip) := (chipInst d).readBlocking c.chip saddr n nostop
      (err, rdata, { c with chip := chip })

/-- Each write takes fewer transactions than the drivers attempt. -/
def BusyChip.Bounded (c : BusyChip) : Prop := c.busy < 128 ∧ ∀ n, c.cycles n < 128

/-- The chip is not writing, and no page write that is to come keeps it busy for longer than the
driver polls. -/
structure BusyChip.Ready (c : BusyChip) : Prop where
  busy : c.busy = 0
  cycles : ∀ n, c.cycles n < 128

namespace StoreLemmas

variable {d : Device}

theorem written_bounded {c : BusyChip} (h : c.Bounded) (chip : Chip) : (c.written chip).Bounded :=
  ⟨h.2 0, fun n => h.2 (n + 1)⟩

/-- `t` is `c` after some polls. It has the same content and the same write cycles to come; only how
many transactions it still refuses may be different. -/
def Waits (c t : BusyChip) : Prop := t.chip = c.chip ∧ t.cycles = c.cycles

theorem waits_eq {c t : BusyChip} (h : Waits c t) (hbusy : t.busy = 0) :
    t = ⟨c.chip, 0, c.cycles⟩ := by
  obtain ⟨chip, busy, cycles⟩ := t
  obtain ⟨rfl, rfl⟩ := h
  obtain rfl : busy = 0 := hbusy
  rfl

theorem writeBlocking_busy {saddr : UInt8} (hr : d.responds saddr = true) {c : BusyChip}
    (hbusy : 0 < c.busy) (bytes : List UInt8) (nostop : Bool) :
    (busyInst d).writeBlocking c saddr bytes nostop = (-1, { c with busy := c.busy - 1 }) := by
  have hne : ¬ d.responds saddr = false := Bool.not_eq_false _ ▸ hr
  simp only [busyInst, if_neg hne, if_pos hbusy]

theorem writeBlocking_ready {saddr : UInt8} (hr : d.responds saddr = true) {c : BusyChip}
    (hbusy : c.busy = 0) (bytes : List UInt8) (nostop : Bool) :
    (busyInst d).writeBlocking c saddr bytes nostop =
      (((chipInst d).writeBlocking c.chip saddr bytes nostop).1,
        if bytes.drop d.part.addrSize = [] then
          { c with chip := ((chipInst d).writeBlocking c.chip saddr bytes nostop).2 }
        else c.written ((chipInst d).writeBlocking c.chip saddr bytes nostop).2) := by
  have hne : ¬ d.responds saddr = false := Bool.not_eq_false _ ▸ hr
  have hidle : ¬ 0 < c.busy := Nat.not_lt_of_le (Nat.le_of_eq hbusy)
  simp only [busyInst, if_neg hne, if_neg hidle]

theorem readBlocking_ready {saddr : UInt8} (hr : d.responds saddr = true) {c : BusyChip}
    (hbusy : c.busy = 0) (n : Nat) (nostop : Bool) :
    (busyInst d).readBlocking c saddr n nostop =
      (((chipInst d).readBlocking c.chip saddr n nostop).1,
        ((chipInst d).readBlocking c.chip saddr n nostop).2.1,
        { c with chip := ((chipInst d).readBlocking c.chip saddr n nostop).2.2 }) := by
  have hne : ¬ d.responds saddr = false := Bool.not_eq_false _ ▸ hr
  have hidle : ¬ 0 < c.busy := Nat.not_lt_of_le (Nat.le_of_eq hbusy)
  simp only [busyInst, if_neg hne, if_neg hidle]

theorem picoToPrErr_busyInst (err count : Int) :
    picoToPrErr (busyInst d) err count = picoToPrErr (chipInst d) err count :=
  rfl

theorem addrSize_le (d : Device) : d.part.addrSize ≤ 2 := by
  obtain ⟨type, saddr, hb⟩ := d
  cases type with
  | eeprom24lc08 => exact Nat.le_succ 1
  | eeprom24aa64 => exact Nat.le_refl 2

theorem toInt_nonneg {n : Nat} (h : n ≤ 34) : 0 ≤ toInt n := by
  have hshort : ∀ n ≤ 34, 0 ≤ toInt n := by decide
  exact hshort n h

theorem refused_ne_ok {count : Int} (h : 0 ≤ count) : picoToPrErr (busyInst d) (-1) count ≠ .ok :=
  picoToPrErr_ne_ok _ fun heq => absurd (heq ▸ h) (by decide)

/-! ## 2. A write -/

theorem prI2cBusWriteRead_ready {saddr : UInt8} (hr : d.responds saddr = true) {c : BusyChip}
    (hbusy : c.busy = 0) {wdata : List UInt8} (hw : wdata.length = d.part.addrSize) (n : Nat) :
    ∃ rdata chip, prI2cBusWriteRead (busyInst d) c saddr wdata n =
        (.ok, rdata, { c with chip := chip }) ∧ chip.mem = c.chip.mem ∧
      (d.decode saddr wdata + n ≤ d.part.size →
        rdata = load c.chip.mem (d.decode saddr wdata) n) := by
  have hdrop : wdata.drop d.part.addrSize = [] := by simp [hw]
  have hheader := writeBlocking_header d c.chip saddr hw true
  rw [hr, if_pos rfl] at hheader
  obtain ⟨rdata, chip, hread, hmem, -, -, hdata⟩ := readBlocking_chip d
    { c.chip with cur := d.decode saddr wdata } saddr n false
  have hwrite := writeBlocking_ready hr hbusy wdata true
  rw [if_pos hdrop, hheader] at hwrite
  have hbusy' : ({ c with chip := { c.chip with cur := d.decode saddr wdata } } : BusyChip).busy =
      0 := hbusy
  have hanswer := readBlocking_ready hr hbusy' n false
  rw [hread] at hanswer
  simp only at hwrite hanswer
  exact ⟨rdata, chip, prI2cBusWriteRead_ok hwrite hanswer, hmem, hdata hr⟩

theorem prI2cBusWriteRead_busy {saddr : UInt8} (hr : d.responds saddr = true) {c : BusyChip}
    (hbusy : 0 < c.busy) {wdata : List UInt8} (hw : wdata.length = d.part.addrSize) (n : Nat) :
    ∃ err, err ≠ .ok ∧ prI2cBusWriteRead (busyInst d) c saddr wdata n =
      (err, [], { c with busy := c.busy - 1 }) := by
  have herr : picoToPrErr (busyInst d) (-1) (toInt wdata.length) ≠ .ok :=
    refused_ne_ok (toInt_nonneg (by have := addrSize_le d; omega))
  refine ⟨_, herr, ?_⟩
  simp only [prI2cBusWriteRead, writeBlocking_busy hr hbusy]

/-- The attempts at a write with data, on a chip that is writing. -/
theorem retry_busy {a : Nat} (h : a < d.part.size) {data : List UInt8} (hd : data ≠ [])
    (hlen : data.length ≤ 32) {c : BusyChip} (hc : c.Bounded) :
    retry (fun c => prI2cBusWrite (busyInst d) c (d.part.slave d.saddr a)
        (d.part.header a ++ data)) 128 c =
      (.ok, c.written (c.chip.write d.part.pageSize (a, data))) := by
  obtain ⟨hr, -⟩ := addressed h
  have hheader := header_length d a
  have hdrop : (d.part.header a ++ data).drop d.part.addrSize = data := by
    rw [← hheader, List.drop_left]
  have hchip := prI2cBusWrite_chip h hd c.chip
  have hready : prI2cBusWrite (busyInst d) ⟨c.chip, 0, c.cycles⟩ (d.part.slave d.saddr a)
      (d.part.header a ++ data) = (.ok, c.written (c.chip.write d.part.pageSize (a, data))) := by
    have herr := congrArg Prod.fst hchip
    have hbus := congrArg Prod.snd hchip
    simp only [prI2cBusWrite] at herr hbus
    have hwrite := writeBlocking_ready hr (c := ⟨c.chip, 0, c.cycles⟩) rfl
      (d.part.header a ++ data) false
    rw [hdrop, if_neg hd, hbus] at hwrite
    rw [prI2cBusWrite, hwrite]
    simp only [picoToPrErr_busyInst, herr]
    rfl
  have hcount : (0 : Int) ≤ toInt (d.part.header a ++ data).length := by
    have haddrSize := addrSize_le d
    refine toInt_nonneg ?_
    rw [List.length_append, hheader]
    omega
  have hdown : CountsDown (· = .ok) (prI2cBusWrite (busyInst d) · (d.part.slave d.saddr a)
      (d.part.header a ++ data)) BusyChip.busy (Waits c) := by
    refine ⟨fun t ht hbusy => ?_, fun t ht hbusy => ?_⟩
    · simp only [prI2cBusWrite, writeBlocking_busy hr hbusy]
      exact ⟨refused_ne_ok hcount, ht, Nat.sub_add_cancel hbusy⟩
    · rw [waits_eq ht hbusy, hready]
  obtain ⟨t, ht, hbusy, hrun⟩ := run_countdown hdown ⟨rfl, rfl⟩ (Nat.le_of_lt_succ hc.1)
  rw [retry_eq_run, hrun, waits_eq ht hbusy]
  exact hready

theorem writeChunk_busy {addr i : Nat} {data : List UInt8} {st : WriteState BusyChip}
    (hrange : addr + data.length ≤ d.part.size) (hi : i * stride d.part addr < data.length)
    (ho : st.offset = i * stride d.part addr) (hst : st.bus.Bounded) :
    writeChunk d.part (busyInst d) d.saddr addr data data.length st =
      (.ok, { bus := st.bus.written
                (st.bus.chip.write d.part.pageSize (transaction d.part addr data i))
              offset := min ((i + 1) * stride d.part addr) data.length
              saddr := chunkSlave d.part d.saddr addr st
              buf := chunkBuf d.part addr data data.length st }) := by
  have hpos := stride_pos d addr
  have hsize : d.part.size ≤ 8192 := partSize_le d.type
  have hlen := length_transaction d.part addr data i
  have hstride : stride d.part addr ≤ 32 := by
    have hpage := pageSize_cases d
    unfold stride
    split <;> omega
  have hne : (transaction d.part addr data i).2 ≠ [] := by
    intro he
    rw [he, List.length_nil] at hlen
    omega
  have haddr : addr + st.offset < d.part.size := by omega
  have hload := load_chunkBuf data (header_length d (addr + st.offset))
  have hpayload := payload_eq_transaction d.part addr data i
  rw [← ho] at hpayload
  have hwrite := retry_busy haddr hne (by omega) hst
  rw [← hpayload, ← hload] at hwrite
  have hoff : (st.offset + chuckSize d.part addr data.length st.offset) % 2 ^ 16 =
      min ((i + 1) * stride d.part addr) data.length := by
    have hmul : (i + 1) * stride d.part addr = i * stride d.part addr + stride d.part addr :=
      Nat.succ_mul _ _
    rw [chuckSize_eq, ho, hmul, Nat.mod_eq_of_lt (by omega)]
    omega
  rw [writeChunk_eq _ _ _ _ _ _ _ hwrite, if_pos rfl, hoff, hpayload, ho]
  rfl

/-- The loop sends the chunks that are left, and the last of them to the chip that is polled. -/
theorem writeLoop_busy {addr m : Nat} {data : List UInt8}
    (hrange : addr + data.length ≤ d.part.size) (hm : data.length ≤ m * stride d.part addr)
    (hlt : ∀ i, i < m → i * stride d.part addr < data.length) (k : Nat) :
    ∀ (i : Nat) (st : WriteState BusyChip), i + k = m →
      st.offset = min (i * stride d.part addr) data.length → st.bus.Bounded →
      (0 < i → d.responds st.saddr = true) →
      ∃ st', writeLoop d.part (busyInst d) d.saddr addr data data.length (k + 1) st =
          .ok (.ok, st') ∧
        st'.bus.chip = ((List.range' i k).map (transaction d.part addr data)).foldl
          (Chip.write d.part.pageSize) st.bus.chip ∧
        st'.bus.Bounded ∧ (0 < m → d.responds st'.saddr = true) := by
  -- `k` chunks are left, of which the next is the one with number `i`.
  induction k with
  | zero =>
    intro i st hi ho hst hsaddr
    obtain rfl : i = m := hi
    refine ⟨st, ?_, rfl, hst, hsaddr⟩
    rw [writeLoop, if_neg (by omega)]
  | succ k ih =>
    intro i st hi ho hst hsaddr
    have hlast := hlt i (by omega)
    have hsize : d.part.size ≤ 8192 := partSize_le d.type
    have ho' : st.offset = i * stride d.part addr := by omega
    obtain ⟨st', hloop, hchip, hbounded, hresponds⟩ := ih (i + 1)
      { bus := st.bus.written (st.bus.chip.write d.part.pageSize (transaction d.part addr data i))
        offset := min ((i + 1) * stride d.part addr) data.length
        saddr := chunkSlave d.part d.saddr addr st
        buf := chunkBuf d.part addr data data.length st } (by omega) rfl (written_bounded hst _)
      fun _ => (addressed (by omega)).1
    refine ⟨st', ?_, ?_, hbounded, hresponds⟩
    · rw [writeLoop, if_pos (by omega), writeChunk_busy hrange hlast ho' hst]
      simp only [ne_eq, not_true_eq_false, if_false]
      exact hloop
    · rw [hchip, List.range'_succ, List.map_cons, List.foldl_cons]
      rfl

/-- The final wait ends when the chip is ready. -/
theorem pollReady_busy {st : WriteState BusyChip} (hr : d.responds st.saddr = true)
    (hst : st.bus.Bounded) :
    ∃ st', pollReady d.part (busyInst d) st = (.ok, st') ∧
      st'.bus.chip.mem = st.bus.chip.mem ∧ st'.bus.Ready := by
  have hready (c : BusyChip) (hbusy : c.busy = 0) : ∃ rdata chip,
      pollOnce d.part (busyInst d) { st with bus := c } = (.ok,
        { st with bus := { c with chip := chip }, buf := store st.buf 1 rdata }) ∧
      chip.mem = c.chip.mem := by
    obtain ⟨rdata, chip, hread, hmem, -⟩ :=
      prI2cBusWriteRead_ready hr hbusy (length_load st.buf 0 d.part.addrSize) 1
    exact ⟨rdata, chip, by simp only [pollOnce, hread], hmem⟩
  -- A poll changes nothing of the loop but the bus, as long as it fails.
  have hdown : CountsDown (· = .ok) (pollOnce d.part (busyInst d)) (fun t => t.bus.busy)
      (fun t => Waits st.bus t.bus ∧ t = { st with bus := t.bus }) := by
    refine ⟨fun t hinv hbusy => ?_, fun t hinv hbusy => ?_⟩
    · obtain ⟨hwaits, ht⟩ := hinv
      obtain ⟨err, herr, hread⟩ :=
        prI2cBusWriteRead_busy hr hbusy (length_load st.buf 0 d.part.addrSize) 1
      have hpoll : pollOnce d.part (busyInst d) t =
          (err, { st with bus := { t.bus with busy := t.bus.busy - 1 } }) := by
        rw [ht]
        simp only [pollOnce, hread, store_nil]
      rw [hpoll]
      exact ⟨herr, ⟨hwaits, rfl⟩, Nat.sub_add_cancel hbusy⟩
    · obtain ⟨rdata, chip, hpoll, -⟩ := hready t.bus hbusy
      rw [hinv.2, hpoll]
  obtain ⟨t, ⟨hwaits, ht⟩, hbusy, hrun⟩ :=
    run_countdown hdown (s := st) ⟨⟨rfl, rfl⟩, rfl⟩ (Nat.le_of_lt_succ hst.1)
  obtain ⟨rdata, chip, hpoll, hmem⟩ := hready t.bus hbusy
  rw [← ht] at hpoll
  refine ⟨{ st with bus := { t.bus with chip := chip }, buf := store st.buf 1 rdata }, ?_,
    hmem.trans (congrArg Chip.mem hwaits.1), hbusy, hwaits.2 ▸ hst.2⟩
  rw [pollReady_eq, retry_eq_run, hrun]
  exact hpoll

/-- A write in the range of the chip, whose chunks stay in their pages. -/
theorem write_busy {addr : Nat} {data : List UInt8} (hrange : addr + data.length ≤ d.part.size)
    (hdata : data ≠ [])
    (hpages : stride d.part addr ∣ d.part.pageSize ∨
      data.length ≤ stride d.part addr + d.part.pageSize)
    {c : BusyChip} (hc : c.Ready) (saddr0 : UInt8) (buf0 : Mem UInt8) :
    ∃ c', Returns
        (prI2cEepromWrite d.type (busyInst d) c d.saddr addr data data.length saddr0 buf0)
        (.ok, c') ∧
      c'.chip.mem = store c.chip.mem addr data ∧ c'.Ready := by
  have hlt := lt_chunkCount d addr data.length
  have hcount : 0 < chunkCount d.part addr data.length :=
    (hlt 0).mpr (by rw [Nat.zero_mul]; exact List.length_pos_of_ne_nil hdata)
  have hbounded : c.Bounded := ⟨by rw [hc.busy]; decide, hc.cycles⟩
  obtain ⟨st1, hloop, hchip, hst1, hr⟩ := writeLoop_busy hrange
    (Nat.le_of_not_lt fun h => Nat.lt_irrefl _ ((hlt _).mpr h)) (fun i => (hlt i).mp)
    (chunkCount d.part addr data.length) 0 ⟨c, 0, saddr0, buf0⟩ (Nat.zero_add _) (by simp) hbounded
    nofun
  rw [← List.range_eq_range', ← transactions] at hchip
  obtain ⟨st2, hpoll, hmem, hready⟩ := pollReady_busy (hr hcount) hst1
  rw [hchip, foldl_write_mem _ ((transactions_in_page_iff d addr data).mpr hpages)] at hmem
  have hwrite := prI2cEepromWrite_polled (accepted_of_range hrange) hloop hpoll
  have hfinish : d.type.finish .ok = .ok := by
    cases d.type with
    | eeprom24lc08 => rfl
    | eeprom24aa64 => rfl
  rw [hfinish] at hwrite
  exact ⟨st2.bus, ⟨_, hwrite⟩, hmem, hready⟩

theorem read_ready {addr n : Nat} (hrange : addr + n ≤ d.part.size) (hn : n ≠ 0) {c : BusyChip}
    (hc : c.Ready) :
    ∃ c', prI2cEepromRead d.type (busyInst d) c d.saddr addr n =
        (.ok, load c.chip.mem addr n, c') ∧
      c'.chip.mem = c.chip.mem ∧ c'.Ready := by
  obtain ⟨hr, ha⟩ := addressed (d := d) (a := addr) (by omega)
  obtain ⟨rdata, chip, hread, hmem, hdata⟩ :=
    prI2cBusWriteRead_ready hr hc.busy (header_length d addr) n
  rw [ha] at hdata
  rw [hdata hrange] at hread
  refine ⟨{ c with chip := chip }, ?_, hmem, hc.busy, hc.cycles⟩
  rw [prI2cEepromRead_eq, eepromRead, if_neg (Bool.not_eq_true _ ▸ accepted_of_range hrange)]
  exact hread

end StoreLemmas

/-! ## 3. The store -/

/-- What an application asks the driver for: some bytes from an address on, or that bytes be written
there. -/
inductive StoreOp
  | read (addr size : Nat)
  | write (addr : Nat) (data : List UInt8)

/-- What an array of `size` bytes makes of it: the result, the bytes read, and the array. -/
def StoreOp.perform (size : Nat) (m : Mem UInt8) : StoreOp → (PrError × List UInt8) × Mem UInt8
  | .read addr n => if addr + n ≤ size then ((.ok, load m addr n), m) else ((.inval, []), m)
  | .write addr data =>
    if addr + data.length ≤ size then ((.ok, []), store m addr data) else ((.inval, []), m)

/-- A sequence of calls on an array of `size` bytes, which stands for the chip. -/
def performAll (size : Nat) : Mem UInt8 → List StoreOp → List (PrError × List UInt8) × Mem UInt8
  | m, [] => ([], m)
  | m, op :: ops =>
    let (r, m) := op.perform size m
    let (rs, m) := performAll size m ops
    (r :: rs, m)

/-- There are bytes to transfer, the end of the range is a `size_t`, and the chunks of a write stay
in their pages. -/
def StoreOp.Fits (p : Part) : StoreOp → Prop
  | .read addr n => n ≠ 0 ∧ addr + n < 2 ^ 32
  | .write addr data => data ≠ [] ∧ addr + data.length < 2 ^ 32 ∧
    (stride p addr ∣ p.pageSize ∨ data.length ≤ stride p addr + p.pageSize)

/-- A call of the driver on a bus, with what it returns and reads. -/
inductive Performs {σ : Type} (d : Device) (inst : I2cInst σ) (s : σ) :
    StoreOp → PrError × List UInt8 → σ → Prop
  | read {addr n : Nat} {err : PrError} {rdata : List UInt8} {s' : σ} :
      prI2cEepromRead d.type inst s d.saddr addr n = (err, rdata, s') →
      Performs d inst s (.read addr n) (err, rdata) s'
  | write {addr : Nat} {data : List UInt8} {saddr0 : UInt8} {buf0 : Mem UInt8} {err : PrError}
      {s' : σ} :
      Returns (prI2cEepromWrite d.type inst s d.saddr addr data data.length saddr0 buf0) (err, s') →
      Performs d inst s (.write addr data) (err, []) s'

/-- A sequence of calls of the driver with what each has returned, from one state of the chip to
another. -/
inductive Session (d : Device) :
    BusyChip → List StoreOp → List (PrError × List UInt8) → BusyChip → Prop
  | nil {c : BusyChip} : Session d c [] [] c
  | cons {c c' c'' : BusyChip} {op : StoreOp} {r : PrError × List UInt8} {ops : List StoreOp}
      {rs : List (PrError × List UInt8)} :
      Performs d (busyInst d) c op r c' → Session d c' ops rs c'' →
      Session d c (op :: ops) (r :: rs) c''

namespace StoreLemmas

variable {d : Device} {c : BusyChip}

theorem rejected {type : PrI2cEepromType} {addr n : Nat} (hlt : addr + n < 2 ^ 32)
    (h : ¬ addr + n ≤ type.part.size) : outOfRange type.part addr n = true := by
  rw [← Bool.not_eq_false]
  exact fun hin => h ((range_accepted_iff type hlt).mp hin)

theorem performs_exists (hc : c.Ready) {op : StoreOp} (hop : op.Fits d.part) :
    ∃ r c', Performs d (busyInst d) c op r c' := by
  cases op with
  | read addr n => exact ⟨_, _, .read rfl⟩
  | write addr data =>
    obtain ⟨hdata, hlt, hpages⟩ := hop
    by_cases hrange : addr + data.length ≤ d.part.size
    · obtain ⟨c', hret, -⟩ := write_busy hrange hdata hpages hc 0 fun _ => 0
      exact ⟨_, c', .write hret⟩
    · have hout : outOfRange d.type.part addr data.length = true := rejected hlt hrange
      have hinval : Returns (prI2cEepromWrite d.type (busyInst d) c d.saddr addr data data.length
          0 fun _ => 0) (.inval, c) := ⟨0, by rw [prI2cEepromWrite_eq, if_pos hout]⟩
      exact ⟨_, c, .write hinval⟩

/-- A call of the driver is one of the store. -/
theorem performs_perform (hc : c.Ready) {op : StoreOp} (hop : op.Fits d.part)
    {r : PrError × List UInt8} {c' : BusyChip} (h : Performs d (busyInst d) c op r c') :
    op.perform d.part.size c.chip.mem = (r, c'.chip.mem) ∧ c'.Ready := by
  cases h with
  | @read addr n err rdata c' hread =>
    obtain ⟨hn, hlt⟩ := hop
    by_cases hrange : addr + n ≤ d.part.size
    · obtain ⟨c1, hok, hmem, hready⟩ := read_ready hrange hn hc
      obtain ⟨rfl, rfl, rfl⟩ : PrError.ok = err ∧ load c.chip.mem addr n = rdata ∧ c1 = c' := by
        simpa [hok] using hread
      rw [StoreOp.perform, if_pos hrange, hmem]
      exact ⟨rfl, hready⟩
    · have hout : outOfRange d.type.part addr n = true := rejected hlt hrange
      rw [prI2cEepromRead_eq, eepromRead, if_pos hout] at hread
      cases hread
      rw [StoreOp.perform, if_neg hrange]
      exact ⟨rfl, hc⟩
  | @write addr data saddr0 buf0 err c' hret =>
    obtain ⟨hdata, hlt, hpages⟩ := hop
    have hfueled := prI2cEepromWrite_fueled d.type (busyInst d) c d.saddr addr data data.length
      saddr0 buf0
    by_cases hrange : addr + data.length ≤ d.part.size
    · obtain ⟨c1, hok, hmem, hready⟩ := write_busy hrange hdata hpages hc saddr0 buf0
      obtain ⟨rfl, rfl⟩ := Prod.mk.inj (hfueled.returns_unique hret hok)
      rw [StoreOp.perform, if_pos hrange, hmem]
      exact ⟨rfl, hready⟩
    · have hout : outOfRange d.type.part addr data.length = true := rejected hlt hrange
      have hinval : Returns (prI2cEepromWrite d.type (busyInst d) c d.saddr addr data data.length
          saddr0 buf0) (.inval, c) := ⟨0, by rw [prI2cEepromWrite_eq, if_pos hout]⟩
      obtain ⟨rfl, rfl⟩ := Prod.mk.inj (hfueled.returns_unique hret hinval)
      rw [StoreOp.perform, if_neg hrange]
      exact ⟨rfl, hc⟩

end StoreLemmas

open StoreLemmas in
/-- Every sequence of reads and writes comes to an end on a chip that refuses up to 127 transactions
after each page that it is given. It returns what an array of bytes does, and leaves the same
bytes, with the chip ready. -/
theorem store_refined {d : Device} {c : BusyChip} (hc : c.Ready) {ops : List StoreOp}
    (hops : ∀ op ∈ ops, op.Fits d.part) :
    (∃ rs c', Session d c ops rs c') ∧
      ∀ rs c', Session d c ops rs c' →
        performAll d.part.size c.chip.mem ops = (rs, c'.chip.mem) ∧ c'.Ready := by
  induction ops generalizing c with
  | nil =>
    refine ⟨⟨[], c, .nil⟩, fun rs c' h => ?_⟩
    cases h
    exact ⟨rfl, hc⟩
  | cons op ops ih =>
    obtain ⟨hop, hrest⟩ := List.forall_mem_cons.mp hops
    refine ⟨?_, fun rs c' h => ?_⟩
    · obtain ⟨r, c1, h1⟩ := performs_exists hc hop
      obtain ⟨⟨rs, c', h2⟩, -⟩ := ih (performs_perform hc hop h1).2 hrest
      exact ⟨r :: rs, c', .cons h1 h2⟩
    · cases h with
      | cons h1 h2 =>
        obtain ⟨hperform, hready⟩ := performs_perform hc hop h1
        obtain ⟨hall, hready'⟩ := (ih hready hrest).2 _ _ h2
        rw [performAll, hperform]
        simp only [hall]
        exact ⟨trivial, hready'⟩

namespace StoreLemmas

/-- A chip that refuses five transactions after each write. -/
def slow : BusyChip := ⟨⟨fun _ => 0xff, 0, []⟩, 0, fun _ => 5⟩

end StoreLemmas

open StoreLemmas PageLemmas in
/-- Two pages are written and read, and a byte behind the end of the chip. -/
theorem store_refined_pages :
    ∃ c', Session demo slow [.write 0 (List.replicate 32 7), .read 15 2, .read 1024 1]
      [(.ok, []), (.ok, [7, 7]), (.inval, [])] c' := by
  have hready : slow.Ready := ⟨rfl, fun _ => show 5 < 128 by decide⟩
  have hfits : ∀ op ∈ [StoreOp.write 0 (List.replicate 32 7), .read 15 2, .read 1024 1],
      op.Fits demo.part := by
    intro op hop
    simp only [List.mem_cons, List.not_mem_nil, or_false] at hop
    rcases hop with rfl | rfl | rfl
    · exact ⟨by decide, by decide, .inl (by decide)⟩
    · exact ⟨by decide, by decide⟩
    · exact ⟨by decide, by decide⟩
  obtain ⟨⟨rs, c', h⟩, hall⟩ := store_refined hready hfits
  obtain rfl : [(PrError.ok, []), (.ok, [7, 7]), (.inval, [])] = rs :=
    congrArg Prod.fst (hall rs c' h).1
  exact ⟨c', h⟩

end Picore.I2c
