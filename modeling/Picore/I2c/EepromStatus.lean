import Picore.I2c.EepromTrace

/-!
# The status of an EEPROM write

A write returns the error of a chunk that is refused. Behind the last chunk both drivers poll the
chip until it answers. One of them returns the result of the last poll, the other one returns
`PR_OK` in any case.

Results:
1. `tries_data`, `acked_data`: the data that a write has delivered.
2. `polls_ok_iff`: the polls.
3. `accepted_of_overflow`: the sizes that are accepted, but not in the range of the chip.
4. `status_exact_iff`: when a write returns `PR_OK` iff it has been one.
   `silent_chip_ok`: a write that returns `PR_OK` while the chip answers to no poll.
-/

namespace Picore.I2c

open Memory Fuel Retry

variable {σ : Type}

/-- The data that a call delivers: that of a write to its end which the bus acknowledges. -/
def Xfer.delivered (p : Part) (inst : I2cInst σ) : Xfer → List UInt8
  | .write saddr bytes false err =>
    if (Xfer.write saddr bytes false err).err inst = .ok then bytes.drop p.addrSize else []
  | _ => []

/-- The call is a read that succeeds. Only the polls of a write read. -/
def Xfer.Answered (inst : I2cInst σ) : Xfer → Prop
  | .write .. => False
  | .read saddr size nostop err => (Xfer.read saddr size nostop err).err inst = .ok

/-- The status of a write on the bus.

* `ok_iff`: it is `PR_OK` iff the bus acknowledges all chunks, each within its attempts, and a poll
  has succeeded.
* `err`: any other is what the last call has come to.
* `front`: what has been acknowledged is a prefix of the data. -/
structure StatusOf (w : WriteCall) (inst : I2cInst σ) (s : σ) (r : PrError) (log : List Xfer) :
    Prop where
  ok_iff : r = .ok ↔
    (∃ s' groups, Acked w inst s w.count s' groups) ∧ ∃ x ∈ log, x.Answered inst
  err : r ≠ .ok → ∃ x, log.getLast? = some x ∧ x.err inst = r
  front : log.flatMap (Xfer.delivered w.type.part inst) <+: w.data

/-- A write on the bus ends with this status. -/
def StatusExact (w : WriteCall) (inst : I2cInst σ) (s : σ) (saddr0 : UInt8) (buf0 : Mem UInt8) :
    Prop :=
  ∃ r s' log, Returns (w.run (traced inst) (s, []) saddr0 buf0) (r, s', log) ∧
    StatusOf w inst s r log

/-- One of 128 polls of the chunk that was the last one succeeds, from the state `s` on. -/
def Answers (w : WriteCall) (inst : I2cInst σ) (s : σ) : Prop :=
  let poll := fun s =>
    let r := prI2cBusWriteRead inst s (w.slave (w.count - 1)) (w.header (w.count - 1)) 1
    (r.1, r.2.2)
  ∃ i < 128, result poll s i = .ok

/-- What a bus has to do for a right status: it refuses a chunk, or it acknowledges all chunks and
the chip answers to a poll. The 24AA64 need not answer. -/
inductive Reliable (w : WriteCall) (inst : I2cInst σ) (s : σ) : Prop
  | refused {k : Nat} {err : PrError} {s' : σ} {groups : List (List Xfer)} :
      Refused w inst s k err s' groups → (List.range k).flatMap w.payload <+: w.data →
      Reliable w inst s
  | polled {s' : σ} {groups : List (List Xfer)} : w.addr + w.data.length < 2 ^ 32 →
      Acked w inst s w.count s' groups → w.type = .eeprom24aa64 ∨ Answers w inst s' →
      Reliable w inst s

namespace EepromStatusLemmas

variable {w : WriteCall} {inst : I2cInst σ} {s s' : σ} {err : PrError}

/-! ## 1. The chunks -/

/-- Attempts at a chunk deliver its data, if the last one is acknowledged. -/
theorem tries_data {k : Nat} {xs : List Xfer} (h : ChunkTries w inst k s err s' xs) :
    xs.flatMap (Xfer.delivered w.type.part inst) = if err = .ok then w.payload k else [] := by
  obtain ⟨n, rfl, rfl, hfailed⟩ := h.tries.split
  have hnone : (record (written inst (w.slave k) (w.header k ++ w.payload k))
      (prI2cBusWrite inst · (w.slave k) (w.header k ++ w.payload k)) s n).flatMap
        (Xfer.delivered w.type.part inst) = [] := by
    refine List.flatMap_eq_nil_iff.mpr fun x hx => ?_
    obtain ⟨i, hi, rfl⟩ := mem_record.mp hx
    exact if_neg (hfailed i hi)
  have hdrop : (w.header k ++ w.payload k).drop w.type.part.addrSize = w.payload k := by
    rw [← w.length_header k, List.drop_left]
  rw [List.flatMap_append, hnone, List.nil_append, List.flatMap_singleton, written, Xfer.delivered,
    hdrop]
  rfl

theorem acked_data {n : Nat} {groups : List (List Xfer)} (h : Acked w inst s n s' groups) :
    groups.flatten.flatMap (Xfer.delivered w.type.part inst) =
      (List.range n).flatMap w.payload := by
  induction h with
  | zero => rfl
  | succ _ hchunk ih =>
    rw [List.flatten_append, List.flatMap_append, ih, List.flatten_singleton, tries_data hchunk,
      if_pos rfl, List.range_succ, List.flatMap_append, List.flatMap_singleton]

theorem tries_not_answered {k : Nat} {xs : List Xfer} (h : ChunkTries w inst k s err s' xs) :
    ∀ x ∈ xs, ¬ x.Answered inst := by
  intro x hx
  obtain ⟨ret, rfl⟩ := h.tries.call hx
  exact id

theorem acked_not_answered {n : Nat} {groups : List (List Xfer)}
    (h : Acked w inst s n s' groups) : ∀ x ∈ groups.flatten, ¬ x.Answered inst := by
  induction h with
  | zero => exact nofun
  | succ _ hchunk ih =>
    intro x hx
    rw [List.flatten_append, List.flatten_singleton] at hx
    rcases List.mem_append.mp hx with hx | hx
    · exact ih x hx
    · exact tries_not_answered hchunk x hx

/-- As long as `offset` does not wrap, the chunks are one behind the other. -/
theorem payloads_eq (hrange : w.addr + w.data.length ≤ w.type.part.size) (k : Nat) :
    (List.range k).flatMap w.payload = w.data.take (w.offset k) := by
  have hsize := partSize_le w.type
  induction k with
  | zero => rfl
  | succ k ih =>
    have hfits : w.offset k + chuckSize w.type.part w.addr w.data.length (w.offset k) < 2 ^ 16 := by
      rw [chuckSize_eq, w.offset_eq hrange]
      omega
    rw [List.range_succ, List.flatMap_append, ih, List.flatMap_singleton, WriteCall.payload,
      WriteCall.offset, Nat.mod_eq_of_lt hfits, List.take_add]

theorem refused_data {k : Nat} {groups : List (List Xfer)}
    (h : Refused w inst s k err s' groups) :
    groups.flatten.flatMap (Xfer.delivered w.type.part inst) =
      (List.range k).flatMap w.payload := by
  cases h with
  | last hacked hchunk herr =>
    rw [List.flatten_append, List.flatten_singleton, List.flatMap_append, acked_data hacked,
      tries_data hchunk, if_neg herr, List.append_nil]

/-- A write with a chunk that is refused has the right status, if the ones before it are a prefix
of the data. -/
theorem refused_status {k : Nat} {groups : List (List Xfer)}
    (h : Refused w inst s k err s' groups)
    (hfront : (List.range k).flatMap w.payload <+: w.data) :
    StatusOf w inst s err groups.flatten := by
  rw [← refused_data h] at hfront
  cases h with
  | last hacked hchunk herr =>
    refine ⟨⟨fun hok => absurd hok herr, ?_⟩, fun _ => ?_, hfront⟩
    · rintro ⟨-, x, hx, hans⟩
      rw [List.flatten_append, List.flatten_singleton] at hx
      rcases List.mem_append.mp hx with hx | hx
      · exact absurd hans (acked_not_answered hacked x hx)
      · exact absurd hans (tries_not_answered hchunk x hx)
    · obtain ⟨x, hx, hxerr⟩ := hchunk.tries.err_last
      refine ⟨x, ?_, hxerr⟩
      rw [List.flatten_append, List.flatten_singleton, List.getLast?_append, hx, Option.some_or]

/-! ## 2. The polls -/

theorem exchanged_data (p : Part) (inst : I2cInst σ) (saddr : UInt8) (wdata : List UInt8)
    (rsize : Nat) (s : σ) :
    (exchanged inst saddr wdata rsize s).flatMap (Xfer.delivered p inst) = [] := by
  rw [exchanged]
  simp only
  split <;> rfl

theorem exchanged_answered (inst : I2cInst σ) (saddr : UInt8) (wdata : List UInt8) (rsize : Nat)
    (s : σ) :
    (∃ x ∈ exchanged inst saddr wdata rsize s, x.Answered inst) ↔
      (prI2cBusWriteRead inst s saddr wdata rsize).1 = .ok := by
  simp only [exchanged, prI2cBusWriteRead]
  cases herr : picoToPrErr inst (inst.writeBlocking s saddr wdata true).1 (toInt wdata.length)
  case ok => simp [Xfer.Answered, Xfer.err]
  all_goals simp [Xfer.Answered]

section
variable {p : Part} {st st' : WriteState σ} {polls : List (List Xfer)}

theorem polls_data (h : Polls p inst st err st' polls) :
    polls.flatten.flatMap (Xfer.delivered p inst) = [] := by
  refine List.flatMap_eq_nil_iff.mpr fun x hx => ?_
  obtain ⟨poll, hpoll, hx⟩ := List.mem_flatten.mp hx
  obtain ⟨i, -, rfl⟩ := h.mem hpoll
  exact List.flatMap_eq_nil_iff.mp (exchanged_data p inst _ _ _ _) x hx

/-- The last poll succeeds iff one of them has been answered. -/
theorem polls_ok_iff (h : Polls p inst st err st' polls) :
    err = .ok ↔ ∃ x ∈ polls.flatten, x.Answered inst := by
  obtain ⟨n, rfl, rfl, hfailed⟩ := h.split
  have hpoll : ∀ i, result (pollOnce p inst) st i = .ok ↔
      ∃ x ∈ polled p inst (after (pollOnce p inst) st i), x.Answered inst :=
    fun i => (exchanged_answered inst _ _ _ _).symm
  rw [hpoll n, List.flatten_append, List.flatten_singleton]
  constructor
  · rintro ⟨x, hx, hans⟩
    exact ⟨x, List.mem_append_right _ hx, hans⟩
  · rintro ⟨x, hx, hans⟩
    rcases List.mem_append.mp hx with hx | hx
    · obtain ⟨poll, hmem, hx⟩ := List.mem_flatten.mp hx
      obtain ⟨i, hi, rfl⟩ := mem_record.mp hmem
      exact absurd ((hpoll i).mpr ⟨x, hx, hans⟩) (hfailed i hi)
    · exact ⟨x, hx, hans⟩

theorem polls_err_last (h : Polls p inst st err st' polls) :
    ∃ x, polls.flatten.getLast? = some x ∧ x.err inst = err := by
  obtain ⟨n, rfl, rfl, -⟩ := h.split
  obtain ⟨x, hx, hxerr⟩ := exchanged_err inst (after (pollOnce p inst) st n).saddr
    (load (after (pollOnce p inst) st n).buf 0 p.addrSize) 1 (after (pollOnce p inst) st n).bus
  refine ⟨x, ?_, hxerr⟩
  rw [List.flatten_append, List.flatten_singleton, List.getLast?_append, polled, hx, Option.some_or]

/-- The address byte of a 24LC08 is the same in all polls. -/
theorem answers_iff (htype : w.type = .eeprom24lc08) (h : Polls w.type.part inst st err st' polls)
    (hsaddr : st.saddr = w.slave (w.count - 1))
    (hheader : load st.buf 0 w.type.part.addrSize = w.header (w.count - 1)) :
    err = .ok ↔ Answers w inst st.bus := by
  have hsize : w.type.part.addrSize = 1 := by rw [htype]; rfl
  let poll := fun s =>
    let r := prI2cBusWriteRead inst s (w.slave (w.count - 1)) (w.header (w.count - 1)) 1
    (r.1, r.2.2)
  have hseen : Seen (fun st : WriteState σ => st.saddr = w.slave (w.count - 1) ∧
      load st.buf 0 w.type.part.addrSize = w.header (w.count - 1)) WriteState.bus
      (pollOnce w.type.part inst) poll := by
    rintro st ⟨hsaddr, hheader⟩
    simp only [pollOnce, hsaddr, hheader]
    refine ⟨rfl, trivial, ?_⟩
    rw [← hheader, hsize]
    exact load_store_disjoint (.inl (Nat.le_refl 1))
  rw [h.good_iff, Answers]
  exact exists_congr fun i =>
    and_congr_right fun _ => by rw [← hseen.result ⟨hsaddr, hheader⟩ i]

theorem finish_of_ne {type : PrI2cEepromType} (h : type.finish err ≠ .ok) :
    type.finish err = err := by
  cases type with
  | eeprom24lc08 => exact absurd rfl h
  | eeprom24aa64 => rfl

/-- What polls say about the status: that of the chip, or nothing. -/
theorem polled_status (hrange : w.addr + w.data.length ≤ w.type.part.size)
    {groups : List (List Xfer)} (hacked : Acked w inst s w.count st.bus groups)
    (hpolls : Polls w.type.part inst st err st' polls) :
    StatusOf w inst s (w.type.finish err) (groups.flatten ++ polls.flatten) ↔
      w.type = .eeprom24aa64 ∨ err = .ok := by
  have hdata : (groups.flatten ++ polls.flatten).flatMap (Xfer.delivered w.type.part inst) =
      w.data := by
    rw [List.flatMap_append, acked_data hacked, polls_data hpolls, List.append_nil,
      payloads_eq hrange, List.take_of_length_le (w.offset_count hrange)]
  have hans : (∃ x ∈ groups.flatten ++ polls.flatten, x.Answered inst) ↔ err = .ok := by
    rw [polls_ok_iff hpolls]
    constructor
    · rintro ⟨x, hx, hans⟩
      exact ⟨x, (List.mem_append.mp hx).resolve_left
        fun hx => acked_not_answered hacked x hx hans, hans⟩
    · rintro ⟨x, hx, hans⟩
      exact ⟨x, List.mem_append_right _ hx, hans⟩
  have hdone : (∃ s' groups, Acked w inst s w.count s' groups) ∧
      (∃ x ∈ groups.flatten ++ polls.flatten, x.Answered inst) ↔ err = .ok :=
    (and_iff_right ⟨_, _, hacked⟩).trans hans
  have hstatus : StatusOf w inst s (w.type.finish err) (groups.flatten ++ polls.flatten) ↔
      (w.type.finish err = .ok ↔ err = .ok) := by
    refine ⟨fun h => h.ok_iff.trans hdone, fun h => ?_⟩
    refine ⟨h.trans hdone.symm, fun hne => ?_, hdata ▸ List.prefix_rfl⟩
    obtain ⟨x, hx, hxerr⟩ := polls_err_last hpolls
    refine ⟨x, ?_, ?_⟩
    · rw [List.getLast?_append, hx, Option.some_or]
    · rw [hxerr, finish_of_ne hne]
  rw [hstatus]
  cases w.type with
  | eeprom24lc08 => simp [PrI2cEepromType.finish, eq_comm]
  | eeprom24aa64 => simp [PrI2cEepromType.finish]

end

/-! ## 3. Sizes whose sum wraps -/

/-- A write of such data only ends at a chunk that is refused. -/
theorem refused_of_long (hin : outOfRange w.type.part w.addr w.data.length = false)
    (hlong : 2 ^ 16 ≤ w.data.length) {saddr0 : UInt8} {buf0 : Mem UInt8} {r : PrError}
    {log : List Xfer} (h : Returns (w.run (traced inst) (s, []) saddr0 buf0) (r, s', log)) :
    ∃ k groups, Refused w inst s k r s' groups ∧ log = groups.flatten := by
  obtain ⟨fuel, hrun⟩ := h
  rcases writeLoop_heads (head_start w inst s saddr0 buf0) fuel
    (fun k _ => w.offset_lt_of_long hlong k) with ⟨st, -, hloop⟩ |
    ⟨k, -, err, st, s1, groups, href, -, -⟩
  · rw [w.run_eq, if_neg (Bool.not_eq_true _ ▸ hin), ← Nat.add_zero fuel, hloop] at hrun
    cases hrun
  · have hsame := (prI2cEepromWrite_fueled _ _ _ _ _ _ _ _ _).returns_unique ⟨fuel, hrun⟩
      (href.returns hin saddr0 buf0)
    obtain ⟨rfl, hbus⟩ := Prod.mk.inj hsame
    obtain ⟨rfl, rfl⟩ := Prod.mk.inj hbus
    exact ⟨k, groups, href, rfl⟩

/-! ## 4. A whole write -/

theorem statusExact_of_returns {saddr0 : UInt8} {buf0 : Mem UInt8} {r : PrError} {log : List Xfer}
    (h : Returns (w.run (traced inst) (s, []) saddr0 buf0) (r, s', log)) :
    StatusExact w inst s saddr0 buf0 ↔ StatusOf w inst s r log := by
  refine ⟨fun ⟨r', s'', log', hret, hstatus⟩ => ?_, fun hstatus => ⟨r, s', log, h, hstatus⟩⟩
  have hsame := (prI2cEepromWrite_fueled _ _ _ _ _ _ _ _ _).returns_unique hret h
  obtain ⟨rfl, hbus⟩ := Prod.mk.inj hsame
  obtain ⟨-, rfl⟩ := Prod.mk.inj hbus
  exact hstatus

theorem count_pos (hpos : 0 < w.data.length) : 0 < w.count :=
  (w.lt_count 0).mpr (by rwa [Nat.zero_mul])

theorem status_iff_of_range (hrange : w.addr + w.data.length ≤ w.type.part.size)
    (hpos : 0 < w.data.length) (inst : I2cInst σ) (s : σ) (saddr0 : UInt8) (buf0 : Mem UInt8) :
    StatusExact w inst s saddr0 buf0 ↔ Reliable w inst s := by
  obtain ⟨r, s', log, hends, hret⟩ := eepromWrite_returns hrange inst s saddr0 buf0
  rw [statusExact_of_returns hret]
  cases hends with
  | @refused k _ _ _ href =>
    have hfront : (List.range k).flatMap w.payload <+: w.data :=
      payloads_eq hrange k ▸ List.take_prefix _ _
    exact iff_of_true (refused_status href hfront) (.refused href hfront)
  | @polled n _ _ st _ err hacked hend htarget hpolls =>
    obtain rfl : n = w.count := Nat.le_antisymm (hacked.le_count hrange)
      (Nat.le_of_not_lt fun hlt => Nat.not_lt_of_le hend (w.offset_lt hrange hlt))
    obtain ⟨hsaddr, hheader⟩ := htarget (w.count - 1) (Nat.sub_add_cancel (count_pos hpos)).symm
    have hanswers : w.type = .eeprom24aa64 ∨ err = .ok ↔
        w.type = .eeprom24aa64 ∨ Answers w inst st.bus := by
      cases htype : w.type with
      | eeprom24lc08 => rw [answers_iff htype hpolls hsaddr hheader]
      | eeprom24aa64 => exact iff_of_true (.inl rfl) (.inl rfl)
    rw [polled_status hrange hacked hpolls, hanswers]
    constructor
    · exact .polled (sum_lt_of_range hrange) hacked
    · intro hrel
      cases hrel with
      | refused href _ =>
        exact absurd hacked
          (href.not_acked (w.lt_count_of_offset hrange (href.lt (Nat.le_refl _))))
      | polled _ hacked' hor =>
        obtain ⟨rfl, -⟩ := hacked'.unique hacked
        exact hor

theorem status_iff_of_wraps (hin : outOfRange w.type.part w.addr w.data.length = false)
    (hsum : 2 ^ 32 ≤ w.addr + w.data.length) (inst : I2cInst σ) (s : σ) (saddr0 : UInt8)
    (buf0 : Mem UInt8) : StatusExact w inst s saddr0 buf0 ↔ Reliable w inst s := by
  have haddr := Nat.le_trans (addr_le_of_accepted hin) (partSize_le w.type)
  have hlong : 2 ^ 16 ≤ w.data.length := by omega
  constructor
  · rintro ⟨r, s', log, hret, hstatus⟩
    obtain ⟨k, groups, href, rfl⟩ := refused_of_long hin hlong hret
    exact .refused href (refused_data href ▸ hstatus.front)
  · intro hrel
    cases hrel with
    | refused href hfront =>
      exact ⟨_, _, _, href.returns hin saddr0 buf0, refused_status href hfront⟩
    | polled hlt => exact absurd hlt (Nat.not_lt_of_le hsum)

end EepromStatusLemmas

open EepromStatusLemmas

/-- The status of a write is right iff the bus is reliable. A chunk that is refused to the end is
reported by both drivers, but the 24LC08 driver drops the result of the final wait, so there the
chip must answer to a poll. -/
theorem status_exact_iff (w : WriteCall) (inst : I2cInst σ) (s : σ) (saddr0 : UInt8)
    (buf0 : Mem UInt8) (hin : outOfRange w.type.part w.addr w.data.length = false)
    (hpos : 0 < w.data.length) :
    StatusExact w inst s saddr0 buf0 ↔ Reliable w inst s := by
  rcases Nat.lt_or_ge (w.addr + w.data.length) (2 ^ 32) with hsum | hsum
  · exact status_iff_of_range ((range_accepted_iff w.type hsum).mp hin) hpos inst s saddr0 buf0
  · exact status_iff_of_wraps hin hsum inst s saddr0 buf0

namespace EepromStatusLemmas

/-- A byte for the EEPROM of a demo board. -/
def oneByte : WriteCall := ⟨.eeprom24lc08, 0x50, 0, [0xaa]⟩

/-- A bus on which the chip takes writes and does not answer to polls. -/
def deafBus : I2cInst Unit where
  errorGeneric := -1
  errorTimeout := -2
  writeBlocking s _ bytes nostop := (if nostop then -1 else toInt bytes.length, s)
  readBlocking s _ _ _ := (-1, [], s)

end EepromStatusLemmas

open EepromStatusLemmas in
theorem status_exact_iff_oneByte :
    StatusExact oneByte deafBus () 0 (fun _ => 0) ↔ Reliable oneByte deafBus () :=
  status_exact_iff oneByte deafBus () 0 (fun _ => 0) (by decide) (by decide)

open EepromStatusLemmas in
/-- A write returns `PR_OK` behind 128 polls that have failed. -/
theorem silent_chip_ok :
    outOfRange oneByte.type.part oneByte.addr oneByte.data.length = false ∧
    Returns (oneByte.run (traced deafBus) ((), []) 0 fun _ => 0) (.ok, (),
      .write 0x50 [0, 0xaa] false 2 :: List.replicate 128 (.write 0x50 [0] true (-1))) ∧
    ¬ StatusExact oneByte deafBus () 0 (fun _ => 0) := by
  have hrun : Returns (oneByte.run (traced deafBus) ((), []) 0 fun _ => 0) (.ok, (),
      .write 0x50 [0, 0xaa] false 2 :: List.replicate 128 (.write 0x50 [0] true (-1))) :=
    ⟨2, toOption_eq_some.mp (by decide +kernel)⟩
  refine ⟨by decide, hrun, fun h => ?_⟩
  obtain ⟨-, x, hx, hans⟩ := ((statusExact_of_returns hrun).mp h).ok_iff.mp rfl
  rcases List.mem_cons.mp hx with rfl | hx
  · exact hans
  · obtain rfl := List.eq_of_mem_replicate hx
    exact hans

end Picore.I2c
