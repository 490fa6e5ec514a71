import Picore.I2c.EepromPages
import Picore.Lib.Retry

/-!
# What an EEPROM write asks the bus

A bus can keep a log of the calls that it gets from the drivers. On any bus, a write goes through
its chunks, each of them attempted until the bus acknowledges it or has refused it 128 times, and
polls the chip behind the last one.

Results:
1. `prI2cBusWrite_traced`, `prI2cBusWriteRead_traced`: the calls of the bus functions.
2. `retry_tries`: the attempts at one chunk. `Acked.unique`: the chunks acknowledged.
3. `writeLoop_heads`: the loop ends at the first chunk that is refused.
4. `pollReady_polls`: the polls.
5. `eepromWrite_refused`, `eepromWrite_polled`: a whole write.
6. `eepromWrite_returns`: in the range of the chip a write always ends.
-/

namespace Picore.I2c

open Memory Fuel Retry

variable {σ : Type}

/-! ## 1. Calls -/

/-- A call of the SDK with its arguments, and what it returned. -/
inductive Xfer
  | write (saddr : UInt8) (bytes : List UInt8) (nostop : Bool) (err : Int)
  | read (saddr : UInt8) (size : Nat) (nostop : Bool) (err : Int)
  deriving DecidableEq

def Xfer.err (inst : I2cInst σ) : Xfer → PrError
  | .write _ bytes _ err => picoToPrErr inst err (toInt bytes.length)
  | .read _ size _ err => picoToPrErr inst err (toInt size)

/-- The bus `inst` with a log of its transactions and of what each has returned. The driver cannot
tell it from `inst`. -/
def traced (inst : I2cInst σ) : I2cInst (σ × List Xfer) where
  errorGeneric := inst.errorGeneric
  errorTimeout := inst.errorTimeout
  writeBlocking s saddr bytes nostop :=
    let (err, bus) := inst.writeBlocking s.1 saddr bytes nostop
    (err, (bus, s.2 ++ [.write saddr bytes nostop err]))
  readBlocking s saddr size nostop :=
    let (err, rdata, bus) := inst.readBlocking s.1 saddr size nostop
    (err, rdata, (bus, s.2 ++ [.read saddr size nostop err]))

/-- The call that `pr_i2c_bus_write` makes. -/
def written (inst : I2cInst σ) (saddr : UInt8) (bytes : List UInt8) (s : σ) : Xfer :=
  .write saddr bytes false (inst.writeBlocking s saddr bytes false).1

/-- The calls that `pr_i2c_bus_write_read` makes. -/
def exchanged (inst : I2cInst σ) (saddr : UInt8) (wdata : List UInt8) (rsize : Nat) (s : σ) :
    List Xfer :=
  let (err, s) := inst.writeBlocking s saddr wdata true
  match picoToPrErr inst err (toInt wdata.length) with
  | .ok => [.write saddr wdata true err,
      .read saddr rsize false (inst.readBlocking s saddr rsize false).1]
  | _ => [.write saddr wdata true err]

theorem picoToPrErr_traced (inst : I2cInst σ) (err count : Int) :
    picoToPrErr (traced inst) err count = picoToPrErr inst err count :=
  rfl

theorem traced_write (inst : I2cInst σ) (saddr : UInt8) (bytes : List UInt8) (nostop : Bool)
    (s : σ × List Xfer) :
    (traced inst).writeBlocking s saddr bytes nostop =
      ((inst.writeBlocking s.1 saddr bytes nostop).1,
        ((inst.writeBlocking s.1 saddr bytes nostop).2,
          s.2 ++ [.write saddr bytes nostop (inst.writeBlocking s.1 saddr bytes nostop).1])) :=
  rfl

theorem traced_read (inst : I2cInst σ) (saddr : UInt8) (size : Nat) (nostop : Bool)
    (s : σ × List Xfer) :
    (traced inst).readBlocking s saddr size nostop =
      ((inst.readBlocking s.1 saddr size nostop).1,
        (inst.readBlocking s.1 saddr size nostop).2.1,
        ((inst.readBlocking s.1 saddr size nostop).2.2,
          s.2 ++ [.read saddr size nostop (inst.readBlocking s.1 saddr size nostop).1])) :=
  rfl

theorem prI2cBusWrite_traced (inst : I2cInst σ) (saddr : UInt8) (bytes : List UInt8) :
    (fun s => prI2cBusWrite (traced inst) s saddr bytes) =
      logged (prI2cBusWrite inst · saddr bytes) fun s => [written inst saddr bytes s] :=
  rfl

theorem prI2cBusWriteRead_traced (inst : I2cInst σ) (saddr : UInt8) (wdata : List UInt8)
    (rsize : Nat) (s : σ × List Xfer) :
    prI2cBusWriteRead (traced inst) s saddr wdata rsize =
      ((prI2cBusWriteRead inst s.1 saddr wdata rsize).1,
        (prI2cBusWriteRead inst s.1 saddr wdata rsize).2.1,
        ((prI2cBusWriteRead inst s.1 saddr wdata rsize).2.2,
          s.2 ++ exchanged inst saddr wdata rsize s.1)) := by
  have hwrite := traced_write inst saddr wdata true s
  have hread := fun s => traced_read inst saddr rsize false s
  simp only [prI2cBusWriteRead, exchanged, hwrite, hread, picoToPrErr_traced]
  cases picoToPrErr inst (inst.writeBlocking s.1 saddr wdata true).1 (toInt wdata.length)
  case ok => simp
  all_goals rfl

/-- What an exchange returns is what it makes of its last call. -/
theorem exchanged_err (inst : I2cInst σ) (saddr : UInt8) (wdata : List UInt8) (rsize : Nat)
    (s : σ) :
    ∃ x, (exchanged inst saddr wdata rsize s).getLast? = some x ∧
      x.err inst = (prI2cBusWriteRead inst s saddr wdata rsize).1 := by
  simp only [exchanged, prI2cBusWriteRead]
  cases herr : picoToPrErr inst (inst.writeBlocking s saddr wdata true).1 (toInt wdata.length)
  case ok => exact ⟨_, rfl, rfl⟩
  all_goals exact ⟨_, rfl, herr⟩

theorem exchanged_cons (inst : I2cInst σ) (saddr : UInt8) (wdata : List UInt8) (rsize : Nat)
    (s : σ) :
    ∃ ret rest, exchanged inst saddr wdata rsize s = .write saddr wdata true ret :: rest := by
  simp only [exchanged]
  split
  · exact ⟨_, _, rfl⟩
  · exact ⟨_, _, rfl⟩

/-! ## 2. Attempts -/

theorem retry_eq_run {α : Type} (attempt : α → PrError × α) (n : Nat) (s : α) :
    retry attempt (n + 1) s = run (· = .ok) attempt n s := by
  induction n generalizing s with
  | zero => simp [retry, run]
  | succ n ih =>
    show (if (attempt s).1 = .ok ∨ n + 1 = 0 then attempt s else retry attempt (n + 1) _) = _
    rw [ih, run]
    simp only [Nat.succ_ne_zero, or_false]

/-- The attempts at a write of `bytes`, on a bus in the state `s`: what the last one returned, the
state after it, and the calls. -/
abbrev Tries (inst : I2cInst σ) (saddr : UInt8) (bytes : List UInt8) :
    σ → PrError → σ → List Xfer → Prop :=
  Tried (· = .ok) (prI2cBusWrite inst · saddr bytes) (written inst saddr bytes) 128

/-- A loop of attempts on a bus with a log. -/
theorem retry_tries (inst : I2cInst σ) (saddr : UInt8) (bytes : List UInt8)
    (s : σ × List Xfer) :
    ∃ err s' xs, Tries inst saddr bytes s.1 err s' xs ∧
      retry (fun s => prI2cBusWrite (traced inst) s saddr bytes) 128 s = (err, s', s.2 ++ xs) := by
  obtain ⟨n, hlast, hrun⟩ := run_last (· = .ok)
    (logged (prI2cBusWrite inst · saddr bytes) fun s => [written inst saddr bytes s]) 127 s
  refine ⟨_, _, _, .last hlast.of_logged, ?_⟩
  rw [retry_eq_run, prI2cBusWrite_traced, hrun, result_logged, after_logged,
    flatten_record_singleton]

section
variable {inst : I2cInst σ} {saddr : UInt8} {bytes : List UInt8} {s s' : σ} {err : PrError}
  {xs : List Xfer}

theorem Tries.call (h : Tries inst saddr bytes s err s' xs) {x : Xfer} (hx : x ∈ xs) :
    ∃ ret, x = .write saddr bytes false ret := by
  obtain ⟨i, -, rfl⟩ := Tried.mem h hx
  exact ⟨_, rfl⟩

theorem Tries.err_last (h : Tries inst saddr bytes s err s' xs) :
    ∃ x, xs.getLast? = some x ∧ x.err inst = err := by
  obtain ⟨n, rfl, rfl, -⟩ := Tried.split h
  exact ⟨_, List.getLast?_concat, rfl⟩

end

/-! ## 3. Chunks -/

/-- The arguments of `pr_i2c_eeprom_write`, with the type and the address that the instance has. -/
structure WriteCall where
  type : PrI2cEepromType
  saddr : UInt8
  addr : Nat
  data : List UInt8

namespace WriteCall

/-- The write itself. `saddr0` and `buf0` are what the local variables hold at first. -/
def run (w : WriteCall) (inst : I2cInst σ) (s : σ) (saddr0 : UInt8) (buf0 : Mem UInt8) :
    Nat → Outcome Empty (PrError × σ) :=
  prI2cEepromWrite w.type inst s w.saddr w.addr w.data w.data.length saddr0 buf0

def offset (w : WriteCall) : Nat → Nat
  | 0 => 0
  | k + 1 => (w.offset k + chuckSize w.type.part w.addr w.data.length (w.offset k)) % 2 ^ 16

/-- Chunk `k`: where it goes, and the bytes of it that are data. -/
def slave (w : WriteCall) (k : Nat) : UInt8 := w.type.part.slave w.saddr (w.addr + w.offset k)

def header (w : WriteCall) (k : Nat) : List UInt8 := w.type.part.header (w.addr + w.offset k)

/-- The data bytes of chunk `k`: as many as the driver takes at this offset. -/
def payload (w : WriteCall) (k : Nat) : List UInt8 :=
  (w.data.drop (w.offset k)).take (chuckSize w.type.part w.addr w.data.length (w.offset k))

def loop (w : WriteCall) (inst : I2cInst σ) (fuel : Nat) (st : WriteState σ) :
    Outcome Empty (PrError × WriteState σ) :=
  writeLoop w.type.part inst w.saddr w.addr w.data w.data.length fuel st

end WriteCall

/-- The attempts at chunk `k`, which is there, on a bus in the state `s`. -/
structure ChunkTries (w : WriteCall) (inst : I2cInst σ) (k : Nat) (s : σ) (err : PrError) (s' : σ)
    (xs : List Xfer) : Prop where
  lt : w.offset k < w.data.length
  tries : Tries inst (w.slave k) (w.header k ++ w.payload k) s err s' xs

/-- The bus acknowledges the first `k` chunks, from `s` to `s'`. `groups` has the calls for each of
them. -/
inductive Acked (w : WriteCall) (inst : I2cInst σ) (s : σ) :
    Nat → σ → List (List Xfer) → Prop
  | zero : Acked w inst s 0 s []
  | succ {k : Nat} {s' s'' : σ} {groups : List (List Xfer)} {xs : List Xfer} :
      Acked w inst s k s' groups → ChunkTries w inst k s' .ok s'' xs →
      Acked w inst s (k + 1) s'' (groups ++ [xs])

/-- The bus refuses chunk `k`, and has acknowledged the ones before it. -/
inductive Refused (w : WriteCall) (inst : I2cInst σ) (s : σ) (k : Nat) :
    PrError → σ → List (List Xfer) → Prop
  | last {s' s'' : σ} {groups : List (List Xfer)} {xs : List Xfer} {err : PrError} :
      Acked w inst s k s' groups → ChunkTries w inst k s' err s'' xs → err ≠ .ok →
      Refused w inst s k err s'' (groups ++ [xs])

/-- The loop is at its head, with `k` chunks acknowledged. -/
structure Head (w : WriteCall) (inst : I2cInst σ) (s : σ) (k : Nat)
    (st : WriteState (σ × List Xfer)) : Prop where
  acked : ∃ groups, Acked w inst s k st.bus.1 groups ∧ st.bus.2 = groups.flatten
  offset : st.offset = w.offset k
  target : ∀ j, k = j + 1 →
    st.saddr = w.slave j ∧ load st.buf 0 w.type.part.addrSize = w.header j

section
variable {w : WriteCall} {inst : I2cInst σ} {s s' s'' : σ} {k n : Nat} {err err' : PrError}
  {groups groups' : List (List Xfer)}

theorem Acked.unique (h : Acked w inst s k s' groups) (h' : Acked w inst s k s'' groups') :
    s' = s'' ∧ groups = groups' := by
  induction h generalizing s'' groups' with
  | zero =>
    cases h'
    exact ⟨rfl, rfl⟩
  | succ _ hchunk ih =>
    cases h' with
    | succ h' hchunk' =>
      obtain ⟨rfl, rfl⟩ := ih h'
      obtain ⟨-, rfl, rfl⟩ := hchunk.tries.unique hchunk'.tries
      exact ⟨rfl, rfl⟩

theorem Acked.lt (h : Acked w inst s n s' groups) (hk : k < n) : w.offset k < w.data.length := by
  induction h with
  | zero => exact absurd hk (Nat.not_lt_zero k)
  | succ _ hchunk ih =>
    rcases Nat.lt_or_eq_of_le (Nat.le_of_lt_succ hk) with hlt | rfl
    · exact ih hlt
    · exact hchunk.lt

theorem Refused.lt (h : Refused w inst s n err s' groups) (hk : k ≤ n) :
    w.offset k < w.data.length := by
  cases h with
  | last hacked hchunk _ =>
    rcases Nat.lt_or_eq_of_le hk with hlt | rfl
    · exact hacked.lt hlt
    · exact hchunk.lt

theorem Refused.err_ne (h : Refused w inst s k err s' groups) : err ≠ .ok := by
  cases h with
  | last _ _ herr => exact herr

/-- A chunk that has been refused is not acknowledged. -/
theorem Refused.not_acked (h : Refused w inst s k err s' groups) (hk : k < n) :
    ¬ Acked w inst s n s'' groups' := by
  intro hacked
  induction hacked with
  | zero => exact absurd hk (Nat.not_lt_zero k)
  | succ hacked hchunk ih =>
    rcases Nat.lt_or_eq_of_le (Nat.le_of_lt_succ hk) with hlt | rfl
    · exact ih hlt
    · cases h with
      | last hacked' hchunk' herr =>
        obtain ⟨rfl, -⟩ := hacked.unique hacked'
        exact herr (hchunk'.tries.unique hchunk.tries).1

theorem Refused.unique (h : Refused w inst s k err s' groups)
    (h' : Refused w inst s n err' s'' groups') :
    k = n ∧ err = err' ∧ s' = s'' ∧ groups = groups' := by
  have hle : ∀ {i j e e' t t' gs gs'}, Refused w inst s i e t gs → Refused w inst s j e' t' gs' →
      j ≤ i := fun hi hj => Nat.le_of_not_lt fun hlt => by
    cases hj with
    | last hacked _ _ => exact hi.not_acked hlt hacked
  obtain rfl := Nat.le_antisymm (hle h' h) (hle h h')
  cases h with
  | last hacked hchunk _ =>
    cases h' with
    | last hacked' hchunk' _ =>
      obtain ⟨rfl, rfl⟩ := hacked.unique hacked'
      obtain ⟨rfl, rfl, rfl⟩ := hchunk.tries.unique hchunk'.tries
      exact ⟨rfl, rfl, rfl, rfl⟩

end

theorem WriteCall.length_header (w : WriteCall) (k : Nat) :
    (w.header k).length = w.type.part.addrSize :=
  header_length ⟨w.type, 0, fun _ => rfl⟩ _

theorem WriteCall.length_payload (w : WriteCall) (k : Nat) :
    (w.payload k).length = chuckSize w.type.part w.addr w.data.length (w.offset k) :=
  I2c.length_payload w.type.part w.addr w.data (w.offset k)

theorem WriteCall.load_buf (w : WriteCall) {k : Nat} {st : WriteState σ}
    (ho : st.offset = w.offset k) :
    load (chunkBuf w.type.part w.addr w.data w.data.length st) 0
      (chuckSize w.type.part w.addr w.data.length st.offset + w.type.part.addrSize) =
      w.header k ++ w.payload k := by
  have hheader : (w.type.part.header (w.addr + st.offset)).length = w.type.part.addrSize :=
    ho ▸ w.length_header k
  rw [load_chunkBuf w.data hheader, ho]
  rfl

/-- One turn of the loop acknowledges one more chunk, or finds that it is refused. -/
theorem writeChunk_head {w : WriteCall} {inst : I2cInst σ} {s : σ} {k : Nat}
    {st : WriteState (σ × List Xfer)} (h : Head w inst s k st)
    (hlt : w.offset k < w.data.length) :
    (∃ st', writeChunk w.type.part (traced inst) w.saddr w.addr w.data w.data.length st =
        (.ok, st') ∧ Head w inst s (k + 1) st') ∨
      ∃ err st' s' groups, writeChunk w.type.part (traced inst) w.saddr w.addr w.data
          w.data.length st = (err, st') ∧
        Refused w inst s k err s' groups ∧ st'.bus = (s', groups.flatten) := by
  obtain ⟨groups, hacked, hlog⟩ := h.acked
  obtain ⟨err, s', xs, htries, hretry⟩ :=
    retry_tries inst (w.slave k) (w.header k ++ w.payload k) st.bus
  have hslave : chunkSlave w.type.part w.saddr w.addr st = w.slave k := by
    rw [chunkSlave, h.offset]
    rfl
  have hload := w.load_buf h.offset
  rw [← hslave, ← hload] at hretry
  have hturn := writeChunk_eq w.type.part (traced inst) w.saddr w.addr w.data w.data.length st
    hretry
  have hchunk : ChunkTries w inst k st.bus.1 err s' xs := ⟨hlt, htries⟩
  have hbus : st.bus.2 ++ xs = (groups ++ [xs]).flatten := by
    rw [hlog, List.flatten_append, List.flatten_singleton]
  by_cases herr : err = .ok
  · subst herr
    refine .inl ⟨_, hturn, ⟨_, hacked.succ hchunk, hbus⟩, ?_, ?_⟩
    · rw [if_pos rfl, h.offset]
      rfl
    · intro j hj
      cases hj
      refine ⟨hslave, ?_⟩
      have htake := load_take (chunkBuf w.type.part w.addr w.data w.data.length st) (p := 0)
        (Nat.le_add_left w.type.part.addrSize
          (chuckSize w.type.part w.addr w.data.length st.offset))
      rw [hload, ← w.length_header k, List.take_left] at htake
      rw [← w.length_header k]
      exact htake.symm
  · exact .inr ⟨err, _, s', _, hturn, .last hacked hchunk herr, Prod.ext rfl hbus⟩

/-- The loop acknowledges the first `n` chunks, or ends at the first one that is refused. -/
theorem writeLoop_heads {w : WriteCall} {inst : I2cInst σ} {s : σ}
    {st : WriteState (σ × List Xfer)} (h : Head w inst s 0 st) (n : Nat)
    (hlt : ∀ k < n, w.offset k < w.data.length) :
    (∃ st', Head w inst s n st' ∧
      ∀ fuel, w.loop (traced inst) (n + fuel) st = w.loop (traced inst) fuel st') ∨
    ∃ k < n, ∃ err st' s' groups, Refused w inst s k err s' groups ∧
      st'.bus = (s', groups.flatten) ∧
      ∀ fuel, w.loop (traced inst) (n + fuel) st = .ok (err, st') := by
  induction n with
  | zero => exact .inl ⟨st, h, fun fuel => by rw [Nat.zero_add]⟩
  | succ n ih =>
    rcases ih fun k hk => hlt k (Nat.lt_succ_of_lt hk) with ⟨st1, hhead, hloop⟩ |
      ⟨k, hk, err, st', s', groups, href, hbus, hloop⟩
    · have hn := hlt n (Nat.lt_succ_self n)
      have hstep : ∀ fuel, w.loop (traced inst) (n + 1 + fuel) st =
          w.loop (traced inst) (fuel + 1) st1 := fun fuel => by
        rw [Nat.add_assoc, Nat.add_comm 1, hloop]
      rcases writeChunk_head hhead hn with ⟨st2, hturn, hnext⟩ |
        ⟨err, st2, s', groups, hturn, href, hbus⟩
      · refine .inl ⟨st2, hnext, fun fuel => ?_⟩
        rw [hstep, WriteCall.loop, writeLoop, if_pos (hhead.offset ▸ hn), hturn]
        rfl
      · refine .inr ⟨n, Nat.lt_succ_self n, err, st2, s', groups, href, hbus, fun fuel => ?_⟩
        rw [hstep, WriteCall.loop, writeLoop, if_pos (hhead.offset ▸ hn), hturn]
        cases href with
        | last _ _ herr => exact if_pos herr
    · exact .inr ⟨k, Nat.lt_succ_of_lt hk, err, st', s', groups, href, hbus, fun fuel => by
        rw [Nat.add_assoc, hloop]⟩

/-! ## 4. Polls -/

def polled (p : Part) (inst : I2cInst σ) (st : WriteState σ) : List Xfer :=
  exchanged inst st.saddr (load st.buf 0 p.addrSize) 1 st.bus

/-- The polls behind the last chunk: what the last one returned, the state after it, and the calls
of each. -/
abbrev Polls (p : Part) (inst : I2cInst σ) :
    WriteState σ → PrError → WriteState σ → List (List Xfer) → Prop :=
  Tried (· = .ok) (pollOnce p inst) (polled p inst) 128

/-- The state of a write without the log of the bus. -/
def WriteState.unlogged (st : WriteState (σ × List Xfer)) : WriteState σ :=
  { bus := st.bus.1, offset := st.offset, saddr := st.saddr, buf := st.buf }

theorem pollOnce_seen (p : Part) (inst : I2cInst σ) :
    Seen (fun _ => True) (fun st : WriteState (σ × List Xfer) => (st.unlogged, st.bus.2))
      (pollOnce p (traced inst)) (logged (pollOnce p inst) (polled p inst)) := by
  intro st _
  simp only [pollOnce, prI2cBusWriteRead_traced, and_true]
  rfl

/-- The final wait on a bus with a log is the final wait on the bus itself, and its polls are in the
log. -/
theorem pollReady_polls (p : Part) (inst : I2cInst σ) (st : WriteState (σ × List Xfer)) :
    ∃ err st' st1 polls, Polls p inst st.unlogged err st' polls ∧
      pollReady p (traced inst) st = (err, st1) ∧
      st1.bus = (st'.bus, st.bus.2 ++ polls.flatten) := by
  have hseen := pollOnce_seen p inst
  obtain ⟨n, hlast, hrun⟩ := run_last (· = .ok) (pollOnce p (traced inst)) 127 st
  have hafter := hseen.after (s := st) trivial (n + 1)
  have hresult := hseen.result (s := st) trivial n
  rw [after_logged] at hafter
  rw [result_logged] at hresult
  have hbus := congrArg (fun s : WriteState σ × List Xfer => (s.1.bus, s.2)) hafter
  refine ⟨_, _, after (pollOnce p (traced inst)) st (n + 1), _,
    .last (hseen.last trivial hlast).of_logged, ?_, hbus.symm⟩
  rw [pollReady_eq, retry_eq_run, hrun, hresult]

/-! ## 5. Whole reads and writes -/

/-- The calls of a read that the range check accepts. -/
theorem prI2cEepromRead_log {type : PrI2cEepromType} {addr size : Nat}
    (hin : outOfRange type.part addr size = false) (inst : I2cInst σ) (s : σ) (saddr : UInt8) :
    (prI2cEepromRead type (traced inst) (s, []) saddr addr size).2.2.2 =
      exchanged inst (type.part.slave saddr addr) (type.part.header addr) size s := by
  rw [prI2cEepromRead_eq, eepromRead, if_neg (Bool.not_eq_true _ ▸ hin),
    prI2cBusWriteRead_traced]
  exact List.nil_append _

theorem WriteCall.run_eq (w : WriteCall) (inst : I2cInst σ) (s : σ) (saddr0 : UInt8)
    (buf0 : Mem UInt8) (fuel : Nat) :
    w.run inst s saddr0 buf0 fuel =
      if outOfRange w.type.part w.addr w.data.length then .ok (.inval, s)
      else w.loop inst fuel ⟨s, 0, saddr0, buf0⟩ >>= fun r =>
        if r.1 ≠ .ok then .ok (r.1, r.2.bus)
        else
          let wait := pollReady w.type.part inst r.2
          .ok (w.type.finish wait.1, wait.2.bus) :=
  prI2cEepromWrite_eq w.type inst s w.saddr w.addr w.data w.data.length saddr0 buf0 fuel

section
variable {w : WriteCall} {inst : I2cInst σ} {s : σ} {saddr0 : UInt8} {buf0 : Mem UInt8}
  {fuel : Nat}

/-- A write that the range check rejects does nothing. -/
theorem eepromWrite_rejected (hout : outOfRange w.type.part w.addr w.data.length = true) :
    w.run inst s saddr0 buf0 fuel = .ok (.inval, s) := by
  rw [w.run_eq, if_pos hout]

/-- The loop ends at a chunk that is refused, and so does the write. -/
theorem eepromWrite_refused (hin : outOfRange w.type.part w.addr w.data.length = false)
    {err : PrError} (herr : err ≠ .ok) {st : WriteState σ}
    (hloop : w.loop inst fuel ⟨s, 0, saddr0, buf0⟩ = .ok (err, st)) :
    w.run inst s saddr0 buf0 fuel = .ok (err, st.bus) := by
  rw [w.run_eq, if_neg (Bool.not_eq_true _ ▸ hin), hloop, bind_ok, if_pos herr]

/-- The loop acknowledges all chunks, and the write polls. -/
theorem eepromWrite_polled (hin : outOfRange w.type.part w.addr w.data.length = false)
    {st st' : WriteState σ} (hloop : w.loop inst fuel ⟨s, 0, saddr0, buf0⟩ = .ok (.ok, st))
    {err : PrError} (hpoll : pollReady w.type.part inst st = (err, st')) :
    w.run inst s saddr0 buf0 fuel = .ok (w.type.finish err, st'.bus) :=
  prI2cEepromWrite_polled hin hloop hpoll

/-- What a write comes to that the range check accepts: what it returns, the state of the bus behind
it, and the calls.

* `refused`: a chunk has been refused.
* `polled`: all chunks have been acknowledged, and the chip has been polled. -/
inductive Ends (w : WriteCall) (inst : I2cInst σ) (s : σ) : PrError → σ → List Xfer → Prop
  | refused {k : Nat} {err : PrError} {s' : σ} {groups : List (List Xfer)} :
      Refused w inst s k err s' groups → Ends w inst s err s' groups.flatten
  | polled {n : Nat} {groups polls : List (List Xfer)} {st st' : WriteState σ} {err : PrError} :
      Acked w inst s n st.bus groups → w.data.length ≤ w.offset n →
      (∀ j, n = j + 1 →
        st.saddr = w.slave j ∧ load st.buf 0 w.type.part.addrSize = w.header j) →
      Polls w.type.part inst st err st' polls →
      Ends w inst s (w.type.finish err) st'.bus (groups.flatten ++ polls.flatten)

theorem head_start (w : WriteCall) (inst : I2cInst σ) (s : σ) (saddr0 : UInt8)
    (buf0 : Mem UInt8) : Head w inst s 0 ⟨(s, []), 0, saddr0, buf0⟩ :=
  ⟨⟨[], .zero, rfl⟩, rfl, nofun⟩

/-- A write ends if one of its chunks is refused. -/
theorem Refused.returns (hin : outOfRange w.type.part w.addr w.data.length = false) {k : Nat}
    {err : PrError} {s' : σ} {groups : List (List Xfer)}
    (h : Refused w inst s k err s' groups) (saddr0 : UInt8) (buf0 : Mem UInt8) :
    Returns (w.run (traced inst) (s, []) saddr0 buf0) (err, s', groups.flatten) := by
  have hlt : ∀ j < k + 1, w.offset j < w.data.length := fun j hj => h.lt (Nat.le_of_lt_succ hj)
  rcases writeLoop_heads (head_start w inst s saddr0 buf0) (k + 1) hlt with ⟨st, hhead, -⟩ |
    ⟨k', -, err', st, s'', groups', href, hbus, hloop⟩
  · obtain ⟨_, hacked, -⟩ := hhead.acked
    exact absurd hacked (h.not_acked (Nat.lt_succ_self k))
  · obtain ⟨rfl, rfl, rfl, rfl⟩ := h.unique href
    have hrun := eepromWrite_refused hin h.err_ne (hloop 0)
    rw [hbus] at hrun
    exact ⟨_, hrun⟩

/-- A write ends if `offset` gets to the end of the data. -/
theorem eepromWrite_ends (hin : outOfRange w.type.part w.addr w.data.length = false) {n : Nat}
    (hlt : ∀ k < n, w.offset k < w.data.length) (hend : w.data.length ≤ w.offset n)
    (inst : I2cInst σ) (s : σ) (saddr0 : UInt8) (buf0 : Mem UInt8) :
    ∃ r s' log, Ends w inst s r s' log ∧
      Returns (w.run (traced inst) (s, []) saddr0 buf0) (r, s', log) := by
  rcases writeLoop_heads (head_start w inst s saddr0 buf0) n hlt with ⟨st, hhead, hloop⟩ |
    ⟨k, -, err, st, s', groups, href, hbus, hloop⟩
  · obtain ⟨groups, hacked, hlog⟩ := hhead.acked
    obtain ⟨err, st', st1, polls, hpolls, hready, hbus⟩ := pollReady_polls w.type.part inst st
    have hdone : w.loop (traced inst) (n + 1) ⟨(s, []), 0, saddr0, buf0⟩ = .ok (.ok, st) := by
      rw [hloop, WriteCall.loop, writeLoop, if_neg (Nat.not_lt_of_le (hhead.offset ▸ hend))]
    have hrun := eepromWrite_polled hin hdone hready
    rw [hbus, hlog] at hrun
    exact ⟨_, _, _, .polled hacked hend hhead.target hpolls, n + 1, hrun⟩
  · have hrun := eepromWrite_refused hin href.err_ne (hloop 0)
    rw [hbus] at hrun
    exact ⟨_, _, _, .refused href, n + 0, hrun⟩

end

/-! ## 6. The range of the chip -/

theorem addr_le_of_accepted {p : Part} {addr size : Nat} (h : outOfRange p addr size = false) :
    addr ≤ p.size := by
  rw [outOfRange, Bool.or_eq_false_iff, decide_eq_false_iff_not] at h
  exact Nat.le_of_not_lt h.1

/-- A sum that has more bits is accepted, unless the address alone is out of range. -/
theorem accepted_of_overflow {p : Part} {addr size : Nat} (haddr : addr ≤ p.size)
    (hsize : size < 2 ^ 32) (h : 2 ^ 32 ≤ addr + size) : outOfRange p addr size = false := by
  rw [outOfRange, Bool.or_eq_false_iff, decide_eq_false_iff_not, decide_eq_false_iff_not]
  omega

def WriteCall.count (w : WriteCall) : Nat := chunkCount w.type.part w.addr w.data.length

section
variable {w : WriteCall}

theorem WriteCall.lt_count (k : Nat) :
    k < w.count ↔ k * stride w.type.part w.addr < w.data.length :=
  lt_chunkCount ⟨w.type, 0, fun _ => rfl⟩ w.addr w.data.length k

theorem WriteCall.offset_eq (hrange : w.addr + w.data.length ≤ w.type.part.size) (k : Nat) :
    w.offset k = min (k * stride w.type.part w.addr) w.data.length := by
  have hsize := partSize_le w.type
  induction k with
  | zero => rw [Nat.zero_mul, Nat.zero_min, offset]
  | succ k ih =>
    rw [offset, chuckSize_eq, ih, Nat.succ_mul, Nat.mod_eq_of_lt (by omega)]
    omega

theorem WriteCall.offset_of_lt (hrange : w.addr + w.data.length ≤ w.type.part.size) {k : Nat}
    (hk : k < w.count) : w.offset k = k * stride w.type.part w.addr := by
  rw [w.offset_eq hrange]
  exact Nat.min_eq_left (Nat.le_of_lt ((w.lt_count k).mp hk))

theorem WriteCall.offset_lt (hrange : w.addr + w.data.length ≤ w.type.part.size) {k : Nat}
    (hk : k < w.count) : w.offset k < w.data.length := by
  rw [w.offset_of_lt hrange hk]
  exact (w.lt_count k).mp hk

theorem WriteCall.offset_count (hrange : w.addr + w.data.length ≤ w.type.part.size) :
    w.data.length ≤ w.offset w.count := by
  rw [w.offset_eq hrange]
  exact Nat.le_min.mpr
    ⟨Nat.le_of_not_lt fun h => Nat.lt_irrefl _ ((w.lt_count _).mpr h), Nat.le_refl _⟩

theorem WriteCall.lt_count_of_offset (hrange : w.addr + w.data.length ≤ w.type.part.size)
    {k : Nat} (hlt : w.offset k < w.data.length) : k < w.count := by
  rw [w.offset_eq hrange] at hlt
  refine (w.lt_count k).mpr (Nat.lt_of_not_le fun hle => ?_)
  rw [Nat.min_eq_right hle] at hlt
  exact Nat.lt_irrefl _ hlt

/-- In the range of the chip there are no more chunks to acknowledge than these. -/
theorem Acked.le_count (hrange : w.addr + w.data.length ≤ w.type.part.size) {inst : I2cInst σ}
    {s s' : σ} {k : Nat} {groups : List (List Xfer)} (h : Acked w inst s k s' groups) :
    k ≤ w.count := by
  cases h with
  | zero => exact Nat.zero_le _
  | succ _ hchunk => exact w.lt_count_of_offset hrange hchunk.lt

/-- `offset` never gets to the end of data that is longer than it can count. -/
theorem WriteCall.offset_lt_of_long (hlong : 2 ^ 16 ≤ w.data.length) (k : Nat) :
    w.offset k < w.data.length := by
  cases k with
  | zero => exact Nat.lt_of_lt_of_le (Nat.two_pow_pos 16) hlong
  | succ k => exact Nat.lt_of_lt_of_le (Nat.mod_lt _ (Nat.two_pow_pos 16)) hlong

/-- In the range of the chip a write always ends. -/
theorem eepromWrite_returns (hrange : w.addr + w.data.length ≤ w.type.part.size)
    (inst : I2cInst σ) (s : σ) (saddr0 : UInt8) (buf0 : Mem UInt8) :
    ∃ r s' log, Ends w inst s r s' log ∧
      Returns (w.run (traced inst) (s, []) saddr0 buf0) (r, s', log) := by
  exact eepromWrite_ends (accepted_of_range hrange) (fun k hk => w.offset_lt hrange hk)
    (w.offset_count hrange) inst s saddr0 buf0

end

end Picore.I2c
