import Picore.Modbus.Address
import Picore.Modbus.Transmit

/-!
# Bytes that nobody looks at

A write to the rx FIFO wakes the worker, and the worker reads no more than its buffer
has room for. What is left waits for the next run of a task. `modbus_tx_try` and
`modbus_clear` see to it that there is one. The ways out of `modbus_rx_try` that drop
what is in the buffer do not.

Results:
1. `rxTry_dropped`, `rxTry_kept`: the ways out of `modbus_rx_try`.
2. `step_awake_iff`: the steps that leave bytes behind.
3. `receiver_awake`: a run without them never stalls. `receiver_stalls`: one that does.
-/

namespace Picore.Modbus

open Memory Fuel Transition

variable {σ : Type}

/-- Bytes that wait to be received are going to be: a task will run. -/
def Awake (n : Node σ) : Prop :=
  n.rx ≠ [] → n.bus.rspSize = 0 → n.worker = true ∨ n.clear ≠ .idle

/-- `modbus_req_frame_len` or `modbus_rsp_frame_len` has given `frameLen`, and a frame of this
length is in the buffer, complete and with a valid CRC. -/
structure Found (s : PrModbus σ) (frameLen : Nat) : Prop where
  pos : 0 < frameLen
  le : frameLen ≤ bufferSize
  whole : frameLen ≤ s.ptr
  crc : crcValid (load s.buffer 0 frameLen) = true

instance (s : PrModbus σ) (frameLen : Nat) : Decidable (Found s frameLen) :=
  decidable_of_iff (0 < frameLen ∧ frameLen ≤ bufferSize ∧ frameLen ≤ s.ptr ∧
      crcValid (load s.buffer 0 frameLen) = true)
    ⟨fun ⟨h1, h2, h3, h4⟩ => ⟨h1, h2, h3, h4⟩, fun ⟨h1, h2, h3, h4⟩ => ⟨h1, h2, h3, h4⟩⟩

/-- What is in the buffer is dropped.

* `oversized`: it seems to be a request that the buffer has no room for.
* `other`: it is a request to another unit.
* `response`: it is a response, or seems to be one that the buffer has no room for. -/
inductive Drops (past : UInt8) (s : PrModbus σ) : Prop
  | oversized : bufferSize < modbusReqFrameLen s.buffer s.ptr → Drops past s
  | other : Found s (modbusReqFrameLen s.buffer s.ptr) → s.buffer 0 ≠ s.addr → Drops past s
  | response : modbusReqFrameLen s.buffer s.ptr ≤ bufferSize →
      ¬ Found s (modbusReqFrameLen s.buffer s.ptr) →
      bufferSize < modbusRspFrameLen past s.buffer s.ptr ∨
        Found s (modbusRspFrameLen past s.buffer s.ptr) → Drops past s

/-- The worker receives and leaves bytes in the rx FIFO, with `clear` not armed. It
drops what it has read, or it has read nothing and there was nothing before. -/
def Strands (n : Node σ) : Act → Prop
  | .work k _ past => n.bus.rspSize = 0 ∧ n.clear = .idle ∧ (n.received k).rx ≠ [] ∧
      (Drops past (n.received k).bus ∨ (n.received k).bus.ptr = 0)
  | _ => False

instance (past : UInt8) (s : PrModbus σ) : Decidable (Drops past s) :=
  let reqLen := modbusReqFrameLen s.buffer s.ptr
  let rspLen := modbusRspFrameLen past s.buffer s.ptr
  decidable_of_iff (bufferSize < reqLen ∨ Found s reqLen ∧ s.buffer 0 ≠ s.addr ∨
      reqLen ≤ bufferSize ∧ ¬ Found s reqLen ∧ (bufferSize < rspLen ∨ Found s rspLen)) <| by
    constructor
    · rintro (h1 | ⟨h1, h2⟩ | ⟨h1, h2, h3⟩)
      · exact .oversized h1
      · exact .other h1 h2
      · exact .response h1 h2 h3
    · rintro (h1 | ⟨h1, h2⟩ | ⟨h1, h2, h3⟩)
      · exact .inl h1
      · exact .inr (.inl ⟨h1, h2⟩)
      · exact .inr (.inr ⟨h1, h2, h3⟩)

instance (n : Node σ) : DecidablePred (Strands n)
  | .work _ _ _ => inferInstanceAs (Decidable (_ ∧ _ ∧ _ ∧ _))
  | .arrive _ | .expire | .clear | .drain _ => isFalse id

/-- A unit whose rx FIFO is empty at first, under every order of steps. -/
def freshLine (h : Handler σ) : Lts (Node σ) Act :=
  Lts.ofFun (fun n => n.Init ∧ n.rx = []) (step h)

/-! ## 1. Reception -/

namespace StallLemmas

theorem reqTry_oversized (h : Handler σ) (fuel : Nat) {n : Node σ}
    (hlen : bufferSize < modbusReqFrameLen n.bus.buffer n.bus.ptr) :
    modbusReqTry h fuel n = .ok (true, { n with bus := { n.bus with ptr := 0 } }) := by
  rw [modbusReqTry]
  simp only
  rw [if_neg (Nat.ne_of_gt (Nat.zero_lt_of_lt hlen)), if_pos hlen]

theorem reqTry_found (h : Handler σ) (fuel : Nat) {n : Node σ}
    (hfound : Found n.bus (modbusReqFrameLen n.bus.buffer n.bus.ptr)) :
    modbusReqTry h fuel n =
      busReqHandle h (modbusReqFrameLen n.bus.buffer n.bus.ptr) fuel n >>=
        fun n => .ok (true, n) := by
  rw [modbusReqTry]
  simp only
  rw [if_neg (Nat.ne_of_gt hfound.pos), if_neg (Nat.not_lt_of_le hfound.le),
    if_neg (Nat.not_lt_of_le hfound.whole), if_neg (not_not.mpr hfound.crc)]

theorem reqTry_none (h : Handler σ) (fuel : Nat) {n : Node σ}
    (hlen : modbusReqFrameLen n.bus.buffer n.bus.ptr ≤ bufferSize)
    (hnone : ¬ Found n.bus (modbusReqFrameLen n.bus.buffer n.bus.ptr)) :
    modbusReqTry h fuel n = .ok (false, n) := by
  rw [modbusReqTry]
  simp only
  split
  · rfl
  rw [if_neg (Nat.not_lt_of_le hlen)]
  split
  · rfl
  split
  · rfl
  · exact absurd ⟨Nat.pos_of_ne_zero ‹_›, hlen, Nat.le_of_not_lt ‹_›, not_not.mp ‹_›⟩ hnone

/-- A response, or what seems to be one, leaves nothing in the buffer. -/
theorem rspTry_taken (past : UInt8) {n : Node σ} (hn : n.bus.rspSize = 0)
    (htaken : bufferSize < modbusRspFrameLen past n.bus.buffer n.bus.ptr ∨
      Found n.bus (modbusRspFrameLen past n.bus.buffer n.bus.ptr)) :
    modbusRspTry past n = (true, n.reset) := by
  have hreset : { n with bus := { n.bus with ptr := 0 } } = n.reset := by
    rw [Node.reset, ← hn]
  rw [modbusRspTry]
  simp only
  rcases htaken with hlen | hfound
  · rw [if_neg (Nat.ne_of_gt (Nat.zero_lt_of_lt hlen)), if_pos hlen, hreset]
  · rw [if_neg (Nat.ne_of_gt hfound.pos), if_neg (Nat.not_lt_of_le hfound.le),
      if_neg (Nat.not_lt_of_le hfound.whole), if_neg (not_not.mpr hfound.crc)]
    rfl

theorem rspTry_none (past : UInt8) {n : Node σ}
    (hnone : ¬ (bufferSize < modbusRspFrameLen past n.bus.buffer n.bus.ptr ∨
      Found n.bus (modbusRspFrameLen past n.bus.buffer n.bus.ptr))) :
    modbusRspTry past n = (false, n) := by
  obtain ⟨hlen, hnone⟩ := not_or.mp hnone
  rw [modbusRspTry]
  simp only
  split
  · rfl
  split
  · rfl
  split
  · rfl
  · exact absurd ⟨Nat.pos_of_ne_zero ‹_›, Nat.le_of_not_lt hlen, Nat.le_of_not_lt ‹_›,
      not_not.mp ‹_›⟩ hnone

/-- Nothing is left in the buffer, and no task has been woken. -/
structure Emptied (n n' : Node σ) : Prop where
  rx : n'.rx = n.rx
  worker : n'.worker = n.worker
  clear : n'.clear = n.clear
  rsp_size : n'.bus.rspSize = 0

theorem rxTry_dropped {h : Handler σ} {k fuel : Nat} {past : UInt8} {n n' : Node σ}
    (hn : n.bus.rspSize = 0) (hok : modbusRxTry h k fuel past n = .ok n')
    (hdrops : Drops past (n.received k).bus) : Emptied (n.received k) n' := by
  rw [modbusRxTry] at hok
  cases hdrops with
  | oversized hlen =>
    rw [reqTry_oversized h fuel hlen, bind_ok] at hok
    cases hok
    exact ⟨rfl, rfl, rfl, hn⟩
  | other hfound haddr =>
    rw [reqTry_found h fuel hfound, busReqHandle_eq, busReqRespond_other h _ fuel haddr, bind_ok,
      bind_ok, bind_ok] at hok
    cases hok
    exact ⟨rfl, rfl, rfl, rfl⟩
  | response hlen hnone htaken =>
    rw [reqTry_none h fuel hlen hnone, bind_ok] at hok
    simp only [Bool.false_eq_true, if_false] at hok
    rw [rspTry_taken (n := n.received k) past hn htaken] at hok
    cases hok
    exact ⟨rfl, rfl, rfl, rfl⟩

theorem execWorker_awake (n : Node σ) : Awake n.execWorker := by
  intro hrx _
  have hne : n.rx.isEmpty = false := List.isEmpty_eq_false_iff.mpr hrx
  exact .inl (by simp [Node.execWorker, hne])

/-- The worker is woken after the last byte of a response. -/
theorem modbusTxTry_awake {n : Node σ} (hn : n.bus.rspSize ≠ 0) : Awake (modbusTxTry n) := by
  unfold modbusTxTry
  simp only
  split
  · exact execWorker_awake _
  · exact fun _ hsize => absurd hsize hn

/-- What is not dropped is answered, or `clear` is armed for it. -/
theorem rxTry_kept {h : Handler σ} {k fuel : Nat} {past : UInt8} {n n' : Node σ}
    (hok : modbusRxTry h k fuel past n = .ok n') (hkeeps : ¬ Drops past (n.received k).bus) :
    Awake n' ∧ (n.received k).bus.ptr ≠ 0 ∨
      n' = n.received k ∧ (n.received k).bus.ptr = 0 := by
  have hlen := Nat.le_of_not_lt fun h1 => hkeeps (.oversized h1)
  rw [modbusRxTry] at hok
  by_cases hfound : Found (n.received k).bus
      (modbusReqFrameLen (n.received k).bus.buffer (n.received k).bus.ptr)
  · have hptr := Nat.ne_of_gt (Nat.lt_of_lt_of_le hfound.pos hfound.whole)
    rw [reqTry_found h fuel hfound, busReqHandle_eq] at hok
    obtain ⟨⟨useful, n1⟩, hreq, hok⟩ := bind_eq_ok.mp hok
    obtain ⟨n2, hreq, hn2⟩ := bind_eq_ok.mp hreq
    obtain ⟨⟨called, bus⟩, hresp, hreq⟩ := bind_eq_ok.mp hreq
    cases hreq
    cases hn2
    cases hok
    cases called with
    | false =>
      have haddr : (n.received k).bus.buffer 0 = (n.received k).bus.addr :=
        not_not.mp fun h1 => hkeeps (.other hfound h1)
      have hcalled := (busReqRespond_addr h _ fuel (n.received k).bus _ hresp).1
      rw [decide_eq_true haddr] at hcalled
      cases hcalled
    | true =>
      obtain ⟨-, hpos, -⟩ := busReqRespond_called hresp
      exact .inl ⟨modbusTxTry_awake (Nat.ne_of_gt hpos), hptr⟩
  · have hnone := fun h1 => hkeeps (.response hlen hfound h1)
    rw [reqTry_none h fuel hlen hfound, bind_ok] at hok
    simp only [Bool.false_eq_true, if_false] at hok
    rw [rspTry_none past hnone] at hok
    simp only [Bool.false_eq_true, if_false] at hok
    split at hok
    · cases hok
      refine .inl ⟨fun _ _ => .inr ?_, ‹_›⟩
      unfold Node.execClear
      simp only
      split
      · decide
      · decide
    · cases hok
      exact .inr ⟨rfl, not_not.mp ‹_›⟩

/-! ## 2. Steps -/

theorem awake_iff_of_emptied {m n' : Node σ} (h : Emptied m n') (hworker : m.worker = false) :
    Awake n' ↔ ¬ (m.clear = .idle ∧ m.rx ≠ []) := by
  unfold Awake
  rw [h.rx, h.worker, h.clear, h.rsp_size, hworker]
  constructor
  · rintro hawake ⟨hclear, hrx⟩
    rcases hawake hrx rfl with h1 | h1
    · cases h1
    · exact h1 hclear
  · intro hnot hrx _
    exact .inr fun hclear => hnot ⟨hclear, hrx⟩

theorem rxTry_awake_iff {h : Handler σ} {k fuel : Nat} {past : UInt8} {n n' : Node σ}
    (hn : n.bus.rspSize = 0) (hworker : n.worker = false)
    (hok : modbusRxTry h k fuel past n = .ok n') :
    Awake n' ↔ ¬ Strands n (.work k fuel past) := by
  have hlost : Emptied (n.received k) n' → (Drops past (n.received k).bus ∨
      (n.received k).bus.ptr = 0) → (Awake n' ↔ ¬ Strands n (.work k fuel past)) := by
    intro hemptied hwhy
    rw [awake_iff_of_emptied hemptied hworker]
    exact not_congr ⟨fun h1 => ⟨hn, h1.1, h1.2, hwhy⟩, fun h1 => ⟨h1.2.1, h1.2.2.1⟩⟩
  by_cases hdrops : Drops past (n.received k).bus
  · exact hlost (rxTry_dropped hn hok hdrops) (.inl hdrops)
  rcases rxTry_kept hok hdrops with ⟨hawake, hptr⟩ | ⟨rfl, hptr⟩
  · refine iff_of_true hawake ?_
    rintro ⟨-, -, -, hwhy⟩
    rcases hwhy with h1 | h1
    · exact hdrops h1
    · exact hptr h1
  · exact hlost ⟨rfl, rfl, rfl, hn⟩ (.inr hptr)

/-- The steps after which bytes wait and no task is going to run. -/
theorem step_awake_iff {h : Handler σ} {n n' : Node σ} {a : Act} (hn : Awake n)
    (hstep : step h n a = some n') : Awake n' ↔ ¬ Strands n a := by
  cases a with
  | arrive bytes =>
    cases hstep
    refine iff_of_true (fun hrx hsize => ?_) not_false
    cases bytes with
    | nil =>
      rcases hn (by simpa [Node.arrived] using hrx) hsize with h1 | h1
      · exact .inl (by simp [Node.arrived, h1])
      · exact .inr h1
    | cons b bytes => exact .inl (by simp [Node.arrived])
  | work k fuel past =>
    obtain ⟨-, hok⟩ := step_work hstep
    rw [onWork] at hok
    split at hok
    · cases hok
      exact iff_of_true (modbusTxTry_awake ‹_›) fun h1 => absurd h1.1 ‹_›
    · exact rxTry_awake_iff (n := { n with worker := false }) (not_not.mp ‹_›) rfl hok
  | expire =>
    rw [(step_expire hstep).2]
    exact iff_of_true (fun _ _ => .inr fun h1 => by cases h1) not_false
  | clear =>
    rw [(step_clear hstep).2]
    exact iff_of_true (execWorker_awake _) not_false
  | drain len =>
    rw [(step_drain hstep).2]
    refine iff_of_true (fun hrx hsize => ?_) not_false
    rcases hn hrx hsize with h1 | h1
    · exact .inl (by simp [Node.drained, h1])
    · exact .inr h1

end StallLemmas

open StallLemmas

/-! ## 3. Main result -/

/-- As long as the worker never strands bytes, the receiver does not stall. The first step that
strands some makes it stall: they stay in the rx FIFO until more bytes come. -/
theorem receiver_awake (h : Handler σ) {n : Node σ}
    (hn : ((freshLine h).guard fun n a => ¬ Strands n a).Reachable n) :
    Awake n ∧ ∀ a n', (freshLine h).step n a n' → (Awake n' ↔ ¬ Strands n a) := by
  have hawake : Awake n := by
    refine hn.invariant (I := Awake) ?_ ?_
    · intro n hinit hrx _
      exact absurd hinit.2 hrx
    · exact fun n a n' hawake hs => (step_awake_iff hawake hs.1).mpr hs.2
  exact ⟨hawake, fun a n' hs => step_awake_iff hawake hs⟩

namespace StallLemmas

/-- The request to read holding register 0 of unit 2. -/
def requestToOther : List UInt8 := withCrc [2, 3, 0, 0, 0, 1]

/-- A request comes in two halves. The worker reads the first one, and half of the second. -/
def halfRead : List Act :=
  [.arrive [1, 3, 0, 0], .work bufferSize 0 0, .arrive [0, 1, 0x84, 0x0a], .work 2 0 0]

/-- More requests to another unit than the buffer has room for. -/
def busyLine : List Act :=
  [.arrive (List.replicate 33 requestToOther).flatten, .work bufferSize 0 0]

end StallLemmas

open TransmitLemmas in
/-- The worker has been given half of what waits. The unit holds a part of the request, and it is
`clear` alone that is going to run. -/
theorem receiver_awake_partial : ∃ n,
    ((freshLine oneRegister).guard fun n a => ¬ Strands n a).Reachable n ∧
    n.rx = [0x84, 0x0a] ∧ n.bus.rspSize = 0 ∧ n.worker = false ∧ n.clear = .waiting ∧ Awake n ∧
    ∀ a n', (freshLine oneRegister).step n a n' → (Awake n' ↔ ¬ Strands n a) := by
  have hrun : (exec (guarded (step oneRegister) fun n a => ¬ Strands n a) started halfRead).map
      (fun n => (n.rx, n.bus.rspSize, n.worker, n.clear)) =
        some ([0x84, 0x0a], 0, false, .waiting) := by
    decide +kernel
  obtain ⟨n, hn, hfields⟩ := Option.map_eq_some_iff.mp hrun
  obtain ⟨hrx, hsize, hworker, hclear⟩ : n.rx = [0x84, 0x0a] ∧ n.bus.rspSize = 0 ∧
      n.worker = false ∧ n.clear = .waiting := by
    simpa using hfields
  have hinit : ((freshLine oneRegister).guard fun n a => ¬ Strands n a).Reachable started :=
    .init ⟨started_init, rfl⟩
  have hreach := hinit.exec_guarded hn
  exact ⟨n, hreach, hrx, hsize, hworker, hclear, receiver_awake oneRegister hreach⟩

open TransmitLemmas in
/-- The last of the requests stays in the rx FIFO, and no task is going to run. -/
theorem receiver_stalls : ∃ n, (freshLine oneRegister).Reachable n ∧ ¬ Awake n := by
  have hrun : (exec (step oneRegister) started busyLine).map
      (fun n => (n.rx, n.bus.rspSize, n.worker, n.clear)) =
        some (requestToOther, 0, false, .idle) := by
    decide +kernel
  obtain ⟨n, hn, hfields⟩ := Option.map_eq_some_iff.mp hrun
  obtain ⟨hrx, hsize, hworker, hclear⟩ : n.rx = requestToOther ∧ n.bus.rspSize = 0 ∧
      n.worker = false ∧ n.clear = .idle := by
    simpa using hfields
  refine ⟨n, Lts.reachable_exec (.init ⟨started_init, rfl⟩) hn, fun hawake => ?_⟩
  have hne : n.rx ≠ [] := by
    rw [hrx]
    decide
  rcases hawake hne hsize with h1 | h1
  · rw [hworker] at h1
    cases h1
  · exact h1 hclear

end Picore.Modbus
