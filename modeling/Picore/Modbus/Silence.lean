import Picore.Modbus.Stream
import Picore.Modbus.Transmit

/-!
# A unit is silent unless addressed

The buffer holds what has been received, then the response, then what is received over
it. While no response is being sent, its first `ptr` bytes are the last bytes taken from
the rx FIFO, whatever is behind them.

Results:
1. `History`: a run as the requests that it has handled, each a frame of received bytes
   for this unit.
2. `step_sound`: what one step adds to it.
3. `silent_unless_addressed`: every run has one.
-/

namespace Picore.Modbus

open Memory Fuel Transition

variable {σ : Type}

/-! ## 1. Runs as handled requests -/

def Act.bytes : Act → List UInt8
  | .arrive bytes => bytes
  | .work _ _ _ | .expire | .clear | .drain _ => []

/-- `bus_req_handle` turns `s` into `s'`, which holds the response: the buffer starts with
a frame of bytes that have been received one after the other, of the length that
`modbus_req_frame_len` gives, with a valid CRC and the address of the unit. -/
structure Handling (h : Handler σ) (addr : UInt8) (arrived : List UInt8) (s s' : PrModbus σ) :
    Prop where
  received : load s.buffer 0 s.ptr <:+: arrived
  frame_ne : modbusReqFrameLen s.buffer s.ptr ≠ 0
  frame_le : modbusReqFrameLen s.buffer s.ptr ≤ s.ptr
  size_le : modbusReqFrameLen s.buffer s.ptr ≤ bufferSize
  crc : crcValid (load s.buffer 0 (modbusReqFrameLen s.buffer s.ptr)) = true
  addressed : s.buffer 0 = addr
  returns : ∃ fuel, busReqRespond h (modbusReqFrameLen s.buffer s.ptr) fuel s = .ok (true, s')

/-- The application, the callbacks made and the bytes written, as the requests that have
been handled have left them: the callbacks are those of these requests, and of each
response the first bytes have been written, or all. -/
inductive History (h : Handler σ) (addr : UInt8) (arrived : List UInt8) (app : σ)
    (calls : List Callback) : σ → List Callback → List UInt8 → Prop
  | start : History h addr arrived app calls app calls []
  | request {s s' : PrModbus σ} {written sent : List UInt8} :
      History h addr arrived app calls s.app s.calls written → Handling h addr arrived s s' →
      sent <+: load s'.buffer 0 s'.rspSize →
      History h addr arrived app calls s'.app s'.calls (written ++ sent)

theorem Handling.mono {h : Handler σ} {addr : UInt8} {arrived more : List UInt8}
    {s s' : PrModbus σ} (hs : Handling h addr arrived s s') :
    Handling h addr (arrived ++ more) s s' :=
  { hs with received := hs.received.trans (List.prefix_append arrived more).isInfix }

theorem History.mono {h : Handler σ} {addr : UInt8} {arrived : List UInt8} {app app' : σ}
    {calls calls' : List Callback} {written : List UInt8}
    (hs : History h addr arrived app calls app' calls' written) (more : List UInt8) :
    History h addr (arrived ++ more) app calls app' calls' written := by
  induction hs with
  | start => exact .start
  | request _ hhandling hsent ih => exact .request ih hhandling.mono hsent

/-- What holds of a unit once these bytes have arrived, which began with this application
and these callbacks. -/
structure Sound (h : Handler σ) (addr : UInt8) (arrived : List UInt8) (app : σ)
    (calls : List Callback) (n : Node σ) : Prop where
  same_addr : n.bus.addr = addr
  front : ∃ taken, arrived = taken ++ n.rx ∧
    (n.bus.rspSize = 0 → load n.bus.buffer 0 n.bus.ptr <:+ taken)
  silent : n.bus.rspSize = 0 → History h addr arrived app calls n.bus.app n.bus.calls n.written
  sending : n.bus.rspSize ≠ 0 → n.bus.ptr < n.bus.rspSize ∧ ∃ s s' written,
    History h addr arrived app calls s.app s.calls written ∧ Handling h addr arrived s s' ∧
    s'.app = n.bus.app ∧ s'.calls = n.bus.calls ∧ load s'.buffer 0 s'.rspSize = n.current ∧
    n.written = written ++ n.current.take n.bus.ptr

/-! ## 2. Steps -/

namespace SilenceLemmas

variable {h : Handler σ} {addr : UInt8} {arrived : List UInt8} {app : σ} {calls : List Callback}

/-- The requests handled so far, whether a response is being sent or not. -/
theorem Sound.history {n : Node σ} (hs : Sound h addr arrived app calls n) :
    History h addr arrived app calls n.bus.app n.bus.calls n.written := by
  by_cases hn : n.bus.rspSize = 0
  · exact hs.silent hn
  · obtain ⟨-, s, s', written, hhist, hhandling, happ, hcalls, hcur, hwritten⟩ := hs.sending hn
    rw [← happ, ← hcalls, hwritten]
    refine .request hhist hhandling ?_
    rw [hcur]
    exact List.take_prefix _ _

/-- A state without a response to be sent, in which nothing has been handled since. -/
theorem Sound.quiet {n n' : Node σ} (hs : Sound h addr arrived app calls n)
    (hbus : n'.bus.addr = n.bus.addr ∧ n'.bus.app = n.bus.app ∧ n'.bus.calls = n.bus.calls)
    (hwritten : n'.written = n.written) (hrsp : n'.bus.rspSize = 0)
    (hfront : ∃ taken, arrived = taken ++ n'.rx ∧ load n'.bus.buffer 0 n'.bus.ptr <:+ taken) :
    Sound h addr arrived app calls n' where
  same_addr := hbus.1.trans hs.same_addr
  front := by
    obtain ⟨taken, h1, h2⟩ := hfront
    exact ⟨taken, h1, fun _ => h2⟩
  silent _ := by
    rw [hbus.2.1, hbus.2.2, hwritten]
    exact Sound.history hs
  sending hn := absurd hrsp hn

theorem Sound.emptied {n n' : Node σ} (hs : Sound h addr arrived app calls n)
    (hbus : n'.bus.addr = n.bus.addr ∧ n'.bus.app = n.bus.app ∧ n'.bus.calls = n.bus.calls)
    (hwritten : n'.written = n.written) (hrsp : n'.bus.rspSize = 0) (hptr : n'.bus.ptr = 0)
    (hrx : n'.rx = n.rx) : Sound h addr arrived app calls n' := by
  refine Sound.quiet hs hbus hwritten hrsp ?_
  obtain ⟨taken, h1, -⟩ := hs.front
  refine ⟨taken, by rw [hrx]; exact h1, ?_⟩
  rw [hptr, load_zero]
  exact List.nil_suffix

theorem modbusTxTry_same (n : Node σ) :
    (modbusTxTry n).bus.addr = n.bus.addr ∧ (modbusTxTry n).bus.app = n.bus.app ∧
      (modbusTxTry n).bus.calls = n.bus.calls ∧ (modbusTxTry n).rx = n.rx ∧
      ((modbusTxTry n).bus.rspSize = 0 → (modbusTxTry n).bus.ptr = 0 ∨ n.bus.rspSize = 0) := by
  unfold modbusTxTry
  simp only
  split
  · exact ⟨rfl, rfl, rfl, rfl, fun _ => .inl rfl⟩
  · exact ⟨rfl, rfl, rfl, rfl, .inr⟩

theorem modbusTxTry_sound {n : Node σ} (hs : Sound h addr arrived app calls n)
    (hn : n.bus.rspSize ≠ 0) : Sound h addr arrived app calls (modbusTxTry n) := by
  obtain ⟨hlt, s, s', written, hhist, hhandling, happ, hcalls, hcur, hwritten⟩ := hs.sending hn
  obtain ⟨haddr, happ', hcalls', hrx, hptr⟩ := modbusTxTry_same n
  obtain ⟨len, hwrites⟩ := TransmitLemmas.modbusTxTry_spec hlt
  have hle : n.bus.ptr + len ≤ n.bus.rspSize := by
    rcases hwrites.left with h1 | h1
    · exact Nat.le_of_eq h1.1
    · exact Nat.le_of_lt h1.1
  -- The bytes that this call writes continue those written before.
  have hall : (modbusTxTry n).written = written ++ n.current.take (n.bus.ptr + len) := by
    rw [hwrites.written, hwritten, Node.current, load_take _ (Nat.le_of_lt hlt), load_take _ hle,
      List.append_assoc, load_append, Nat.zero_add]
  obtain ⟨taken, htaken, -⟩ := hs.front
  refine ⟨haddr.trans hs.same_addr, ⟨taken, by rw [hrx]; exact htaken, fun h0 => ?_⟩, fun h0 => ?_,
    fun h0 => ?_⟩
  · rw [(hptr h0).resolve_right hn, load_zero]
    exact List.nil_suffix
  · rw [happ', hcalls', ← happ, ← hcalls, hall]
    refine .request hhist hhandling ?_
    rw [hcur]
    exact List.take_prefix _ _
  · rcases hwrites.left with ⟨-, h2⟩ | ⟨h1, h2, h3⟩
    · exact absurd h2 h0
    · have hcur' : (modbusTxTry n).current = n.current := by
        rw [Node.current, Node.current, hwrites.buffer, h3]
      refine ⟨by rw [h2, h3]; exact h1, s, s', written, hhist, hhandling, by rw [happ', happ],
        by rw [hcalls', hcalls], by rw [hcur', hcur], ?_⟩
      rw [hall, hcur', h2]

/-- What is read from the rx FIFO comes behind what is in the buffer. -/
theorem received_sound {n : Node σ} (hs : Sound h addr arrived app calls n)
    (hn : n.bus.rspSize = 0) (k : Nat) : Sound h addr arrived app calls (n.received k) := by
  obtain ⟨taken, htaken, hfront⟩ := hs.front
  let bytes := n.rx.take (min k (bufferSize - n.bus.ptr))
  refine Sound.quiet hs ⟨rfl, rfl, rfl⟩ rfl hn ⟨taken ++ bytes, ?_, ?_⟩
  · have hdrop : n.rx.drop bytes.length = n.rx.drop (min k (bufferSize - n.bus.ptr)) := by
      rw [List.length_take]
      rcases Nat.le_total (min k (bufferSize - n.bus.ptr)) n.rx.length with h1 | h1
      · rw [Nat.min_eq_left h1]
      · rw [Nat.min_eq_right h1, List.drop_length, List.drop_of_length_le h1]
    show arrived = taken ++ bytes ++ n.rx.drop bytes.length
    rw [hdrop, List.append_assoc, List.take_append_drop, ← htaken]
  · show load (store n.bus.buffer n.bus.ptr bytes) 0 (n.bus.ptr + bytes.length) <:+ taken ++ bytes
    rw [load_append, load_store_disjoint (.inl (Nat.le_of_eq (Nat.zero_add _))), Nat.zero_add,
      load_store_self]
    obtain ⟨before, hbefore⟩ := hfront hn
    exact ⟨before, by rw [← List.append_assoc, hbefore]⟩

theorem handled_sound {n : Node σ} (hs : Sound h addr arrived app calls n)
    (hn : n.bus.rspSize = 0) {size fuel : Nat}
    (hsize : size = modbusReqFrameLen n.bus.buffer n.bus.ptr) (hne : size ≠ 0)
    (hle : size ≤ n.bus.ptr) (hbuf : size ≤ bufferSize)
    (hcrc : crcValid (load n.bus.buffer 0 size) = true) {r : Bool × PrModbus σ}
    (hok : busReqRespond h size fuel n.bus = .ok r) :
    Sound h addr arrived app calls (n.handled r) := by
  obtain ⟨called, s'⟩ := r
  obtain ⟨hcalled, haddr⟩ := busReqRespond_addr h size fuel n.bus _ hok
  obtain ⟨taken, htaken, hfront⟩ := hs.front
  cases called with
  | false =>
    rw [busReqRespond_ignored hok]
    exact Sound.emptied hs ⟨rfl, rfl, rfl⟩ rfl rfl rfl rfl
  | true =>
    obtain ⟨hptr, hpos, -⟩ := busReqRespond_called hok
    have hhandling : Handling h addr arrived n.bus s' := by
      subst hsize
      refine ⟨?_, hne, hle, hbuf, hcrc, ?_, ⟨fuel, hok⟩⟩
      · refine (hfront hn).isInfix.trans ?_
        rw [htaken]
        exact (List.prefix_append taken n.rx).isInfix
      · rw [of_decide_eq_true hcalled.symm, hs.same_addr]
    refine modbusTxTry_sound ?_ (Nat.ne_of_gt hpos)
    refine ⟨haddr.trans hs.same_addr, ⟨taken, htaken, fun h0 => ?_⟩, fun h0 => ?_, fun _ => ?_⟩
    · exact absurd h0 (Nat.ne_of_gt hpos)
    · exact absurd h0 (Nat.ne_of_gt hpos)
    · refine ⟨by rw [hptr]; exact hpos, n.bus, s', n.written, hs.silent hn, hhandling, rfl, rfl,
        rfl, ?_⟩
      rw [hptr, List.take_zero, List.append_nil]

theorem modbusReqTry_sound {fuel : Nat} {n n' : Node σ} {useful : Bool}
    (hs : Sound h addr arrived app calls n) (hn : n.bus.rspSize = 0)
    (hok : modbusReqTry h fuel n = .ok (useful, n')) :
    Sound h addr arrived app calls n' ∧ (useful = false → n' = n) := by
  unfold modbusReqTry at hok
  simp only at hok
  split at hok
  · cases hok
    exact ⟨hs, fun _ => rfl⟩
  split at hok
  · cases hok
    exact ⟨Sound.emptied hs ⟨rfl, rfl, rfl⟩ rfl hn rfl rfl, fun h1 => by cases h1⟩
  split at hok
  · cases hok
    exact ⟨hs, fun _ => rfl⟩
  split at hok
  · cases hok
    exact ⟨hs, fun _ => rfl⟩
  · rename_i hne hbuf hle hcrc
    rw [busReqHandle_eq] at hok
    obtain ⟨n1, hreq, hok⟩ := bind_eq_ok.mp hok
    obtain ⟨r, hresp, hreq⟩ := bind_eq_ok.mp hreq
    cases hreq
    cases hok
    exact ⟨handled_sound hs hn rfl hne (Nat.le_of_not_lt hle) (Nat.le_of_not_lt hbuf)
      (not_not.mp hcrc) hresp, fun h1 => by cases h1⟩

theorem modbusRspTry_sound (past : UInt8) {n : Node σ}
    (hs : Sound h addr arrived app calls n) (hn : n.bus.rspSize = 0) :
    Sound h addr arrived app calls (modbusRspTry past n).2 := by
  unfold modbusRspTry
  simp only
  split
  · exact hs
  split
  · exact Sound.emptied hs ⟨rfl, rfl, rfl⟩ rfl hn rfl rfl
  split
  · exact hs
  split
  · exact hs
  · exact Sound.emptied hs ⟨rfl, rfl, rfl⟩ rfl rfl rfl rfl

theorem Sound.task {n : Node σ} (hs : Sound h addr arrived app calls n) (worker : Bool)
    (c : ClearTask) : Sound h addr arrived app calls { n with worker := worker, clear := c } :=
  ⟨hs.same_addr, hs.front, hs.silent, hs.sending⟩

theorem onWork_sound {k fuel : Nat} {past : UInt8} {n n' : Node σ}
    (hs : Sound h addr arrived app calls n) (hok : onWork h k fuel past n = .ok n') :
    Sound h addr arrived app calls n' := by
  rw [onWork] at hok
  split at hok
  · cases hok
    exact modbusTxTry_sound hs ‹_›
  · have hn : n.bus.rspSize = 0 := not_not.mp ‹_›
    obtain ⟨⟨useful, n1⟩, hreq, hok⟩ := bind_eq_ok.mp hok
    obtain ⟨hs1, hsame⟩ := modbusReqTry_sound (received_sound hs hn k) hn hreq
    cases useful with
    | true =>
      cases hok
      exact hs1
    | false =>
      have hrsp : Sound h addr arrived app calls (modbusRspTry past n1).2 := by
        rw [hsame rfl]
        exact modbusRspTry_sound past (received_sound hs hn k) hn
      simp only [Bool.false_eq_true, if_false] at hok
      split at hok
      · cases hok
        exact hrsp
      split at hok
      · cases hok
        exact Sound.task hrsp _ _
      · cases hok
        exact hrsp

theorem onClear_sound {n : Node σ} (hs : Sound h addr arrived app calls n) :
    Sound h addr arrived app calls (onClear n) :=
  Sound.emptied hs ⟨rfl, rfl, rfl⟩ rfl rfl rfl rfl

end SilenceLemmas

open SilenceLemmas

theorem step_sound {h : Handler σ} {addr : UInt8} {arrived : List UInt8} {app : σ}
    {calls : List Callback} {n n' : Node σ} {a : Act} (hs : Sound h addr arrived app calls n)
    (hstep : step h n a = some n') : Sound h addr (arrived ++ a.bytes) app calls n' := by
  cases a with
  | arrive bytes =>
    cases hstep
    obtain ⟨taken, htaken, hfront⟩ := hs.front
    refine ⟨hs.same_addr, ⟨taken, ?_, hfront⟩, fun hn => (hs.silent hn).mono bytes, fun hn => ?_⟩
    · show arrived ++ bytes = taken ++ (n.rx ++ bytes)
      rw [htaken, List.append_assoc]
    · obtain ⟨hlt, s, s', written, hhist, hhandling, hrest⟩ := hs.sending hn
      exact ⟨hlt, s, s', written, hhist.mono bytes, hhandling.mono, hrest⟩
  | work k fuel past =>
    rw [Act.bytes, List.append_nil]
    exact onWork_sound (Sound.task hs false n.clear) (step_work hstep).2
  | expire =>
    rw [Act.bytes, List.append_nil, (step_expire hstep).2]
    exact Sound.task hs n.worker .pending
  | clear =>
    rw [Act.bytes, List.append_nil, (step_clear hstep).2]
    exact onClear_sound (Sound.task hs n.worker .idle)
  | drain len =>
    rw [Act.bytes, List.append_nil, (step_drain hstep).2]
    exact ⟨hs.same_addr, hs.front, hs.silent, hs.sending⟩

theorem exec_sound {h : Handler σ} {addr : UInt8} {arrived : List UInt8} {app : σ}
    {calls : List Callback} {n n' : Node σ} {acts : List Act}
    (hs : Sound h addr arrived app calls n) (hrun : exec (step h) n acts = some n') :
    Sound h addr (arrived ++ acts.flatMap Act.bytes) app calls n' := by
  induction acts generalizing n arrived with
  | nil =>
    cases hrun
    rw [List.flatMap_nil, List.append_nil]
    exact hs
  | cons a acts ih =>
    obtain ⟨n1, hstep, hrest⟩ := Option.bind_eq_some_iff.mp hrun
    rw [List.flatMap_cons, ← List.append_assoc]
    exact ih (step_sound hs hstep) hrest

theorem init_sound {h : Handler σ} {n : Node σ} (hn : n.Init) :
    Sound h n.bus.addr n.rx n.bus.app n.bus.calls n where
  same_addr := rfl
  front := ⟨[], rfl, fun _ => by rw [hn.ptr]; exact List.nil_suffix⟩
  silent _ := by
    rw [hn.written]
    exact .start
  sending h0 := absurd hn.rsp_size h0

/-! ## 3. Main result -/

namespace SilenceLemmas

/-- The length is found from the first seven bytes. -/
theorem reqFrameLen_eq (m : Mem UInt8) {j k : Nat} (hj : 7 ≤ j) (hk : 7 ≤ k) :
    modbusReqFrameLen m j = modbusReqFrameLen m k := by
  unfold modbusReqFrameLen
  rw [if_neg (show ¬ j < 2 by omega), if_neg (show ¬ k < 2 by omega),
    if_neg (show ¬ j < 7 by omega), if_neg (show ¬ k < 7 by omega)]

/-- A frame has all the bytes by which its length is found. -/
theorem reqFrameLen_self {m : Mem UInt8} {size len : Nat} (hlen : modbusReqFrameLen m size = len)
    (hne : len ≠ 0) (hle : len ≤ size) : modbusReqFrameLen m len = len := by
  have h7 := reqFrameLen_ge_seven hlen hne
  rw [reqFrameLen_eq m h7 (Nat.le_trans h7 hle), hlen]

/-- A request that has been handled was a frame with the address of the unit, and its bytes came in
one after the other. -/
theorem Handling.frame {h : Handler σ} {addr : UInt8} {arrived : List UInt8} {s s' : PrModbus σ}
    (hs : Handling h addr arrived s s') :
    ∃ frame, RequestFrame frame ∧ frame.head? = some addr ∧ frame <:+: arrived := by
  let size := modbusReqFrameLen s.buffer s.ptr
  let frame := load s.buffer 0 size
  have hlen : frame.length = size := length_load _ _ _
  have hcells : ∀ i < size, frameMem frame i = s.buffer i := by
    intro i hi
    have h1 := @store_apply_add _ (fun _ => 0) 0 i frame (by rwa [hlen])
    rw [Nat.zero_add] at h1
    rw [frameMem, h1, load_getElem, Nat.zero_add]
  refine ⟨frame, ⟨?_, ?_, ?_, hs.crc⟩, ?_, ?_⟩
  · rw [hlen]
    exact Nat.pos_of_ne_zero hs.frame_ne
  · rw [hlen]
    exact hs.size_le
  · rw [hlen, reqFrameLen_congr hcells]
    exact reqFrameLen_self rfl hs.frame_ne hs.frame_le
  · have h0 : 0 < frame.length := by
      rw [hlen]
      exact Nat.pos_of_ne_zero hs.frame_ne
    rw [List.head?_eq_getElem?, List.getElem?_eq_getElem h0, load_getElem]
    exact congrArg some hs.addressed
  · refine List.IsInfix.trans ?_ hs.received
    rw [show frame = (load s.buffer 0 s.ptr).take size from (load_take s.buffer hs.frame_le).symm]
    exact (List.take_prefix _ _).isInfix

theorem History.untouched {h : Handler σ} {addr : UInt8} {arrived : List UInt8} {app app' : σ}
    {calls calls' : List Callback} {written : List UInt8}
    (hs : History h addr arrived app calls app' calls' written)
    (hnone : ∀ frame, RequestFrame frame → frame.head? = some addr → ¬ frame <:+: arrived) :
    app' = app ∧ calls' = calls ∧ written = [] := by
  cases hs with
  | start => exact ⟨rfl, rfl, rfl⟩
  | request _ hhandling _ =>
    obtain ⟨frame, hframe, haddr, hmem⟩ := Handling.frame hhandling
    exact absurd hmem (hnone frame hframe haddr)

end SilenceLemmas

/-- In every run the callbacks are made, and the bytes written, for requests to this unit
that have been received. Without one, the application is as it was and nothing is
written. -/
theorem silent_unless_addressed (h : Handler σ) {n n' : Node σ} (hn : n.Init) {acts : List Act}
    (hrun : exec (step h) n acts = some n') :
    History h n.bus.addr (n.rx ++ acts.flatMap Act.bytes) n.bus.app n.bus.calls
        n'.bus.app n'.bus.calls n'.written ∧
      ((∀ frame, RequestFrame frame → frame.head? = some n.bus.addr →
          ¬ frame <:+: n.rx ++ acts.flatMap Act.bytes) →
        n'.bus.app = n.bus.app ∧ n'.bus.calls = n.bus.calls ∧ n'.written = []) := by
  have hhist := Sound.history (exec_sound (init_sound hn) hrun)
  exact ⟨hhist, History.untouched hhist⟩

namespace SilenceLemmas

/-- A request comes behind two bytes of noise, which `clear` drops. -/
def noisy : List Act :=
  [.arrive [7, 7], .work bufferSize 0 0, .expire, .clear,
    .arrive [1, 3, 0, 0, 0, 1, 0x84, 0x0a], .work bufferSize 0 0]

end SilenceLemmas

open TransmitLemmas SilenceLemmas in
theorem silent_unless_addressed_noisy :
    started.Init ∧ ∃ n', exec (step oneRegister) started noisy = some n' ∧
      n'.written = [1, 3, 2, 0x12] ∧
      History oneRegister 1 [7, 7, 1, 3, 0, 0, 0, 1, 0x84, 0x0a] () [] () n'.bus.calls
        n'.written := by
  have hrun : (exec (step oneRegister) started noisy).map Node.written = some [1, 3, 2, 0x12] := by
    decide +kernel
  obtain ⟨n', hn', hwritten⟩ := Option.map_eq_some_iff.mp hrun
  exact ⟨started_init, n', hn', hwritten,
    (silent_unless_addressed oneRegister started_init hn').1⟩

end Picore.Modbus
