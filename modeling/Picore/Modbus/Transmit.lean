import Picore.Modbus.Bus

/-!
# Responses on the line

`ptr` and `rsp_size` are shared by reception and transmission, and so is
`modbus_clear`: the task `clear`, armed for a partial request, may run when the rest
of the request has come and its response is on its way out.

Results:
1. `modbusTxTry_spec`: what one call of `modbus_tx_try` writes.
2. `step_whole`, `step_kept`: a step keeps responses whole unless `clear` runs while one is
   being sent.
3. `transmitted_whole`: so does every run. `clear_abandons`: a run that does not.
-/

namespace Picore.Modbus

open Memory Fuel Transition

variable {σ : Type}

def Node.current (n : Node σ) : List UInt8 := load n.bus.buffer 0 n.bus.rspSize

/-- All bytes written are those of complete responses, followed by the first `ptr` of
the one that is being sent, if there is one. -/
def Whole (n : Node σ) : Prop :=
  ∃ sent : List (List UInt8),
    n.bus.rspSize = 0 ∧ sent.Sublist n.responses ∧ n.written = sent.flatten ∨
    n.bus.ptr < n.bus.rspSize ∧ ∃ earlier, n.responses = earlier ++ [n.current] ∧
      sent.Sublist earlier ∧ n.written = sent.flatten ++ n.current.take n.bus.ptr

/-- A response is being sent: `bus_req_handle` has made it, and its last byte has not been written
yet. With a full tx FIFO none of it may have been written, so `ptr` may still be zero. -/
def Sending (n : Node σ) : Prop := 0 < n.bus.rspSize

/-- A response that is being sent in `n` is still being sent in `n'`, from where it has come to, or
its last byte has been written. -/
def Kept (n n' : Node σ) : Prop :=
  Sending n → ∃ len, n'.written = n.written ++ load n.bus.buffer n.bus.ptr len ∧
    (n.bus.ptr + len = n.bus.rspSize ∨
      n'.bus.ptr = n.bus.ptr + len ∧ n'.bus.rspSize = n.bus.rspSize ∧ n'.current = n.current)

/-- `clear` does not run while a response is being sent. -/
def ClearsNone (n : Node σ) : Act → Prop
  | .clear => ¬ Sending n
  | _ => True

instance (n : Node σ) : DecidablePred (ClearsNone n)
  | .clear => inferInstanceAs (Decidable (¬ 0 < n.bus.rspSize))
  | .arrive _ => .isTrue trivial
  | .work _ _ _ => .isTrue trivial
  | .expire => .isTrue trivial
  | .drain _ => .isTrue trivial

/-! ## 1. One call of `modbus_tx_try` -/

namespace TransmitLemmas

/-- The bytes that one call writes, and where it leaves `ptr` and `rsp_size`. -/
structure Writes (n n' : Node σ) (len : Nat) : Prop where
  written : n'.written = n.written ++ load n.bus.buffer n.bus.ptr len
  responses : n'.responses = n.responses
  buffer : n'.bus.buffer = n.bus.buffer
  left : n.bus.ptr + len = n.bus.rspSize ∧ n'.bus.rspSize = 0 ∨
    n.bus.ptr + len < n.bus.rspSize ∧ n'.bus.ptr = n.bus.ptr + len ∧
      n'.bus.rspSize = n.bus.rspSize

theorem modbusTxTry_spec {n : Node σ} (hn : n.bus.ptr < n.bus.rspSize) :
    ∃ len, Writes n (modbusTxTry n) len := by
  refine ⟨min (n.bus.rspSize - n.bus.ptr) n.free, ?_⟩
  unfold modbusTxTry
  simp only
  split
  · exact ⟨rfl, rfl, rfl, .inl ⟨‹_›, rfl⟩⟩
  · exact ⟨rfl, rfl, rfl, .inr ⟨by omega, rfl, rfl⟩⟩

/-- The bytes that a call writes continue those written before. -/
theorem Writes.whole {n n' : Node σ} {len : Nat} (h : Writes n n' len)
    {sent earlier : List (List UInt8)} (hresp : n.responses = earlier ++ [n.current])
    (hsent : sent.Sublist earlier)
    (hwritten : n.written = sent.flatten ++ n.current.take n.bus.ptr)
    (hptr : n.bus.ptr < n.bus.rspSize) : Whole n' := by
  have hnext : n.bus.ptr + len ≤ n.bus.rspSize := by
    rcases h.left with h1 | h1
    · exact Nat.le_of_eq h1.1
    · exact Nat.le_of_lt h1.1
  have hall : n'.written = sent.flatten ++ load n.bus.buffer 0 (n.bus.ptr + len) := by
    rw [h.written, hwritten, Node.current, load_take _ (Nat.le_of_lt hptr), List.append_assoc,
      load_append, Nat.zero_add]
  rcases h.left with ⟨h1, h2⟩ | ⟨h1, h2, h3⟩
  · refine ⟨sent ++ [n.current], .inl ⟨h2, ?_, ?_⟩⟩
    · rw [h.responses, hresp]
      exact hsent.append (List.Sublist.refl _)
    · rw [hall, h1, List.flatten_append, List.flatten_singleton, Node.current]
  · have hcur : n'.current = n.current := by
      rw [Node.current, Node.current, h.buffer, h3]
    refine ⟨sent, .inr ⟨by rw [h2, h3]; exact h1, earlier, ?_, hsent, ?_⟩⟩
    · rw [h.responses, hresp, hcur]
    · rw [hall, hcur, h2, Node.current, load_take _ hnext]

theorem Writes.kept {n n' : Node σ} {len : Nat} (h : Writes n n' len) : Kept n n' := by
  intro _
  refine ⟨len, h.written, ?_⟩
  rcases h.left with h1 | ⟨-, h2, h3⟩
  · exact .inl h1.1
  · exact .inr ⟨h2, h3, by rw [Node.current, Node.current, h.buffer, h3]⟩

/-! ## 2. Steps -/

/-- What is received, and a request or a response that is not one, change nothing of
what has been written. -/
structure Silent (n n' : Node σ) : Prop where
  written : n'.written = n.written
  responses : n'.responses = n.responses
  rsp_size : n'.bus.rspSize = 0

theorem whole_of_silent {n n' : Node σ} (hw : Whole n) (hn : n.bus.rspSize = 0)
    (h : Silent n n') : Whole n' := by
  obtain ⟨sent, ⟨-, h1, h2⟩ | ⟨h1, -⟩⟩ := hw
  · exact ⟨sent, .inl ⟨h.rsp_size, by rw [h.responses]; exact h1, by rw [h.written, h2]⟩⟩
  · exact absurd hn (Nat.ne_of_gt (Nat.zero_lt_of_lt h1))

theorem busReqHandle_whole {h : Handler σ} {size fuel : Nat} {n n' : Node σ}
    (hn : n.bus.rspSize = 0) (hw : Whole n) (hok : busReqHandle h size fuel n = .ok n') :
    Whole n' := by
  obtain ⟨⟨called, bus⟩, hresp, hok⟩ := bind_eq_ok.mp hok
  cases called with
  | false =>
    cases hok
    have hs := busReqRespond_ignored hresp
    exact whole_of_silent hw hn ⟨rfl, rfl, by rw [hs]⟩
  | true =>
    cases hok
    obtain ⟨hptr, hpos, -⟩ := busReqRespond_called hresp
    obtain ⟨sent, ⟨-, h1, h2⟩ | ⟨h1, -⟩⟩ := hw
    · obtain ⟨len, hwrites⟩ := modbusTxTry_spec (n := { n with
        bus := bus, responses := n.responses ++ [load bus.buffer 0 bus.rspSize] })
        (by rw [hptr]; exact hpos)
      refine hwrites.whole rfl h1 ?_ (by rw [hptr]; exact hpos)
      simp [hptr, h2]
    · exact absurd hn (Nat.ne_of_gt (Nat.zero_lt_of_lt h1))

theorem modbusReqTry_whole {h : Handler σ} {fuel : Nat} {n n' : Node σ} {useful : Bool}
    (hn : n.bus.rspSize = 0) (hw : Whole n) (hok : modbusReqTry h fuel n = .ok (useful, n')) :
    Whole n' ∧ (useful = false → n' = n) := by
  unfold modbusReqTry at hok
  simp only at hok
  split at hok
  · cases hok
    exact ⟨hw, fun _ => rfl⟩
  split at hok
  · cases hok
    exact ⟨whole_of_silent hw hn ⟨rfl, rfl, hn⟩, fun h1 => by cases h1⟩
  split at hok
  · cases hok
    exact ⟨hw, fun _ => rfl⟩
  split at hok
  · cases hok
    exact ⟨hw, fun _ => rfl⟩
  · obtain ⟨n1, hreq, hok⟩ := bind_eq_ok.mp hok
    cases hok
    exact ⟨busReqHandle_whole hn hw hreq, fun h1 => by cases h1⟩

theorem modbusRspTry_silent (past : UInt8) {n : Node σ} (hn : n.bus.rspSize = 0) :
    Silent n (modbusRspTry past n).2 := by
  unfold modbusRspTry
  simp only
  split
  · exact ⟨rfl, rfl, hn⟩
  split
  · exact ⟨rfl, rfl, hn⟩
  split
  · exact ⟨rfl, rfl, hn⟩
  split
  · exact ⟨rfl, rfl, hn⟩
  · exact ⟨rfl, rfl, rfl⟩

theorem modbusRxTry_whole {h : Handler σ} {k fuel : Nat} {past : UInt8} {n n' : Node σ}
    (hn : n.bus.rspSize = 0) (hw : Whole n) (hok : modbusRxTry h k fuel past n = .ok n') :
    Whole n' := by
  have hrecv : Whole (n.received k) := whole_of_silent hw hn ⟨rfl, rfl, hn⟩
  obtain ⟨⟨useful, n1⟩, hreq, hok⟩ := bind_eq_ok.mp hok
  obtain ⟨hw1, hsame⟩ := modbusReqTry_whole (n := n.received k) hn hrecv hreq
  cases useful with
  | true =>
    cases hok
    exact hw1
  | false =>
    obtain rfl := hsame rfl
    have hrsp := modbusRspTry_silent past (n := n.received k) hn
    have hw2 := whole_of_silent hrecv hn hrsp
    simp only [Bool.false_eq_true, if_false] at hok
    split at hok
    · cases hok
      exact hw2
    split at hok
    · cases hok
      exact whole_of_silent hw2 hrsp.rsp_size ⟨rfl, rfl, hrsp.rsp_size⟩
    · cases hok
      exact hw2

theorem ptr_lt_of_whole {n : Node σ} (hw : Whole n) (hn : 0 < n.bus.rspSize) :
    n.bus.ptr < n.bus.rspSize := by
  obtain ⟨sent, ⟨h1, -⟩ | ⟨h1, -⟩⟩ := hw
  · exact absurd h1 (Nat.ne_of_gt hn)
  · exact h1

theorem onWork_whole {h : Handler σ} {k fuel : Nat} {past : UInt8} {n n' : Node σ}
    (hw : Whole n) (hok : onWork h k fuel past n = .ok n') : Whole n' := by
  rw [onWork] at hok
  split at hok
  · cases hok
    have hptr := ptr_lt_of_whole hw (Nat.pos_of_ne_zero ‹_›)
    obtain ⟨sent, ⟨h1, -⟩ | ⟨-, earlier, h2, h3, h4⟩⟩ := hw
    · exact absurd h1 ‹_›
    · obtain ⟨len, hwrites⟩ := modbusTxTry_spec hptr
      exact hwrites.whole h2 h3 h4 hptr
  · exact modbusRxTry_whole (not_not.mp ‹_›) hw hok

theorem onClear_whole {n : Node σ} (hw : Whole n) (hn : ¬ Sending n) : Whole (onClear n) := by
  obtain ⟨sent, ⟨-, h1, h2⟩ | ⟨h1, -⟩⟩ := hw
  · exact ⟨sent, .inl ⟨rfl, h1, h2⟩⟩
  · exact absurd (Nat.zero_lt_of_lt h1) hn

/-- A step keeps responses whole, if `clear` does not run while one is being sent. -/
theorem step_whole {h : Handler σ} {n n' : Node σ} {a : Act} (hw : Whole n)
    (hstep : step h n a = some n') (hok : ClearsNone n a) : Whole n' := by
  cases a with
  | arrive bytes =>
    cases hstep
    exact hw
  | work k fuel past =>
    have hw' : Whole { n with worker := false } := hw
    exact onWork_whole hw' (step_work hstep).2
  | expire =>
    rw [(step_expire hstep).2]
    exact hw
  | clear =>
    rw [(step_clear hstep).2]
    have hw' : Whole { n with clear := .idle } := hw
    exact onClear_whole hw' hok
  | drain len =>
    rw [(step_drain hstep).2]
    exact hw

theorem kept_of_same {n n' : Node σ} (hwritten : n'.written = n.written) (hbus : n'.bus = n.bus) :
    Kept n n' :=
  fun _ => ⟨0, by rw [hwritten, load_zero, List.append_nil],
    .inr ⟨by rw [hbus, Nat.add_zero], by rw [hbus], by rw [Node.current, Node.current, hbus]⟩⟩

/-- A step abandons a response exactly if it is `clear` running while one is being sent. -/
theorem step_kept {h : Handler σ} {n n' : Node σ} {a : Act} (hw : Whole n)
    (hstep : step h n a = some n') : Kept n n' ↔ ClearsNone n a := by
  cases a with
  | arrive bytes =>
    cases hstep
    exact iff_of_true (kept_of_same rfl rfl) trivial
  | work k fuel past =>
    refine iff_of_true (fun hsending => ?_) trivial
    have hok := (step_work hstep).2
    rw [onWork, if_pos (Nat.ne_of_gt hsending)] at hok
    cases hok
    have hptr : ({ n with worker := false } : Node σ).bus.ptr < n.bus.rspSize :=
      ptr_lt_of_whole hw hsending
    obtain ⟨len, hwrites⟩ := modbusTxTry_spec hptr
    exact hwrites.kept hsending
  | expire =>
    rw [(step_expire hstep).2]
    exact iff_of_true (kept_of_same rfl rfl) trivial
  | clear =>
    rw [(step_clear hstep).2]
    refine ⟨fun hkept hsending => ?_, fun hok hsending => absurd hsending hok⟩
    -- `clear` writes nothing and leaves no response to be sent.
    obtain ⟨len, h1, h2⟩ := hkept hsending
    have hlen : len = 0 := by
      have h3 : n.written = n.written ++ load n.bus.buffer n.bus.ptr len := h1
      have h4 := congrArg List.length h3
      rw [List.length_append, length_load] at h4
      omega
    rcases h2 with h2 | ⟨-, h2, -⟩
    · rw [hlen, Nat.add_zero] at h2
      exact absurd h2 (Nat.ne_of_lt (ptr_lt_of_whole hw hsending))
    · have h3 : 0 = n.bus.rspSize := h2
      exact absurd h3 (Nat.ne_of_lt hsending)
  | drain len =>
    rw [(step_drain hstep).2]
    exact iff_of_true (kept_of_same rfl rfl) trivial

end TransmitLemmas

open TransmitLemmas

/-! ## 3. Main result -/

/-- As long as `clear` never runs while a response is being sent, all bytes written are those of
complete responses and of the one that is being sent, and no step abandons a response. The first
step that does not meet this abandons one. -/
theorem transmitted_whole (h : Handler σ) {n : Node σ}
    (hn : ((line h).guard ClearsNone).Reachable n) :
    Whole n ∧ ∀ a n', (line h).step n a n' → (Kept n n' ↔ ClearsNone n a) := by
  have hw : Whole n := by
    refine hn.invariant (I := Whole) ?_ ?_
    · intro n hinit
      exact ⟨[], .inl ⟨hinit.rsp_size, List.nil_sublist _, hinit.written⟩⟩
    · exact fun n a n' hw hs => step_whole hw hs.1 hs.2
  exact ⟨hw, fun a n' hs => step_kept hw hs⟩

namespace TransmitLemmas

def oneRegister : Handler Unit :=
  ⟨none, none, none, some fun app _ => (modbusOk, 0x1234, app), none, none, none⟩

/-- The unit with address 1, after its start, and a tx FIFO of four bytes. -/
def started : Node Unit :=
  ⟨⟨1, fun _ => 0, 0, 0, (), []⟩, [], 4, 0, false, .idle, [], []⟩

theorem started_init : started.Init := ⟨rfl, rfl, rfl, rfl, rfl, rfl⟩

/-- A request comes in two halves, of which the first one arms `clear`. Its deadline passes when the
response has filled the tx FIFO. -/
def halves : List Act :=
  [.arrive [1, 3, 0, 0], .work bufferSize 0 0, .arrive [0, 1, 0x84, 0x0a], .work bufferSize 0 0,
    .expire]

/-- The whole of the response goes out before `clear` runs, and the next request is answered. -/
def timelyClear : List Act :=
  halves ++ [.drain 4, .work bufferSize 0 0, .clear, .drain 3,
    .arrive [1, 3, 0, 0, 0, 1, 0x84, 0x0a], .work bufferSize 0 0]

def lateClear : List Act := halves ++ [.clear]

end TransmitLemmas

open TransmitLemmas in
/-- One response has been written, and four bytes of the next one. -/
theorem transmitted_whole_timely : ∃ n, ((line oneRegister).guard ClearsNone).Reachable n ∧
    n.written = withCrc [1, 3, 2, 0x12, 0x34] ++ [1, 3, 2, 0x12] ∧ n.bus.ptr = 4 ∧ Sending n ∧
    Whole n ∧ ∀ a n', (line oneRegister).step n a n' → (Kept n n' ↔ ClearsNone n a) := by
  have hrun : (exec (guarded (step oneRegister) ClearsNone) started timelyClear).map
      (fun n => (n.written, n.bus.ptr, n.bus.rspSize)) =
        some (withCrc [1, 3, 2, 0x12, 0x34] ++ [1, 3, 2, 0x12], 4, 7) := by
    decide +kernel
  obtain ⟨n, hn, hfields⟩ := Option.map_eq_some_iff.mp hrun
  obtain ⟨hwritten, hptr, hsize⟩ : n.written = withCrc [1, 3, 2, 0x12, 0x34] ++ [1, 3, 2, 0x12] ∧
      n.bus.ptr = 4 ∧ n.bus.rspSize = 7 := by
    simpa using hfields
  have hreach := Lts.Reachable.exec_guarded (.init started_init) hn
  have hsending : Sending n := by
    rw [Sending, hsize]
    decide
  exact ⟨n, hreach, hwritten, hptr, hsending, transmitted_whole oneRegister hreach⟩

open TransmitLemmas in
/-- Four of the seven bytes of the response are written, and no more. -/
theorem clear_abandons : ∃ n, (line oneRegister).Reachable n ∧ ¬ Whole n := by
  have hrun : (exec (step oneRegister) started lateClear).map
      (fun n => (n.bus.rspSize, n.written, n.responses)) =
        some (0, [1, 3, 2, 0x12], [withCrc [1, 3, 2, 0x12, 0x34]]) := by
    decide +kernel
  obtain ⟨n, hn, hfields⟩ := Option.map_eq_some_iff.mp hrun
  obtain ⟨hsize, hwritten, hresponses⟩ : n.bus.rspSize = 0 ∧ n.written = [1, 3, 2, 0x12] ∧
      n.responses = [withCrc [1, 3, 2, 0x12, 0x34]] := by
    simpa using hfields
  refine ⟨n, Lts.reachable_exec (.init started_init) hn, ?_⟩
  rintro ⟨sent, ⟨-, h1, h2⟩ | ⟨h1, -⟩⟩
  · rw [hresponses, List.sublist_singleton] at h1
    rw [hwritten] at h2
    rcases h1 with rfl | rfl
    · cases h2
    · exact absurd (congrArg List.length h2) (by decide)
  · rw [hsize] at h1
    exact Nat.not_lt_zero _ h1

end Picore.Modbus
