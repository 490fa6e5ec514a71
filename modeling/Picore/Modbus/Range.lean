import Picore.Lib.Visit
import Picore.Modbus.Address
import Picore.Modbus.RoundTrip

/-!
# The range of a request

Six function codes are about a range of coils or registers: a start address and a count, of
16 bits each. Five loops call a callback for one address of the range after the other. The
address that they pass on has 16 bits too.

Results:
1. `Access`: what a function code does with a range. `KeepsRange`: what is expected of it.
2. `coilsLoop_walked`, `regsLoop_walked`, `writeLoop_walked`: the calls that the loops make.
3. `busReqSwitch_result`: what a function code returns.
4. `range_kept_iff`: the callback is called within the range iff the range does not go past the
   last address, or the loop does not. `range_wraps`: a request for which it does.
-/

namespace Picore.Modbus

open Memory Fuel Bits Visit ResponseLemmas RoundTripLemmas

variable {σ α : Type}

/-! ## 1. Ranges -/

/-- What a function code does with a range: the callback that it calls, for an address and the
place of its value in the payload, the requests that it rejects before it calls any, and the
response to the others. -/
structure Access (σ α : Type) where
  ask : σ → UInt16 → Nat → UInt8 × α × σ
  event : UInt16 → α → Callback
  event_address : ∀ {a b : UInt16} {v w : α}, event a v = event b w → a = b
  Rejects : Prop
  Normal : List α → PrModbus σ → Prop

/-- The first address of the range that the request in the buffer names. -/
def PrModbus.start (s : PrModbus σ) : UInt16 := be16 (s.buffer 2) (s.buffer 3)

/-- How many coils or registers the request in the buffer names. -/
def PrModbus.count (s : PrModbus σ) : UInt16 := be16 (s.buffer 4) (s.buffer 5)

def coilAt (m : Mem UInt8) (i : Nat) : Bool := bitAt (m (3 + i / 8)) (i % 8)

def regAt (m : Mem UInt8) (i : Nat) : UInt16 := be16 (m (3 + i * 2)) (m (3 + i * 2 + 1))

/-- A request to read. `bytes` is the size of the values, and `place` tells where they are in the
response. -/
def readAccess [Inhabited α] (event : UInt16 → Callback) (hevent : Function.Injective event)
    (getter : Option (σ → UInt16 → UInt8 × α × σ)) (bytes : Nat) (place : Mem UInt8 → Nat → α)
    (s : PrModbus σ) : Access σ α where
  ask app a _ :=
    match getter with
    | none => (modbusIllegalFunction, default, app)
    | some getter => getter app a
  event a _ := event a
  event_address h := hevent h
  Rejects := 250 < bytes ∨ getter = none
  Normal values s' := s'.rspSize = bytes + 5 ∧
    load s'.buffer 0 3 = [s.addr, s.buffer 1, UInt8.ofNat bytes] ∧
    crcValid (load s'.buffer 0 s'.rspSize) = true ∧
    ∀ i (hi : i < values.length), place s'.buffer i = values[i]

/-- A request to write. `value` tells where the values are in the request, and `Fits` whether
there are as many as it says. -/
def writeAccess (event : UInt16 → α → Callback)
    (hevent : ∀ {a b : UInt16} {v w : α}, event a v = event b w → a = b)
    (setter : Option (σ → UInt16 → α → UInt8 × σ)) (Fits : UInt16 → UInt8 → Prop) (size : Nat)
    (value : Mem UInt8 → Nat → α) (s : PrModbus σ) : Access σ α where
  ask app a i :=
    match setter with
    | none => (modbusIllegalFunction, value s.buffer i, app)
    | some setter =>
      ((setter app a (value s.buffer i)).1, value s.buffer i, (setter app a (value s.buffer i)).2)
  event := event
  event_address := hevent
  Rejects := ¬(Fits s.count (s.buffer 6) ∧ (s.buffer 6).toNat + 9 = size) ∨
    setter = none ∧ 0 < s.count.toNat
  Normal _ s' := load s'.buffer 0 s'.rspSize =
    withCrc ([s.addr, s.buffer 1] ++ be16Bytes s.start ++ be16Bytes s.count)

/-- The function codes whose requests name a range, with what each of them does with it: the four
that read, and the writes of several values. -/
inductive Accesses (h : Handler σ) (size : Nat) (s : PrModbus σ) :
    (α : Type) → UInt8 → Access σ α → Prop
  | coils : Accesses h size s Bool readCoils
      (readAccess .coilGet (fun _ _ => Callback.coilGet.inj) h.coilGet
        ((s.count.toNat + 7) / 8) coilAt s)
  | discreteInputs : Accesses h size s Bool readDiscreteInputs
      (readAccess .discreteInputGet (fun _ _ => Callback.discreteInputGet.inj) h.discreteInputGet
        ((s.count.toNat + 7) / 8) coilAt s)
  | holdingRegisters : Accesses h size s UInt16 readHoldingRegisters
      (readAccess .holdingRegisterGet (fun _ _ => Callback.holdingRegisterGet.inj)
        h.holdingRegisterGet (s.count.toNat * 2) regAt s)
  | inputRegisters : Accesses h size s UInt16 readInputRegisters
      (readAccess .inputRegisterGet (fun _ _ => Callback.inputRegisterGet.inj) h.inputRegisterGet
        (s.count.toNat * 2) regAt s)
  | setCoils : Accesses h size s Bool writeMultipleCoils
      (writeAccess .coilSet (fun heq => (Callback.coilSet.inj heq).1) h.coilSet CoilsFit size
        bitOf s)
  | setRegisters : Accesses h size s UInt16 writeMultipleRegisters
      (writeAccess .holdingRegisterSet (fun heq => (Callback.holdingRegisterSet.inj heq).1)
        h.holdingRegisterSet RegsFit size regOf s)

def Exception (s s' : PrModbus σ) (err : UInt8) : Prop :=
  load s'.buffer 0 s'.rspSize = withCrc [s.addr, s.buffer 1 ||| 0x80, err]

/-- The callback has been called for the addresses from the start address on, in their order, up
to the first error, which the response reports. If there is none, it has been called for all of
the range. If the request is rejected, it has not been called. -/
def KeepsRange (acc : Access σ α) (s s' : PrModbus σ) : Prop :=
  ∃ (cs : List (UInt16 × α)) (err : UInt8),
    cs.map (fun c => c.1.toNat) = List.range' s.start.toNat cs.length ∧
    cs.length ≤ s.count.toNat ∧
    s'.calls = s.calls ++ cs.map (fun c => acc.event c.1 c.2) ∧
    Run acc.ask modbusOk 0 s.app cs err s'.app ∧
    (err = modbusOk ∧ cs.length = s.count.toNat ∧ acc.Normal (cs.map Prod.snd) s' ∨
      err ≠ modbusOk ∧ Exception s s' err ∨
      cs = [] ∧ ∃ code, code ≠ modbusOk ∧ Exception s s' code)

/-- The callback for an address of the range returns an error, when it is called for one after
the other. -/
def FailsWithin (acc : Access σ α) (s : PrModbus σ) : Prop :=
  ∃ k < s.count.toNat, s.start.toNat + k < 65536 ∧
    errorAt acc.ask (fun i => s.start + UInt16.ofNat i) 0 s.app k ≠ modbusOk

/-! ## 2. The loops -/

namespace RangeLemmas

/-- The calls that a loop has made for `n` addresses from place `off` on, when it returns `r`. -/
structure Walked (acc : Access σ α) (address : UInt16) (n off : Nat) (s : PrModbus σ)
    (r : UInt8 × PrModbus σ) (cs : List (UInt16 × α)) : Prop where
  run : Run acc.ask modbusOk off s.app cs r.1 r.2.app
  calls : r.2.calls = s.calls ++ cs.map fun c => acc.event c.1 c.2
  addresses : cs.map Prod.fst =
    (List.range' off cs.length).map fun i => address + UInt16.ofNat i
  length : cs.length ≤ n
  all : r.1 = modbusOk → cs.length = n

variable {acc : Access σ α} {address : UInt16} {n off : Nat} {s s1 : PrModbus σ}

theorem walked_done (acc : Access σ α) (address : UInt16) (off : Nat) (s : PrModbus σ) :
    Walked acc address 0 off s (modbusOk, s) [] where
  run := .done
  calls := (List.append_nil _).symm
  addresses := rfl
  length := Nat.le_refl 0
  all _ := rfl

/-- The state after a call, as far as the calls go. -/
structure Asked (acc : Access σ α) (a : UInt16) (off : Nat) (s s1 : PrModbus σ) : Prop where
  app : s1.app = (acc.ask s.app a off).2.2
  calls : s1.calls = s.calls ++ [acc.event a (acc.ask s.app a off).2.1]

theorem walked_stop (herr : (acc.ask s.app (address + UInt16.ofNat off) off).1 ≠ modbusOk)
    (h1 : Asked acc (address + UInt16.ofNat off) off s s1) :
    Walked acc address (n + 1) off s ((acc.ask s.app (address + UInt16.ofNat off) off).1, s1)
      [(address + UInt16.ofNat off, (acc.ask s.app (address + UInt16.ofNat off) off).2.1)] where
  run := by
    show Run _ _ _ _ _ _ s1.app
    rw [h1.app]
    exact .stop herr
  calls := h1.calls
  addresses := rfl
  length := Nat.succ_le_succ (Nat.zero_le n)
  all hok := absurd hok herr

theorem walked_next {r : UInt8 × PrModbus σ} {cs : List (UInt16 × α)}
    (hok : (acc.ask s.app (address + UInt16.ofNat off) off).1 = modbusOk)
    (h1 : Asked acc (address + UInt16.ofNat off) off s s1)
    (h : Walked acc address n (off + 1) s1 r cs) :
    Walked acc address (n + 1) off s r
      ((address + UInt16.ofNat off, (acc.ask s.app (address + UInt16.ofNat off) off).2.1) ::
        cs) where
  run := by
    have hrun := h.run
    rw [h1.app] at hrun
    exact .next hok hrun
  calls := by
    rw [h.calls, h1.calls, List.append_assoc]
    rfl
  addresses := by
    rw [List.map_cons, h.addresses, List.length_cons, List.range'_succ, List.map_cons]
  length := Nat.succ_le_succ h.length
  all herr := congrArg (· + 1) (h.all herr)

/-- The calls depend on the state of the application only. -/
theorem Walked.moved {r : UInt8 × PrModbus σ} {cs : List (UInt16 × α)}
    (h : Walked acc address n off s r cs) (happ : s1.app = s.app) (hcalls : s1.calls = s.calls) :
    Walked acc address n off s1 r cs where
  run := happ ▸ h.run
  calls := hcalls ▸ h.calls
  addresses := h.addresses
  length := h.length
  all := h.all

/-- The bits of the coils from `off` on, `n` of them, have been set to `c`. -/
def BitsSet (n off : Nat) (c : Nat → Bool) (s s' : PrModbus σ) : Prop :=
  ∀ j, ∀ i < 8, bitAt (s'.buffer (s.ptr + j)) i = (bitAt (s.buffer (s.ptr + j)) i ||
    (decide (off ≤ 8 * j + i ∧ 8 * j + i < off + n) && c (8 * j + i)))

theorem bitsSet_step {c : Nat → Bool} {v : Bool} {s' : PrModbus σ} (hptr : s1.ptr = s.ptr)
    (hbits : ∀ j, ∀ i < 8, bitAt (s1.buffer (s.ptr + j)) i =
      (bitAt (s.buffer (s.ptr + j)) i || (decide (8 * j + i = off) && v)))
    (h : BitsSet n (off + 1) c s1 s') :
    BitsSet (n + 1) off (Function.update c off v) s s' := by
  intro j i hi
  have hlater : (decide (off + 1 ≤ 8 * j + i ∧ 8 * j + i < off + 1 + n) && c (8 * j + i)) =
      (decide (off + 1 ≤ 8 * j + i ∧ 8 * j + i < off + 1 + n) &&
        Function.update c off v (8 * j + i)) := by
    rcases Nat.lt_or_ge off (8 * j + i) with hx | hx
    · rw [Function.update_of_ne (Nat.ne_of_gt hx)]
    · rw [decide_eq_false fun hle => Nat.not_lt_of_le hx hle.1, Bool.false_and, Bool.false_and]
  have hstep := bits_step (bitAt (s.buffer (s.ptr + j)) i) (Function.update c off v) (8 * j + i)
    off n
  rw [Function.update_self] at hstep
  have hrest := h j i hi
  rw [hptr, hbits j i hi, hlater] at hrest
  exact hrest.trans hstep

/-- The coils that a loop has read, and their bits if it has read all of them. -/
def CoilsWalked (acc : Access σ Bool) (address : UInt16) (n off : Nat) (s : PrModbus σ)
    (r : UInt8 × PrModbus σ) : Prop :=
  ∃ cs c, Walked acc address n off s r cs ∧ (∀ j (hj : j < cs.length), c (off + j) = cs[j].2) ∧
    (r.1 = modbusOk → BitsSet n off c s r.2)

theorem coilsWalked_next {acc : Access σ Bool} {r : UInt8 × PrModbus σ}
    (hok : (acc.ask s.app (address + UInt16.ofNat off) off).1 = modbusOk)
    (h1 : Asked acc (address + UInt16.ofNat off) off s s1) (hptr : s1.ptr = s.ptr)
    (hbits : ∀ j, ∀ i < 8, bitAt (s1.buffer (s.ptr + j)) i = (bitAt (s.buffer (s.ptr + j)) i ||
      (decide (8 * j + i = off) && (acc.ask s.app (address + UInt16.ofNat off) off).2.1)))
    (h : CoilsWalked acc address n (off + 1) s1 r) : CoilsWalked acc address (n + 1) off s r := by
  obtain ⟨cs, c, hwalked, hc, hset⟩ := h
  refine ⟨_, _, walked_next hok h1 hwalked, fun j hj => ?_, fun hr =>
    bitsSet_step hptr hbits (hset hr)⟩
  cases j with
  | zero => exact Function.update_self _ _ _
  | succ j =>
    have hplace : off + (j + 1) = off + 1 + j := by rw [Nat.add_comm j 1, ← Nat.add_assoc]
    rw [Function.update_of_ne (Nat.ne_of_gt (Nat.lt_add_of_pos_right (Nat.succ_pos j))), hplace]
    exact hc j (Nat.lt_of_succ_lt_succ hj)

theorem coilsLoop_walked (acc : Access σ Bool) {event : UInt16 → Callback} {getter : BoolGetter σ}
    (hask : ∀ app a i, acc.ask app a i = getter app a) (hevent : ∀ a v, acc.event a v = event a)
    (address : UInt16) (n off : Nat) (s : PrModbus σ) :
    Ensures (CoilsWalked acc address n off s) (coilsLoop event getter address n off s) := by
  induction n generalizing off s with
  | zero =>
    refine ensures_ok ⟨[], fun _ => false, walked_done acc address off s, ?_, fun _ j i _ => ?_⟩
    · exact fun j hj => absurd hj (Nat.not_lt_zero j)
    · rw [Bool.and_false, Bool.or_false]
  | succ n ih =>
    have hasked : Asked acc (address + UInt16.ofNat off) off s (s.called
        (event (address + UInt16.ofNat off))
        (acc.ask s.app (address + UInt16.ofNat off) off).2.2) := by
      refine ⟨rfl, ?_⟩
      rw [hevent]
      rfl
    rw [coilsLoop, ← hask s.app (address + UInt16.ofNat off) off]
    simp only
    split
    · refine ensures_ok ⟨_, fun _ => (acc.ask s.app (address + UInt16.ofNat off) off).2.1,
        walked_stop ‹_› hasked, fun j hj => ?_, fun hok => absurd hok ‹_›⟩
      rw [List.getElem_singleton]
    rename_i hok
    have hok := not_not.mp hok
    split
    · rename_i hset
      intro r hr
      obtain ⟨b, hb, hr⟩ := bind_eq_ok.mp hr
      obtain ⟨s', hs', hr⟩ := bind_eq_ok.mp hr
      obtain rfl := put_stored _ _ _ _ hs'
      refine coilsWalked_next hok ?_ ?_ (fun j i hi => ?_) (ih _ _ r hr)
      · exact ⟨hasked.app, hasked.calls⟩
      · rfl
      · rw [hset, Bool.and_true, PrModbus.get_value _ _ _ hb]
        exact bitAt_stored s.buffer s.ptr off j hi
    · rename_i hset
      refine fun r hr => coilsWalked_next hok hasked rfl (fun j i hi => ?_) (ih _ _ r hr)
      rw [Bool.eq_false_iff.mpr hset, Bool.and_false, Bool.or_false]
      rfl

theorem be16_store (m : Mem UInt8) (p : Nat) (v : UInt16) :
    be16 (store m p (be16Bytes v) p) (store m p (be16Bytes v) (p + 1)) = v := by
  have hhigh : store m p (be16Bytes v) (p + 0) = (be16Bytes v)[0] :=
    store_apply_add Nat.zero_lt_two
  have hlow : store m p (be16Bytes v) (p + 1) = (be16Bytes v)[1] := store_apply_add Nat.one_lt_two
  rw [Nat.add_zero] at hhigh
  rw [hhigh, hlow]
  exact be16_be16Bytes v

/-- The loop that reads registers leaves them one behind the other. -/
theorem regsLoop_walked (acc : Access σ UInt16) {event : UInt16 → Callback} {getter : RegGetter σ}
    (hask : ∀ app a i, acc.ask app a i = getter app a) (hevent : ∀ a v, acc.event a v = event a)
    (address : UInt16) (n off : Nat) (s : PrModbus σ) :
    Ensures (fun r => ∃ cs, Walked acc address n off s r cs ∧ (r.1 = modbusOk →
        ∀ j (hj : j < cs.length),
          be16 (r.2.buffer (s.ptr + j * 2)) (r.2.buffer (s.ptr + j * 2 + 1)) = cs[j].2))
      (regsLoop event getter address n off s) := by
  induction n generalizing off s with
  | zero =>
    exact ensures_ok ⟨[], walked_done acc address off s, fun _ j hj =>
      absurd hj (Nat.not_lt_zero j)⟩
  | succ n ih =>
    have hasked : Asked acc (address + UInt16.ofNat off) off s (s.called
        (event (address + UInt16.ofNat off))
        (acc.ask s.app (address + UInt16.ofNat off) off).2.2) := by
      refine ⟨rfl, ?_⟩
      rw [hevent]
      rfl
    rw [regsLoop, ← hask s.app (address + UInt16.ofNat off) off]
    simp only
    split
    · exact ensures_ok ⟨_, walked_stop ‹_› hasked, fun hok => absurd hok ‹_›⟩
    · rename_i hok
      intro r hr
      obtain ⟨s', hs', hr⟩ := bind_eq_ok.mp hr
      obtain rfl := put_stored _ _ _ _ hs'
      obtain ⟨cs, hwalked, hdata⟩ := ih _ _ r hr
      obtain ⟨-, hfront⟩ := regsLoop_shaped event getter address n (off + 1) _ r hr
      simp only [PrModbus.stored_ptr, PrModbus.called_ptr] at hdata hfront
      refine ⟨_, walked_next (not_not.mp hok) ?_ hwalked, fun hr j hj => ?_⟩
      · exact ⟨hasked.app, hasked.calls⟩
      cases j with
      | zero =>
        rw [Nat.zero_mul, Nat.add_zero, hfront s.ptr (by omega), hfront (s.ptr + 1) (by omega)]
        exact be16_store s.buffer s.ptr _
      | succ j =>
        rw [Nat.succ_mul, Nat.add_comm (j * 2) 2, ← Nat.add_assoc]
        exact hdata hr j (Nat.lt_of_succ_lt_succ hj)

def Turn (acc : Access σ α) (m : Mem UInt8) (address : UInt16)
    (turn : Nat → PrModbus σ → Outcome OutOfBounds (UInt8 × PrModbus σ)) : Prop :=
  ∀ off s, s.buffer = m → Ensures (fun r =>
    r.1 = (acc.ask s.app (address + UInt16.ofNat off) off).1 ∧
    Asked acc (address + UInt16.ofNat off) off s r.2 ∧ r.2.buffer = m ∧ r.2.ptr = s.ptr)
    (turn off s)

theorem writeLoop_walked {turn : Nat → PrModbus σ → Outcome OutOfBounds (UInt8 × PrModbus σ)}
    {m : Mem UInt8} (hturn : Turn acc m address turn) (n off : Nat) {s : PrModbus σ}
    (hs : s.buffer = m) :
    Ensures (fun r => (∃ cs, Walked acc address n off s r cs) ∧ r.2.buffer = m ∧ r.2.ptr = s.ptr)
      (writeLoop turn n off s) := by
  induction n generalizing off s with
  | zero => exact ensures_ok ⟨⟨[], walked_done acc address off s⟩, hs, rfl⟩
  | succ n ih =>
    refine (hturn off s hs).bind fun ⟨err, s1⟩ ⟨herr, hasked, hbuf, hptr⟩ => ?_
    simp only at herr hasked hbuf hptr ⊢
    subst herr
    split
    · exact ensures_ok ⟨⟨_, walked_stop ‹_› hasked⟩, hbuf, hptr⟩
    · intro r hr
      obtain ⟨⟨cs, hwalked⟩, hbuf', hptr'⟩ := ih _ hbuf r hr
      exact ⟨⟨_, walked_next (not_not.mp ‹_›) hasked hwalked⟩, hbuf', hptr'.trans hptr⟩

/-! ## 3. The function codes -/

theorem illegal_function_ne : modbusIllegalFunction ≠ modbusOk := by decide

theorem illegal_data_value_ne : modbusIllegalDataValue ≠ modbusOk := by decide

theorem device_failure_ne : modbusServerDeviceFailure ≠ modbusOk := by decide

/-- The state in which a request reaches the `switch`. -/
def entered (s : PrModbus σ) : PrModbus σ :=
  { s.stored 0 [s.addr, s.buffer 1] with ptr := 2, rspSize := 0 }

theorem entered_buffer {s : PrModbus σ} (haddr : s.buffer 0 = s.addr) :
    (entered s).buffer = s.buffer := by
  funext i
  match i with
  | 0 => exact haddr.symm
  | 1 => rfl
  | i + 2 =>
    have hlen : 0 + [s.addr, s.buffer 1].length ≤ i + 2 := Nat.le_add_left 2 i
    exact store_apply_of_ge hlen

/-- The response `s'` is what a function code has left in `s1`, with a CRC. -/
structure Sent (s s1 s' : PrModbus σ) : Prop where
  size : s'.rspSize = s1.ptr + 2
  addr : s1.buffer 0 = s.addr
  func : s1.buffer 1 = s.buffer 1
  bytes : load s'.buffer 0 s'.rspSize = withCrc (load s1.buffer 0 s1.ptr)

theorem Sent.front {s' : PrModbus σ} (h : Sent s s1 s') {i : Nat} (hi : i < s1.ptr) :
    s'.buffer i = s1.buffer i := by
  have hload := congrArg (List.take s1.ptr) h.bytes
  rw [h.size, load_take _ (Nat.le_add_right _ 2), withCrc,
    List.take_append_of_le_length (Nat.le_of_eq (length_load _ _ _).symm),
    List.take_of_length_le (Nat.le_of_eq (length_load _ _ _))] at hload
  exact eq_of_load hload hi

/-- What a function code has done with its range, and what it leaves for the response. -/
inductive Result (acc : Access σ α) (s : PrModbus σ) (r : UInt8 × PrModbus σ) : Prop
  | rejected : acc.Rejects → r.1 ≠ modbusOk → r.2.calls = s.calls → r.2.app = s.app →
      Result acc s r
  | walked (cs : List (UInt16 × α)) : ¬ acc.Rejects →
      Walked acc s.start s.count.toNat 0 s r cs →
      (r.1 = modbusOk → ∀ s', Sent s r.2 s' → acc.Normal (cs.map Prod.snd) s') → Result acc s r

theorem entered_fields {s : PrModbus σ} (haddr : s.buffer 0 = s.addr) :
    Ensures (fun a => a = s.start) ((entered s).getBe16 2) ∧
      Ensures (fun c => c = s.count) ((entered s).getBe16 4) := by
  refine ⟨fun a ha => ?_, fun c hc => ?_⟩
  · rw [PrModbus.getBe16_value _ _ a ha, entered_buffer haddr]
    rfl
  · rw [PrModbus.getBe16_value _ _ c hc, entered_buffer haddr]
    rfl

/-- A response with the values, `bytes` of them, behind their size. -/
theorem readAccess_normal [Inhabited α] {event : UInt16 → Callback}
    {hevent : Function.Injective event} {getter : Option (σ → UInt16 → UInt8 × α × σ)}
    {bytes : Nat} {place : Mem UInt8 → Nat → α} {s s1 s' : PrModbus σ} {values : List α}
    (hsent : Sent s s1 s') (hptr : s1.ptr = 3 + bytes) (hsize : s1.buffer 2 = UInt8.ofNat bytes)
    (hplace : ∀ i (hi : i < values.length), place s'.buffer i = values[i]) :
    (readAccess event hevent getter bytes place s).Normal values s' := by
  refine ⟨?_, ?_, ?_, hplace⟩
  · rw [hsent.size, hptr, Nat.add_comm 3 bytes]
  · have hfront : ∀ i < 3, s'.buffer i = s1.buffer i := fun i hi =>
      hsent.front (hptr ▸ Nat.lt_of_lt_of_le hi (Nat.le_add_right 3 bytes))
    show [s'.buffer 0, s'.buffer 1, s'.buffer 2] = _
    rw [hfront 0 (by decide), hfront 1 (by decide), hfront 2 (by decide), hsent.addr, hsent.func,
      hsize]
  · rw [hsent.bytes]
    exact crcValid_withCrc _

/-- The loop, from a state with the size of the values and with their bits cleared. -/
theorem coilsLoop_result {event : UInt16 → Callback} (hevent : Function.Injective event)
    {getter : BoolGetter σ} {bytes : Nat} {s s2 s3 : PrModbus σ} {err : UInt8}
    (hloop : coilsLoop event getter s.start s.count.toNat 0 s2 = .ok (err, s3))
    (hbytes : bytes = (s.count.toNat + 7) / 8) (hroom : bytes ≤ 250) (happ : s2.app = s.app)
    (hcalls : s2.calls = s.calls) (hptr : s2.ptr = 3) (hsize : s2.buffer 2 = UInt8.ofNat bytes)
    (hzero : ∀ j < bytes, s2.buffer (3 + j) = 0) :
    Result (readAccess event hevent (some getter) bytes coilAt s) s
      (err, if err ≠ modbusOk then s3 else { s3 with ptr := s3.ptr + bytes }) := by
  obtain ⟨hptr3, hfront⟩ := coilsLoop_shaped event getter s.start s.count.toNat 0 _ _ hloop
  obtain ⟨cs, c, hwalked, hc, hset⟩ := coilsLoop_walked
    (readAccess event hevent (some getter) bytes coilAt s)
    (fun _ _ _ => rfl) (fun _ _ => rfl) s.start s.count.toNat 0 _ _ hloop
  simp only at hptr3 hfront hset
  have hnot : ¬ (readAccess event hevent (some getter) bytes coilAt s).Rejects := by
    rintro (h1 | h1)
    · exact Nat.not_lt_of_le hroom h1
    · cases h1
  have hwalked := hwalked.moved happ.symm hcalls.symm
  refine .walked cs hnot ?_ ?_
  · split
    · exact hwalked
    · exact ⟨hwalked.run, hwalked.calls, hwalked.addresses, hwalked.length, hwalked.all⟩
  · intro (herr : err = modbusOk) s' hsent
    rw [if_neg (not_not.mpr herr)] at hsent
    have hdone : s3.ptr + bytes = 3 + bytes := by rw [hptr3, hptr]
    rw [hptr] at hfront
    refine readAccess_normal hsent hdone ((hfront 2 (by decide)).trans hsize) fun i hi => ?_
    rw [List.length_map] at hi
    have hlt : i < s.count.toNat := hwalked.all herr ▸ hi
    have hbyte : i / 8 < bytes := by omega
    have hmod : i % 8 < 8 := Nat.mod_lt i (by decide)
    have hsame : s'.buffer (3 + i / 8) = s3.buffer (3 + i / 8) :=
      hsent.front (hdone ▸ Nat.add_lt_add_left hbyte 3)
    have hbit := hset herr (i / 8) (i % 8) hmod
    rw [hptr, hzero _ hbyte, bitAt_zero hmod, Bool.false_or, Nat.div_add_mod, Nat.zero_add,
      decide_eq_true ⟨Nat.zero_le i, hlt⟩, Bool.true_and] at hbit
    rw [coilAt, hsame, hbit, List.getElem_map, ← hc i hi, Nat.zero_add]

theorem reqReadBools_result (event : UInt16 → Callback) (hevent : Function.Injective event)
    (getter : Option (BoolGetter σ)) {s : PrModbus σ} (haddr : s.buffer 0 = s.addr) :
    Ensures (Result (readAccess event hevent getter ((s.count.toNat + 7) / 8) coilAt s) s)
      (reqReadBools event getter (entered s)) := by
  obtain ⟨hstart, hcount⟩ := entered_fields haddr
  refine hstart.bind fun a ha => hcount.bind fun c hc => ?_
  subst ha hc
  unfold busReqCoilsGetMany
  simp only
  split
  · exact ensures_ok (.rejected (.inl ‹_›) device_failure_ne rfl rfl)
  rename_i hroom
  cases getter with
  | none => exact ensures_ok (.rejected (.inr rfl) illegal_function_ne rfl rfl)
  | some getter =>
    refine (put_stored (entered s) 2 _).bind ?_
    rintro _ rfl
    refine (put_stored _ 3 _).bind ?_
    rintro _ rfl
    intro r hr
    obtain ⟨⟨err, s3⟩, hloop, hr⟩ := bind_eq_ok.mp hr
    have hsize : store (store (entered s).buffer 2 [UInt8.ofNat ((s.count.toNat + 7) / 8)]) 3
        (List.replicate ((s.count.toNat + 7) / 8) 0) 2 =
          UInt8.ofNat ((s.count.toNat + 7) / 8) := by
      rw [store_apply_of_lt (by decide), store_cell]
    have hzero : ∀ j < (s.count.toNat + 7) / 8,
        store (store (entered s).buffer 2 [UInt8.ofNat ((s.count.toNat + 7) / 8)]) 3
          (List.replicate ((s.count.toNat + 7) / 8) 0) (3 + j) = 0 := by
      intro j hj
      rw [store_apply_add (by simpa using hj), List.getElem_replicate]
    have hresult := coilsLoop_result hevent hloop rfl (Nat.le_of_not_lt hroom) rfl rfl rfl hsize
      hzero
    simp only at hr
    split at hr
    · cases hr
      rw [if_pos ‹_›] at hresult
      exact hresult
    · rename_i herr
      cases hr
      rw [if_neg herr, not_not.mp herr] at hresult
      exact hresult

theorem reqReadRegs_result (event : UInt16 → Callback) (hevent : Function.Injective event)
    (getter : Option (RegGetter σ)) {s : PrModbus σ} (haddr : s.buffer 0 = s.addr) :
    Ensures (Result (readAccess event hevent getter (s.count.toNat * 2) regAt s) s)
      (reqReadRegs event getter (entered s)) := by
  obtain ⟨hstart, hcount⟩ := entered_fields haddr
  refine hstart.bind fun a ha => hcount.bind fun c hc => ?_
  subst ha hc
  unfold busReqRegsGetMany
  simp only
  split
  · exact ensures_ok (.rejected (.inl ‹_›) device_failure_ne rfl rfl)
  rename_i hroom
  cases getter with
  | none => exact ensures_ok (.rejected (.inr rfl) illegal_function_ne rfl rfl)
  | some getter =>
    refine (put_stored (entered s) 2 _).bind ?_
    rintro _ rfl r hloop
    obtain ⟨hptr, hfront⟩ := regsLoop_shaped event getter s.start s.count.toNat 0 _ _ hloop
    obtain ⟨cs, hwalked, hdata⟩ := regsLoop_walked
      (readAccess event hevent (some getter) (s.count.toNat * 2) regAt s)
      (fun _ _ _ => rfl) (fun _ _ => rfl) s.start s.count.toNat 0 _ _ hloop
    have hnot : ¬ (readAccess event hevent (some getter) (s.count.toNat * 2) regAt s).Rejects := by
      rintro (h1 | h1)
      · exact hroom h1
      · cases h1
    refine .walked cs hnot (hwalked.moved rfl rfl) fun hok s' hsent => ?_
    have hdone : r.2.ptr = 3 + s.count.toNat * 2 := hptr hok
    refine readAccess_normal hsent hdone ?_ fun i hi => ?_
    · rw [hfront 2 (show 2 < 3 by decide)]
      exact store_cell (entered s).buffer 2 _
    · rw [List.length_map] at hi
      have hlt : i < s.count.toNat := hwalked.all hok ▸ hi
      have hhigh : s'.buffer (3 + i * 2) = r.2.buffer (3 + i * 2) := hsent.front (by omega)
      have hlow : s'.buffer (3 + i * 2 + 1) = r.2.buffer (3 + i * 2 + 1) :=
        hsent.front (by omega)
      rw [regAt, hhigh, hlow, List.getElem_map]
      exact hdata hok i hi

/-- The response to a write repeats its two fields. -/
theorem echo_spec {s : PrModbus σ} (hptr : s.ptr = 2) (first second : UInt16) :
    Ensures (fun r => r.1 = modbusOk ∧ r.2.app = s.app ∧ r.2.calls = s.calls ∧ r.2.ptr = 6 ∧
      load r.2.buffer 2 4 = be16Bytes first ++ be16Bytes second) (s.echo first second) := by
  rw [PrModbus.echo, hptr]
  refine (put_stored s 2 _).bind ?_
  rintro _ rfl
  refine (put_stored _ _ _).bind ?_
  rintro _ rfl
  refine ensures_ok ⟨rfl, rfl, rfl, ?_, ?_⟩
  · exact congrArg (· + 4) hptr
  · simp only [PrModbus.stored_ptr, hptr, PrModbus.stored_buffer]
    have happend := store_append s.buffer 2 (be16Bytes first) (be16Bytes second)
    rw [length_be16Bytes] at happend
    rw [← happend]
    exact load_store_self s.buffer 2 (be16Bytes first ++ be16Bytes second)

/-- The normal response to a write of several values repeats the address and the count of the
request. -/
theorem writeAccess_normal {event : UInt16 → α → Callback}
    {hevent : ∀ {a b : UInt16} {v w : α}, event a v = event b w → a = b}
    {setter : Option (σ → UInt16 → α → UInt8 × σ)} {Fits : UInt16 → UInt8 → Prop} {size : Nat}
    {value : Mem UInt8 → Nat → α} {s s1 s' : PrModbus σ} (values : List α) (hsent : Sent s s1 s')
    (hptr : s1.ptr = 6) (hload : load s1.buffer 2 4 = be16Bytes s.start ++ be16Bytes s.count) :
    (writeAccess event hevent setter Fits size value s).Normal values s' := by
  show load s'.buffer 0 s'.rspSize = _
  rw [hsent.bytes, hptr, load_append s1.buffer 0 2 4, Nat.zero_add, hload]
  show withCrc ([s1.buffer 0, s1.buffer 1] ++ _) = _
  rw [hsent.addr, hsent.func, List.append_assoc]

theorem reqWriteMultiple_result {event : UInt16 → α → Callback}
    {hevent : ∀ {a b : UInt16} {v w : α}, event a v = event b w → a = b}
    {setter : Option (σ → UInt16 → α → UInt8 × σ)} {Fits : UInt16 → UInt8 → Prop}
    [DecidableRel Fits] {size : Nat} {value : Mem UInt8 → Nat → α} {s : PrModbus σ}
    {turn : UInt16 → Nat → PrModbus σ → Outcome OutOfBounds (UInt8 × PrModbus σ)}
    (haddr : s.buffer 0 = s.addr)
    (hnone : setter = none →
      ∀ address off s, Ensures (fun r => r = (modbusIllegalFunction, s)) (turn address off s))
    (hsome : setter ≠ none → ∀ address,
      Turn (writeAccess event hevent setter Fits size value s) s.buffer address (turn address)) :
    Ensures (Result (writeAccess event hevent setter Fits size value s) s)
      (reqWriteMultiple Fits turn size (entered s)) := by
  intro r hr
  have hbuf := entered_buffer haddr
  have haddress : be16 ((entered s).buffer 2) ((entered s).buffer 3) = s.start := by
    rw [hbuf]
    rfl
  have hcount : be16 ((entered s).buffer 4) ((entered s).buffer 5) = s.count := by
    rw [hbuf]
    rfl
  have hcases := reqWriteMultiple_cases hr haddress hcount
  rw [hbuf] at hcases
  obtain ⟨hbad, rfl⟩ | ⟨hfits, hsize, ⟨err, s1⟩, hloop, hecho⟩ := hcases
  · exact .rejected (.inl hbad) illegal_data_value_ne rfl rfl
  -- Without a setter, only a request for nothing is not an error.
  by_cases hmissing : setter = none ∧ 0 < s.count.toNat
  · obtain ⟨n, hn⟩ := Nat.exists_eq_succ_of_ne_zero (Nat.ne_of_gt hmissing.2)
    rw [hn, writeLoop] at hloop
    obtain ⟨r0, hturn, hloop⟩ := bind_eq_ok.mp hloop
    obtain rfl := hnone hmissing.1 _ _ _ _ hturn
    cases hloop
    cases hecho
    exact .rejected (.inr hmissing) illegal_function_ne rfl rfl
  have hnot : ¬ (writeAccess event hevent setter Fits size value s).Rejects := by
    rintro (h1 | h1)
    · exact h1 ⟨hfits, hsize⟩
    · exact hmissing h1
  have hwalk : (∃ cs, Walked (writeAccess event hevent setter Fits size value s) s.start
      s.count.toNat 0 (entered s) (err, s1) cs) ∧ s1.buffer = s.buffer ∧ s1.ptr = 2 := by
    by_cases hset : setter = none
    · have hzero : s.count.toNat = 0 := Nat.eq_zero_of_not_pos fun hpos => hmissing ⟨hset, hpos⟩
      rw [hzero] at hloop ⊢
      cases hloop
      exact ⟨⟨[], walked_done _ _ _ _⟩, hbuf, rfl⟩
    · exact writeLoop_walked (hsome hset s.start) _ 0 hbuf _ hloop
  obtain ⟨⟨cs, hwalked⟩, hbuf1, hptr⟩ := hwalk
  have hwalked : Walked _ _ _ _ s _ _ := hwalked.moved rfl rfl
  split at hecho
  · cases hecho
    exact .walked cs hnot hwalked fun hok => absurd hok ‹_›
  · rename_i herr
    obtain rfl : err = modbusOk := not_not.mp herr
    obtain ⟨hok, happ, hcalls, hptr', hload⟩ := echo_spec hptr s.start s.count r hecho
    refine .walked cs hnot ⟨?_, ?_, hwalked.addresses, hwalked.length, fun _ => hwalked.all rfl⟩
      fun _ s' hsent => writeAccess_normal _ hsent hptr' hload
    · rw [hok, happ]
      exact hwalked.run
    · rw [hcalls]
      exact hwalked.calls

theorem writeCoil_turn {h : Handler σ} (size : Nat) (s : PrModbus σ) (hset : h.coilSet ≠ none)
    (address : UInt16) :
    Turn (writeAccess .coilSet (fun heq => (Callback.coilSet.inj heq).1) h.coilSet CoilsFit size
      bitOf s) s.buffer address (writeCoil h address) := by
  obtain ⟨setter, hsetter⟩ := Option.ne_none_iff_exists'.mp hset
  intro off t ht
  refine (t.get_value _).bind fun b hb => ensures_ok ?_
  have hbit : ((b >>> UInt8.ofNat (off % 8)) &&& 1 != 0) = bitOf s.buffer off := by
    rw [hb, ht]
    rfl
  rw [hbit, PrModbus.setCoil, hsetter]
  exact ⟨rfl, ⟨rfl, rfl⟩, ht, rfl⟩

theorem writeReg_turn {h : Handler σ} (size : Nat) (s : PrModbus σ)
    (hset : h.holdingRegisterSet ≠ none) (address : UInt16) :
    Turn (writeAccess .holdingRegisterSet (fun heq => (Callback.holdingRegisterSet.inj heq).1)
      h.holdingRegisterSet RegsFit size regOf s) s.buffer address (writeReg h address) := by
  obtain ⟨setter, hsetter⟩ := Option.ne_none_iff_exists'.mp hset
  intro off t ht
  refine (t.getBe16_value _).bind fun value hvalue => ensures_ok ?_
  have hreg : value = regOf s.buffer off := by
    rw [hvalue, ht]
    rfl
  rw [hreg, PrModbus.setReg, hsetter]
  exact ⟨rfl, ⟨rfl, rfl⟩, ht, rfl⟩

theorem busReqSwitch_result {h : Handler σ} {size : Nat} {s : PrModbus σ} {func : UInt8}
    {acc : Access σ α} (hacc : Accesses h size s α func acc) (haddr : s.buffer 0 = s.addr)
    (fuel : Nat) : Ensures (Result acc s) (busReqSwitch h size fuel func (entered s)) := by
  cases hacc with
  | coils => exact reqReadBools_result _ _ _ haddr
  | discreteInputs => exact reqReadBools_result _ _ _ haddr
  | holdingRegisters => exact reqReadRegs_result _ _ _ haddr
  | inputRegisters => exact reqReadRegs_result _ _ _ haddr
  | setCoils =>
    show Ensures _ (reqWriteMultipleCoils h size (entered s))
    rw [reqWriteMultipleCoils_eq]
    refine reqWriteMultiple_result haddr (fun hnone address off t => ?_)
      (writeCoil_turn size s)
    refine (Ensures.trivial _).bind fun b _ => ensures_ok ?_
    rw [PrModbus.setCoil, hnone]
  | setRegisters =>
    show Ensures _ (reqWriteMultipleRegisters h size (entered s))
    rw [reqWriteMultipleRegisters_eq]
    refine reqWriteMultiple_result haddr (fun hnone address off t => ?_)
      (writeReg_turn size s)
    refine (Ensures.trivial _).bind fun value _ => ensures_ok ?_
    rw [PrModbus.setReg, hnone]

/-! ### Addresses -/

/-- The addresses do not wrap around iff the last one does not. -/
theorem addresses_iff {start : UInt16} {cs : List (UInt16 × α)}
    (hcs : cs.map Prod.fst = (List.range' 0 cs.length).map fun i => start + UInt16.ofNat i) :
    cs.map (fun c => c.1.toNat) = List.range' start.toNat cs.length ↔
      start.toNat + cs.length ≤ 65536 := by
  have hlt : ∀ i, (start + UInt16.ofNat i).toNat = (start.toNat + i) % 65536 := by
    intro i
    rw [UInt16.toNat_add, UInt16.toNat_ofNat']
    exact Nat.add_mod_mod _ _ _
  have hmap : cs.map (fun c => c.1.toNat) =
      (List.range' 0 cs.length).map fun i => (start.toNat + i) % 65536 := by
    rw [← Function.comp_def (fun a : UInt16 => a.toNat) Prod.fst, ← List.map_map, hcs,
      List.map_map]
    exact List.map_congr_left fun i _ => hlt i
  have hrange : List.range' start.toNat cs.length =
      (List.range' 0 cs.length).map fun i => start.toNat + i := by
    rw [← List.range_eq_range', List.range'_eq_map_range]
  rw [hmap, hrange, List.map_inj_left]
  constructor
  · intro heq
    cases hlen : cs.length with
    | zero => exact Nat.le_of_lt start.toNat_lt
    | succ n =>
      have hlast := heq n (by simp [hlen])
      rw [← Nat.add_assoc]
      exact hlast ▸ Nat.mod_lt _ (by decide)
  · intro hle i hi
    have hi : i < cs.length := by simpa using hi
    exact Nat.mod_eq_of_lt (Nat.lt_of_lt_of_le (Nat.add_lt_add_left hi _) hle)

theorem addresses_of_events (acc : Access σ α) {cs ds : List (UInt16 × α)}
    (h : cs.map (fun c => acc.event c.1 c.2) = ds.map fun c => acc.event c.1 c.2) :
    cs.map Prod.fst = ds.map Prod.fst := by
  induction cs generalizing ds with
  | nil =>
    cases ds with
    | nil => rfl
    | cons d ds => cases h
  | cons c cs ih =>
    cases ds with
    | nil => cases h
    | cons d ds =>
      obtain ⟨hhead, htail⟩ := List.cons.inj h
      rw [List.map_cons, List.map_cons, acc.event_address hhead, ih htail]

/-! ### The response -/

theorem busReqRespond_calls {h : Handler σ} {size fuel : Nat} {s s' : PrModbus σ}
    (haddr : s.buffer 0 = s.addr) (hok : busReqRespond h size fuel s = .ok (true, s'))
    {r : UInt8 × PrModbus σ} (hsw : busReqSwitch h size fuel (s.buffer 1) (entered s) = .ok r) :
    s'.calls = r.2.calls ∧ s'.app = r.2.app := by
  rw [busReqRespond_addressed size fuel haddr] at hok
  obtain ⟨r', hsw', hok⟩ := bind_eq_ok.mp hok
  obtain rfl : r = r' := Except.ok.inj (hsw.symm.trans hsw')
  obtain ⟨s2, herr, hok⟩ := bind_eq_ok.mp hok
  obtain ⟨s3, hresp, hok⟩ := bind_eq_ok.mp hok
  cases hok
  have hsame : s2.calls = r.2.calls ∧ s2.app = r.2.app := by
    split at herr
    · obtain ⟨func, -, herr⟩ := bind_eq_ok.mp herr
      obtain ⟨t1, h1, herr⟩ := bind_eq_ok.mp herr
      obtain ⟨t2, h2, herr⟩ := bind_eq_ok.mp herr
      cases herr
      obtain rfl := put_stored _ _ _ _ h1
      obtain rfl := put_stored _ _ _ _ h2
      exact ⟨rfl, rfl⟩
    · cases herr
      exact ⟨rfl, rfl⟩
  have hroom := (respond_bytes hresp).1
  rw [respond_ok hroom] at hresp
  cases hresp
  exact hsame

/-- The callback is called within the range iff the range does not go past the last address, or
the calls do not. -/
theorem keepsRange_iff {h : Handler σ} {size fuel : Nat} {s s' : PrModbus σ} {acc : Access σ α}
    (hacc : Accesses h size s α (s.buffer 1) acc) (haddr : s.buffer 0 = s.addr)
    (hok : busReqRespond h size fuel s = .ok (true, s')) :
    KeepsRange acc s s' ↔
      s.start.toNat + s.count.toNat ≤ 65536 ∨ acc.Rejects ∨ FailsWithin acc s := by
  obtain ⟨-, err, s1, hsw, hresp⟩ := busReqRespond_bytes hok
  obtain ⟨hcalls, happ⟩ := busReqRespond_calls haddr hok hsw
  simp only at hcalls happ
  cases busReqSwitch_result hacc haddr fuel _ hsw with
  | rejected hrejects herr hcalls1 happ1 =>
    refine iff_of_true ⟨[], modbusOk, rfl, Nat.zero_le _, ?_, ?_, ?_⟩ (.inr (.inl hrejects))
    · rw [hcalls, hcalls1]
      exact (List.append_nil _).symm
    · rw [happ, happ1]
      exact .done
    · cases hresp with
      | error _ _ hbytes => exact .inr (.inr ⟨rfl, err, herr, hbytes⟩)
      | ok herr' => exact absurd herr' herr
  | walked cs hnot hwalked hnormal =>
    constructor
    · rintro ⟨ds, -, hds, -, hcalls', -⟩
      have hevents := List.append_cancel_left
        ((hcalls'.symm.trans hcalls).trans hwalked.calls)
      have hfst := addresses_of_events acc hevents
      have hlen : ds.length = cs.length := by simpa using congrArg List.length hfst
      have hrange : s.start.toNat + cs.length ≤ 65536 := by
        rw [← hlen]
        refine (addresses_iff ?_).mp hds
        rw [hfst, hwalked.addresses, hlen]
      by_cases herr : err = modbusOk
      · exact .inl (hwalked.all herr ▸ hrange)
      · obtain ⟨k, hk, hfails⟩ := hwalked.run.fails hwalked.addresses herr
        have hlt : k < cs.length := hk ▸ Nat.lt_succ_self k
        refine .inr (.inr ⟨k, Nat.lt_of_lt_of_le hlt hwalked.length, ?_, hfails⟩)
        exact Nat.lt_of_lt_of_le (Nat.add_lt_add_left hlt _) hrange
    · intro hwhy
      have hrange : s.start.toNat + cs.length ≤ 65536 := by
        rcases hwhy with hfits | hrejects | ⟨k, -, hk, hfails⟩
        · exact Nat.le_trans (Nat.add_le_add_left hwalked.length _) hfits
        · exact absurd hrejects hnot
        · have hle := hwalked.run.length_le hwalked.addresses hfails
          exact Nat.le_trans (Nat.add_le_add_left hle _) hk
      refine ⟨cs, err, (addresses_iff hwalked.addresses).mpr hrange, hwalked.length, ?_, ?_, ?_⟩
      · exact hcalls.trans hwalked.calls
      · rw [happ]
        exact hwalked.run
      · cases hresp with
        | error herr _ hbytes => exact .inr (.inl ⟨herr, hbytes⟩)
        | ok herr hsize h0 h1 _ _ hbytes =>
          exact .inl ⟨herr, hwalked.all herr, hnormal herr s' ⟨hsize, h0, h1, hbytes⟩⟩

theorem accesses_func {h : Handler σ} {size : Nat} {s : PrModbus σ} {func : UInt8}
    {acc : Access σ α} (hacc : Accesses h size s α func acc) : func ≠ readDeviceIdentification := by
  cases hacc <;> decide

theorem accesses_returns {h : Handler σ} {size : Nat} (hsize : size ≤ bufferSize) {s : PrModbus σ}
    {acc : Access σ α} (hacc : Accesses h size s α (s.buffer 1) acc)
    (haddr : s.buffer 0 = s.addr) :
    ∃ s', Returns (fun fuel => busReqRespond h size fuel s) (true, s') := by
  have hno : ∀ last, ¬ DevidRequest s last := fun last hreq => accesses_func hacc hreq.func
  obtain ⟨⟨called, s'⟩, fuel, hok⟩ := TerminationLemmas.returns_of_left (h := h) hsize
    (fun last hreq => absurd hreq (hno last)) (fun hreq => absurd hreq (hno 0xff))
  have hcalled := (busReqRespond_addr h size fuel s _ hok).1
  rw [decide_eq_true haddr] at hcalled
  exact ⟨s', fuel, hcalled ▸ hok⟩

end RangeLemmas

open RangeLemmas

/-! ## 4. Main result -/

/-- A request for a range is responded to. The callback is called within the range iff the range
does not go past the last address, or the request is rejected, or the callback fails within the
range. -/
theorem range_kept_iff (h : Handler σ) {size : Nat} (hsize : size ≤ bufferSize) {s : PrModbus σ}
    (haddr : s.buffer 0 = s.addr) {acc : Access σ α}
    (hacc : Accesses h size s α (s.buffer 1) acc) :
    (∃ s', Returns (fun fuel => busReqRespond h size fuel s) (true, s') ∧ KeepsRange acc s s') ↔
      s.start.toNat + s.count.toNat ≤ 65536 ∨ acc.Rejects ∨ FailsWithin acc s := by
  constructor
  · rintro ⟨s', ⟨fuel, hok⟩, hkeeps⟩
    exact (keepsRange_iff hacc haddr hok).mp hkeeps
  · intro hwhy
    obtain ⟨s', fuel, hok⟩ := accesses_returns hsize hacc haddr
    exact ⟨s', ⟨fuel, hok⟩, (keepsRange_iff hacc haddr hok).mpr hwhy⟩

namespace RangeLemmas

open SafetyLemmas

/-- The requests to read the last holding register, and one more. -/
def readLast : List UInt8 := withCrc [1, 3, 0xff, 0xff, 0, 1]

def readPastLast : List UInt8 := withCrc [1, 3, 0xff, 0xff, 0, 2]

def registers (frame : List UInt8) : Access Unit UInt16 :=
  readAccess .holdingRegisterGet (fun _ _ => Callback.holdingRegisterGet.inj)
    vendorHandler.holdingRegisterGet ((received frame).count.toNat * 2) regAt (received frame)

end RangeLemmas

open RangeLemmas SafetyLemmas in
theorem range_kept_iff_last :
    (∃ s', Returns (fun fuel => busReqRespond vendorHandler 8 fuel (received readLast)) (true, s') ∧
      KeepsRange (registers readLast) (received readLast) s') ↔
    (received readLast).start.toNat + (received readLast).count.toNat ≤ 65536 ∨
      (registers readLast).Rejects ∨ FailsWithin (registers readLast) (received readLast) :=
  range_kept_iff vendorHandler (by decide) rfl .holdingRegisters

open RangeLemmas SafetyLemmas in
/-- A request for two registers from the last one on reads register 0, since the address has 16
bits. -/
theorem range_wraps :
    (∃ s', Returns (fun fuel => busReqRespond vendorHandler 8 fuel (received readPastLast))
        (true, s') ∧ s'.calls = [.holdingRegisterGet 0xffff, .holdingRegisterGet 0]) ∧
    ¬ ∃ s', Returns (fun fuel => busReqRespond vendorHandler 8 fuel (received readPastLast))
        (true, s') ∧ KeepsRange (registers readPastLast) (received readPastLast) s' := by
  have hrun : (busReqRespond vendorHandler 8 0 (received readPastLast)).toOption.map
      (fun r => (r.1, r.2.calls)) =
        some (true, [.holdingRegisterGet 0xffff, .holdingRegisterGet 0]) := by
    decide +kernel
  obtain ⟨s', hok, hcalls⟩ := responds_of_fields hrun
  refine ⟨⟨s', ⟨0, hok⟩, hcalls⟩, ?_⟩
  rintro ⟨s', ⟨fuel, hok⟩, hkeeps⟩
  rcases (keepsRange_iff .holdingRegisters rfl hok).mp hkeeps with h1 | (h1 | h1) | ⟨k, -, hk, h1⟩
  · exact absurd h1 (by decide)
  · exact absurd h1 (by decide)
  · cases h1
  · exact h1 rfl

end Picore.Modbus
