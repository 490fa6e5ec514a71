import Mathlib.Data.Nat.Find
import Picore.Modbus.Objects

/-!
# The bounds of the Modbus buffer

A request is answered inside `bus->buffer` for every function code but
`MODBUS_READ_DEVICE_IDENTIFICATION`. There, `left` is unsigned: once `ptr` is 253 or
254 it wraps to a huge number, no later object breaks the loop, and one is written,
or the CRC is, behind the buffer.

Results:
1. `busReqSwitch_safe`: the other function codes leave room for the CRC.
2. `devidLoop_safe`, `devidLoop_overruns`: the loop, without and with an overrun.
3. `buffer_safe_iff`: the exact condition.
-/

namespace Picore.Modbus

open Memory Fuel

variable {σ : Type}

/-- No access of the request to `bus->buffer` is behind its end, and neither is the
end of the response. -/
def BufferSafe (h : Handler σ) (size : Nat) (s : PrModbus σ) : Prop :=
  ∀ fuel, (∀ e, busReqRespond h size fuel s ≠ .error (.fault e)) ∧
    ∀ s', busReqRespond h size fuel s = .ok (true, s') → s'.rspSize ≤ bufferSize

/-! ## 1. The other function codes -/

theorem get_safe (s : PrModbus σ) {i : Nat} (h : i < bufferSize) :
    Safe (fun _ => True) (s.get i) := by
  rw [s.get_ok h]
  trivial

theorem getBe16_safe (s : PrModbus σ) {i : Nat} (h : i + 1 < bufferSize) :
    Safe (fun _ => True) (s.getBe16 i) := by
  rw [s.getBe16_ok h]
  trivial

theorem put_safe (s : PrModbus σ) {i : Nat} {bytes : List UInt8}
    (h : i + bytes.length ≤ bufferSize) : Safe (fun s' => s'.ptr = s.ptr) (s.put i bytes) := by
  rw [s.put_ok h]
  exact rfl

/-- The CRC fits behind the response, unless it is an error. -/
def RoomForCrc (r : UInt8 × PrModbus σ) : Prop := r.1 = modbusOk → r.2.ptr ≤ 254

theorem error_safe (s : PrModbus σ) {err : UInt8} (h : err ≠ modbusOk) :
    Safe RoomForCrc (.ok (err, s) : Outcome OutOfBounds _) :=
  fun h1 => absurd h1 h

/-- A loop of turns that leave `ptr` where it is. -/
theorem writeLoop_safe {turn : Nat → PrModbus σ → Outcome OutOfBounds (UInt8 × PrModbus σ)}
    {m p : Nat}
    (hturn : ∀ off < m, ∀ s, s.ptr = p → Safe (fun r => r.2.ptr = p) (turn off s)) {n off : Nat}
    (hm : off + n ≤ m) {s : PrModbus σ} (hs : s.ptr = p) :
    Safe (fun r => r.2.ptr = p) (writeLoop turn n off s) := by
  induction n generalizing off s with
  | zero => exact hs
  | succ n ih =>
    have hoff : off < m := Nat.lt_of_lt_of_le (Nat.lt_add_of_pos_right n.succ_pos) hm
    refine (hturn off hoff s hs).bind fun ⟨err, s1⟩ h1 => ?_
    simp only at h1 ⊢
    split
    · exact h1
    · refine ih ?_ h1
      rw [Nat.add_right_comm off 1 n]
      exact hm

theorem readCoil_safe (event : UInt16 → Callback) (getter : BoolGetter σ) (address : UInt16)
    {p off : Nat} (hb : p + (off + 8) / 8 ≤ bufferSize) {s : PrModbus σ} (hs : s.ptr = p) :
    Safe (fun r => r.2.ptr = p) (readCoil event getter address off s) := by
  have hi : s.ptr + off / 8 < bufferSize := by
    rwa [Nat.add_div_right off (by decide), ← hs] at hb
  unfold readCoil
  simp only
  split
  · exact hs
  split
  · exact (get_safe _ hi).bind fun b _ => (put_safe _ hi).bind fun s' hs' => hs'.trans hs
  · exact hs

theorem busReqCoilsGetMany_safe (event : UInt16 → Callback) (address count : UInt16)
    (getter : Option (BoolGetter σ)) {s : PrModbus σ} (hs : s.ptr = 2) :
    Safe RoomForCrc (busReqCoilsGetMany event address count getter s) := by
  unfold busReqCoilsGetMany
  simp only
  split
  · exact error_safe s (by decide)
  rename_i hbytes
  cases getter with
  | none => exact error_safe s (by decide)
  | some getter =>
    refine (put_safe _ (by simp [hs, bufferSize])).bind fun s1 h1 => ?_
    refine (put_safe _ (by simp [h1, hs, bufferSize]; omega)).bind fun s2 h2 => ?_
    have h3 : s2.ptr = 3 := by simp [h2, h1, hs]
    have hturn : ∀ off < count.toNat, ∀ s : PrModbus σ, s.ptr = 3 →
        Safe (fun r => r.2.ptr = 3) (readCoil event getter address off s) := fun off hoff _ =>
      readCoil_safe event getter address (by rw [bufferSize]; omega)
    rw [coilsLoop_eq]
    refine (writeLoop_safe hturn (Nat.le_of_eq (Nat.zero_add _)) h3).bind fun r hr => ?_
    · rcases r with ⟨err, s3⟩
      simp only at hr ⊢
      split
      · exact error_safe s3 ‹_›
      · intro _
        simp only [hr]
        omega

theorem regsLoop_safe (event : UInt16 → Callback) (getter : RegGetter σ) (address : UInt16)
    (n off : Nat) (s : PrModbus σ) (hb : s.ptr + n * 2 ≤ bufferSize) :
    Safe (fun r => r.2.ptr ≤ s.ptr + n * 2) (regsLoop event getter address n off s) := by
  induction n generalizing off s with
  | zero => exact Nat.le_refl _
  | succ n ih =>
    rcases hg : getter s.app (address + UInt16.ofNat off) with ⟨err, value, app⟩
    rw [regsLoop]
    simp only [hg, PrModbus.called_ptr]
    rw [Nat.succ_mul, Nat.add_comm (n * 2) 2, ← Nat.add_assoc] at hb ⊢
    split
    · exact Nat.le_trans (Nat.le_add_right _ 2) (Nat.le_add_right _ _)
    · have hi : s.ptr + 2 ≤ bufferSize := Nat.le_trans (Nat.le_add_right _ _) hb
      refine (put_safe _ hi).bind fun s' hs' => ?_
      rw [PrModbus.called_ptr] at hs'
      refine (ih (off + 1) _ ?_).mono fun r hr => ?_
      · rw [hs']
        exact hb
      · rw [hs'] at hr
        exact hr

theorem busReqRegsGetMany_safe (event : UInt16 → Callback) (address count : UInt16)
    (getter : Option (RegGetter σ)) {s : PrModbus σ} (hs : s.ptr = 2) :
    Safe RoomForCrc (busReqRegsGetMany event address count getter s) := by
  unfold busReqRegsGetMany
  simp only
  split
  · exact error_safe s (by decide)
  rename_i hbytes
  cases getter with
  | none => exact error_safe s (by decide)
  | some getter =>
    refine (put_safe _ (by simp [hs, bufferSize])).bind fun s1 h1 => ?_
    refine (regsLoop_safe event getter address count.toNat 0 _ ?_).mono fun r hr _ => ?_
    · simp only [h1, hs, bufferSize]
      omega
    · simp only [h1, hs] at hr
      omega

theorem reqReadBools_safe (event : UInt16 → Callback) (getter : Option (BoolGetter σ))
    {s : PrModbus σ} (hs : s.ptr = 2) :
    Safe RoomForCrc (reqReadBools event getter s) :=
  (getBe16_safe s (by decide)).bind fun address _ =>
    (getBe16_safe s (by decide)).bind fun count _ =>
      busReqCoilsGetMany_safe event address count getter hs

theorem reqReadRegs_safe (event : UInt16 → Callback) (getter : Option (RegGetter σ))
    {s : PrModbus σ} (hs : s.ptr = 2) :
    Safe RoomForCrc (reqReadRegs event getter s) :=
  (getBe16_safe s (by decide)).bind fun address _ =>
    (getBe16_safe s (by decide)).bind fun count _ =>
      busReqRegsGetMany_safe event address count getter hs

theorem setCoil_ptr {h : Handler σ} {s s' : PrModbus σ} {address : UInt16} {value : Bool}
    {err : UInt8} (hc : s.setCoil h address value = (err, s')) : s'.ptr = s.ptr := by
  unfold PrModbus.setCoil at hc
  split at hc
  · rw [(Prod.mk.inj hc).2]
  · rw [← (Prod.mk.inj hc).2, PrModbus.called_ptr]

theorem setReg_ptr {h : Handler σ} {s s' : PrModbus σ} {address value : UInt16} {err : UInt8}
    (hr : s.setReg h address value = (err, s')) : s'.ptr = s.ptr := by
  unfold PrModbus.setReg at hr
  split at hr
  · rw [(Prod.mk.inj hr).2]
  · rw [← (Prod.mk.inj hr).2, PrModbus.called_ptr]

theorem echo_safe {s : PrModbus σ} (hs : s.ptr = 2) (first second : UInt16) :
    Safe RoomForCrc (s.echo first second) := by
  refine (put_safe s (by simp [hs, bufferSize])).bind fun s1 h1 => ?_
  refine (put_safe s1 (by simp [h1, hs, bufferSize])).bind fun s2 h2 => ?_
  intro _
  simp [h2, h1, hs]

theorem reqWriteSingleRegister_safe (h : Handler σ) {s : PrModbus σ} (hs : s.ptr = 2) :
    Safe RoomForCrc (reqWriteSingleRegister h s) := by
  refine (getBe16_safe s (by decide)).bind fun address _ =>
    (getBe16_safe s (by decide)).bind fun value _ => ?_
  rcases hr : s.setReg h address value with ⟨err, s1⟩
  simp only
  split
  · exact error_safe s1 ‹_›
  · exact echo_safe ((setReg_ptr hr).trans hs) address value

theorem reqWriteSingleCoil_safe (h : Handler σ) {s : PrModbus σ} (hs : s.ptr = 2) :
    Safe RoomForCrc (reqWriteSingleCoil h s) := by
  refine (getBe16_safe s (by decide)).bind fun address _ =>
    (getBe16_safe s (by decide)).bind fun rvalue _ => ?_
  simp only
  rcases hc : s.setCoil h address (rvalue != 0) with ⟨err, s1⟩
  simp only
  split
  · exact error_safe s1 ‹_›
  · exact echo_safe ((setCoil_ptr hc).trans hs) address _

theorem writeReg_safe (h : Handler σ) (address : UInt16) {off : Nat}
    (hoff : 7 + (off + 1) * 2 ≤ bufferSize) (s : PrModbus σ) :
    Safe (fun r => r.2.ptr = s.ptr) (writeReg h address off s) := by
  refine (getBe16_safe s (by omega)).bind fun value _ => ?_
  exact setReg_ptr (rfl : s.setReg h (address + UInt16.ofNat off) value = _)

theorem writeCoil_safe (h : Handler σ) (address : UInt16) {off : Nat}
    (hoff : 7 + (off + 8) / 8 ≤ bufferSize) (s : PrModbus σ) :
    Safe (fun r => r.2.ptr = s.ptr) (writeCoil h address off s) := by
  refine (get_safe s (by omega)).bind fun b _ => ?_
  exact setCoil_ptr (rfl : s.setCoil h (address + UInt16.ofNat off) _ = _)

/-- The checks bound what the loop reads by the size of the frame. -/
theorem reqWriteMultiple_safe {Fits : UInt16 → UInt8 → Prop} [DecidableRel Fits]
    {turn : UInt16 → Nat → PrModbus σ → Outcome OutOfBounds (UInt8 × PrModbus σ)} {size : Nat}
    (hturn : ∀ address count byteCount, Fits count byteCount → byteCount.toNat + 9 = size →
      ∀ off < count.toNat, ∀ s, Safe (fun r => r.2.ptr = s.ptr) (turn address off s))
    {s : PrModbus σ} (hs : s.ptr = 2) : Safe RoomForCrc (reqWriteMultiple Fits turn size s) := by
  refine (getBe16_safe s (by decide)).bind fun address _ =>
    (getBe16_safe s (by decide)).bind fun count _ =>
    (get_safe s (by decide)).bind fun byteCount _ => ?_
  split
  · exact error_safe s (by decide)
  rename_i hfits
  split
  · exact error_safe s (by decide)
  rename_i hbytes
  have hloop := hturn address count byteCount (not_not.mp hfits) (not_not.mp hbytes)
  refine (writeLoop_safe (fun off hoff s hs => (hloop off hoff s).mono fun _ h => h.trans hs)
    (Nat.le_of_eq (Nat.zero_add _)) hs).bind fun ⟨err, s1⟩ h1 => ?_
  simp only at h1 ⊢
  split
  · exact error_safe s1 ‹_›
  · exact echo_safe h1 address count

theorem reqWriteMultipleRegisters_safe (h : Handler σ) {size : Nat} (hsize : size ≤ bufferSize)
    {s : PrModbus σ} (hs : s.ptr = 2) :
    Safe RoomForCrc (reqWriteMultipleRegisters h size s) := by
  rw [reqWriteMultipleRegisters_eq]
  refine reqWriteMultiple_safe (fun address count byteCount hfits hbytes off hoff => ?_) hs
  unfold RegsFit at hfits
  exact writeReg_safe h address (by omega)

theorem reqWriteMultipleCoils_safe (h : Handler σ) {size : Nat} (hsize : size ≤ bufferSize)
    {s : PrModbus σ} (hs : s.ptr = 2) :
    Safe RoomForCrc (reqWriteMultipleCoils h size s) := by
  rw [reqWriteMultipleCoils_eq]
  refine reqWriteMultiple_safe (fun address count byteCount hfits hbytes off hoff => ?_) hs
  unfold CoilsFit at hfits
  exact writeCoil_safe h address (by omega)

/-- Every function code but one leaves room for the CRC. -/
theorem busReqSwitch_safe (h : Handler σ) {size : Nat} (hsize : size ≤ bufferSize) (fuel : Nat)
    {func : UInt8} (hf : func ≠ readDeviceIdentification) {s : PrModbus σ} (hs : s.ptr = 2) :
    Safe RoomForCrc (busReqSwitch h size fuel func s) := by
  unfold busReqSwitch
  split
  · exact reqReadBools_safe _ _ hs
  split
  · exact reqReadBools_safe _ _ hs
  split
  · exact reqReadRegs_safe _ _ hs
  split
  · exact reqReadRegs_safe _ _ hs
  split
  · exact reqWriteSingleRegister_safe h hs
  split
  · exact reqWriteSingleCoil_safe h hs
  split
  · exact reqWriteMultipleRegisters_safe h hsize hs
  split
  · exact reqWriteMultipleCoils_safe h hsize hs
  · exact error_safe s (by decide)

/-- A device identification request that is answered with an error. -/
theorem reqReadDeviceIdentification_safe (h : Handler σ) (fuel : Nat) (s : PrModbus σ)
    (hreq : s.buffer 2 ≠ 0xe ∨ lastObjectId (s.buffer 3) = none) :
    Safe RoomForCrc (reqReadDeviceIdentification h fuel s) := by
  unfold reqReadDeviceIdentification
  rw [s.get_ok (by decide), bind_ok, s.get_ok (by decide), bind_ok, s.get_ok (by decide), bind_ok]
  split
  · exact error_safe s (by decide)
  · rw [hreq.resolve_left ‹_›]
    exact error_safe s (by decide)

/-! ## 2. The response -/

theorem respondError_safe (err : UInt8) (s : PrModbus σ) :
    Safe (fun s' => s'.ptr = 3) (respondError err s) :=
  (get_safe s (by decide)).bind fun func _ =>
    (put_safe s (by simp [bufferSize])).bind fun s1 _ =>
      (put_safe s1 (by simp [bufferSize])).bind fun _ _ => rfl

theorem respond_ok {s : PrModbus σ} (hs : s.ptr ≤ 254) :
    respond s = .ok { s.stored s.ptr (modbusCrc16Serialize
      (modbusCrc16Update modbusCrc16Init (load s.buffer 0 s.ptr))) with
        rspSize := s.ptr + 2, ptr := 0 } := by
  have h1 : 0 + s.ptr ≤ bufferSize := by
    rw [bufferSize]
    omega
  rw [respond, loadAt_ok s.buffer h1, bind_ok, s.put_ok (by simp [bufferSize]; omega), bind_ok]
  rfl

/-- The CRC is written behind the buffer, or even read over bytes that are. -/
theorem respond_fault {s : PrModbus σ} (h1 : 254 < s.ptr) :
    ∃ e, respond s = .error (.fault e) := by
  have hne (state : UInt16) : modbusCrc16Serialize state ≠ [] := List.cons_ne_nil _ _
  rcases Nat.lt_or_ge bufferSize s.ptr with h2 | h2
  · refine ⟨⟨max 0 bufferSize⟩, ?_⟩
    rw [respond, loadAt_fault s.buffer (by simpa using h2) (Nat.zero_lt_of_lt h1), bind_error]
  · refine ⟨⟨max s.ptr bufferSize⟩, ?_⟩
    rw [respond, loadAt_ok s.buffer (by simpa using h2), bind_ok,
      s.put_fault (by simp [bufferSize]; omega) (hne _), bind_error]

theorem respond_safe {s : PrModbus σ} (hs : s.ptr ≤ 254) :
    Safe (fun s' => s'.rspSize ≤ bufferSize) (respond s) := by
  rw [respond_ok hs]
  exact Nat.add_le_add_right hs 2

theorem bufferSafe_of_safe {h : Handler σ} {size : Nat} {s : PrModbus σ}
    (hs : ∀ fuel, Safe (fun r => r.1 → r.2.rspSize ≤ bufferSize) (busReqRespond h size fuel s)) :
    BufferSafe h size s := by
  intro fuel
  obtain ⟨h1, h2⟩ := safe_iff.mp (hs fuel)
  exact ⟨h1, fun s' h3 => h2 _ h3 rfl⟩

theorem busReqRespond_other (h : Handler σ) (size fuel : Nat) {s : PrModbus σ}
    (hs : s.buffer 0 ≠ s.addr) :
    busReqRespond h size fuel s = .ok (false, { s with ptr := 0, rspSize := 0 }) := by
  unfold busReqRespond
  rw [s.get_ok (by decide), bind_ok, s.get_ok (by decide), bind_ok]
  exact if_pos hs

/-- What is left of the request when its function code has left room for the CRC. -/
theorem busReqRespond_safe {h : Handler σ} {size fuel : Nat} {s : PrModbus σ}
    (hs : s.buffer 0 = s.addr)
    (hsw : Safe RoomForCrc (busReqSwitch h size fuel (s.buffer 1)
      { s.stored 0 [s.addr, s.buffer 1] with ptr := 2, rspSize := 0 })) :
    Safe (fun r => r.1 → r.2.rspSize ≤ bufferSize) (busReqRespond h size fuel s) := by
  rw [busReqRespond_addressed size fuel hs]
  refine hsw.bind fun r hr => ?_
  rcases r with ⟨err, s1⟩
  have h1 : Safe (fun s2 => s2.ptr ≤ 254)
      (if err ≠ modbusOk then respondError err s1 else .ok s1 : Outcome ..) := by
    split
    · exact (respondError_safe err s1).mono fun s2 h2 => by omega
    · exact hr (not_not.mp ‹_›)
  exact h1.bind fun s2 h2 => (respond_safe h2).bind fun s3 h3 _ => h3

/-! ## 3. The loop -/

theorem spaceLeft_of_le {ptr : Nat} (h : ptr ≤ 252) : spaceLeft ptr = 252 - ptr := by
  unfold spaceLeft bufferSize
  omega

theorem spaceLeft_of_gt {ptr : Nat} (h1 : 252 < ptr) (h2 : ptr ≤ bufferSize) :
    0x40 ≤ spaceLeft ptr := by
  unfold bufferSize at h2
  unfold spaceLeft bufferSize
  omega

theorem breaks_iff {ptr : Nat} {object : Option (List UInt8)} (h : ptr ≤ bufferSize) :
    Breaks ptr object ↔ ptr ≤ 252 ∧ 254 < ptr + objectSize object := by
  cases object with
  | none =>
    refine iff_of_false not_false fun h1 => ?_
    rw [objectSize] at h1
    omega
  | some data =>
    rw [breaks_some, objectSize]
    rcases Nat.lt_or_ge 252 ptr with h1 | h1
    · have h2 := spaceLeft_of_gt h1 h
      omega
    · rw [spaceLeft_of_le h1]
      omega

/-- Turn `k` is one of the loop's, unless an earlier one breaks it. The loop up to id
0xff has no last turn. -/
def InRange (last first : UInt8) (k : Nat) : Prop :=
  last = 0xff ∨ first.toNat + k ≤ last.toNat

/-- The end of the buffer, or of the part that leaves room for the CRC. The loop up to
id 0xff is only left by a break. -/
def limit (last : UInt8) : Nat := if last = 0xff then 256 else 254

/-- Some objects fill the response up to byte 253 or 254 exactly, and the next ones
that there are run over its end. -/
def Overruns (h : Handler σ) (last first : UInt8) (app : σ) : Prop :=
  ∃ k m, k ≤ m ∧ InRange last first m ∧
    (ptrAt h first app k = 253 ∨ ptrAt h first app k = 254) ∧
    limit last < ptrAt h first app (m + 1)

theorem InRange.id_le {last first : UInt8} {k : Nat} (h : InRange last first k) :
    first + UInt8.ofNat k ≤ last := by
  rw [UInt8.le_iff_toNat_le]
  rcases h with rfl | h
  · exact Nat.le_of_lt_succ (UInt8.toNat_lt _)
  · have h1 := last.toNat_lt
    rw [UInt8.toNat_add, UInt8.toNat_ofNat']
    omega

theorem InRange.mono {last first : UInt8} {j k : Nat} (h : InRange last first k) (hle : j ≤ k) :
    InRange last first j :=
  h.imp_right fun h => Nat.le_trans (Nat.add_le_add_left hle _) h

/-- What the turns before turn `k` have come to, when there is no overrun. -/
def OnCourse (h : Handler σ) (last first : UInt8) (app : σ) (k : Nat) : Prop :=
  ptrAt h first app k ≤ 254 ∨
    last = 0xff ∧ ptrAt h first app k ≤ bufferSize ∧
      ∃ j < k, ptrAt h first app j = 253 ∨ ptrAt h first app j = 254

theorem OnCourse.le {h : Handler σ} {last first : UInt8} {app : σ} {k : Nat}
    (hc : OnCourse h last first app k) : ptrAt h first app k ≤ bufferSize := by
  rcases hc with hc | hc
  · exact Nat.le_trans hc (by decide)
  · exact hc.2.1

theorem OnCourse.succ {h : Handler σ} {last first : UInt8} {app : σ} {k : Nat}
    (hno : ¬ Overruns h last first app) (hk : InRange last first k)
    (hbreak : ¬ Breaks (ptrAt h first app k) (objectAt h first app k))
    (hc : OnCourse h last first app k) : OnCourse h last first app (k + 1) := by
  rw [breaks_iff hc.le] at hbreak
  rcases Nat.lt_or_ge 252 (ptrAt h first app k) with h1 | h1
  · -- `ptr` has gone past 252, where no turn breaks the loop any more.
    have h2 : ∃ j ≤ k, ptrAt h first app j = 253 ∨ ptrAt h first app j = 254 := by
      rcases hc with hc | ⟨_, _, j, hj, h2⟩
      · exact ⟨k, Nat.le_refl k, by omega⟩
      · exact ⟨j, Nat.le_of_lt hj, h2⟩
    obtain ⟨j, hj, h2⟩ := h2
    have h3 : ptrAt h first app (k + 1) ≤ limit last :=
      Nat.le_of_not_lt fun h3 => hno ⟨j, k, hj, hk, h2, h3⟩
    unfold limit at h3
    split at h3
    · exact .inr ⟨‹_›, h3, j, Nat.lt_succ_of_le hj, h2⟩
    · exact .inl h3
  · left
    rw [ptrAt]
    omega

/-- Without an overrun the loop stays in the buffer and leaves room for the CRC. -/
theorem devidLoop_safe {h : Handler σ} {last first : UInt8} {s : PrModbus σ} (hs : s.ptr = 8)
    (hno : ¬ Overruns h last first s.app) (fuel k : Nat)
    (hk : last = 0xff ∨ first.toNat + k ≤ 255) (hc : OnCourse h last first s.app k) :
    Safe (fun s' => s'.ptr ≤ 254)
      (devidLoop h last fuel (first + UInt8.ofNat k) (turns h first s k)) := by
  induction fuel generalizing k with
  | zero => trivial
  | succ fuel ih =>
    have hptr := turns_ptr h first hs k
    by_cases hid : first + UInt8.ofNat k ≤ last
    · have hrange : InRange last first k := by
        refine hk.imp_right fun hk => ?_
        rw [UInt8.le_iff_toNat_le, UInt8.toNat_add, UInt8.toNat_ofNat'] at hid
        omega
      by_cases hbreak : Breaks (ptrAt h first s.app k) (objectAt h first s.app k)
      · have h1 := (breaks_iff hc.le).mp hbreak
        rw [devidLoop_break fuel hid (by rw [hptr, turns_app]; exact hbreak)]
        have h2 : (turns h first s k).ptr ≤ 254 := by omega
        simpa [Safe, broken] using h2
      · have hnext := hc.succ hno hrange hbreak
        rw [devidLoop_turn fuel hid (by rw [hptr, turns_app]; exact hbreak)
          (by rw [hptr, turns_app]; exact hnext.le)]
        have h1 := ih (k + 1) ?_ hnext
        · rwa [UInt8.ofNat_add, ← UInt8.add_assoc] at h1
        · rcases hrange with h1 | h1
          · exact .inl h1
          · by_cases h2 : last = 0xff
            · exact .inl h2
            · right
              have h3 := last.toNat_lt
              have h4 : last.toNat ≠ 255 := fun h4 => h2 (UInt8.toNat_inj.mp h4)
              omega
    · rw [devidLoop_end h fuel _ (by rw [← UInt8.not_le]; exact hid)]
      rcases hc with hc | ⟨rfl, _⟩
      · show (turns h first s k).ptr ≤ 254
        rw [hptr]
        exact hc
      · exact absurd (InRange.id_le (.inl rfl)) hid

/-- Once the response has filled up to byte 253 or 254, no turn has broken the loop or
will. -/
theorem not_breaks_of_filled {h : Handler σ} {first : UInt8} {app : σ} {k : Nat}
    (hk : ptrAt h first app k = 253 ∨ ptrAt h first app k = 254) {j : Nat}
    (hj : ptrAt h first app j ≤ bufferSize) :
    ¬ Breaks (ptrAt h first app j) (objectAt h first app j) := by
  rw [breaks_iff hj]
  rintro ⟨h1, h2⟩
  rcases Nat.lt_or_ge j k with h3 | h3
  · have h4 : ptrAt h first app (j + 1) ≤ ptrAt h first app k := ptrAt_mono h first app h3
    rw [ptrAt] at h4
    omega
  · have h4 := ptrAt_mono h first app h3
    omega

/-- With an overrun the loop leaves the buffer, or no room for the CRC. -/
theorem devidLoop_overruns {h : Handler σ} {last first : UInt8} {s : PrModbus σ} (hs : s.ptr = 8)
    (hover : Overruns h last first s.app) :
    ∃ fuel, (∃ e, devidLoop h last fuel first s = .error (.fault e)) ∨
      ∃ s', devidLoop h last fuel first s = .ok s' ∧ 254 < s'.ptr := by
  obtain ⟨k, m, hkm, hm, hfilled, hlimit⟩ := hover
  have hfits {n : Nat}
      (hn : ∀ j < n, InRange last first j ∧ ptrAt h first s.app (j + 1) ≤ bufferSize) :
      ∀ j < n, Fits h last first s.app j := by
    intro j hj
    refine ⟨(hn j hj).1.id_le, not_breaks_of_filled hfilled ?_, (hn j hj).2⟩
    exact Nat.le_trans (ptrAt_mono h first s.app (Nat.le_succ j)) (hn j hj).2
  by_cases hbig : ∃ j, InRange last first j ∧ bufferSize < ptrAt h first s.app (j + 1)
  · -- The first of these turns writes over the end of the buffer.
    classical
    let n := Nat.find hbig
    obtain ⟨hn, hover⟩ : InRange last first n ∧ bufferSize < ptrAt h first s.app (n + 1) :=
      Nat.find_spec hbig
    have hbefore : ∀ j < n, InRange last first j ∧ ptrAt h first s.app (j + 1) ≤ bufferSize := by
      intro j hj
      have h1 := hn.mono (Nat.le_of_lt hj)
      exact ⟨h1, Nat.le_of_not_lt fun h2 => Nat.find_min hbig hj ⟨h1, h2⟩⟩
    have hle := ptrAt_le (hfits hbefore)
    refine ⟨1 + n, .inl ?_⟩
    rw [devidLoop_turns hs (hfits hbefore)]
    refine devidLoop_fault 0 hn.id_le ?_ ?_ ?_
    · rw [turns_ptr h first hs, turns_app]
      exact not_breaks_of_filled hfilled hle
    · rw [turns_ptr h first hs, turns_app]
      exact hover
    · rw [turns_ptr h first hs]
      exact hle
  · -- All turns stay in the buffer, and the last id is not 0xff.
    have hsmall : ∀ j, InRange last first j → ptrAt h first s.app (j + 1) ≤ bufferSize :=
      fun j hj => Nat.le_of_not_lt fun h1 => hbig ⟨j, hj, h1⟩
    have hlast : last ≠ 0xff := by
      rintro rfl
      exact absurd hlimit (Nat.not_lt_of_le (hsmall m hm))
    rw [limit, if_neg hlast] at hlimit
    have h1 := hm.resolve_left hlast
    let n := last.toNat - first.toNat + 1
    have hn : ∀ j < n, InRange last first j := fun j hj => .inr (by omega)
    refine ⟨1 + n, .inr ⟨turns h first s n, ?_, ?_⟩⟩
    · rw [devidLoop_turns hs (hfits fun j hj => ⟨hn j hj, hsmall j (hn j hj)⟩)]
      refine devidLoop_end h 0 _ ?_
      have h2 := last.toNat_lt
      have h3 : last.toNat ≠ 255 := fun h3 => hlast (UInt8.toNat_inj.mp h3)
      rw [UInt8.lt_iff_toNat_lt, UInt8.toNat_add, UInt8.toNat_ofNat']
      omega
    · rw [turns_ptr h first hs]
      exact Nat.lt_of_lt_of_le hlimit (ptrAt_mono h first s.app (by omega))

/-! ## 4. Main result -/

@[simp] theorem moreNext_ptr (last : UInt8) (s : PrModbus σ) : (moreNext last s).ptr = s.ptr := by
  unfold moreNext
  split <;> rfl

@[simp] theorem pageStart_ptr (s : PrModbus σ) : (pageStart s).ptr = 8 := rfl

theorem devid_safe {h : Handler σ} (size : Nat) {s : PrModbus σ} {last : UInt8}
    (hreq : DevidRequest s last) (hno : ¬ Overruns h last (s.buffer 4) s.app) (fuel : Nat) :
    Safe (fun r => r.1 → r.2.rspSize ≤ bufferSize) (busReqRespond h size fuel s) := by
  rw [busReqRespond_devid size fuel hreq]
  have hstart : OnCourse h last (s.buffer 4) (pageStart s).app 0 := .inl (Nat.le_of_ble_eq_true rfl)
  have hk : last = 0xff ∨ (s.buffer 4).toNat + 0 ≤ 255 :=
    .inr (Nat.le_of_lt_succ (s.buffer 4).toNat_lt)
  have hloop := devidLoop_safe (pageStart_ptr s) hno fuel 0 hk hstart
  rw [show UInt8.ofNat 0 = 0 from rfl, UInt8.add_zero] at hloop
  refine hloop.bind fun s1 h1 => ?_
  exact (respond_safe (by rwa [moreNext_ptr])).bind fun s2 h2 _ => h2

theorem devid_unsafe {h : Handler σ} (size : Nat) {s : PrModbus σ} {last : UInt8}
    (hreq : DevidRequest s last) (hover : Overruns h last (s.buffer 4) s.app) :
    ¬ BufferSafe h size s := by
  intro hsafe
  obtain ⟨fuel, hloop⟩ := devidLoop_overruns (pageStart_ptr s) hover
  have h1 := (hsafe fuel).1
  rw [busReqRespond_devid size fuel hreq] at h1
  rcases hloop with ⟨e, he⟩ | ⟨s1, hs1, hlt⟩
  · exact h1 e (by rw [he, bind_error])
  · obtain ⟨e, he⟩ := @respond_fault _ (moreNext last s1) (by rwa [moreNext_ptr])
    exact h1 e (by rw [hs1, bind_ok, he, bind_error])

/-- A request is answered in the bounds of the buffer exactly if it is not a device identification
request for which the objects overrun it. With `ptr` at 253 or 254 the space that is left is
computed as a large number, and the next object is written whatever its length. -/
theorem buffer_safe_iff (h : Handler σ) {size : Nat} (hsize : size ≤ bufferSize)
    (s : PrModbus σ) :
    BufferSafe h size s ↔
      ∀ last, DevidRequest s last → ¬ Overruns h last (s.buffer 4) s.app := by
  constructor
  · intro hsafe last hreq hover
    exact devid_unsafe size hreq hover hsafe
  · intro hno
    refine bufferSafe_of_safe fun fuel => ?_
    by_cases haddr : s.buffer 0 = s.addr
    · by_cases hfunc : s.buffer 1 = readDeviceIdentification
      · have hk : ∀ i, 2 ≤ i → store s.buffer 0 [s.addr, s.buffer 1] i = s.buffer i :=
          fun i hi => store_apply_of_ge hi
        by_cases herr : s.buffer 2 ≠ 0xe ∨ lastObjectId (s.buffer 3) = none
        · refine busReqRespond_safe haddr ?_
          rw [hfunc, busReqSwitch_devid]
          refine reqReadDeviceIdentification_safe h fuel _ ?_
          simpa [hk, ← hfunc] using herr
        · rw [not_or, not_not] at herr
          obtain ⟨last, hlast⟩ := Option.ne_none_iff_exists'.mp herr.2
          have hreq : DevidRequest s last := ⟨haddr, hfunc, herr.1, hlast⟩
          exact devid_safe size hreq (hno last hreq) fuel
      · exact busReqRespond_safe haddr (busReqSwitch_safe h hsize fuel hfunc rfl)
    · rw [busReqRespond_other h size fuel haddr]
      exact fun h1 => absurd h1 Bool.false_ne_true

namespace SafetyLemmas

def onlyDevid (objects : UInt8 → Option (List UInt8)) : Handler Unit :=
  ⟨none, none, none, none, none, none, some fun app id => (objects id, app)⟩

/-- The unit with address 1, a frame in its buffer. -/
def received (frame : List UInt8) : PrModbus Unit :=
  ⟨1, store (fun _ => 0) 0 frame, frame.length, 0, (), []⟩

/-- Three strings of 64 bytes, one of 46 and one of a single byte. -/
def longObjects (id : UInt8) : Option (List UInt8) :=
  if id < 3 then some (List.replicate 64 0x41)
  else if id = 3 then some (List.replicate 46 0x41)
  else if id = 4 then some [0x41]
  else none

/-- The request for the regular objects, from id 0 on. -/
def regularRequest : List UInt8 := withCrc [1, 0x2b, 0x0e, 2, 0]

end SafetyLemmas

open SafetyLemmas in
theorem buffer_safe_iff_regular :
    7 ≤ bufferSize ∧
    (BufferSafe (onlyDevid fun _ => none) 7 (received regularRequest) ↔
      ∀ last, DevidRequest (received regularRequest) last →
        ¬ Overruns (onlyDevid fun _ => none) last 0 ()) :=
  ⟨by decide, buffer_safe_iff _ (by decide) (received regularRequest)⟩

open SafetyLemmas in
/-- The fourth string ends at byte 253. The fifth is not held back and the byte it
consists of is written to `bus->buffer[256]`. -/
theorem devid_overruns_buffer :
    modbusReqFrameLen (received regularRequest).buffer 7 = 7 ∧
    crcValid (load (received regularRequest).buffer 0 7) = true ∧
    ¬ BufferSafe (onlyDevid longObjects) 7 (received regularRequest) := by
  refine ⟨by decide, by decide +kernel, ?_⟩
  have hreq : DevidRequest (received regularRequest) 0x7f := by
    constructor <;> decide
  refine devid_unsafe 7 hreq ⟨4, 4, Nat.le_refl 4, .inr (by decide), .inr ?_, ?_⟩
  · decide
  · decide

end Picore.Modbus
