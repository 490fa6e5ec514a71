import Picore.Modbus.Request

/-!
# The address of a unit

Handling a request changes the buffer, `ptr` and `rsp_size`, but not the address of the
unit, whatever the callbacks do.

Results:
1. `busReqSwitch_addr`: no function code changes it.
2. `busReqRespond_addr`: nor does the response. It is made exactly if the request was
   for this address.
-/

namespace Picore.Modbus

open Memory Fuel

variable {σ : Type} {a : UInt8}

/-! ## 1. The function codes -/

def HasAddr (a : UInt8) (r : UInt8 × PrModbus σ) : Prop := r.2.addr = a

theorem put_addr {s : PrModbus σ} (hs : s.addr = a) (i : Nat) (bytes : List UInt8) :
    Ensures (fun s' => s'.addr = a) (s.put i bytes) :=
  (Ensures.trivial _).bind fun _ _ => ensures_ok hs

theorem writeLoop_addr {turn : Nat → PrModbus σ → Outcome OutOfBounds (UInt8 × PrModbus σ)}
    (hturn : ∀ off s, Ensures (fun r => r.2.addr = s.addr) (turn off s)) (n off : Nat)
    {s : PrModbus σ} (hs : s.addr = a) : Ensures (HasAddr a) (writeLoop turn n off s) :=
  fun r hr => (writeLoop_ensures (R := fun s t => t.addr = s.addr) (fun _ => rfl)
    (fun _ _ _ h1 h2 => h2.trans h1) hturn n off s r hr).trans hs

theorem readCoil_addr (event : UInt16 → Callback) (getter : BoolGetter σ) (address : UInt16)
    (off : Nat) (s : PrModbus σ) :
    Ensures (fun r => r.2.addr = s.addr) (readCoil event getter address off s) := by
  unfold readCoil
  simp only
  split
  · exact ensures_ok rfl
  split
  · exact (Ensures.trivial _).bind fun _ _ => (put_addr rfl _ _).bind fun _ h1 => ensures_ok h1
  · exact ensures_ok rfl

theorem readReg_addr (event : UInt16 → Callback) (getter : RegGetter σ) (address : UInt16)
    (off : Nat) (s : PrModbus σ) :
    Ensures (fun r => r.2.addr = s.addr) (readReg event getter address off s) := by
  unfold readReg
  simp only
  split
  · exact ensures_ok rfl
  · exact (put_addr rfl _ _).bind fun _ h1 => ensures_ok h1

theorem busReqCoilsGetMany_addr (event : UInt16 → Callback) (address count : UInt16)
    (getter : Option (BoolGetter σ)) {s : PrModbus σ} (hs : s.addr = a) :
    Ensures (HasAddr a) (busReqCoilsGetMany event address count getter s) := by
  unfold busReqCoilsGetMany
  simp only
  split
  · exact ensures_ok hs
  cases getter with
  | none => exact ensures_ok hs
  | some getter =>
    refine (put_addr hs _ _).bind fun s1 h1 => ?_
    refine (put_addr (s := { s1 with ptr := s1.ptr + 1 }) h1 _ _).bind fun s2 h2 => ?_
    rw [coilsLoop_eq]
    refine (writeLoop_addr (readCoil_addr event getter address) _ 0 h2).bind fun r hr => ?_
    split
    · exact ensures_ok hr
    · exact ensures_ok hr

theorem busReqRegsGetMany_addr (event : UInt16 → Callback) (address count : UInt16)
    (getter : Option (RegGetter σ)) {s : PrModbus σ} (hs : s.addr = a) :
    Ensures (HasAddr a) (busReqRegsGetMany event address count getter s) := by
  unfold busReqRegsGetMany
  simp only
  split
  · exact ensures_ok hs
  cases getter with
  | none => exact ensures_ok hs
  | some getter =>
    refine (put_addr hs _ _).bind fun _ h1 => ?_
    rw [regsLoop_eq]
    exact writeLoop_addr (readReg_addr event getter address) _ 0 h1

theorem reqReadBools_addr (event : UInt16 → Callback) (getter : Option (BoolGetter σ))
    {s : PrModbus σ} (hs : s.addr = a) : Ensures (HasAddr a) (reqReadBools event getter s) :=
  (Ensures.trivial _).bind fun address _ => (Ensures.trivial _).bind fun count _ =>
    busReqCoilsGetMany_addr event address count getter hs

theorem reqReadRegs_addr (event : UInt16 → Callback) (getter : Option (RegGetter σ))
    {s : PrModbus σ} (hs : s.addr = a) : Ensures (HasAddr a) (reqReadRegs event getter s) :=
  (Ensures.trivial _).bind fun address _ => (Ensures.trivial _).bind fun count _ =>
    busReqRegsGetMany_addr event address count getter hs

theorem setCoil_addr (h : Handler σ) {s : PrModbus σ} (hs : s.addr = a) (address : UInt16)
    (value : Bool) : HasAddr a (s.setCoil h address value) := by
  unfold PrModbus.setCoil
  split
  · exact hs
  · exact hs

theorem setReg_addr (h : Handler σ) {s : PrModbus σ} (hs : s.addr = a) (address value : UInt16) :
    HasAddr a (s.setReg h address value) := by
  unfold PrModbus.setReg
  split
  · exact hs
  · exact hs

theorem echo_addr {s : PrModbus σ} (hs : s.addr = a) (first second : UInt16) :
    Ensures (HasAddr a) (s.echo first second) :=
  (put_addr hs _ _).bind fun _ h1 => (put_addr h1 _ _).bind fun _ h2 => ensures_ok h2

/-- What follows a call that sets a value: an error, or the response. -/
theorem echoUnless_addr {r : UInt8 × PrModbus σ} (hr : HasAddr a r) (first second : UInt16) :
    Ensures (HasAddr a) (if r.1 ≠ modbusOk then .ok (r.1, r.2) else r.2.echo first second) := by
  split
  · exact ensures_ok hr
  · exact echo_addr hr first second

theorem reqWriteSingleRegister_addr (h : Handler σ) {s : PrModbus σ} (hs : s.addr = a) :
    Ensures (HasAddr a) (reqWriteSingleRegister h s) :=
  (Ensures.trivial _).bind fun address _ => (Ensures.trivial _).bind fun value _ =>
    echoUnless_addr (setReg_addr h hs address value) address value

theorem reqWriteSingleCoil_addr (h : Handler σ) {s : PrModbus σ} (hs : s.addr = a) :
    Ensures (HasAddr a) (reqWriteSingleCoil h s) :=
  (Ensures.trivial _).bind fun address _ => (Ensures.trivial _).bind fun _ _ =>
    echoUnless_addr (setCoil_addr h hs address _) address _

theorem writeReg_addr (h : Handler σ) (address : UInt16) (off : Nat) (s : PrModbus σ) :
    Ensures (fun r => r.2.addr = s.addr) (writeReg h address off s) :=
  (Ensures.trivial _).bind fun value _ => ensures_ok (setReg_addr h rfl _ value)

theorem writeCoil_addr (h : Handler σ) (address : UInt16) (off : Nat) (s : PrModbus σ) :
    Ensures (fun r => r.2.addr = s.addr) (writeCoil h address off s) :=
  (Ensures.trivial _).bind fun _ _ => ensures_ok (setCoil_addr h rfl _ _)

theorem reqWriteMultiple_addr {Fits : UInt16 → UInt8 → Prop} [DecidableRel Fits]
    {turn : UInt16 → Nat → PrModbus σ → Outcome OutOfBounds (UInt8 × PrModbus σ)}
    (hturn : ∀ address off s, Ensures (fun r => r.2.addr = s.addr) (turn address off s))
    (size : Nat) {s : PrModbus σ} (hs : s.addr = a) :
    Ensures (HasAddr a) (reqWriteMultiple Fits turn size s) := by
  intro r hr
  obtain ⟨-, rfl⟩ | ⟨-, -, r1, hloop, hecho⟩ := reqWriteMultiple_cases hr rfl rfl
  · exact hs
  · exact echoUnless_addr (writeLoop_addr (hturn _) _ 0 hs r1 hloop) _ _ r hecho

theorem reqWriteMultipleRegisters_addr (h : Handler σ) (size : Nat) {s : PrModbus σ}
    (hs : s.addr = a) : Ensures (HasAddr a) (reqWriteMultipleRegisters h size s) := by
  rw [reqWriteMultipleRegisters_eq]
  exact reqWriteMultiple_addr (writeReg_addr h) size hs

theorem reqWriteMultipleCoils_addr (h : Handler σ) (size : Nat) {s : PrModbus σ}
    (hs : s.addr = a) : Ensures (HasAddr a) (reqWriteMultipleCoils h size s) := by
  rw [reqWriteMultipleCoils_eq]
  exact reqWriteMultiple_addr (writeCoil_addr h) size hs

theorem askDevid_addr (h : Handler σ) {s : PrModbus σ} (hs : s.addr = a) (id : UInt8) :
    (s.askDevid h id).2.addr = a := by
  unfold PrModbus.askDevid
  split
  · exact hs
  · exact hs

theorem putObject_addr {s : PrModbus σ} (hs : s.addr = a) (id : UInt8) (len : Nat)
    (data : List UInt8) : Ensures (fun s' => s'.addr = a) (s.putObject id len data) :=
  (put_addr hs _ _).bind fun _ h1 => (put_addr h1 _ _).bind fun _ h2 =>
    (put_addr h2 _ _).bind fun s3 h3 => (Ensures.trivial _).bind fun _ _ =>
      put_addr (s := { s3 with ptr := s3.ptr + (len + 2) }) h3 _ _

theorem devidLoop_addr (h : Handler σ) (last : UInt8) (fuel : Nat) (id : UInt8) {s : PrModbus σ}
    (hs : s.addr = a) : Ensures (fun s' => s'.addr = a) (devidLoop h last fuel id s) := by
  induction fuel generalizing id s with
  | zero => exact fun s' h1 => by cases h1
  | succ fuel ih =>
    rw [devidLoop]
    split
    · refine (put_addr (askDevid_addr h hs id) _ _).bind fun s1 h1 => ?_
      split
      · exact ih _ h1
      · simp only
        split
        · exact put_addr h1 _ _
        · exact (putObject_addr h1 _ _ _).bind fun _ h2 => ih _ h2
    · exact ensures_ok hs

theorem reqReadDeviceIdentification_addr (h : Handler σ) (fuel : Nat) {s : PrModbus σ}
    (hs : s.addr = a) : Ensures (HasAddr a) (reqReadDeviceIdentification h fuel s) := by
  refine (Ensures.trivial _).bind fun mei _ => (Ensures.trivial _).bind fun code _ =>
    (Ensures.trivial _).bind fun id _ => ?_
  split
  · exact ensures_ok hs
  split
  · exact ensures_ok hs
  · refine (put_addr hs _ _).bind fun s1 h1 => ?_
    refine (devidLoop_addr h _ fuel id (s := { s1 with ptr := 8 }) h1).bind fun s2 h2 => ?_
    refine (Ensures.trivial _).bind fun next _ => ?_
    split
    · exact (put_addr h2 _ _).bind fun _ h3 => ensures_ok h3
    · exact (put_addr h2 _ _).bind fun _ h3 => ensures_ok h3

theorem busReqSwitch_addr (h : Handler σ) (size fuel : Nat) (func : UInt8) {s : PrModbus σ}
    (hs : s.addr = a) : Ensures (HasAddr a) (busReqSwitch h size fuel func s) := by
  unfold busReqSwitch
  split
  · exact reqReadBools_addr _ _ hs
  split
  · exact reqReadBools_addr _ _ hs
  split
  · exact reqReadRegs_addr _ _ hs
  split
  · exact reqReadRegs_addr _ _ hs
  split
  · exact reqWriteSingleRegister_addr h hs
  split
  · exact reqWriteSingleCoil_addr h hs
  split
  · exact reqWriteMultipleRegisters_addr h size hs
  split
  · exact reqWriteMultipleCoils_addr h size hs
  split
  · exact reqReadDeviceIdentification_addr h fuel hs
  · exact ensures_ok hs

/-! ## 2. The response -/

theorem respondError_addr (err : UInt8) {s : PrModbus σ} (hs : s.addr = a) :
    Ensures (fun s' => s'.addr = a) (respondError err s) :=
  (Ensures.trivial _).bind fun _ _ => (put_addr hs _ _).bind fun _ h1 =>
    (put_addr h1 _ _).bind fun _ h2 => ensures_ok h2

theorem respond_addr {s : PrModbus σ} (hs : s.addr = a) :
    Ensures (fun s' => s'.addr = a) (respond s) :=
  (Ensures.trivial _).bind fun _ _ => (put_addr hs _ _).bind fun _ h1 => ensures_ok h1

/-- A request leaves the address as it is. A response is made exactly if the request was
for this address. -/
theorem busReqRespond_addr (h : Handler σ) (size fuel : Nat) (s : PrModbus σ) :
    Ensures (fun r => r.1 = decide (s.buffer 0 = s.addr) ∧ r.2.addr = s.addr)
      (busReqRespond h size fuel s) := by
  unfold busReqRespond
  rw [s.get_ok (by decide), bind_ok, s.get_ok (by decide), bind_ok]
  simp only
  split
  · exact ensures_ok ⟨(decide_eq_false ‹_›).symm, rfl⟩
  · have hfor : true = decide (s.buffer 0 = s.addr) := (decide_eq_true (not_not.mp ‹_›)).symm
    refine (put_addr (s := { s with ptr := 0, rspSize := 0 }) rfl _ _).bind fun s1 h1 => ?_
    refine (busReqSwitch_addr h size fuel _ (s := { s1 with ptr := 2 }) h1).bind fun r hr => ?_
    have herr : Ensures (fun s' => s'.addr = s.addr)
        (if r.1 ≠ modbusOk then respondError r.1 r.2 else .ok r.2 : Outcome ..) := by
      split
      · exact respondError_addr _ hr
      · exact ensures_ok hr
    exact herr.bind fun _ h2 => (respond_addr h2).bind fun _ h3 => ensures_ok ⟨hfor, h3⟩

end Picore.Modbus
