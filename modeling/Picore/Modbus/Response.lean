import Picore.Modbus.Bus
import Picore.Modbus.Crc
import Picore.Modbus.Devid

/-!
# The bytes of a response

A request leaves the address and the function code at the front of the buffer. What
comes behind them depends on the function code: values with their byte count, the two
fields that a write repeats, or objects. An error takes the place of all that.

Results:
1. `busReqSwitch_shaped`: what a function code leaves in the buffer.
2. `busReqRespond_bytes`: the response.
3. `response_parsed_iff`: `modbus_rsp_frame_len` finds the end of a response exactly if
   it is not one with objects.
-/

namespace Picore.Modbus

open Memory Fuel

variable {σ : Type}

namespace ResponseLemmas

/-! ## 1. The function codes -/

/-- The bytes before `p` are the same in both buffers. -/
def SameFront (p : Nat) (s s' : PrModbus σ) : Prop := ∀ i < p, s'.buffer i = s.buffer i

theorem SameFront.refl (p : Nat) (s : PrModbus σ) : SameFront p s s := fun _ _ => rfl

theorem SameFront.trans {p : Nat} {s s' s'' : PrModbus σ} (h : SameFront p s s')
    (h' : SameFront p s' s'') : SameFront p s s'' :=
  fun i hi => (h' i hi).trans (h i hi)

theorem SameFront.mono {p q : Nat} {s s' : PrModbus σ} (h : SameFront q s s') (hle : p ≤ q) :
    SameFront p s s' :=
  fun i hi => h i (Nat.lt_of_lt_of_le hi hle)

theorem sameFront_stored {p i : Nat} (s : PrModbus σ) (bytes : List UInt8) (h : p ≤ i) :
    SameFront p s (s.stored i bytes) :=
  fun _ hj => store_apply_of_lt (Nat.lt_of_lt_of_le hj h)

theorem put_stored (s : PrModbus σ) (i : Nat) (bytes : List UInt8) :
    Ensures (fun s' => s' = s.stored i bytes) (s.put i bytes) := by
  intro s' hs'
  obtain ⟨buffer, hwrite, hs'⟩ := bind_eq_ok.mp hs'
  cases hs'
  unfold writeAt at hwrite
  split at hwrite
  · cases hwrite
    rfl
  · cases hwrite

theorem readCoil_shaped (event : UInt16 → Callback) (getter : BoolGetter σ) (address : UInt16)
    (off : Nat) (s : PrModbus σ) :
    Ensures (fun r => r.2.ptr = s.ptr ∧ SameFront s.ptr s r.2)
      (readCoil event getter address off s) := by
  unfold readCoil
  simp only
  split
  · exact ensures_ok ⟨rfl, .refl _ s⟩
  split
  · refine (Ensures.trivial _).bind fun b _ => (put_stored _ _ _).bind ?_
    rintro _ rfl
    exact ensures_ok ⟨rfl, sameFront_stored _ _ (Nat.le_add_right _ _)⟩
  · exact ensures_ok ⟨rfl, .refl _ s⟩

/-- The loop writes behind `ptr` and leaves it where it is. -/
theorem coilsLoop_shaped (event : UInt16 → Callback) (getter : BoolGetter σ) (address : UInt16)
    (n off : Nat) (s : PrModbus σ) :
    Ensures (fun r => r.2.ptr = s.ptr ∧ SameFront s.ptr s r.2)
      (coilsLoop event getter address n off s) := by
  rw [coilsLoop_eq]
  refine writeLoop_ensures (R := fun s t => t.ptr = s.ptr ∧ SameFront s.ptr s t)
    (fun s => ⟨rfl, .refl _ s⟩) (fun s t u h1 h2 => ?_) (readCoil_shaped event getter address) n
    off s
  exact ⟨h2.1.trans h1.1, h1.2.trans (h1.1 ▸ h2.2)⟩

theorem regsLoop_shaped (event : UInt16 → Callback) (getter : RegGetter σ) (address : UInt16)
    (n off : Nat) (s : PrModbus σ) :
    Ensures (fun r => (r.1 = modbusOk → r.2.ptr = s.ptr + n * 2) ∧ SameFront s.ptr s r.2)
      (regsLoop event getter address n off s) := by
  induction n generalizing off s with
  | zero => exact ensures_ok ⟨fun _ => rfl, .refl _ s⟩
  | succ n ih =>
    rw [regsLoop]
    simp only
    split
    · exact ensures_ok ⟨fun h1 => absurd h1 ‹_›, .refl _ s⟩
    · refine (put_stored _ _ _).bind ?_
      rintro _ rfl
      refine fun r hr => ?_
      obtain ⟨hptr, hfront⟩ := ih _ _ r hr
      refine ⟨fun h1 => ?_, SameFront.trans ?_ (hfront.mono (Nat.le_add_right _ 2))⟩
      · rw [hptr h1, Nat.succ_mul, Nat.add_comm (n * 2) 2, ← Nat.add_assoc]
        rfl
      · exact sameFront_stored _ _ (Nat.le_refl _)

/-- What a function code leaves in the buffer up to `ptr` when it succeeds. -/
def Shaped (func : UInt8) (s : PrModbus σ) : Prop :=
  if func = readCoils ∨ func = readDiscreteInputs ∨ func = readHoldingRegisters ∨
      func = readInputRegisters then s.ptr = 3 + (s.buffer 2).toNat
  else if func = writeSingleCoil ∨ func = writeSingleRegister ∨ func = writeMultipleRegisters ∨
      func = writeMultipleCoils then s.ptr = 6
  else if func = readDeviceIdentification then ∃ objects, DevidLemmas.HoldsObjects s objects
  else False

/-- What a request leaves of the address and the function code, and behind them. -/
def Answer (func : UInt8) (s : PrModbus σ) (r : UInt8 × PrModbus σ) : Prop :=
  SameFront 2 s r.2 ∧ (r.1 = modbusOk → Shaped func r.2)

theorem answer_error {func err : UInt8} {s s' : PrModbus σ} (hs : SameFront 2 s s')
    (herr : err ≠ modbusOk) : Answer func s (err, s') :=
  ⟨hs, fun h => absurd h herr⟩

theorem shaped_read {func : UInt8} {s : PrModbus σ} (hf : func = readCoils ∨
    func = readDiscreteInputs ∨ func = readHoldingRegisters ∨ func = readInputRegisters)
    (hs : s.ptr = 3 + (s.buffer 2).toNat) : Shaped func s := by
  rw [Shaped, if_pos hf]
  exact hs

theorem shaped_write {func : UInt8} {s : PrModbus σ} (hf : func = writeSingleCoil ∨
    func = writeSingleRegister ∨ func = writeMultipleRegisters ∨ func = writeMultipleCoils)
    (hs : s.ptr = 6) : Shaped func s := by
  rw [Shaped, if_neg, if_pos hf]
  · exact hs
  · rcases hf with rfl | rfl | rfl | rfl <;> decide

theorem stored_count {s s' : PrModbus σ} {n : Nat} (hn : n ≤ 250)
    (hfront : SameFront 3 (s.stored 2 [UInt8.ofNat n]) s') : (s'.buffer 2).toNat = n := by
  rw [hfront 2 (by decide), PrModbus.stored_buffer, store_cell, UInt8.toNat_ofNat']
  exact Nat.mod_eq_of_lt (Nat.lt_of_le_of_lt hn (by decide))

theorem reqReadBools_answer {func : UInt8} (hf : func = readCoils ∨ func = readDiscreteInputs)
    (event : UInt16 → Callback) (getter : Option (BoolGetter σ)) {s : PrModbus σ}
    (hs : s.ptr = 2) : Ensures (Answer func s) (reqReadBools event getter s) := by
  refine (Ensures.trivial _).bind fun address _ => (Ensures.trivial _).bind fun count _ => ?_
  unfold busReqCoilsGetMany
  simp only
  split
  · exact ensures_ok (answer_error (.refl 2 s) (by decide))
  rename_i hcount
  cases getter with
  | none => exact ensures_ok (answer_error (.refl 2 s) (by decide))
  | some getter =>
    rw [hs]
    refine (put_stored s 2 _).bind ?_
    rintro _ rfl
    simp only [PrModbus.stored_ptr, hs]
    refine (put_stored _ 3 _).bind ?_
    rintro _ rfl
    refine (coilsLoop_shaped event getter address _ 0 _).bind fun r ⟨hptr, hfront⟩ => ?_
    have hfront := (sameFront_stored _ _ (Nat.le_refl 3)).trans hfront
    have h2 : SameFront 2 s r.2 :=
      (sameFront_stored s _ (Nat.le_refl 2)).trans (hfront.mono (by decide))
    split
    · exact ensures_ok (answer_error h2 ‹_›)
    · refine ensures_ok ⟨h2, fun _ => shaped_read (hf.imp_right .inl) ?_⟩
      show r.2.ptr + _ = _
      rw [hptr, stored_count (s := s) (Nat.le_of_not_lt hcount) hfront]
      rfl

theorem reqReadRegs_answer {func : UInt8}
    (hf : func = readHoldingRegisters ∨ func = readInputRegisters) (event : UInt16 → Callback)
    (getter : Option (RegGetter σ)) {s : PrModbus σ} (hs : s.ptr = 2) :
    Ensures (Answer func s) (reqReadRegs event getter s) := by
  refine (Ensures.trivial _).bind fun address _ => (Ensures.trivial _).bind fun count _ => ?_
  unfold busReqRegsGetMany
  simp only
  split
  · exact ensures_ok (answer_error (.refl 2 s) (by decide))
  rename_i hcount
  cases getter with
  | none => exact ensures_ok (answer_error (.refl 2 s) (by decide))
  | some getter =>
    rw [hs]
    refine (put_stored s 2 _).bind ?_
    rintro _ rfl r hr
    obtain ⟨hptr, hfront⟩ := regsLoop_shaped event getter address _ 0 _ r hr
    simp only [PrModbus.stored_ptr, hs] at hptr hfront
    have h2 : SameFront 2 s r.2 :=
      (sameFront_stored s _ (Nat.le_refl 2)).trans (hfront.mono (by decide))
    refine ⟨h2, fun hok => shaped_read (.inr (.inr hf)) ?_⟩
    rw [hptr hok, stored_count (s := s) (Nat.le_of_not_lt hcount) hfront]

theorem setCoil_front (h : Handler σ) (s : PrModbus σ) (address : UInt16) (value : Bool) :
    (s.setCoil h address value).2.buffer = s.buffer ∧
      (s.setCoil h address value).2.ptr = s.ptr := by
  unfold PrModbus.setCoil
  split
  · exact ⟨rfl, rfl⟩
  · exact ⟨rfl, rfl⟩

theorem setReg_front (h : Handler σ) (s : PrModbus σ) (address value : UInt16) :
    (s.setReg h address value).2.buffer = s.buffer ∧
      (s.setReg h address value).2.ptr = s.ptr := by
  unfold PrModbus.setReg
  split
  · exact ⟨rfl, rfl⟩
  · exact ⟨rfl, rfl⟩

/-- What follows a call that sets a value: an error, or the response. -/
theorem echoUnless_answer {func : UInt8} (hf : func = writeSingleCoil ∨
    func = writeSingleRegister ∨ func = writeMultipleRegisters ∨ func = writeMultipleCoils)
    {s : PrModbus σ} {r : UInt8 × PrModbus σ} (hr : r.2.buffer = s.buffer ∧ r.2.ptr = 2)
    (first second : UInt16) :
    Ensures (Answer func s)
      (if r.1 ≠ modbusOk then .ok (r.1, r.2) else r.2.echo first second) := by
  have h1 : SameFront 2 s r.2 := fun i _ => congrFun hr.1 i
  split
  · exact ensures_ok (answer_error h1 ‹_›)
  · refine (put_stored r.2 _ _).bind ?_
    rintro _ rfl
    refine (put_stored _ _ _).bind ?_
    rintro _ rfl
    refine ensures_ok ⟨?_, fun _ => shaped_write hf ?_⟩
    · refine h1.trans ?_
      exact (sameFront_stored _ _ (Nat.le_of_eq hr.2.symm)).trans
        (sameFront_stored _ _ (by simp [hr.2]))
    · show r.2.ptr + 4 = 6
      rw [hr.2]

theorem writeReg_front (h : Handler σ) (address : UInt16) (off : Nat) (s : PrModbus σ) :
    Ensures (fun r => r.2.buffer = s.buffer ∧ r.2.ptr = s.ptr) (writeReg h address off s) :=
  (Ensures.trivial _).bind fun value _ => ensures_ok (setReg_front h s _ value)

theorem writeCoil_front (h : Handler σ) (address : UInt16) (off : Nat) (s : PrModbus σ) :
    Ensures (fun r => r.2.buffer = s.buffer ∧ r.2.ptr = s.ptr) (writeCoil h address off s) :=
  (Ensures.trivial _).bind fun _ _ => ensures_ok (setCoil_front h s _ _)

theorem reqWriteMultiple_answer {func : UInt8}
    (hf : func = writeMultipleRegisters ∨ func = writeMultipleCoils)
    {Fits : UInt16 → UInt8 → Prop} [DecidableRel Fits]
    {turn : UInt16 → Nat → PrModbus σ → Outcome OutOfBounds (UInt8 × PrModbus σ)}
    (hturn : ∀ address off s, Ensures (fun r => r.2.buffer = s.buffer ∧ r.2.ptr = s.ptr)
      (turn address off s)) (size : Nat) {s : PrModbus σ} (hs : s.ptr = 2) :
    Ensures (Answer func s) (reqWriteMultiple Fits turn size s) := by
  intro r hr
  obtain ⟨-, rfl⟩ | ⟨-, -, r1, hloop, hecho⟩ := reqWriteMultiple_cases hr rfl rfl
  · exact answer_error (.refl 2 s) (by decide)
  · obtain ⟨hbuf, hptr⟩ := writeLoop_ensures
      (R := fun s t => t.buffer = s.buffer ∧ t.ptr = s.ptr) (fun _ => ⟨rfl, rfl⟩)
      (fun _ _ _ h1 h2 => ⟨h2.1.trans h1.1, h2.2.trans h1.2⟩) (hturn _) _ 0 s r1 hloop
    exact echoUnless_answer (.inr (.inr hf)) ⟨hbuf, hptr.trans hs⟩ _ _ r hecho

theorem reqWriteMultipleRegisters_answer (h : Handler σ) (size : Nat) {s : PrModbus σ}
    (hs : s.ptr = 2) :
    Ensures (Answer writeMultipleRegisters s) (reqWriteMultipleRegisters h size s) := by
  rw [reqWriteMultipleRegisters_eq]
  exact reqWriteMultiple_answer (.inl rfl) (writeReg_front h) size hs

theorem reqWriteMultipleCoils_answer (h : Handler σ) (size : Nat) {s : PrModbus σ}
    (hs : s.ptr = 2) :
    Ensures (Answer writeMultipleCoils s) (reqWriteMultipleCoils h size s) := by
  rw [reqWriteMultipleCoils_eq]
  exact reqWriteMultiple_answer (.inr rfl) (writeCoil_front h) size hs

/-! ### Objects -/

theorem turned_objects (h : Handler σ) {s : PrModbus σ} {objects : List (UInt8 × List UInt8)}
    (hs : DevidLemmas.HoldsObjects s objects) (id : UInt8) :
    (∃ objects', DevidLemmas.HoldsObjects (turned h id s) objects') ∧
      SameFront 2 s (turned h id s) := by
  have hasked : DevidLemmas.HoldsObjects ((s.askDevid h id).2.stored 6 [id + 1]) objects :=
    (hs.asked id).stored (Nat.le_refl 7)
  have hfront : SameFront 2 s ((s.askDevid h id).2.stored 6 [id + 1]) := by
    intro i hi
    rw [sameFront_stored (p := 2) _ _ (by decide) i hi, askDevid_buffer]
  cases hd : (h.answer s.app id).1 with
  | none =>
    rw [turned, hd]
    exact ⟨⟨objects, hasked⟩, hfront⟩
  | some data =>
    rw [turned, hd]
    refine ⟨⟨_, hasked.objectStored id data⟩, hfront.trans fun i hi => ?_⟩
    have hptr : 2 ≤ ((s.askDevid h id).2.stored 6 [id + 1]).ptr := by
      rw [hasked.ptr]
      omega
    exact DevidLemmas.objectStored_low _ id data (Nat.lt_trans hi (by decide))
      (Nat.lt_of_lt_of_le hi hptr)

theorem turns_objects (h : Handler σ) (first : UInt8) {s : PrModbus σ}
    (hs : DevidLemmas.HoldsObjects s []) (n : Nat) :
    (∃ objects, DevidLemmas.HoldsObjects (turns h first s n) objects) ∧
      SameFront 2 s (turns h first s n) := by
  induction n with
  | zero => exact ⟨⟨[], hs⟩, .refl 2 s⟩
  | succ n ih =>
    obtain ⟨⟨objects, hobj⟩, hfront⟩ := ih
    obtain ⟨hnext, hfront'⟩ := turned_objects h hobj (first + UInt8.ofNat n)
    exact ⟨hnext, hfront.trans hfront'⟩

theorem devidLoop_objects {h : Handler σ} {last first : UInt8} {fuel : Nat} {s : PrModbus σ}
    (hs : DevidLemmas.HoldsObjects s []) :
    Ensures (fun s' => (∃ objects, DevidLemmas.HoldsObjects s' objects) ∧ SameFront 2 s s')
      (devidLoop h last fuel first s) := by
  intro s' hloop
  have hloop0 : devidLoop h last fuel (first + UInt8.ofNat 0) (turns h first s 0) = .ok s' := by
    rw [show UInt8.ofNat 0 = 0 from rfl, UInt8.add_zero]
    exact hloop
  obtain ⟨n, -, hend⟩ := devidLoop_inv hs.ptr (fun j hj => absurd hj (Nat.not_lt_zero j)) hloop0
  obtain ⟨⟨objects, hobj⟩, hfront⟩ := turns_objects h first hs n
  rcases hend with ⟨-, -, rfl⟩ | ⟨-, rfl⟩
  · refine ⟨⟨objects, DevidLemmas.broken_holds h hobj _⟩, hfront.trans fun i hi => ?_⟩
    rw [broken, sameFront_stored (p := 2) _ _ (by decide) i hi,
      sameFront_stored (p := 2) _ _ (by decide) i hi, askDevid_buffer]
  · exact ⟨⟨objects, hobj⟩, hfront⟩

/-- The More and Next fields are before the objects. -/
theorem moreNext_objects (last : UInt8) {s : PrModbus σ} {objects : List (UInt8 × List UInt8)}
    (hs : DevidLemmas.HoldsObjects s objects) :
    DevidLemmas.HoldsObjects (moreNext last s) objects ∧ SameFront 2 s (moreNext last s) := by
  unfold moreNext
  split
  · exact ⟨hs.stored (by decide), sameFront_stored _ _ (by decide)⟩
  · exact ⟨hs.stored (by decide), sameFront_stored _ _ (by decide)⟩

theorem reqReadDeviceIdentification_answer (h : Handler σ) (fuel : Nat) (s : PrModbus σ) :
    Ensures (Answer readDeviceIdentification s) (reqReadDeviceIdentification h fuel s) := by
  by_cases hmei : s.buffer 2 = 0xe
  · cases hcode : lastObjectId (s.buffer 3) with
    | none =>
      unfold reqReadDeviceIdentification
      rw [s.get_ok (by decide), bind_ok, s.get_ok (by decide), bind_ok, s.get_ok (by decide),
        bind_ok, if_neg (not_not.mpr hmei), hcode]
      exact ensures_ok (answer_error (.refl 2 s) (by decide))
    | some last =>
      rw [reqReadDeviceIdentification_loop fuel hmei hcode]
      have hstart : DevidLemmas.HoldsObjects
          { s.stored 2 [0xe, s.buffer 3, 0x83, 0, 0, 0] with ptr := 8 } [] :=
        ⟨rfl, rfl, by simp [store]⟩
      refine (devidLoop_objects hstart).bind fun s1 hs1 => ensures_ok ?_
      obtain ⟨⟨objects, hobj⟩, hfront⟩ := hs1
      obtain ⟨hmore, hfront'⟩ := moreNext_objects last hobj
      have hfront : SameFront 2 s s1 := (sameFront_stored s _ (Nat.le_refl 2)).trans hfront
      exact ⟨hfront.trans hfront', fun _ => ⟨objects, hmore⟩⟩
  · unfold reqReadDeviceIdentification
    rw [s.get_ok (by decide), bind_ok, s.get_ok (by decide), bind_ok, s.get_ok (by decide),
      bind_ok, if_pos hmei]
    exact ensures_ok (answer_error (.refl 2 s) (by decide))

/-- Every function code keeps the address and the function code, and leaves what belongs
to a response to it. -/
theorem busReqSwitch_answer (h : Handler σ) (size fuel : Nat) (func : UInt8) {s : PrModbus σ}
    (hs : s.ptr = 2) : Ensures (Answer func s) (busReqSwitch h size fuel func s) := by
  unfold busReqSwitch
  split
  · exact reqReadBools_answer (.inl ‹_›) _ _ hs
  split
  · exact reqReadBools_answer (.inr ‹_›) _ _ hs
  split
  · exact reqReadRegs_answer (.inl ‹_›) _ _ hs
  split
  · exact reqReadRegs_answer (.inr ‹_›) _ _ hs
  split
  · refine (Ensures.trivial _).bind fun address _ => (Ensures.trivial _).bind fun value _ => ?_
    obtain ⟨hbuf, hptr⟩ := setReg_front h s address value
    exact echoUnless_answer (.inr (.inl ‹_›)) ⟨hbuf, hptr.trans hs⟩ address value
  split
  · refine (Ensures.trivial _).bind fun address _ => (Ensures.trivial _).bind fun value _ => ?_
    obtain ⟨hbuf, hptr⟩ := setCoil_front h s address (value != 0)
    exact echoUnless_answer (.inl ‹_›) ⟨hbuf, hptr.trans hs⟩ address _
  split
  · subst func
    exact reqWriteMultipleRegisters_answer h size hs
  split
  · subst func
    exact reqWriteMultipleCoils_answer h size hs
  split
  · subst func
    exact reqReadDeviceIdentification_answer h fuel s
  · exact ensures_ok (answer_error (.refl 2 s) (by decide))

/-! ## 2. The response -/

theorem respondError_bytes (err : UInt8) (s : PrModbus σ) :
    Ensures (fun s' => s'.ptr = 3 ∧ load s'.buffer 0 3 = [s.buffer 0, s.buffer 1 ||| 0x80, err])
      (respondError err s) := by
  unfold respondError
  rw [s.get_ok (by decide), bind_ok]
  refine (put_stored s 1 _).bind ?_
  rintro _ rfl
  refine (put_stored _ 2 _).bind ?_
  rintro _ rfl
  exact ensures_ok ⟨rfl, rfl⟩

theorem respond_bytes {s s' : PrModbus σ} (hok : respond s = .ok s') :
    s.ptr ≤ 254 ∧ s'.rspSize = s.ptr + 2 ∧
      load s'.buffer 0 s'.rspSize = withCrc (load s.buffer 0 s.ptr) := by
  have hroom : s.ptr ≤ 254 := by
    refine Nat.le_of_not_lt fun h1 => ?_
    obtain ⟨e, he⟩ := respond_fault h1
    rw [he] at hok
    cases hok
  rw [respond_ok hroom] at hok
  cases hok
  refine ⟨hroom, rfl, ?_⟩
  show load (store s.buffer s.ptr _) 0 (s.ptr + 2) = _
  rw [load_append, load_store_disjoint (.inl (Nat.le_of_eq (Nat.zero_add s.ptr))), Nat.zero_add,
    withCrc]
  exact congrArg _ (load_store_self _ _ _)

end ResponseLemmas

open ResponseLemmas

/-- The two kinds of response. Of one that is no error, `s1` is the state before the
CRC. -/
inductive Responded (addr func : UInt8) (s' : PrModbus σ) (err : UInt8) (s1 : PrModbus σ) : Prop
  | error : err ≠ modbusOk → s'.rspSize = 5 →
      load s'.buffer 0 s'.rspSize = withCrc [addr, func ||| 0x80, err] →
      Responded addr func s' err s1
  | ok : err = modbusOk → s'.rspSize = s1.ptr + 2 → s1.buffer 0 = addr → s1.buffer 1 = func →
      Shaped func s1 → s1.ptr ≤ 254 →
      load s'.buffer 0 s'.rspSize = withCrc (load s1.buffer 0 s1.ptr) →
      Responded addr func s' err s1

/-- The response to a request, by what the function code has returned: its bytes, or the exception.
-/
theorem busReqRespond_bytes {h : Handler σ} {size fuel : Nat} {s s' : PrModbus σ}
    (hok : busReqRespond h size fuel s = .ok (true, s')) :
    s.buffer 0 = s.addr ∧ ∃ err s1,
      busReqSwitch h size fuel (s.buffer 1)
        { s.stored 0 [s.addr, s.buffer 1] with ptr := 2, rspSize := 0 } = .ok (err, s1) ∧
      Responded s.addr (s.buffer 1) s' err s1 := by
  by_cases haddr : s.buffer 0 = s.addr
  · rw [busReqRespond_addressed size fuel haddr] at hok
    obtain ⟨⟨err, s1⟩, hsw, hok⟩ := bind_eq_ok.mp hok
    obtain ⟨s2, herr, hok⟩ := bind_eq_ok.mp hok
    obtain ⟨s3, hresp, hok⟩ := bind_eq_ok.mp hok
    cases hok
    obtain ⟨hroom, hsize, hbytes⟩ := respond_bytes hresp
    obtain ⟨hfront, hshape⟩ := busReqSwitch_answer h size fuel (s.buffer 1) rfl _ hsw
    have h0 : s1.buffer 0 = s.addr := hfront 0 (by decide)
    have h1 : s1.buffer 1 = s.buffer 1 := hfront 1 (by decide)
    refine ⟨haddr, err, s1, hsw, ?_⟩
    split at herr
    · obtain ⟨hptr, hload⟩ := respondError_bytes err s1 s2 herr
      rw [hptr] at hsize hbytes
      rw [hload, h0, h1] at hbytes
      exact .error ‹_› hsize hbytes
    · cases herr
      exact .ok (not_not.mp ‹_›) hsize h0 h1 (hshape (not_not.mp ‹_›)) hroom hbytes
  · rw [busReqRespond_other h size fuel haddr] at hok
    cases hok

/-! ## 3. The parser of responses -/

/-- `modbus_rsp_frame_len` finds the end of the response, whatever comes behind it, its
CRC is valid, and a unit that has received the response and nothing else consumes it as
one frame. -/
structure Parsed (past : UInt8) (s : PrModbus σ) : Prop where
  frame_len : ∀ (m : Mem UInt8) (size : Nat), load m 0 s.rspSize = load s.buffer 0 s.rspSize →
    s.rspSize ≤ size → modbusRspFrameLen past m size = s.rspSize
  crc : modbusCrc16Update modbusCrc16Init (load s.buffer 0 s.rspSize) = modbusCrc16CheckState
  consumed : ∀ n : Node σ, n.bus.ptr = s.rspSize →
    load n.bus.buffer 0 s.rspSize = load s.buffer 0 s.rspSize →
    modbusRspTry past n = (true, n.reset)

namespace ResponseLemmas

theorem or_and_self (a b : UInt8) : (a ||| b) &&& b = b := by
  apply UInt8.toBitVec_inj.mp
  ext i
  simp only [UInt8.toBitVec_and, UInt8.toBitVec_or, BitVec.getElem_and, BitVec.getElem_or]
  cases b.toBitVec[i] <;> simp

theorem rspFrameLen_error (past : UInt8) {m : Mem UInt8} {size : Nat} {func : UInt8}
    (hfunc : m 1 = func ||| 0x80) (hsize : 5 ≤ size) : modbusRspFrameLen past m size = 5 := by
  have hbit : m 1 &&& 0x80 ≠ 0 := by
    rw [hfunc, or_and_self]
    decide
  rw [modbusRspFrameLen, if_neg (by omega), if_pos hbit]

theorem rspFrameLen_shaped (past : UInt8) {func : UInt8} {s : PrModbus σ}
    (hshape : Shaped func s) (hfunc : func ≠ readDeviceIdentification) {m : Mem UInt8}
    {size : Nat} (hm1 : m 1 = func) (hm2 : 2 < s.ptr → m 2 = s.buffer 2)
    (hsize : s.ptr + 2 ≤ size) : modbusRspFrameLen past m size = s.ptr + 2 := by
  rw [Shaped] at hshape
  unfold modbusRspFrameLen
  rw [hm1]
  split at hshape
  · have hbit : func &&& 0x80 = 0 := by
      rename_i hf
      rcases hf with rfl | rfl | rfl | rfl <;> decide
    rw [if_neg (by omega), if_neg (not_not.mpr hbit), if_pos ‹_›, if_neg (by omega),
      hm2 (by omega), hshape]
    omega
  split at hshape
  · rename_i hread hf
    have hbit : func &&& 0x80 = 0 := by
      rcases hf with rfl | rfl | rfl | rfl <;> decide
    rw [if_neg (by omega), if_neg (not_not.mpr hbit), if_neg hread, if_pos hf, hshape]
  · exact hshape.elim

theorem shaped_ptr {func : UInt8} {s : PrModbus σ} (hshape : Shaped func s) : 2 < s.ptr := by
  rw [Shaped] at hshape
  split at hshape
  · omega
  split at hshape
  · omega
  split at hshape
  · obtain ⟨objects, hobj⟩ := hshape
    rw [hobj.ptr]
    omega
  · exact hshape.elim

/-- The parser goes from object to object, up to the last one. -/
theorem objectsLen_objects (past : UInt8) {m : Mem UInt8} {size : Nat}
    (objects : List (UInt8 × List UInt8)) (point : Nat)
    (hm : load m point (objects.flatMap fun o => objectBytes o.1 o.2).length =
      objects.flatMap fun o => objectBytes o.1 o.2)
    (hsize : point + (objects.flatMap fun o => objectBytes o.1 o.2).length ≤ size)
    (h256 : size ≤ 256) :
    objectsLen past m size objects.length point =
      point + (objects.flatMap fun o => objectBytes o.1 o.2).length := by
  induction objects generalizing point with
  | nil => rfl
  | cons o objects ih =>
    rw [List.flatMap_cons, List.length_append, load_append] at hm
    rw [List.flatMap_cons, List.length_append, ← Nat.add_assoc] at hsize
    obtain ⟨hfirst, hrest⟩ := List.append_inj hm (by simp)
    have hlen : (objectBytes o.1 o.2).length = min o.2.length 0x40 + 2 := length_objectBytes _ _
    have hcell : m (point + 1) = UInt8.ofNat (min o.2.length 0x40) := by
      have h1 : (load m point (objectBytes o.1 o.2).length)[1]? = some (m (point + 1)) :=
        load_getElem? m (by omega)
      rw [hfirst, objectBytes] at h1
      exact (Option.some.inj h1).symm
    have hnat : (UInt8.ofNat (min o.2.length 0x40)).toNat = min o.2.length 0x40 := by
      rw [UInt8.toNat_ofNat']
      omega
    have hnext : point + min o.2.length 0x40 + 2 = point + (objectBytes o.1 o.2).length := by
      rw [hlen, Nat.add_assoc]
    rw [List.length_cons, objectsLen, if_neg (by omega)]
    simp only
    rw [if_pos (by omega), hcell, hnat, hnext, ih _ hrest hsize, List.flatMap_cons,
      List.length_append, Nat.add_assoc]

theorem objects_length (objects : List (UInt8 × List UInt8)) :
    objects.length * 2 ≤ (objects.flatMap fun o => objectBytes o.1 o.2).length := by
  induction objects with
  | nil => exact Nat.le_refl 0
  | cons o objects ih =>
    have hlen : (objectBytes o.1 o.2).length = min o.2.length 0x40 + 2 := length_objectBytes _ _
    rw [List.length_cons, List.flatMap_cons, List.length_append, hlen, Nat.succ_mul]
    omega

/-- The parser forgets the CRC of a response with objects. -/
theorem rspFrameLen_objects (past : UInt8) {s : PrModbus σ} {objects : List (UInt8 × List UInt8)}
    (hobj : DevidLemmas.HoldsObjects s objects) (hroom : s.ptr ≤ 254)
    (hfunc : s.buffer 1 = readDeviceIdentification) {m : Mem UInt8}
    (hm : ∀ i < s.ptr, m i = s.buffer i) :
    modbusRspFrameLen past m (s.ptr + 2) = s.ptr := by
  have hptr := hobj.ptr
  have hcount : (s.buffer 7).toNat = objects.length := by
    have h1 := objects_length objects
    rw [hobj.count, UInt8.toNat_ofNat']
    omega
  have hload : load m 8 (s.ptr - 8) = objects.flatMap fun o => objectBytes o.1 o.2 := by
    rw [← hobj.bytes]
    exact load_congr fun i _ hi => hm i (by omega)
  have hlen : s.ptr - 8 = (objects.flatMap fun o => objectBytes o.1 o.2).length := by
    rw [hptr, Nat.add_sub_cancel_left]
  rw [hlen] at hload
  have hobjects : objectsLen past m (s.ptr + 2) objects.length 8 = _ :=
    objectsLen_objects past objects 8 hload (by omega) (by omega)
  have hm1 : m 1 = readDeviceIdentification := (hm 1 (by omega)).trans hfunc
  unfold modbusRspFrameLen
  rw [hm1, if_neg (by omega), if_neg (by decide), if_neg (by decide), if_neg (by decide),
    if_pos rfl, if_neg (by omega), hm 7 (by omega), hcount, hobjects, ← hptr]

theorem rspTry_of_frameLen {past : UInt8} {n : Node σ} {size : Nat} (hpos : 0 < size)
    (hle : size ≤ bufferSize) (hptr : n.bus.ptr = size)
    (hlen : modbusRspFrameLen past n.bus.buffer n.bus.ptr = size)
    (hcrc : crcValid (load n.bus.buffer 0 size) = true) :
    modbusRspTry past n = (true, n.reset) := by
  unfold modbusRspTry
  simp only
  rw [hlen, if_neg (Nat.ne_of_gt hpos), if_neg (Nat.not_lt_of_le hle),
    if_neg (Nat.not_lt_of_le (Nat.le_of_eq hptr.symm)), if_neg (not_not.mpr hcrc)]
  rfl

/-- A response whose end the parser finds is consumed. -/
theorem parsed_of_frameLen {past : UInt8} {s : PrModbus σ} {body : List UInt8}
    (hpos : 0 < s.rspSize) (hle : s.rspSize ≤ bufferSize)
    (hbody : load s.buffer 0 s.rspSize = withCrc body)
    (hlen : ∀ (m : Mem UInt8) (size : Nat), load m 0 s.rspSize = load s.buffer 0 s.rspSize →
      s.rspSize ≤ size → modbusRspFrameLen past m size = s.rspSize) : Parsed past s := by
  have hcrc : crcValid (load s.buffer 0 s.rspSize) = true := by
    rw [hbody]
    exact crcValid_withCrc body
  refine ⟨hlen, eq_of_beq hcrc, fun n hptr hload => ?_⟩
  refine rspTry_of_frameLen hpos hle hptr (hlen _ _ hload (Nat.le_of_eq hptr.symm)) ?_
  rw [hload]
  exact hcrc

theorem eq_of_load {m m' : Mem UInt8} {k i : Nat} (h : load m 0 k = load m' 0 k) (hi : i < k) :
    m i = m' i := by
  have h1 : (load m 0 k)[i]? = (load m' 0 k)[i]? := by rw [h]
  rw [load_getElem? m hi, load_getElem? m' hi, Nat.zero_add] at h1
  exact Option.some.inj h1

/-- A device identification that is no error is answered with objects. -/
theorem devidRequest_of_ok {h : Handler σ} {fuel : Nat} {s s1 : PrModbus σ}
    (hok : reqReadDeviceIdentification h fuel s = .ok (modbusOk, s1)) :
    s.buffer 2 = 0xe ∧ ∃ last, lastObjectId (s.buffer 3) = some last := by
  unfold reqReadDeviceIdentification at hok
  rw [s.get_ok (by decide), bind_ok, s.get_ok (by decide), bind_ok, s.get_ok (by decide),
    bind_ok] at hok
  split at hok
  · cases hok
  · refine ⟨not_not.mp ‹_›, ?_⟩
    cases hcode : lastObjectId (s.buffer 3) with
    | none =>
      rw [hcode] at hok
      cases hok
    | some last => exact ⟨last, rfl⟩

/-- The response to a device identification request, before its CRC. -/
theorem devid_objects {h : Handler σ} {size fuel : Nat} {s s' : PrModbus σ} {last : UInt8}
    (hreq : DevidRequest s last) (hok : busReqRespond h size fuel s = .ok (true, s')) :
    ∃ (s1 : PrModbus σ) (objects : List (UInt8 × List UInt8)),
      DevidLemmas.HoldsObjects s1 objects ∧ s1.buffer 1 = readDeviceIdentification ∧
      s1.ptr ≤ 254 ∧ s'.rspSize = s1.ptr + 2 ∧ ∀ i < s1.ptr, s'.buffer i = s1.buffer i := by
  rw [busReqRespond_devid size fuel hreq] at hok
  obtain ⟨s0, hloop, hok⟩ := bind_eq_ok.mp hok
  obtain ⟨s2, hresp, hok⟩ := bind_eq_ok.mp hok
  cases hok
  obtain ⟨hroom, hsize, hbytes⟩ := respond_bytes hresp
  obtain ⟨⟨objects, hobj⟩, hfront⟩ :=
    devidLoop_objects (DevidLemmas.pageStart_holds s) s0 hloop
  obtain ⟨hmore, hfront'⟩ := moreNext_objects last hobj
  refine ⟨moreNext last s0, objects, hmore, ?_, hroom, hsize, ?_⟩
  · rw [hfront' 1 (by decide), hfront 1 (by decide)]
    simp [pageStart, store]
  · intro i hi
    rw [respond_ok hroom] at hresp
    cases hresp
    exact store_apply_of_lt hi

end ResponseLemmas

/-- A response is read by the parser exactly if it is not one with objects. Of these
`modbus_rsp_frame_len` finds the end of the last object, and leaves out the two bytes of the CRC
behind it. -/
theorem response_parsed_iff {h : Handler σ} {size fuel : Nat} {s s' : PrModbus σ}
    (hok : busReqRespond h size fuel s = .ok (true, s')) (past : UInt8) :
    Parsed past s' ↔ ∀ last, ¬ DevidRequest s last := by
  constructor
  · intro hparsed last hreq
    obtain ⟨s1, objects, hobj, hfunc, hroom, hsize, hfront⟩ := devid_objects hreq hok
    have h1 := hparsed.frame_len s'.buffer s'.rspSize rfl (Nat.le_refl _)
    rw [hsize, rspFrameLen_objects past hobj hroom hfunc hfront] at h1
    omega
  · intro hno
    obtain ⟨haddr, err, s1, hsw, hresp⟩ := busReqRespond_bytes hok
    obtain ⟨-, hpos, hle⟩ := busReqRespond_called hok
    cases hresp with
    | error herr hsize hbytes =>
      refine parsed_of_frameLen hpos hle hbytes fun m size hm hlt => ?_
      rw [hbytes, hsize] at hm
      rw [hsize] at hlt ⊢
      have hlen : m 1 = s.buffer 1 ||| 0x80 → modbusRspFrameLen past m size = 5 :=
        fun h1 => rspFrameLen_error past h1 hlt
      refine hlen ?_
      have h1 : (load m 0 5)[1]? = some (m 1) := load_getElem? m (by decide)
      rw [hm] at h1
      exact (Option.some.inj h1).symm
    | ok herr hsize h0 h1 hshape hroom hbytes =>
      have hfunc : s.buffer 1 ≠ readDeviceIdentification := by
        intro hfunc
        rw [hfunc, busReqSwitch_devid, herr] at hsw
        obtain ⟨hmei, last, hcode⟩ := devidRequest_of_ok hsw
        have hk : ∀ i, 2 ≤ i → store s.buffer 0 [s.addr, readDeviceIdentification] i = s.buffer i :=
          fun i hi => store_apply_of_ge hi
        simp only [PrModbus.stored_buffer, hk 2 (by decide), hk 3 (by decide)] at hmei hcode
        exact hno last ⟨haddr, hfunc, hmei, hcode⟩
      refine parsed_of_frameLen hpos hle hbytes fun m size hm hlt => ?_
      rw [hbytes, hsize] at hm
      rw [hsize] at hlt ⊢
      -- The CRC behind the response leaves its first bytes as they are.
      have hfront : load m 0 s1.ptr = load s1.buffer 0 s1.ptr := by
        have h2 := congrArg (List.take s1.ptr) hm
        rwa [load_take m (Nat.le_add_right _ 2), withCrc, List.take_append_of_le_length (by simp),
          List.take_of_length_le (by simp)] at h2
      have hptr := shaped_ptr hshape
      exact rspFrameLen_shaped past hshape hfunc ((eq_of_load hfront (by omega)).trans h1)
        (fun h2 => eq_of_load hfront h2) hlt

namespace ResponseLemmas

/-- A handler with one holding register and one object, a vendor name of one byte. -/
def vendorHandler : Handler Unit :=
  ⟨none, none, none, some fun app _ => (modbusOk, 0x1234, app), none, none,
    some fun app id => (if id = 0 then some [0x41] else none, app)⟩

def readRegister : List UInt8 := withCrc [1, 3, 0, 0, 0, 1]

/-- The request for the basic objects, from id 0 on. -/
def basicRequest : List UInt8 := withCrc [1, 0x2b, 0x0e, 1, 0]

theorem responds_of_fields {h : Handler σ} {size fuel : Nat} {s : PrModbus σ} {α : Type}
    {f : PrModbus σ → α} {a : α}
    (hr : (busReqRespond h size fuel s).toOption.map (fun r => (r.1, f r.2)) = some (true, a)) :
    ∃ s', busReqRespond h size fuel s = .ok (true, s') ∧ f s' = a := by
  cases hok : busReqRespond h size fuel s with
  | error e =>
    rw [hok] at hr
    cases hr
  | ok r =>
    obtain ⟨called, s'⟩ := r
    rw [hok] at hr
    obtain ⟨rfl, hf⟩ := Prod.mk.inj (Option.some.inj hr)
    exact ⟨s', rfl, hf⟩

end ResponseLemmas

open SafetyLemmas ResponseLemmas in
theorem response_parsed_iff_register :
    ∃ s', busReqRespond vendorHandler 8 0 (received readRegister) = .ok (true, s') ∧
      s'.rspSize = 7 ∧
      (Parsed 0 s' ↔ ∀ last, ¬ DevidRequest (received readRegister) last) := by
  have hrun : (busReqRespond vendorHandler 8 0 (received readRegister)).toOption.map
      (fun r => (r.1, r.2.rspSize)) = some (true, 7) := by
    decide +kernel
  obtain ⟨s', hok, hsize⟩ := responds_of_fields hrun
  exact ⟨s', hok, hsize, response_parsed_iff hok 0⟩

open SafetyLemmas ResponseLemmas in
/-- A response of 13 bytes, the end of which the parser finds after 11. -/
theorem devid_response_misread :
    ∃ s', busReqRespond vendorHandler 7 4 (received basicRequest) = .ok (true, s') ∧
      s'.rspSize = 13 ∧ modbusRspFrameLen 0 s'.buffer s'.rspSize = 11 ∧ ¬ Parsed 0 s' := by
  have hrun : (busReqRespond vendorHandler 7 4 (received basicRequest)).toOption.map
      (fun r => (r.1, r.2.rspSize, modbusRspFrameLen 0 r.2.buffer r.2.rspSize)) =
        some (true, 13, 11) := by
    decide +kernel
  obtain ⟨s', hok, hlen⟩ :=
    responds_of_fields (f := fun s => (s.rspSize, modbusRspFrameLen 0 s.buffer s.rspSize)) hrun
  obtain ⟨hsize, hlen⟩ := Prod.mk.inj hlen
  refine ⟨s', hok, hsize, hlen, fun hparsed => ?_⟩
  have h1 := hparsed.frame_len s'.buffer s'.rspSize rfl (Nat.le_refl _)
  rw [hlen, hsize] at h1
  exact absurd h1 (by decide)

end Picore.Modbus
