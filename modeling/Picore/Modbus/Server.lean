import Picore.Modbus.Answer
import Picore.Modbus.Range

/-!
# The unit as a server of coils and registers

What requests and responses say, without their bytes, and what an application makes of a
request: calls of a callback for one address after the other, and a response or an error.
The unit does this to the bytes of a request.

Results:
1. `serve`: the response to a request, the calls and the state of the application.
2. `reqReadBools_replied`, `reqReadRegs_replied`, `reqWriteMultiple_replied`: what the
   function codes leave in the buffer.
3. `handles_serve`: the response to an encoded request is the encoded response.
-/

namespace Picore.Modbus

open Memory Fuel Bits Visit ResponseLemmas RoundTripLemmas RangeLemmas

variable {σ α β : Type}

/-! ## 1. Requests and responses -/

/-- A request for coils or registers. The value of a single coil is the one in its field. -/
inductive Request
  | coils (address count : UInt16)
  | discreteInputs (address count : UInt16)
  | holdingRegisters (address count : UInt16)
  | inputRegisters (address count : UInt16)
  | setCoil (address value : UInt16)
  | setRegister (address value : UInt16)
  | setCoils (address : UInt16) (values : List Bool)
  | setRegisters (address : UInt16) (values : List UInt16)

/-- A response without its bytes. To a write it repeats two fields of the request: the address, and
the value or the count. -/
inductive Response
  | bits (values : List Bool)
  | registers (values : List UInt16)
  | written (first second : UInt16)
  | error (err : UInt8)
  deriving DecidableEq

def Request.func : Request → UInt8
  | .coils .. => readCoils
  | .discreteInputs .. => readDiscreteInputs
  | .holdingRegisters .. => readHoldingRegisters
  | .inputRegisters .. => readInputRegisters
  | .setCoil .. => writeSingleCoil
  | .setRegister .. => writeSingleRegister
  | .setCoils .. => writeMultipleCoils
  | .setRegisters .. => writeMultipleRegisters

def registerBytes (values : List UInt16) : List UInt8 := values.flatMap be16Bytes

/-- The frame of a request to the unit `addr`, as a client sends it. -/
def Request.encode (addr : UInt8) : Request → List UInt8
  | .coils address count => readRequest addr readCoils address count
  | .discreteInputs address count => readRequest addr readDiscreteInputs address count
  | .holdingRegisters address count => readRequest addr readHoldingRegisters address count
  | .inputRegisters address count => readRequest addr readInputRegisters address count
  | .setCoil address value => readRequest addr writeSingleCoil address value
  | .setRegister address value => readRequest addr writeSingleRegister address value
  | .setCoils address values =>
    writeRequest addr writeMultipleCoils address (UInt16.ofNat values.length) (pack values)
  | .setRegisters address values =>
    writeRequest addr writeMultipleRegisters address (UInt16.ofNat values.length)
      (registerBytes values)

/-- What comes behind the function code in a response that is no error. -/
def Response.body : Response → List UInt8
  | .bits values => UInt8.ofNat (pack values).length :: pack values
  | .registers values => UInt8.ofNat (registerBytes values).length :: registerBytes values
  | .written first second => be16Bytes first ++ be16Bytes second
  | .error err => [err]

/-- The frame of a response to a request with the function code `func`. An error sets the top bit of
the code. -/
def Response.encode (addr func : UInt8) : Response → List UInt8
  | .error err => withCrc [addr, func ||| 0x80, err]
  | rsp => withCrc (addr :: func :: rsp.body)

/-- The values of a request fit into a frame. -/
def Request.Fits : Request → Prop
  | .setCoils _ values => (values.length + 7) / 8 + 9 ≤ bufferSize
  | .setRegisters _ values => values.length * 2 + 9 ≤ bufferSize
  | _ => True

instance : DecidablePred Request.Fits
  | .setCoils _ values => inferInstanceAs (Decidable ((values.length + 7) / 8 + 9 ≤ bufferSize))
  | .setRegisters _ values => inferInstanceAs (Decidable (values.length * 2 + 9 ≤ bufferSize))
  | .coils .. | .discreteInputs .. | .holdingRegisters .. | .inputRegisters .. | .setCoil ..
  | .setRegister .. => inferInstanceAs (Decidable True)

/-! ## 2. The server -/

/-- What the application makes of a request: the response, the callbacks that have been called for
it in their order, and its state after them. -/
structure Reply (σ : Type) where
  rsp : Response
  calls : List Callback
  app : σ

def Reply.refuse (err : UInt8) (app : σ) : Reply σ := ⟨.error err, [], app⟩

/-- A response from the values that have been returned, unless one of the calls has
returned an error. -/
def Reply.ofVisit (event : β → Callback) (rsp : List α → Response)
    (v : UInt8 × List (β × α) × σ) : Reply σ where
  rsp := if v.1 = modbusOk then rsp (v.2.1.map Prod.snd) else .error v.1
  calls := v.2.1.map fun c => event c.1
  app := v.2.2

/-- The addresses of a range, from the one at `off` on. They may wrap around. -/
def addresses (address : UInt16) (off n : Nat) : List UInt16 :=
  (List.range' off n).map fun i => address + UInt16.ofNat i

def readMany (event : UInt16 → Callback) (getter : Option (σ → UInt16 → UInt8 × α × σ))
    (bytes : Nat) (rsp : List α → Response) (address count : UInt16) (app : σ) : Reply σ :=
  if 250 < bytes then .refuse modbusServerDeviceFailure app
  else
    match getter with
    | none => .refuse modbusIllegalFunction app
    | some getter =>
      .ofVisit event rsp (visit getter modbusOk (addresses address 0 count.toNat) app)

/-- A setter that is asked to write a value to an address. -/
def asking (setter : σ → UInt16 → α → UInt8 × σ) (app : σ) (c : UInt16 × α) : UInt8 × Unit × σ :=
  let (err, app) := setter app c.1 c.2
  (err, (), app)

/-- Writing values to the addresses of a range. The response repeats the first address and
`second`. -/
def writeMany (event : UInt16 → α → Callback) (setter : Option (σ → UInt16 → α → UInt8 × σ))
    (address : UInt16) (values : List α) (second : UInt16) (app : σ) : Reply σ :=
  match setter with
  | none =>
    if values.isEmpty then ⟨.written address second, [], app⟩
    else .refuse modbusIllegalFunction app
  | some setter =>
    .ofVisit (fun c => event c.1 c.2) (fun _ => .written address second)
      (visit (asking setter) modbusOk ((addresses address 0 values.length).zip values) app)

/-- What the application makes of a request: one callback for each address of the range, up to the
first error, and the response made of what they return. -/
def serve (h : Handler σ) : Request → σ → Reply σ
  | .coils address count =>
    readMany .coilGet h.coilGet ((count.toNat + 7) / 8) .bits address count
  | .discreteInputs address count =>
    readMany .discreteInputGet h.discreteInputGet ((count.toNat + 7) / 8) .bits address count
  | .holdingRegisters address count =>
    readMany .holdingRegisterGet h.holdingRegisterGet (count.toNat * 2) .registers address count
  | .inputRegisters address count =>
    readMany .inputRegisterGet h.inputRegisterGet (count.toNat * 2) .registers address count
  | .setCoil address value =>
    writeMany .coilSet h.coilSet address [value != 0] (if value != 0 then 0xff00 else 0)
  | .setRegister address value =>
    writeMany .holdingRegisterSet h.holdingRegisterSet address [value] value
  | .setCoils address values =>
    writeMany .coilSet h.coilSet address values (UInt16.ofNat values.length)
  | .setRegisters address values =>
    writeMany .holdingRegisterSet h.holdingRegisterSet address values (UInt16.ofNat values.length)

namespace ServerLemmas

/-! ## 3. The function codes -/

/-- What a function code has left in the buffer is the reply. -/
structure Replied (s : PrModbus σ) (reply : Reply σ) (r : UInt8 × PrModbus σ) : Prop where
  app : r.2.app = reply.app
  calls : r.2.calls = s.calls ++ reply.calls
  error : r.1 ≠ modbusOk → reply.rsp = .error r.1
  ok : r.1 = modbusOk → 2 ≤ r.2.ptr ∧ ∀ addr func,
    reply.rsp.encode addr func = withCrc (addr :: func :: load r.2.buffer 2 (r.2.ptr - 2))

theorem replied_refuse (s : PrModbus σ) {err : UInt8} (herr : err ≠ modbusOk) :
    Replied s (.refuse err s.app) (err, s) where
  app := rfl
  calls := (List.append_nil _).symm
  error _ := rfl
  ok hok := absurd hok herr

theorem Walked.visit_eq [Inhabited α] {event : UInt16 → Callback}
    {hevent : Function.Injective event} {getter : σ → UInt16 → UInt8 × α × σ} {bytes : Nat}
    {place : Mem UInt8 → Nat → α} {address : UInt16} {n off : Nat} {s t : PrModbus σ}
    {r : UInt8 × PrModbus σ} {cs : List (UInt16 × α)}
    (h : Walked (readAccess event hevent (some getter) bytes place t) address n off s r cs) :
    visit getter modbusOk (addresses address off n) s.app = (r.1, cs, r.2.app) := by
  refine h.run.visit_eq getter ?_ fun hok => ?_
  · rw [h.addresses]
    refine List.IsPrefix.map _ ?_
    obtain ⟨d, hd⟩ := Nat.exists_eq_add_of_le h.length
    rw [hd]
    exact ⟨_, List.range'_append_1⟩
  · rw [h.addresses, h.all hok]
    rfl

/-- What a function code has left is a reply made of the calls that its loop has made, up to the
first error. -/
theorem replied_visit {event : β → Callback} {rsp : List α → Response} {err : UInt8}
    {cs : List (β × α)} {s : PrModbus σ} (s1 : PrModbus σ)
    (hcalls : s1.calls = s.calls ++ cs.map fun c => event c.1)
    (hok : err = modbusOk → 2 ≤ s1.ptr ∧ ∀ addr func, (rsp (cs.map Prod.snd)).encode addr func =
      withCrc (addr :: func :: load s1.buffer 2 (s1.ptr - 2))) :
    Replied s (.ofVisit event rsp (err, cs, s1.app)) (err, s1) where
  app := rfl
  calls := hcalls
  error herr := if_neg herr
  ok herr := by
    have hrsp : (Reply.ofVisit event rsp (err, cs, s1.app)).rsp = rsp (cs.map Prod.snd) :=
      if_pos herr
    rw [hrsp]
    exact hok herr

/-- A response that has been written behind the size of its values. -/
theorem encode_read {m : Mem UInt8} {n : Nat} {data : List UInt8} (hsize : m 2 = UInt8.ofNat n)
    (hdata : load m 3 n = data) (addr func : UInt8) :
    withCrc (addr :: func :: load m 2 (3 + n - 2)) =
      withCrc (addr :: func :: UInt8.ofNat data.length :: data) := by
  have hlen : data.length = n := by rw [← hdata, length_load]
  rw [show 3 + n - 2 = 1 + n by omega, load_append, hdata, hlen, ← hsize]
  rfl

/-- The bits that a loop has set in bytes that were clear. -/
theorem load_bits {m : Mem UInt8} {values : List Bool} {bytes : Nat}
    (hbytes : bytes = (values.length + 7) / 8)
    (hbits : ∀ j < bytes, ∀ i < 8,
      bitAt (m (3 + j)) i = values.getD (8 * j + i) false) : load m 3 bytes = pack values := by
  refine pack_eq (by rw [length_load, hbytes]) fun j hj i hi => ?_
  rw [length_load] at hj
  rw [load_getElem]
  exact hbits j hj i hi

/-- The loop, from a state with the size of the values and with their bits cleared. -/
theorem coilsLoop_replied {event : UInt16 → Callback} (hevent : Function.Injective event)
    {getter : BoolGetter σ} {s s2 s3 : PrModbus σ} {address : UInt16} {n bytes : Nat} {err : UInt8}
    (hloop : coilsLoop event getter address n 0 s2 = .ok (err, s3)) (hbytes : bytes = (n + 7) / 8)
    (happ : s2.app = s.app) (hcalls : s2.calls = s.calls) (hptr : s2.ptr = 3)
    (hsize : s2.buffer 2 = UInt8.ofNat bytes) (hzero : ∀ j < bytes, s2.buffer (3 + j) = 0) :
    Replied s (.ofVisit event .bits (visit getter modbusOk (addresses address 0 n) s.app))
      (err, if err ≠ modbusOk then s3 else { s3 with ptr := s3.ptr + bytes }) := by
  obtain ⟨hptr3, hfront⟩ := coilsLoop_shaped event getter address n 0 _ _ hloop
  obtain ⟨cs, v, hwalked, hv, hset⟩ := coilsLoop_walked
    (readAccess event hevent (some getter) bytes coilAt s) (fun _ _ _ => rfl) (fun _ _ => rfl)
    address n 0 _ _ hloop
  rw [hptr] at hptr3 hfront
  rw [← happ, Walked.visit_eq hwalked]
  split
  · refine replied_visit s3 ?_ fun hok => absurd hok ‹_›
    rw [← hcalls]
    exact hwalked.calls
  rename_i herr
  obtain rfl := not_not.mp herr
  refine replied_visit { s3 with ptr := s3.ptr + bytes } ?_ fun _ => ?_
  · rw [← hcalls]
    exact hwalked.calls
  have hlen : (cs.map Prod.snd).length = n := by rw [List.length_map, hwalked.all rfl]
  have hdata : load s3.buffer 3 bytes = pack (cs.map Prod.snd) := by
    refine load_bits (by rw [hlen, hbytes]) fun j hj i hi => ?_
    have hbit := hset rfl j i hi
    rw [hptr, hzero j hj, bitAt_zero hi, Bool.false_or] at hbit
    rw [hbit, List.getD_eq_getElem?_getD]
    rcases Nat.lt_or_ge (8 * j + i) n with hlt | hge
    · have hvk := hv (8 * j + i) (by rwa [hwalked.all rfl])
      rw [Nat.zero_add] at hvk
      rw [decide_eq_true ⟨Nat.zero_le _, by omega⟩, Bool.true_and, hvk,
        List.getElem?_eq_getElem (by rwa [hlen]), Option.getD_some, List.getElem_map]
    · rw [decide_eq_false (by omega), Bool.false_and, List.getElem?_eq_none (by rwa [hlen]),
        Option.getD_none]
  have hdone : s3.ptr = 3 := hptr3
  refine ⟨?_, fun addr func => ?_⟩
  · show 2 ≤ s3.ptr + bytes
    omega
  · show _ = withCrc (addr :: func :: load s3.buffer 2 (s3.ptr + bytes - 2))
    rw [hdone, encode_read ((hfront 2 (by decide)).trans hsize) hdata]
    rfl

theorem reqReadBools_replied {event : UInt16 → Callback} (hevent : Function.Injective event)
    (getter : Option (BoolGetter σ)) {s : PrModbus σ} {address count : UInt16} (hptr : s.ptr = 2)
    (haddress : be16 (s.buffer 2) (s.buffer 3) = address)
    (hcount : be16 (s.buffer 4) (s.buffer 5) = count) :
    Ensures (Replied s
        (readMany event getter ((count.toNat + 7) / 8) .bits address count s.app))
      (reqReadBools event getter s) := by
  intro r hr
  obtain ⟨a, ha, hr⟩ := bind_eq_ok.mp hr
  obtain ⟨c, hc, hr⟩ := bind_eq_ok.mp hr
  obtain rfl : a = address := (PrModbus.getBe16_value _ _ _ ha).trans haddress
  obtain rfl : c = count := (PrModbus.getBe16_value _ _ _ hc).trans hcount
  unfold busReqCoilsGetMany at hr
  unfold readMany
  simp only at hr
  split at hr
  · cases hr
    rw [if_pos ‹_›]
    exact replied_refuse s device_failure_ne
  rename_i hroom
  rw [if_neg hroom]
  cases getter with
  | none =>
    cases hr
    exact replied_refuse s illegal_function_ne
  | some getter =>
    rw [hptr] at hr
    obtain ⟨s1, hs1, hr⟩ := bind_eq_ok.mp hr
    obtain rfl := put_stored _ _ _ _ hs1
    obtain ⟨s2, hs2, hr⟩ := bind_eq_ok.mp hr
    obtain rfl := put_stored _ _ _ _ hs2
    obtain ⟨⟨err, s3⟩, hloop, hr⟩ := bind_eq_ok.mp hr
    simp only [PrModbus.stored_ptr, hptr] at hloop hr
    have hsize : store (store s.buffer 2 [UInt8.ofNat ((c.toNat + 7) / 8)]) 3
        (List.replicate ((c.toNat + 7) / 8) 0) 2 = UInt8.ofNat ((c.toNat + 7) / 8) := by
      rw [store_apply_of_lt (by decide), store_cell]
    have hzero : ∀ j < (c.toNat + 7) / 8, store (store s.buffer 2
        [UInt8.ofNat ((c.toNat + 7) / 8)]) 3 (List.replicate ((c.toNat + 7) / 8) 0) (3 + j) =
          0 := by
      intro j hj
      rw [store_apply_add (by simpa using hj), List.getElem_replicate]
    have hreplied := coilsLoop_replied hevent hloop rfl (s := s) rfl rfl rfl hsize hzero
    split at hr
    · cases hr
      rw [if_pos ‹_›] at hreplied
      exact hreplied
    · rename_i herr
      cases hr
      rw [if_neg herr, not_not.mp herr] at hreplied
      exact hreplied

/-- The registers that a loop has written one behind the other. -/
theorem load_registerBytes {m : Mem UInt8} {p : Nat} {values : List UInt16}
    (h : ∀ j (hj : j < values.length), be16 (m (p + j * 2)) (m (p + j * 2 + 1)) = values[j]) :
    load m p (values.length * 2) = registerBytes values := by
  induction values generalizing p with
  | nil => rw [List.length_nil, Nat.zero_mul, load_zero, registerBytes, List.flatMap_nil]
  | cons v values ih =>
    have hv : be16 (m p) (m (p + 1)) = v := by
      have h0 := h 0 (Nat.succ_pos _)
      rwa [Nat.zero_mul, Nat.add_zero] at h0
    have hrest : load m (p + 2) (values.length * 2) = registerBytes values := by
      refine ih fun j hj => ?_
      have h1 := h (j + 1) (Nat.succ_lt_succ hj)
      rwa [Nat.succ_mul, Nat.add_comm (j * 2) 2, ← Nat.add_assoc] at h1
    rw [List.length_cons, Nat.succ_mul, Nat.add_comm, load_append, hrest, registerBytes,
      registerBytes, List.flatMap_cons, ← hv, be16Bytes_be16]
    rfl

theorem reqReadRegs_replied {event : UInt16 → Callback} (hevent : Function.Injective event)
    (getter : Option (RegGetter σ)) {s : PrModbus σ} {address count : UInt16} (hptr : s.ptr = 2)
    (haddress : be16 (s.buffer 2) (s.buffer 3) = address)
    (hcount : be16 (s.buffer 4) (s.buffer 5) = count) :
    Ensures (Replied s
        (readMany event getter (count.toNat * 2) .registers address count s.app))
      (reqReadRegs event getter s) := by
  intro r hr
  obtain ⟨a, ha, hr⟩ := bind_eq_ok.mp hr
  obtain ⟨c, hc, hr⟩ := bind_eq_ok.mp hr
  obtain rfl : a = address := (PrModbus.getBe16_value _ _ _ ha).trans haddress
  obtain rfl : c = count := (PrModbus.getBe16_value _ _ _ hc).trans hcount
  unfold busReqRegsGetMany at hr
  unfold readMany
  simp only at hr
  split at hr
  · cases hr
    rw [if_pos ‹_›]
    exact replied_refuse s device_failure_ne
  rename_i hroom
  rw [if_neg hroom]
  cases getter with
  | none =>
    cases hr
    exact replied_refuse s illegal_function_ne
  | some getter =>
    rw [hptr] at hr
    obtain ⟨s1, hs1, hr⟩ := bind_eq_ok.mp hr
    obtain rfl := put_stored _ _ _ _ hs1
    simp only [PrModbus.stored_ptr, hptr] at hr
    obtain ⟨cs, hwalked, hregs⟩ := regsLoop_walked
      (readAccess event hevent (some getter) (c.toNat * 2) regAt s) (fun _ _ _ => rfl)
      (fun _ _ => rfl) a c.toNat 0 _ r hr
    obtain ⟨hptr1, hfront⟩ := regsLoop_shaped event getter a c.toNat 0 _ r hr
    obtain ⟨err, s1⟩ := r
    have hvisit : visit getter modbusOk (addresses a 0 c.toNat) s.app = (err, cs, s1.app) :=
      Walked.visit_eq hwalked
    simp only [hvisit]
    refine replied_visit s1 hwalked.calls fun hok => ?_
    have hptr1 : s1.ptr = 3 + c.toNat * 2 := hptr1 hok
    have hlen : (cs.map Prod.snd).length = c.toNat := by rw [List.length_map, hwalked.all hok]
    have hdata : load s1.buffer 3 (c.toNat * 2) = registerBytes (cs.map Prod.snd) := by
      rw [← hlen]
      refine load_registerBytes fun j hj => ?_
      rw [List.length_map] at hj
      rw [List.getElem_map]
      exact hregs hok j hj
    have hsize : s1.buffer 2 = UInt8.ofNat (c.toNat * 2) :=
      (hfront 2 (Nat.lt_succ_self 2)).trans (store_cell s.buffer 2 _)
    refine ⟨by omega, fun addr func => ?_⟩
    rw [hptr1, encode_read hsize hdata]
    rfl

/-- The loops that write make the calls for the values of the payload. -/
theorem writeLoop_visit {event : UInt16 → α → Callback}
    {hevent : ∀ {a b : UInt16} {v w : α}, event a v = event b w → a = b}
    {setter : σ → UInt16 → α → UInt8 × σ} {Fits : UInt16 → UInt8 → Prop} {size : Nat}
    {value : Mem UInt8 → Nat → α} {s0 : PrModbus σ} {address : UInt16}
    {turn : Nat → PrModbus σ → Outcome OutOfBounds (UInt8 × PrModbus σ)}
    (hturn : Turn (writeAccess event hevent (some setter) Fits size value s0) s0.buffer address
      turn) (values : List α) (off : Nat)
    (hvalues : ∀ j (hj : j < values.length), value s0.buffer (off + j) = values[j])
    {s : PrModbus σ} (hs : s.buffer = s0.buffer) :
    Ensures (fun r => ∃ cs, visit (asking setter) modbusOk
          ((addresses address off values.length).zip values) s.app = (r.1, cs, r.2.app) ∧
        r.2.calls = s.calls ++ cs.map (fun c => event c.1.1 c.1.2) ∧ r.2.ptr = s.ptr)
      (writeLoop turn values.length off s) := by
  induction values generalizing off s with
  | nil => exact ensures_ok ⟨[], rfl, (List.append_nil _).symm, rfl⟩
  | cons v values ih =>
    have hv : value s0.buffer off = v := hvalues 0 (Nat.succ_pos _)
    refine (hturn off s hs).bind fun ⟨err, s1⟩ ⟨herr, hasked, hbuf, hptr⟩ => ?_
    have happ : s1.app = (asking setter s.app (address + UInt16.ofNat off, v)).2.2 := by
      rw [hasked.app, ← hv]
      rfl
    have hcalls : s1.calls = s.calls ++ [event (address + UInt16.ofNat off) v] := by
      rw [hasked.calls, ← hv]
      rfl
    have herr : err = (asking setter s.app (address + UInt16.ofNat off, v)).1 := by
      rw [← hv]
      exact herr
    have hcells : (addresses address off (values.length + 1)).zip (v :: values) =
        (address + UInt16.ofNat off, v) ::
          (addresses address (off + 1) values.length).zip values := by
      rw [addresses, List.range'_succ]
      rfl
    rw [List.length_cons, hcells, visit]
    simp only at hptr ⊢
    rw [← herr, ← happ]
    by_cases hok : err = modbusOk
    · have hrest : ∀ j (hj : j < values.length), value s0.buffer (off + 1 + j) = values[j] := by
        intro j hj
        rw [Nat.add_assoc, Nat.add_comm 1 j]
        exact hvalues (j + 1) (Nat.succ_lt_succ hj)
      intro r hr
      rw [if_neg (not_not.mpr hok)] at hr
      obtain ⟨cs, hvisit, hcalls', hptr'⟩ := ih (off + 1) hrest hbuf r hr
      rw [if_pos hok, hvisit]
      refine ⟨_, rfl, ?_, hptr'.trans hptr⟩
      rw [hcalls', hcalls, List.append_assoc]
      rfl
    · rw [if_pos hok, if_neg hok]
      exact ensures_ok ⟨_, rfl, hcalls, hptr⟩

/-- The response to a write repeats its two fields. -/
theorem echo_replied {s s1 : PrModbus σ} (event : β → Callback) (err : UInt8)
    (cs : List (β × Unit)) {first second : UInt16}
    (hcalls : s1.calls = s.calls ++ cs.map fun c => event c.1) (hptr : s1.ptr = 2) :
    Ensures (Replied s (.ofVisit event (fun _ => .written first second) (err, cs, s1.app)))
      (if err ≠ modbusOk then .ok (err, s1) else s1.echo first second) := by
  split
  · exact ensures_ok (replied_visit s1 hcalls fun hok => absurd hok ‹_›)
  · rename_i herr
    obtain rfl := not_not.mp herr
    intro ⟨err, s2⟩ hr
    obtain ⟨hok, happ, hcalls2, hptr2, hload⟩ := echo_spec hptr first second _ hr
    simp only at hok happ hcalls2 hptr2 hload
    rw [hok, ← happ]
    refine replied_visit s2 (hcalls2.trans hcalls) fun _ => ⟨?_, fun addr func => ?_⟩
    · rw [hptr2]
      decide
    · rw [hptr2, hload]
      rfl

theorem reqWriteMultiple_replied {event : UInt16 → α → Callback}
    (hevent : ∀ {a b : UInt16} {v w : α}, event a v = event b w → a = b)
    {setter : Option (σ → UInt16 → α → UInt8 × σ)} {Fits : UInt16 → UInt8 → Prop}
    [DecidableRel Fits] {size : Nat} (value : Mem UInt8 → Nat → α) {s : PrModbus σ}
    {turn : UInt16 → Nat → PrModbus σ → Outcome OutOfBounds (UInt8 × PrModbus σ)}
    {address count : UInt16} {values : List α} (hptr : s.ptr = 2)
    (haddress : be16 (s.buffer 2) (s.buffer 3) = address)
    (hcount : be16 (s.buffer 4) (s.buffer 5) = count) (hfits : Fits count (s.buffer 6))
    (hsize : (s.buffer 6).toNat + 9 = size) (hlen : count.toNat = values.length)
    (hvalues : ∀ j (hj : j < values.length), value s.buffer j = values[j])
    (hnone : setter = none →
      ∀ off s, Ensures (fun r => r = (modbusIllegalFunction, s)) (turn address off s))
    (hsome : setter ≠ none →
      Turn (writeAccess event hevent setter Fits size value s) s.buffer address (turn address)) :
    Ensures (Replied s (writeMany event setter address values count s.app))
      (reqWriteMultiple Fits turn size s) := by
  intro r hr
  obtain ⟨hbad, -⟩ | ⟨-, -, r1, hloop, hecho⟩ := reqWriteMultiple_cases hr haddress hcount
  · exact absurd ⟨hfits, hsize⟩ hbad
  rw [hlen] at hloop
  cases setter with
  | none =>
    cases values with
    | nil =>
      cases hloop
      exact echo_replied (fun c : UInt16 × α => event c.1 c.2) modbusOk []
        (List.append_nil _).symm hptr r hecho
    | cons v values =>
      rw [List.length_cons, writeLoop] at hloop
      obtain ⟨r2, hturn, hloop⟩ := bind_eq_ok.mp hloop
      obtain rfl := hnone rfl _ _ _ hturn
      cases hloop
      cases hecho
      exact replied_refuse s illegal_function_ne
  | some setter =>
    obtain ⟨cs, hvisit, hcalls, hptr1⟩ := writeLoop_visit
      (hsome (Option.some_ne_none setter)) values 0
      (fun j hj => (congrArg _ (Nat.zero_add j)).trans (hvalues j hj)) rfl r1 hloop
    unfold writeMany
    simp only
    rw [hvisit]
    exact echo_replied (fun c : UInt16 × α => event c.1 c.2) _ cs hcalls (hptr1.trans hptr) r hecho

/-- A request to write a single value, from what the call has returned. -/
theorem writeOne_replied {event : UInt16 → α → Callback}
    {setter : Option (σ → UInt16 → α → UInt8 × σ)} {s : PrModbus σ} {address second : UInt16}
    {v : α} (r1 : UInt8 × PrModbus σ) (hptr : s.ptr = 2)
    (hnone : setter = none → r1 = (modbusIllegalFunction, s))
    (hsome : ∀ f, setter = some f →
      r1 = ((f s.app address v).1, s.called (event address v) (f s.app address v).2)) :
    Ensures (Replied s (writeMany event setter address [v] second s.app))
      (if r1.1 ≠ modbusOk then .ok (r1.1, r1.2) else r1.2.echo address second) := by
  cases setter with
  | none =>
    rw [hnone rfl]
    exact ensures_ok (replied_refuse s illegal_function_ne)
  | some setter =>
    have hcells : (addresses address 0 [v].length).zip [v] = [(address, v)] := by
      show [(address + UInt16.ofNat 0, v)] = _
      rw [show UInt16.ofNat 0 = 0 from rfl, UInt16.add_zero]
    have hvisit : visit (asking setter) modbusOk [(address, v)] s.app =
        ((setter s.app address v).1, [((address, v), ())], (setter s.app address v).2) :=
      visit_singleton (asking setter) modbusOk (address, v) s.app
    unfold writeMany
    simp only
    rw [hsome setter rfl, hcells, hvisit]
    have hcalls : (s.called (event address v) (setter s.app address v).2).calls =
        s.calls ++ [((address, v), ())].map fun c => event c.1.1 c.1.2 := rfl
    exact echo_replied (fun c : UInt16 × α => event c.1 c.2) _ _ hcalls hptr

theorem reqWriteSingleCoil_replied (h : Handler σ) {s : PrModbus σ} {address value : UInt16}
    (hptr : s.ptr = 2) (haddress : be16 (s.buffer 2) (s.buffer 3) = address)
    (hvalue : be16 (s.buffer 4) (s.buffer 5) = value) :
    Ensures (Replied s (serve h (.setCoil address value) s.app)) (reqWriteSingleCoil h s) := by
  refine (s.getBe16_value 2).bind fun a ha => (s.getBe16_value 4).bind fun v hv => ?_
  obtain rfl : a = address := ha.trans haddress
  obtain rfl : v = value := hv.trans hvalue
  refine writeOne_replied (s.setCoil h a (v != 0)) hptr (fun hs => ?_) fun f hs => ?_
  · rw [PrModbus.setCoil, hs]
  · rw [PrModbus.setCoil, hs]

theorem reqWriteSingleRegister_replied (h : Handler σ) {s : PrModbus σ} {address value : UInt16}
    (hptr : s.ptr = 2) (haddress : be16 (s.buffer 2) (s.buffer 3) = address)
    (hvalue : be16 (s.buffer 4) (s.buffer 5) = value) :
    Ensures (Replied s (serve h (.setRegister address value) s.app))
      (reqWriteSingleRegister h s) := by
  refine (s.getBe16_value 2).bind fun a ha => (s.getBe16_value 4).bind fun v hv => ?_
  obtain rfl : a = address := ha.trans haddress
  obtain rfl : v = value := hv.trans hvalue
  refine writeOne_replied (s.setReg h a v) hptr (fun hs => ?_) fun f hs => ?_
  · rw [PrModbus.setReg, hs]
  · rw [PrModbus.setReg, hs]

/-! ## 4. Whole requests -/

theorem length_registerBytes (values : List UInt16) :
    (registerBytes values).length = values.length * 2 := by
  induction values with
  | nil => rfl
  | cons v values ih =>
    rw [registerBytes, List.flatMap_cons, List.length_append, length_be16Bytes, ← registerBytes,
      ih, List.length_cons, Nat.succ_mul, Nat.add_comm]

theorem count_toNat {n : Nat} (hn : n < 65536) : (UInt16.ofNat n).toNat = n := by
  rw [UInt16.toNat_ofNat']
  exact Nat.mod_eq_of_lt hn

theorem bitOf_pack {m : Mem UInt8} {values : List Bool}
    (hload : load m 7 (pack values).length = pack values) (j : Nat) (hj : j < values.length) :
    bitOf m j = values[j] := by
  have hj8 : j / 8 < (pack values).length := by
    rw [length_pack]
    omega
  have hcell : m (7 + j / 8) = (pack values).getD (j / 8) 0 := by
    rw [← hload, List.getD_eq_getElem?_getD, load_getElem? m hj8, Option.getD_some]
  rw [bitOf, hcell, bitAt_pack hj]

theorem be16_of_load {m : Mem UInt8} {p : Nat} {values : List UInt16}
    (hload : load m p (values.length * 2) = registerBytes values) (j : Nat)
    (hj : j < values.length) : be16 (m (p + j * 2)) (m (p + j * 2 + 1)) = values[j] := by
  induction values generalizing p j with
  | nil => exact absurd hj (Nat.not_lt_zero j)
  | cons v values ih =>
    rw [List.length_cons, Nat.succ_mul, Nat.add_comm, load_append, registerBytes,
      List.flatMap_cons] at hload
    obtain ⟨hfirst, hrest⟩ := List.append_inj hload (length_load _ _ _)
    cases j with
    | zero =>
      obtain ⟨h0, h1⟩ := List.cons.inj hfirst
      rw [Nat.zero_mul, Nat.add_zero, show m p = _ from h0, show m (p + 1) = _ from
        (List.cons.inj h1).1]
      exact be16_be16Bytes v
    | succ j =>
      rw [Nat.succ_mul, Nat.add_comm (j * 2) 2, ← Nat.add_assoc]
      exact ih hrest j (Nat.lt_of_succ_lt_succ hj)

theorem reqWriteMultipleCoils_replied (h : Handler σ) {size : Nat} {s : PrModbus σ}
    {address count : UInt16} {values : List Bool} (hptr : s.ptr = 2)
    (haddress : be16 (s.buffer 2) (s.buffer 3) = address)
    (hcount : be16 (s.buffer 4) (s.buffer 5) = count) (hlen : count.toNat = values.length)
    (hbytes : (s.buffer 6).toNat = (pack values).length) (hsize : (pack values).length + 9 = size)
    (hload : load s.buffer 7 (pack values).length = pack values) :
    Ensures (Replied s (writeMany .coilSet h.coilSet address values count s.app))
      (reqWriteMultipleCoils h size s) := by
  have hfits : CoilsFit count (s.buffer 6) := by rw [CoilsFit, hlen, hbytes, length_pack]
  rw [reqWriteMultipleCoils_eq]
  refine reqWriteMultiple_replied (fun heq => (Callback.coilSet.inj heq).1) bitOf hptr haddress
    hcount hfits (by rw [hbytes, hsize]) hlen (bitOf_pack hload)
    (fun hset off t => ?_) fun hset => writeCoil_turn size s hset address
  refine (Ensures.trivial _).bind fun b _ => ensures_ok ?_
  rw [PrModbus.setCoil, hset]

theorem reqWriteMultipleRegisters_replied (h : Handler σ) {size : Nat} {s : PrModbus σ}
    {address count : UInt16} {values : List UInt16} (hptr : s.ptr = 2)
    (haddress : be16 (s.buffer 2) (s.buffer 3) = address)
    (hcount : be16 (s.buffer 4) (s.buffer 5) = count) (hlen : count.toNat = values.length)
    (hbytes : (s.buffer 6).toNat = values.length * 2) (hsize : values.length * 2 + 9 = size)
    (hload : load s.buffer 7 (values.length * 2) = registerBytes values) :
    Ensures
      (Replied s (writeMany .holdingRegisterSet h.holdingRegisterSet address values count s.app))
      (reqWriteMultipleRegisters h size s) := by
  have hfits : RegsFit count (s.buffer 6) := by
    rw [RegsFit, hlen, hbytes, Nat.mul_div_cancel _ (by decide)]
  rw [reqWriteMultipleRegisters_eq]
  refine reqWriteMultiple_replied (fun heq => (Callback.holdingRegisterSet.inj heq).1) regOf hptr
    haddress hcount hfits (by rw [hbytes, hsize]) hlen (be16_of_load hload)
    (fun hset off t => ?_) fun hset => writeReg_turn size s hset address
  refine (Ensures.trivial _).bind fun b _ => ensures_ok ?_
  rw [PrModbus.setReg, hset]

theorem busReqSwitch_replied (h : Handler σ) (s : PrModbus σ) {q : Request} (hq : q.Fits)
    (fuel : Nat) : Ensures
      (Replied (switched s q.func (q.encode s.addr)) (serve h q s.app))
      (busReqSwitch h (q.encode s.addr).length fuel q.func
        (switched s q.func (q.encode s.addr))) := by
  cases q with
  | coils address count =>
    exact reqReadBools_replied (fun _ _ => Callback.coilGet.inj) h.coilGet rfl
      (switched_read s _ address count).1 (switched_read s _ address count).2
  | discreteInputs address count =>
    exact reqReadBools_replied (fun _ _ => Callback.discreteInputGet.inj) h.discreteInputGet rfl
      (switched_read s _ address count).1 (switched_read s _ address count).2
  | holdingRegisters address count =>
    exact reqReadRegs_replied (fun _ _ => Callback.holdingRegisterGet.inj) h.holdingRegisterGet rfl
      (switched_read s _ address count).1 (switched_read s _ address count).2
  | inputRegisters address count =>
    exact reqReadRegs_replied (fun _ _ => Callback.inputRegisterGet.inj) h.inputRegisterGet rfl
      (switched_read s _ address count).1 (switched_read s _ address count).2
  | setCoil address value =>
    exact reqWriteSingleCoil_replied h rfl (switched_read s _ address value).1
      (switched_read s _ address value).2
  | setRegister address value =>
    exact reqWriteSingleRegister_replied h rfl (switched_read s _ address value).1
      (switched_read s _ address value).2
  | setCoils address values =>
    have hroom : (pack values).length + 9 ≤ bufferSize := by
      rw [length_pack]
      exact hq
    obtain ⟨haddress, hcount, hbytes, hload⟩ := switched_write s writeMultipleCoils address
      (UInt16.ofNat values.length) hroom
    refine reqWriteMultipleCoils_replied h rfl haddress hcount (count_toNat ?_) hbytes
      (length_writeRequest _ _ _ _ _).symm hload
    rw [length_pack, bufferSize] at hroom
    omega
  | setRegisters address values =>
    have hroom : (registerBytes values).length + 9 ≤ bufferSize := by
      rw [length_registerBytes]
      exact hq
    obtain ⟨haddress, hcount, hbytes, hload⟩ := switched_write s writeMultipleRegisters address
      (UInt16.ofNat values.length) hroom
    have hsize := length_writeRequest s.addr writeMultipleRegisters address
      (UInt16.ofNat values.length) (registerBytes values)
    rw [length_registerBytes] at hbytes hload hroom hsize
    refine reqWriteMultipleRegisters_replied h rfl haddress hcount (count_toNat ?_) hbytes
      hsize.symm hload
    rw [bufferSize] at hroom
    omega

/-- The frame of a request has the address and the function code at its front. -/
theorem encode_front (s : PrModbus σ) (q : Request) :
    (s.receives (q.encode s.addr)).buffer 0 = s.addr ∧
      (s.receives (q.encode s.addr)).buffer 1 = q.func := by
  cases q <;> exact ⟨rfl, rfl⟩

theorem func_ne_devid (q : Request) : q.func ≠ readDeviceIdentification := by
  cases q <;> simp only [Request.func] <;> decide

theorem Request.length_encode_le {q : Request} (hq : q.Fits) (addr : UInt8) :
    (q.encode addr).length ≤ bufferSize := by
  cases q with
  | setCoils address values =>
    rw [Request.encode, length_writeRequest, length_pack]
    exact hq
  | setRegisters address values =>
    rw [Request.encode, length_writeRequest, length_registerBytes]
    exact hq
  | _ => exact Nat.le_of_ble_eq_true rfl

/-- The response is the encoded reply, once the function code has left that reply in the buffer. -/
theorem Replied.response {s s1 s' : PrModbus σ} {reply : Reply σ} {err addr func : UInt8}
    (h : Replied s reply (err, s1)) (hresp : Responded addr func s' err s1) :
    load s'.buffer 0 s'.rspSize = reply.rsp.encode addr func := by
  cases hresp with
  | error herr hsize hbytes =>
    rw [hbytes, h.error herr]
    rfl
  | ok herr hsize h0 h1 hshape hroom hbytes =>
    obtain ⟨hptr, hencode⟩ := h.ok herr
    rw [hbytes, hencode, ← h0, ← h1, AnswerLemmas.load_cons_cons hptr]

/-- What a unit that has received a request makes of it. -/
structure Serves (h : Handler σ) (s : PrModbus σ) (q : Request) (s' : PrModbus σ) : Prop where
  addr : s'.addr = s.addr
  app : s'.app = (serve h q s.app).app
  calls : s'.calls = s.calls ++ (serve h q s.app).calls
  rsp : load s'.buffer 0 s'.rspSize = (serve h q s.app).rsp.encode s.addr q.func
  responded : ∃ err s1, Responded s.addr q.func s' err s1

theorem serves_of_respond (h : Handler σ) (s : PrModbus σ) {q : Request} (hq : q.Fits)
    (fuel : Nat) :
    Ensures (fun r => r.1 = true ∧ Serves h s q r.2)
      (busReqRespond h (q.encode s.addr).length fuel (s.receives (q.encode s.addr))) := by
  intro ⟨called, s'⟩ hok
  obtain ⟨haddr, hfunc⟩ := encode_front s q
  obtain ⟨hcalled, haddr'⟩ := busReqRespond_addr h _ fuel _ _ hok
  obtain rfl : called = true := hcalled.trans (decide_eq_true haddr)
  obtain ⟨-, err, s1, hsw, hresp⟩ := busReqRespond_bytes hok
  obtain ⟨hcalls, happ⟩ := busReqRespond_calls haddr hok hsw
  rw [hfunc] at hsw hresp
  have hreplied := busReqSwitch_replied h s hq fuel _ hsw
  exact ⟨rfl, haddr', happ.trans hreplied.app, hcalls.trans hreplied.calls,
    hreplied.response hresp, err, s1, hresp⟩

/-- The handling of a request for coils or registers returns. -/
theorem returns_encode (h : Handler σ) (s : PrModbus σ) {q : Request} (hq : q.Fits) :
    ∃ r, Returns (fun fuel =>
      busReqRespond h (q.encode s.addr).length fuel (s.receives (q.encode s.addr))) r := by
  have hno (last : UInt8) : ¬ DevidRequest (s.receives (q.encode s.addr)) last :=
    fun hreq => func_ne_devid q ((encode_front s q).2.symm.trans hreq.func)
  exact TerminationLemmas.returns_of_left (Request.length_encode_le hq s.addr)
    (fun last hreq => absurd hreq (hno last)) (fun hreq => absurd hreq (hno 0xff))

theorem handles_serves (h : Handler σ) (s : PrModbus σ) {q : Request} (hq : q.Fits) :
    ∃ s', Handles h s (q.encode s.addr) s' ∧ Serves h s q s' := by
  obtain ⟨⟨called, s'⟩, fuel, hok⟩ := returns_encode h s hq
  obtain ⟨hcalled, hserves⟩ := serves_of_respond h s hq fuel _ hok
  obtain rfl : called = true := hcalled
  exact ⟨s', ⟨fuel, hok⟩, hserves⟩

end ServerLemmas

open ServerLemmas

/-- A unit responds to a request with the encoded reply of the server, makes its calls and leaves
its application, whatever was in the buffer before. -/
theorem handles_serve (h : Handler σ) (s : PrModbus σ) {q : Request} (hq : q.Fits) :
    ∃ s', Handles h s (q.encode s.addr) s' ∧ s'.app = (serve h q s.app).app ∧
      s'.calls = s.calls ++ (serve h q s.app).calls ∧
      load s'.buffer 0 s'.rspSize = (serve h q s.app).rsp.encode s.addr q.func := by
  obtain ⟨s', hhandles, hserves⟩ := handles_serves h s hq
  exact ⟨s', hhandles, hserves.app, hserves.calls, hserves.rsp⟩

/-- Three coils from address 0xfffe on: the last one is coil 0. -/
theorem handles_serve_setCoils :
    Request.Fits (.setCoils 0xfffe [true, false, true]) ∧
    ∃ s', Handles arrayHandler cleared
        (Request.encode 1 (.setCoils 0xfffe [true, false, true])) s' ∧
      s'.calls = [.coilSet 0xfffe true, .coilSet 0xffff false, .coilSet 0 true] ∧
      load s'.buffer 0 s'.rspSize = withCrc [1, 15, 0xff, 0xfe, 0, 3] := by
  obtain ⟨s', hrun, -, hcalls, hload⟩ :=
    handles_serve arrayHandler cleared (q := .setCoils 0xfffe [true, false, true]) (by decide)
  exact ⟨by decide, s', hrun, hcalls, hload⟩

end Picore.Modbus
