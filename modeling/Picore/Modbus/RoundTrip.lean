import Picore.Lib.Bits
import Picore.Modbus.Response
import Picore.Modbus.Termination

/-!
# What is written is read back

An application that keeps its coils and its holding registers as arrays. What a client
writes to some of them with one request it reads back with another, and the others are
as they were.

Results:
1. `be16_be16Bytes`, `be16Bytes_be16`: a field is read back as it was written.
2. `writeLoop_array`: the loops that write, as writes to the arrays.
3. `coilsLoop_array`, `regsLoop_array`: the loops that read, as the bytes of a response.
4. `round_trip`: one after the other.
-/

namespace Picore.Modbus

open Memory Fuel Bits ResponseLemmas

variable {σ : Type}

/-! ## 1. Applications with arrays -/

/-- The callbacks read and write an array of coils and one of registers, and nothing
else of these. -/
structure Arrays (h : Handler σ) (coil : σ → UInt16 → Bool) (reg : σ → UInt16 → UInt16) :
    Prop where
  coil_set : ∃ setter, h.coilSet = some setter ∧ ∀ app a v, (setter app a v).1 = modbusOk ∧
    coil (setter app a v).2 = Function.update (coil app) a v ∧ reg (setter app a v).2 = reg app
  coil_get : ∃ getter, h.coilGet = some getter ∧ ∀ app a, (getter app a).1 = modbusOk ∧
    (getter app a).2.1 = coil app a ∧ coil (getter app a).2.2 = coil app ∧
    reg (getter app a).2.2 = reg app
  reg_set : ∃ setter, h.holdingRegisterSet = some setter ∧ ∀ app a v,
    (setter app a v).1 = modbusOk ∧ coil (setter app a v).2 = coil app ∧
    reg (setter app a v).2 = Function.update (reg app) a v
  reg_get : ∃ getter, h.holdingRegisterGet = some getter ∧ ∀ app a,
    (getter app a).1 = modbusOk ∧ (getter app a).2.1 = reg app a ∧
    coil (getter app a).2.2 = coil app ∧ reg (getter app a).2.2 = reg app

/-- The request to write the payload to `count` coils or registers. -/
def writeRequest (addr func : UInt8) (address count : UInt16) (payload : List UInt8) :
    List UInt8 :=
  withCrc ([addr, func] ++ be16Bytes address ++ be16Bytes count ++
    [UInt8.ofNat payload.length] ++ payload)

/-- The request to read `count` coils or registers. -/
def readRequest (addr func : UInt8) (address count : UInt16) : List UInt8 :=
  withCrc ([addr, func] ++ be16Bytes address ++ be16Bytes count)

/-- The payload of a request to write `count` coils, without the high bits of the last
byte that it does not use. -/
def trimmed (count : Nat) (payload : List UInt8) : List UInt8 :=
  payload.mapIdx fun i b => lowBits (count - 8 * i) b

/-- The unit has received the request in `frame`, and has made a response to it. -/
def Handles (h : Handler σ) (s : PrModbus σ) (frame : List UInt8) (s' : PrModbus σ) : Prop :=
  Returns (fun fuel => busReqRespond h frame.length fuel (s.receives frame)) (true, s')

def Leaves (coil : σ → UInt16 → Bool) (reg : σ → UInt16 → UInt16) (c : UInt16 → Bool)
    (r : UInt16 → UInt16) (s : PrModbus σ) : Prop :=
  coil s.app = c ∧ reg s.app = r

namespace RoundTripLemmas

variable {h : Handler σ} {coil : σ → UInt16 → Bool} {reg : σ → UInt16 → UInt16}

/-! ## 2. Fields -/

theorem be16_toNat (hi lo : UInt8) : (be16 hi lo).toNat = hi.toNat * 256 + lo.toNat := by
  have hhigh : (hi.toUInt16 <<< 8).toNat = 2 ^ 8 * hi.toNat := by
    rw [UInt16.toNat_shiftLeft, UInt8.toNat_toUInt16, show (8 : UInt16).toNat % 16 = 8 from rfl,
      Nat.shiftLeft_eq, Nat.mul_comm]
    refine Nat.mod_eq_of_lt ?_
    have := hi.toNat_lt
    omega
  rw [be16, UInt16.toNat_or, hhigh, UInt8.toNat_toUInt16, ← Nat.two_pow_add_eq_or_of_lt lo.toNat_lt]
  exact congrArg (· + lo.toNat) (Nat.mul_comm _ _)

theorem be16_be16Bytes (value : UInt16) :
    be16 (value >>> 8).toUInt8 value.toUInt8 = value := by
  refine UInt16.toNat_inj.mp ?_
  rw [be16_toNat, UInt16.toNat_toUInt8, UInt16.toNat_toUInt8, UInt16.toNat_shiftRight,
    show (8 : UInt16).toNat % 16 = 8 from rfl, Nat.shiftRight_eq_div_pow]
  have := value.toNat_lt
  omega

theorem be16Bytes_be16 (hi lo : UInt8) : be16Bytes (be16 hi lo) = [hi, lo] := by
  have hlt := lo.toNat_lt
  have hlt' := hi.toNat_lt
  have hhigh : (be16 hi lo >>> 8).toUInt8 = hi := by
    refine UInt8.toNat_inj.mp ?_
    rw [UInt16.toNat_toUInt8, UInt16.toNat_shiftRight,
      show (8 : UInt16).toNat % 16 = 8 from rfl, Nat.shiftRight_eq_div_pow, be16_toNat]
    omega
  have hlow : (be16 hi lo).toUInt8 = lo := by
    refine UInt8.toNat_inj.mp ?_
    rw [UInt16.toNat_toUInt8, be16_toNat]
    omega
  rw [be16Bytes, hhigh, hlow]

/-! ## 3. The loops that write -/

theorem setCoil_array (harr : Arrays h coil reg) (s : PrModbus σ) (address : UInt16)
    (value : Bool) :
    (s.setCoil h address value).1 = modbusOk ∧
      Leaves coil reg (Function.update (coil s.app) address value) (reg s.app)
        (s.setCoil h address value).2 := by
  obtain ⟨setter, hsetter, hset⟩ := harr.coil_set
  rw [PrModbus.setCoil, hsetter]
  exact hset s.app address value

theorem setReg_array (harr : Arrays h coil reg) (s : PrModbus σ) (address value : UInt16) :
    (s.setReg h address value).1 = modbusOk ∧
      Leaves coil reg (coil s.app) (Function.update (reg s.app) address value)
        (s.setReg h address value).2 := by
  obtain ⟨setter, hsetter, hset⟩ := harr.reg_set
  rw [PrModbus.setReg, hsetter]
  exact hset s.app address value

def bitOf (m : Mem UInt8) (k : Nat) : Bool := bitAt (m (7 + k / 8)) (k % 8)

def regOf (m : Mem UInt8) (k : Nat) : UInt16 := be16 (m (7 + k * 2)) (m (7 + k * 2 + 1))

/-- One of the arrays at `a` is set to `v`, and what `keep` sees of the rest stays. -/
structure Sets {α β : Type} (arr : σ → UInt16 → α) (keep : σ → β) (a : UInt16) (v : α)
    (s : PrModbus σ) (r : UInt8 × PrModbus σ) : Prop where
  ok : r.1 = modbusOk
  set : arr r.2.app = Function.update (arr s.app) a v
  kept : keep r.2.app = keep s.app
  front : r.2.buffer = s.buffer

theorem writeCoil_array (harr : Arrays h coil reg) (address : UInt16) (off : Nat)
    (s : PrModbus σ) :
    Ensures (Sets coil reg (address + UInt16.ofNat off) (bitOf s.buffer off) s)
      (writeCoil h address off s) := by
  refine (s.get_value _).bind fun b hb => ensures_ok ?_
  have hbit : ((b >>> UInt8.ofNat (off % 8)) &&& 1 != 0) = bitOf s.buffer off := by
    rw [hb]
    rfl
  rw [hbit]
  obtain ⟨hok, hcoil, hreg⟩ :=
    setCoil_array harr s (address + UInt16.ofNat off) (bitOf s.buffer off)
  exact ⟨hok, hcoil, hreg, (setCoil_front h s _ _).1⟩

theorem writeReg_array (harr : Arrays h coil reg) (address : UInt16) (off : Nat)
    (s : PrModbus σ) :
    Ensures (Sets reg coil (address + UInt16.ofNat off) (regOf s.buffer off) s)
      (writeReg h address off s) := by
  refine (s.getBe16_value _).bind fun value hvalue => ensures_ok ?_
  obtain rfl : value = regOf s.buffer off := hvalue
  obtain ⟨hok, hcoil, hreg⟩ :=
    setReg_array harr s (address + UInt16.ofNat off) (regOf s.buffer off)
  exact ⟨hok, hreg, hcoil, (setReg_front h s _ _).1⟩

section
variable {α β : Type} {arr : σ → UInt16 → α} {keep : σ → β} {value : Mem UInt8 → Nat → α}

/-- The loop writes the values of the payload one after the other. -/
theorem writeLoop_array {turn : Nat → PrModbus σ → Outcome OutOfBounds (UInt8 × PrModbus σ)}
    {address : UInt16} (hturn : ∀ off s, Ensures
      (Sets arr keep (address + UInt16.ofNat off) (value s.buffer off) s) (turn off s))
    (n off : Nat) (s : PrModbus σ) :
    Ensures (fun r => r.1 = modbusOk ∧
        arr r.2.app = updates address (value s.buffer) n off (arr s.app) ∧
        keep r.2.app = keep s.app)
      (writeLoop turn n off s) := by
  induction n generalizing off s with
  | zero => exact ensures_ok ⟨rfl, rfl, rfl⟩
  | succ n ih =>
    refine (hturn off s).bind fun ⟨err, s1⟩ ⟨hok, hset, hkept, hfront⟩ => ?_
    simp only at hok hset hkept hfront ⊢
    rw [if_neg (not_not.mpr hok)]
    intro r hr
    obtain ⟨hok, hvalues, hrest⟩ := ih _ _ r hr
    rw [hfront, hset] at hvalues
    exact ⟨hok, hvalues, hrest.trans hkept⟩

/-- The response to a write does not touch the application. -/
theorem echo_app (s : PrModbus σ) (first second : UInt16) :
    Ensures (fun r => r.1 = modbusOk ∧ r.2.app = s.app) (s.echo first second) := by
  refine (put_stored s _ _).bind ?_
  rintro _ rfl
  refine (put_stored _ _ _).bind ?_
  rintro _ rfl
  exact ensures_ok ⟨rfl, rfl⟩

theorem reqWriteMultiple_array {Fits : UInt16 → UInt8 → Prop} [DecidableRel Fits]
    {turn : UInt16 → Nat → PrModbus σ → Outcome OutOfBounds (UInt8 × PrModbus σ)} {size : Nat}
    {s : PrModbus σ} {address count : UInt16} (hturn : ∀ off s, Ensures
      (Sets arr keep (address + UInt16.ofNat off) (value s.buffer off) s) (turn address off s))
    (haddress : be16 (s.buffer 2) (s.buffer 3) = address)
    (hcount : be16 (s.buffer 4) (s.buffer 5) = count) (hfits : Fits count (s.buffer 6))
    (hsize : (s.buffer 6).toNat + 9 = size) :
    Ensures (fun r => r.1 = modbusOk ∧
        arr r.2.app = updates address (value s.buffer) count.toNat 0 (arr s.app) ∧
        keep r.2.app = keep s.app)
      (reqWriteMultiple Fits turn size s) := by
  intro r hr
  obtain ⟨hbad, -⟩ | ⟨-, -, r1, hloop, hecho⟩ := reqWriteMultiple_cases hr haddress hcount
  · exact absurd ⟨hfits, hsize⟩ hbad
  · obtain ⟨hok, hvalues, hrest⟩ := writeLoop_array hturn _ 0 s r1 hloop
    rw [if_neg (not_not.mpr hok)] at hecho
    obtain ⟨hok, happ⟩ := echo_app r1.2 address count r hecho
    rw [happ]
    exact ⟨hok, hvalues, hrest⟩

end

theorem reqWriteMultipleCoils_array (harr : Arrays h coil reg) {size : Nat} {s : PrModbus σ}
    {address count : UInt16} (haddress : be16 (s.buffer 2) (s.buffer 3) = address)
    (hcount : be16 (s.buffer 4) (s.buffer 5) = count)
    (hbytes : (s.buffer 6).toNat = (count.toNat + 7) / 8)
    (hsize : (count.toNat + 7) / 8 + 9 = size) :
    Ensures (fun r => r.1 = modbusOk ∧
        Leaves coil reg (updates address (bitOf s.buffer) count.toNat 0 (coil s.app))
          (reg s.app) r.2)
      (reqWriteMultipleCoils h size s) := by
  rw [reqWriteMultipleCoils_eq]
  rw [← hbytes] at hsize
  exact reqWriteMultiple_array (writeCoil_array harr address) haddress hcount hbytes.symm hsize

theorem reqWriteMultipleRegisters_array (harr : Arrays h coil reg) {size : Nat} {s : PrModbus σ}
    {address count : UInt16} (haddress : be16 (s.buffer 2) (s.buffer 3) = address)
    (hcount : be16 (s.buffer 4) (s.buffer 5) = count)
    (hbytes : (s.buffer 6).toNat = count.toNat * 2) (hsize : count.toNat * 2 + 9 = size) :
    Ensures (fun r => r.1 = modbusOk ∧
        Leaves coil reg (coil s.app) (updates address (regOf s.buffer) count.toNat 0 (reg s.app))
          r.2)
      (reqWriteMultipleRegisters h size s) := by
  have hfits : RegsFit count (s.buffer 6) := by
    rw [RegsFit, hbytes, Nat.mul_div_cancel _ (by decide)]
  rw [reqWriteMultipleRegisters_eq]
  rw [← hbytes] at hsize
  intro r hr
  obtain ⟨hok, hregs, hcoils⟩ := reqWriteMultiple_array (writeReg_array harr address) haddress
    hcount hfits hsize r hr
  exact ⟨hok, hcoils, hregs⟩

/-! ## 4. The loops that read -/

/-- The byte in which bit `off` has been set, and those beside it. -/
theorem bitAt_stored (m : Mem UInt8) (p off j : Nat) {i : Nat} (hi : i < 8) :
    bitAt (store m (p + off / 8) [m (p + off / 8) ||| (1 <<< UInt8.ofNat (off % 8))] (p + j)) i =
      (bitAt (m (p + j)) i || decide (8 * j + i = off)) := by
  have hmod : off % 8 < 8 := Nat.mod_lt off (by decide)
  by_cases hj : j = off / 8
  · rw [hj, store_cell, bitAt_or _ hi hmod]
    exact congrArg _ (decide_eq_decide.mpr (by omega))
  · rw [decide_eq_false (by omega), Bool.or_false]
    rcases Nat.lt_or_gt_of_ne hj with h1 | h1
    · rw [store_apply_of_lt (by omega)]
    · rw [store_apply_of_ge (by simp; omega)]

theorem bits_step (old : Bool) (c : Nat → Bool) (x off n : Nat) :
    ((old || (decide (x = off) && c off)) || (decide (off + 1 ≤ x ∧ x < off + 1 + n) && c x)) =
      (old || (decide (off ≤ x ∧ x < off + (n + 1)) && c x)) := by
  by_cases hx : x = off
  · rw [hx, decide_eq_true rfl, decide_eq_false (show ¬ (off + 1 ≤ off ∧ _) by omega),
      decide_eq_true (show off ≤ off ∧ off < off + (n + 1) by omega)]
    simp
  · rw [decide_eq_false hx, Bool.false_and, Bool.or_false]
    exact congrArg (fun b => old || (b && c x)) (decide_eq_decide.mpr (by omega))

/-- What the loop that reads `n` coils from `off` on leaves: the arrays as they were, and
the bits of the coils that are set. -/
def CoilsRead (coil : σ → UInt16 → Bool) (reg : σ → UInt16 → UInt16) (address : UInt16)
    (n off : Nat) (s : PrModbus σ) (r : UInt8 × PrModbus σ) : Prop :=
  r.1 = modbusOk ∧ Leaves coil reg (coil s.app) (reg s.app) r.2 ∧
    ∀ j, ∀ i < 8, bitAt (r.2.buffer (s.ptr + j)) i = (bitAt (s.buffer (s.ptr + j)) i ||
      (decide (off ≤ 8 * j + i ∧ 8 * j + i < off + n) &&
        coil s.app (address + UInt16.ofNat (8 * j + i))))

/-- The loop goes on from a state in which the bit `off` is that of its coil. -/
theorem CoilsRead.step {address : UInt16} {n off : Nat} {s s' : PrModbus σ}
    {r : UInt8 × PrModbus σ} (h : CoilsRead coil reg address n (off + 1) s' r)
    (hptr : s'.ptr = s.ptr) (hcoil : coil s'.app = coil s.app) (hreg : reg s'.app = reg s.app)
    (hbits : ∀ j, ∀ i < 8, bitAt (s'.buffer (s.ptr + j)) i = (bitAt (s.buffer (s.ptr + j)) i ||
      (decide (8 * j + i = off) && coil s.app (address + UInt16.ofNat off)))) :
    CoilsRead coil reg address (n + 1) off s r := by
  obtain ⟨hok, harrays, hrest⟩ := h
  rw [hcoil, hreg] at harrays
  rw [hptr, hcoil] at hrest
  refine ⟨hok, harrays, fun j i hi => ?_⟩
  rw [hrest j i hi, hbits j i hi]
  exact bits_step _ (fun k => coil s.app (address + UInt16.ofNat k)) _ off n

/-- The loop sets the bits of the coils that are set. -/
theorem coilsLoop_array (harr : Arrays h coil reg) {getter : BoolGetter σ}
    (hgetter : h.coilGet = some getter) (event : UInt16 → Callback) (address : UInt16)
    (n off : Nat) (s : PrModbus σ) :
    Ensures (CoilsRead coil reg address n off s) (coilsLoop event getter address n off s) := by
  induction n generalizing off s with
  | zero =>
    refine ensures_ok ⟨rfl, ⟨rfl, rfl⟩, fun j i hi => ?_⟩
    rw [decide_eq_false (by omega), Bool.false_and, Bool.or_false]
  | succ n ih =>
    obtain ⟨getter', hgetter', hget⟩ := harr.coil_get
    obtain rfl : getter' = getter := Option.some.inj (hgetter'.symm.trans hgetter)
    obtain ⟨herr, hvalue, hcoil, hreg⟩ := hget s.app (address + UInt16.ofNat off)
    rw [coilsLoop]
    simp only
    rw [if_neg (not_not.mpr herr), hvalue]
    intro r hr
    split at hr
    · rename_i hset
      obtain ⟨b, hb, hr⟩ := bind_eq_ok.mp hr
      obtain ⟨s', hs', hr⟩ := bind_eq_ok.mp hr
      obtain rfl := put_stored _ _ _ _ hs'
      refine (ih _ _ r hr).step rfl hcoil hreg fun j i hi => ?_
      rw [hset, Bool.and_true, PrModbus.get_value _ _ _ hb]
      exact bitAt_stored s.buffer s.ptr off j hi
    · rename_i hset
      refine (ih _ _ r hr).step rfl hcoil hreg fun j i hi => ?_
      rw [Bool.eq_false_iff.mpr hset, Bool.and_false, Bool.or_false]
      rfl

/-- The loop writes the registers one after the other. -/
theorem regsLoop_array (harr : Arrays h coil reg) {getter : RegGetter σ}
    (hgetter : h.holdingRegisterGet = some getter) (event : UInt16 → Callback)
    (address : UInt16) (n off : Nat) (s : PrModbus σ) :
    Ensures (fun r => r.1 = modbusOk ∧ Leaves coil reg (coil s.app) (reg s.app) r.2 ∧
        load r.2.buffer s.ptr (n * 2) = (List.range' off n).flatMap fun k =>
          be16Bytes (reg s.app (address + UInt16.ofNat k)))
      (regsLoop event getter address n off s) := by
  induction n generalizing off s with
  | zero => exact ensures_ok ⟨rfl, ⟨rfl, rfl⟩, by rw [Nat.zero_mul]; rfl⟩
  | succ n ih =>
    obtain ⟨getter', hgetter', hget⟩ := harr.reg_get
    obtain rfl : getter' = getter := Option.some.inj (hgetter'.symm.trans hgetter)
    obtain ⟨herr, hvalue, hcoil, hreg⟩ := hget s.app (address + UInt16.ofNat off)
    rw [regsLoop]
    simp only
    rw [if_neg (not_not.mpr herr), hvalue]
    intro r hr
    obtain ⟨s', hs', hr⟩ := bind_eq_ok.mp hr
    obtain rfl := put_stored _ _ _ _ hs'
    obtain ⟨hok, harrays, hrest⟩ := ih _ _ r hr
    obtain ⟨-, hfront⟩ := regsLoop_shaped event getter' address n (off + 1) _ r hr
    simp only [PrModbus.stored_app, PrModbus.called_app, PrModbus.stored_ptr,
      PrModbus.called_ptr] at harrays hrest hfront
    rw [hcoil, hreg] at harrays
    rw [hreg] at hrest
    refine ⟨hok, harrays, ?_⟩
    have hfirst : load r.2.buffer s.ptr 2 =
        be16Bytes (reg s.app (address + UInt16.ofNat off)) := by
      rw [← load_store_self s.buffer s.ptr (be16Bytes _)]
      exact load_congr fun i _ hi => hfront i hi
    rw [Nat.succ_mul, Nat.add_comm, load_append, hfirst, hrest, List.range'_succ,
      List.flatMap_cons]

/-! ## 5. Reading -/

/-- What a read has left in the buffer, and in the arrays. -/
structure ReadDone (coil : σ → UInt16 → Bool) (reg : σ → UInt16 → UInt16) (n : Nat)
    (data : List UInt8) (s : PrModbus σ) (r : UInt8 × PrModbus σ) : Prop where
  ok : r.1 = modbusOk
  arrays : Leaves coil reg (coil s.app) (reg s.app) r.2
  ptr : r.2.ptr = 3 + n
  count : r.2.buffer 2 = UInt8.ofNat n
  data : load r.2.buffer 3 n = data

/-- Bytes with the bits of the first `count` coils are the payload that has set them. -/
theorem load_trimmed {m m' : Mem UInt8} {count n : Nat} (hn : n = (count + 7) / 8)
    (hbits : ∀ j < n, ∀ i < 8, bitAt (m' (3 + j)) i =
      (decide (8 * j + i < count) && bitOf m (8 * j + i))) :
    load m' 3 n = trimmed count (load m 7 n) := by
  refine List.ext_getElem (by simp [trimmed]) fun j h1 _ => ?_
  rw [length_load] at h1
  simp only [trimmed, List.getElem_mapIdx, load_getElem]
  refine Bits.ext fun i hi => ?_
  rw [hbits j h1 i hi, bitAt_lowBits _ (by omega) hi, bitOf, show (8 * j + i) / 8 = j by omega,
    show (8 * j + i) % 8 = i by omega, Bool.and_comm]
  exact congrArg _ (decide_eq_decide.mpr (by omega))

theorem load_registers (m : Mem UInt8) (n : Nat) :
    ((List.range' 0 n).flatMap fun k => be16Bytes (regOf m k)) = load m 7 (n * 2) := by
  induction n with
  | zero => rfl
  | succ n ih =>
    rw [List.range'_1_concat, List.flatMap_append, ih, Nat.succ_mul, load_append, Nat.zero_add,
      List.flatMap_singleton, regOf, be16Bytes_be16]
    rfl

theorem reqReadBools_array (harr : Arrays h coil reg) (event : UInt16 → Callback)
    {s : PrModbus σ} {address count : UInt16} {m : Mem UInt8} {n : Nat} (hptr : s.ptr = 2)
    (haddress : be16 (s.buffer 2) (s.buffer 3) = address)
    (hcount : be16 (s.buffer 4) (s.buffer 5) = count) (hn : n = (count.toNat + 7) / 8)
    (hroom : n ≤ 250)
    (hcoils : ∀ k < count.toNat, coil s.app (address + UInt16.ofNat k) = bitOf m k) :
    Ensures (ReadDone coil reg n (trimmed count.toNat (load m 7 n)) s)
      (reqReadBools event h.coilGet s) := by
  obtain ⟨getter, hgetter, -⟩ := harr.coil_get
  intro r hr
  obtain ⟨a, ha, hr⟩ := bind_eq_ok.mp hr
  obtain ⟨c, hc, hr⟩ := bind_eq_ok.mp hr
  obtain rfl : a = address := (PrModbus.getBe16_value _ _ _ ha).trans haddress
  obtain rfl : c = count := (PrModbus.getBe16_value _ _ _ hc).trans hcount
  unfold busReqCoilsGetMany at hr
  simp only at hr
  rw [← hn, if_neg (Nat.not_lt_of_le hroom), hgetter, hptr] at hr
  obtain ⟨s1, hs1, hr⟩ := bind_eq_ok.mp hr
  obtain rfl := put_stored _ _ _ _ hs1
  obtain ⟨s2, hs2, hr⟩ := bind_eq_ok.mp hr
  obtain rfl := put_stored _ _ _ _ hs2
  obtain ⟨⟨err, s3⟩, hloop, hr⟩ := bind_eq_ok.mp hr
  obtain ⟨hok, harrays, hbits⟩ := coilsLoop_array harr hgetter event a c.toNat 0 _ _ hloop
  obtain ⟨hptr3, hfront⟩ := coilsLoop_shaped event getter a c.toNat 0 _ _ hloop
  simp only [PrModbus.stored_ptr, PrModbus.stored_app, PrModbus.stored_buffer, hptr]
    at hok harrays hbits hptr3 hfront hr
  rw [if_neg (not_not.mpr hok)] at hr
  cases hr
  refine ⟨rfl, harrays, ?_, ?_, ?_⟩
  · show s3.ptr + n = _
    rw [hptr3]
  · rw [hfront 2 (by decide)]
    show store (store s.buffer 2 [UInt8.ofNat n]) 3 (List.replicate n 0) 2 = _
    rw [store_apply_of_lt (by decide), store_cell]
  · refine load_trimmed hn fun j hj i hi => ?_
    -- The bytes have been cleared before the loop.
    have hzero : store (store s.buffer 2 [UInt8.ofNat n]) 3 (List.replicate n 0) (3 + j) = 0 := by
      rw [store_apply_add (by simpa using hj), List.getElem_replicate]
    have hbit := hbits j i hi
    rw [hzero, bitAt_zero hi, Bool.false_or] at hbit
    refine hbit.trans ?_
    by_cases hk : 8 * j + i < c.toNat
    · rw [hcoils _ hk, decide_eq_true hk, decide_eq_true ⟨Nat.zero_le _, by omega⟩]
    · rw [decide_eq_false hk, decide_eq_false (by omega), Bool.false_and, Bool.false_and]

theorem reqReadRegs_array (harr : Arrays h coil reg) (event : UInt16 → Callback)
    {s : PrModbus σ} {address count : UInt16} {m : Mem UInt8} {n : Nat} (hptr : s.ptr = 2)
    (haddress : be16 (s.buffer 2) (s.buffer 3) = address)
    (hcount : be16 (s.buffer 4) (s.buffer 5) = count) (hn : n = count.toNat * 2)
    (hroom : n ≤ 250)
    (hregs : ∀ k < count.toNat, reg s.app (address + UInt16.ofNat k) = regOf m k) :
    Ensures (ReadDone coil reg n (load m 7 n) s) (reqReadRegs event h.holdingRegisterGet s) := by
  obtain ⟨getter, hgetter, -⟩ := harr.reg_get
  intro r hr
  obtain ⟨a, ha, hr⟩ := bind_eq_ok.mp hr
  obtain ⟨c, hc, hr⟩ := bind_eq_ok.mp hr
  obtain rfl : a = address := (PrModbus.getBe16_value _ _ _ ha).trans haddress
  obtain rfl : c = count := (PrModbus.getBe16_value _ _ _ hc).trans hcount
  unfold busReqRegsGetMany at hr
  simp only at hr
  rw [← hn, if_neg (Nat.not_lt_of_le hroom), hgetter, hptr] at hr
  obtain ⟨s1, hs1, hr⟩ := bind_eq_ok.mp hr
  obtain rfl := put_stored _ _ _ _ hs1
  obtain ⟨hok, harrays, hload⟩ := regsLoop_array harr hgetter event a c.toNat 0 _ r hr
  obtain ⟨hptr3, hfront⟩ := regsLoop_shaped event getter a c.toNat 0 _ r hr
  simp only [PrModbus.stored_ptr, PrModbus.stored_app, PrModbus.stored_buffer, hptr]
    at hok harrays hload hptr3 hfront
  refine ⟨hok, harrays, ?_, ?_, ?_⟩
  · rw [hptr3 hok, hn]
  · exact (hfront 2 (by decide)).trans (store_cell s.buffer 2 _)
  · rw [hn, hload, ← load_registers]
    refine List.flatMap_congr fun k hk => ?_
    have hk : k < c.toNat := by simpa using hk
    rw [hregs k hk]

/-! ## 6. Requests and responses -/

/-- The state in which a request reaches the `switch` of `bus_req_handle`. -/
def switched (s : PrModbus σ) (func : UInt8) (frame : List UInt8) : PrModbus σ :=
  { (s.receives frame).stored 0 [s.addr, func] with ptr := 2, rspSize := 0 }

/-- A request whose function code succeeds has what this leaves for a response. -/
theorem handles_of_switch (s : PrModbus σ) (func : UInt8) (frame : List UInt8)
    (h0 : (s.receives frame).buffer 0 = s.addr) (h1 : (s.receives frame).buffer 1 = func)
    (hle : frame.length ≤ bufferSize) (hfunc : func ≠ readDeviceIdentification)
    {P : PrModbus σ → Prop} (hsw : ∀ fuel, Ensures (fun r => r.1 = modbusOk ∧ P r.2)
      (busReqSwitch h frame.length fuel func (switched s func frame))) :
    ∃ s1 s2, Handles h s frame s2 ∧ P s1 ∧ s2.app = s1.app ∧
      load s1.buffer 0 2 = [s.addr, func] ∧
      load s2.buffer 0 s2.rspSize = withCrc (load s1.buffer 0 s1.ptr) := by
  have hno (last : UInt8) : ¬ DevidRequest (s.receives frame) last :=
    fun hreq => hfunc (h1.symm.trans hreq.func)
  obtain ⟨⟨called, s2⟩, fuel, hok⟩ := TerminationLemmas.returns_of_left (h := h) hle
    (fun last hreq => absurd hreq (hno last)) (fun hreq => absurd hreq (hno 0xff))
  have hrun := hok
  simp only [busReqRespond_addressed frame.length fuel h0, h1] at hok
  obtain ⟨⟨err, s1⟩, hs1, hok⟩ := bind_eq_ok.mp hok
  obtain ⟨herr, hP⟩ := hsw fuel _ hs1
  obtain ⟨hsame, -⟩ := busReqSwitch_answer h frame.length fuel func rfl _ hs1
  simp only at herr hP hok hsame
  rw [if_neg (not_not.mpr herr), bind_ok] at hok
  obtain ⟨s3, hresp, hok⟩ := bind_eq_ok.mp hok
  cases hok
  obtain ⟨hroom, hsize, hbytes⟩ := respond_bytes hresp
  rw [respond_ok hroom] at hresp
  cases hresp
  refine ⟨s1, _, ⟨fuel, hrun⟩, hP, rfl, ?_, hbytes⟩
  show [s1.buffer 0, s1.buffer 1] = _
  rw [hsame 0 (by decide), hsame 1 (by decide)]
  rfl

theorem switched_write (s : PrModbus σ) (func : UInt8) (address count : UInt16)
    {payload : List UInt8} (hroom : payload.length + 9 ≤ bufferSize) :
    let m := (switched s func (writeRequest s.addr func address count payload)).buffer
    be16 (m 2) (m 3) = address ∧ be16 (m 4) (m 5) = count ∧ (m 6).toNat = payload.length ∧
      load m 7 payload.length = payload := by
  have hsize : (UInt8.ofNat payload.length).toNat = payload.length := by
    rw [UInt8.toNat_ofNat']
    rw [bufferSize] at hroom
    omega
  refine ⟨be16_be16Bytes address, be16_be16Bytes count, hsize, ?_⟩
  let front := [s.addr, func] ++ be16Bytes address ++ be16Bytes count ++
    [UInt8.ofNat payload.length]
  have hframe : writeRequest s.addr func address count payload = front ++
      (payload ++ modbusCrc16Serialize (modbusCrc16Update modbusCrc16Init (front ++ payload))) := by
    rw [← List.append_assoc]
    rfl
  have hpayload (m : Mem UInt8) (crc : List UInt8) :
      load (store m 7 (payload ++ crc)) 7 payload.length = payload := by
    have h1 := load_store_self m 7 (payload ++ crc)
    rw [List.length_append] at h1
    rw [← load_take _ (Nat.le_add_right _ crc.length), h1, List.take_left]
  show load (store (store s.buffer 0 _) 0 [s.addr, func]) 7 payload.length = payload
  rw [load_store_disjoint (.inr (by simp)), hframe, store_append]
  exact hpayload _ _

theorem switched_read (s : PrModbus σ) (func : UInt8) (address count : UInt16) :
    let m := (switched s func (readRequest s.addr func address count)).buffer
    be16 (m 2) (m 3) = address ∧ be16 (m 4) (m 5) = count :=
  ⟨be16_be16Bytes address, be16_be16Bytes count⟩

theorem length_writeRequest (addr func : UInt8) (address count : UInt16) (payload : List UInt8) :
    (writeRequest addr func address count payload).length = payload.length + 9 := by
  simp [writeRequest, withCrc]
  omega

theorem length_readRequest (addr func : UInt8) (address count : UInt16) :
    (readRequest addr func address count).length = 8 := rfl

/-- The request writes to the array of coils what the read behind it is to return. -/
theorem handles_writeCoils (harr : Arrays h coil reg) (s : PrModbus σ) {address count : UInt16}
    {payload : List UInt8} (hlen : payload.length = (count.toNat + 7) / 8)
    (hroom : payload.length + 9 ≤ bufferSize) :
    ∃ s1 m, Handles h s (writeRequest s.addr writeMultipleCoils address count payload) s1 ∧
      load m 7 payload.length = payload ∧
      Leaves coil reg (updates address (bitOf m) count.toNat 0 (coil s.app)) (reg s.app) s1 := by
  obtain ⟨haddress, hcount, hbytes, hload⟩ :=
    switched_write s writeMultipleCoils address count hroom
  have hsize := length_writeRequest s.addr writeMultipleCoils address count payload
  obtain ⟨s1, s2, hrun, hP, happ, -⟩ := handles_of_switch s writeMultipleCoils
    (writeRequest s.addr writeMultipleCoils address count payload) rfl rfl
    (Nat.le_trans (Nat.le_of_eq hsize) hroom) (by decide) fun fuel =>
      reqWriteMultipleCoils_array harr haddress hcount (hbytes.trans hlen)
        ((congrArg (· + 9) hlen.symm).trans hsize.symm)
  refine ⟨s2, _, hrun, hload, ?_⟩
  unfold Leaves at hP ⊢
  rw [happ]
  exact hP

theorem handles_writeRegisters (harr : Arrays h coil reg) (s : PrModbus σ)
    {address count : UInt16} {payload : List UInt8} (hlen : payload.length = count.toNat * 2)
    (hroom : payload.length + 9 ≤ bufferSize) :
    ∃ s1 m, Handles h s (writeRequest s.addr writeMultipleRegisters address count payload) s1 ∧
      load m 7 payload.length = payload ∧
      Leaves coil reg (coil s.app) (updates address (regOf m) count.toNat 0 (reg s.app)) s1 := by
  obtain ⟨haddress, hcount, hbytes, hload⟩ :=
    switched_write s writeMultipleRegisters address count hroom
  have hsize := length_writeRequest s.addr writeMultipleRegisters address count payload
  obtain ⟨s1, s2, hrun, hP, happ, -⟩ := handles_of_switch s writeMultipleRegisters
    (writeRequest s.addr writeMultipleRegisters address count payload) rfl rfl
    (Nat.le_trans (Nat.le_of_eq hsize) hroom) (by decide) fun fuel =>
      reqWriteMultipleRegisters_array harr haddress hcount (hbytes.trans hlen)
        ((congrArg (· + 9) hlen.symm).trans hsize.symm)
  refine ⟨s2, _, hrun, hload, ?_⟩
  unfold Leaves at hP ⊢
  rw [happ]
  exact hP

/-- The response to a read has the values behind their byte count. -/
theorem handles_read (s : PrModbus σ) {func : UInt8} {address count : UInt16} {n : Nat}
    {data : List UInt8} (hfunc : func ≠ readDeviceIdentification)
    (hsw : ∀ fuel, Ensures
      (ReadDone coil reg n data (switched s func (readRequest s.addr func address count)))
      (busReqSwitch h 8 fuel func (switched s func (readRequest s.addr func address count)))) :
    ∃ s2, Handles h s (readRequest s.addr func address count) s2 ∧
      load s2.buffer 0 s2.rspSize = withCrc ([s.addr, func, UInt8.ofNat n] ++ data) ∧
      Leaves coil reg (coil s.app) (reg s.app) s2 := by
  have hle : (readRequest s.addr func address count).length ≤ bufferSize := by
    rw [length_readRequest]
    decide
  obtain ⟨s1, s2, hrun, ⟨hptr, hcount, hdata, harrays⟩, happ, hfront, hbytes⟩ :=
    handles_of_switch s func (readRequest s.addr func address count) rfl rfl hle hfunc
      (P := fun s1 => s1.ptr = 3 + n ∧ s1.buffer 2 = UInt8.ofNat n ∧
        load s1.buffer 3 n = data ∧ Leaves coil reg (coil s.app) (reg s.app) s1) fun fuel r hr =>
        have hdone := hsw fuel r hr
        ⟨hdone.ok, hdone.ptr, hdone.count, hdone.data, hdone.arrays⟩
  refine ⟨s2, hrun, ?_, ?_⟩
  · rw [hbytes, hptr, load_append, hdata, load_append s1.buffer 0 2 1, hfront]
    show withCrc (_ ++ [s1.buffer 2] ++ data) = _
    rw [hcount]
    rfl
  · unfold Leaves at harrays ⊢
    rw [happ]
    exact harrays

end RoundTripLemmas

open RoundTripLemmas

/-- What has been written to coils or registers is read back, and no others have
changed. The state in which the second request arrives has the address of the unit and
the application as the first one left it. -/
theorem round_trip {h : Handler σ} {coil : σ → UInt16 → Bool} {reg : σ → UInt16 → UInt16}
    (harr : Arrays h coil reg) (s : PrModbus σ) (address count : UInt16) (payload : List UInt8)
    (hroom : payload.length + 9 ≤ bufferSize) :
    (payload.length = (count.toNat + 7) / 8 →
      ∃ s1, Handles h s (writeRequest s.addr writeMultipleCoils address count payload) s1 ∧
        (∀ a, (∀ k < count.toNat, a ≠ address + UInt16.ofNat k) →
          coil s1.app a = coil s.app a) ∧ reg s1.app = reg s.app ∧
        ∀ t : PrModbus σ, t.addr = s.addr → t.app = s1.app →
          ∃ s2, Handles h t (readRequest s.addr readCoils address count) s2 ∧
            load s2.buffer 0 s2.rspSize =
              withCrc ([s.addr, readCoils, UInt8.ofNat payload.length] ++
                trimmed count.toNat payload) ∧
            coil s2.app = coil s1.app ∧ reg s2.app = reg s1.app) ∧
    (payload.length = count.toNat * 2 →
      ∃ s1, Handles h s (writeRequest s.addr writeMultipleRegisters address count payload) s1 ∧
        (∀ a, (∀ k < count.toNat, a ≠ address + UInt16.ofNat k) →
          reg s1.app a = reg s.app a) ∧ coil s1.app = coil s.app ∧
        ∀ t : PrModbus σ, t.addr = s.addr → t.app = s1.app →
          ∃ s2, Handles h t (readRequest s.addr readHoldingRegisters address count) s2 ∧
            load s2.buffer 0 s2.rspSize =
              withCrc ([s.addr, readHoldingRegisters, UInt8.ofNat payload.length] ++ payload) ∧
            coil s2.app = coil s1.app ∧ reg s2.app = reg s1.app) := by
  rw [bufferSize] at hroom
  have hcount : count.toNat < 65536 := count.toNat_lt
  have hother {a : UInt16} (ha : ∀ k < count.toNat, a ≠ address + UInt16.ofNat k) (k : Nat)
      (_ : 0 ≤ k) (hk : k < 0 + count.toNat) : a ≠ address + UInt16.ofNat k :=
    ha k (by omega)
  constructor
  · intro hlen
    obtain ⟨s1, m, hrun, hload, hcoil, hreg⟩ := handles_writeCoils harr s hlen hroom
    refine ⟨s1, hrun, fun a ha => ?_, hreg, fun t haddr happ => ?_⟩
    · rw [hcoil, updates_other (hother ha)]
    obtain ⟨haddress, hcount'⟩ := switched_read t readCoils address count
    rw [← haddr, ← happ]
    refine handles_read t (by decide) fun fuel => ?_
    have hdone := reqReadBools_array harr .coilGet
      (s := switched t readCoils (readRequest t.addr readCoils address count)) (m := m) rfl
      haddress hcount' hlen (by omega) fun k hk => by
        show coil t.app _ = _
        rw [happ, hcoil, updates_apply (by omega) (Nat.zero_le k) (by omega)]
    rw [hload] at hdone
    exact hdone
  · intro hlen
    obtain ⟨s1, m, hrun, hload, hcoil, hreg⟩ := handles_writeRegisters harr s hlen hroom
    refine ⟨s1, hrun, fun a ha => ?_, hcoil, fun t haddr happ => ?_⟩
    · rw [hreg, updates_other (hother ha)]
    obtain ⟨haddress, hcount'⟩ := switched_read t readHoldingRegisters address count
    rw [← haddr, ← happ]
    refine handles_read t (by decide) fun fuel => ?_
    have hdone := reqReadRegs_array harr .holdingRegisterGet
      (s := switched t readHoldingRegisters (readRequest t.addr readHoldingRegisters address count))
      (m := m) rfl haddress hcount' hlen (by omega) fun k hk => by
        show reg t.app _ = _
        rw [happ, hreg, updates_apply (by omega) (Nat.zero_le k) (by omega)]
    rw [hload] at hdone
    exact hdone

namespace RoundTripLemmas

def arrayHandler : Handler ((UInt16 → Bool) × (UInt16 → UInt16)) where
  coilGet := some fun app a => (modbusOk, app.1 a, app)
  discreteInputGet := none
  coilSet := some fun app a v => (modbusOk, (Function.update app.1 a v, app.2))
  holdingRegisterGet := some fun app a => (modbusOk, app.2 a, app)
  inputRegisterGet := none
  holdingRegisterSet := some fun app a v => (modbusOk, (app.1, Function.update app.2 a v))
  devid := none

theorem arrayHandler_arrays : Arrays arrayHandler (fun app => app.1) (fun app => app.2) where
  coil_set := ⟨_, rfl, fun _ _ _ => ⟨rfl, rfl, rfl⟩⟩
  coil_get := ⟨_, rfl, fun _ _ => ⟨rfl, rfl, rfl, rfl⟩⟩
  reg_set := ⟨_, rfl, fun _ _ _ => ⟨rfl, rfl, rfl⟩⟩
  reg_get := ⟨_, rfl, fun _ _ => ⟨rfl, rfl, rfl, rfl⟩⟩

/-- A unit in which all coils and registers are clear. -/
def cleared : PrModbus ((UInt16 → Bool) × (UInt16 → UInt16)) :=
  ⟨1, fun _ => 0, 0, 0, (fun _ => false, fun _ => 0), []⟩

end RoundTripLemmas

theorem round_trip_coils :
    ∃ s1, Handles arrayHandler cleared (writeRequest 1 writeMultipleCoils 0xfffc 10 [0xa5, 0xff])
        s1 ∧
      ∃ s2, Handles arrayHandler { cleared with app := s1.app } (readRequest 1 readCoils 0xfffc 10)
          s2 ∧
        load s2.buffer 0 s2.rspSize = withCrc [1, readCoils, 2, 0xa5, 0x03] := by
  obtain ⟨s1, hwrite, -, -, hread⟩ :=
    (round_trip arrayHandler_arrays cleared 0xfffc 10 [0xa5, 0xff] (by decide)).1 (by decide)
  obtain ⟨s2, hread, hload, -⟩ := hread { cleared with app := s1.app } rfl rfl
  exact ⟨s1, hwrite, s2, hread, hload⟩

end Picore.Modbus
