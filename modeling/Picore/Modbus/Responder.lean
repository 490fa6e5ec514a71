import Picore.Modbus.Replace
import Picore.Modbus.Server
import Mathlib.Data.Nat.Bitwise

/-!
# The demo of a unit (`test/modbus_responder/main.c`)

The application has two coils in the bits of a `uint16_t`. They are also a register, which is
read by two function codes and written by one.

Results:
1. `usbModbusHandler`: its callbacks. `usbModbusHandler_matches`: they are those of two coils.
2. `responder_replaced`: so no bytes tell it from an application that has just the coils.
3. `responder_reads`: after any bytes, coils and registers are read as what was written last.
-/

namespace Picore.Modbus

open Memory Fuel Transition ReplaceLemmas ServerLemmas RoundTripLemmas

/-! ## 1. The application -/

/-- `usb_coil_get`. With an error, no value is returned. -/
def usbCoilGet (coils address : UInt16) : UInt8 × Bool × UInt16 :=
  if address = 0 then (modbusOk, coils &&& 1 != 0, coils)
  else if address = 1 then (modbusOk, coils &&& 2 != 0, coils)
  else (modbusIllegalDataAddress, false, coils)

def usbCoilSet (coils address : UInt16) (value : Bool) : UInt8 × UInt16 :=
  if address = 0 then (modbusOk, if value then coils ||| 1 else coils &&& ~~~1)
  else if address = 1 then (modbusOk, if value then coils ||| 2 else coils &&& ~~~2)
  else (modbusIllegalDataAddress, coils)

def usbRegGet (coils address : UInt16) : UInt8 × UInt16 × UInt16 :=
  if address = 0 then (modbusOk, coils, coils) else (modbusIllegalDataAddress, 0, coils)

def usbRegSet (coils address value : UInt16) : UInt8 × UInt16 :=
  if address = 0 then (modbusOk, value &&& 3) else (modbusIllegalDataAddress, coils)

/-- The strings of `usb_devid`. -/
def usbObjects : List String :=
  ["Picore", "Modbus responder", "A", "https://github.com/nipo/picore", "Picore demo", "A", "Demo"]

def usbDevid {σ : Type} (app : σ) (id : UInt8) : Option (List UInt8) × σ :=
  (usbObjects[id.toNat]?.map fun object => object.toUTF8.toList, app)

/-- `usb_modbus_handler`. There are no discrete inputs. -/
def usbModbusHandler : Handler UInt16 where
  coilGet := some usbCoilGet
  discreteInputGet := none
  coilSet := some usbCoilSet
  holdingRegisterGet := some usbRegGet
  inputRegisterGet := some usbRegGet
  holdingRegisterSet := some usbRegSet
  devid := some usbDevid

/-- The two coils of the responder, unpacked. In the source they are two bits of one variable. -/
structure Coils where
  a : Bool
  b : Bool

/-- Both coils as the source keeps them: bits 0 and 1 of one variable. -/
def Coils.pack (c : Coils) : UInt16 := (if c.a then 1 else 0) + if c.b then 2 else 0

/-- The coils that a register sets. The other bits are ignored. -/
def Coils.unpack (value : UInt16) : Coils := ⟨value &&& 1 != 0, value &&& 2 != 0⟩

/-- The callbacks of the responder on two separate coils: what an application without bit operations
would be. `responder_replaced` shows that no bytes tell the two apart. -/
def coilsHandler : Handler Coils where
  coilGet := some fun c a =>
    if a = 0 then (modbusOk, c.a, c)
    else if a = 1 then (modbusOk, c.b, c)
    else (modbusIllegalDataAddress, false, c)
  discreteInputGet := none
  coilSet := some fun c a v =>
    if a = 0 then (modbusOk, { c with a := v })
    else if a = 1 then (modbusOk, { c with b := v })
    else (modbusIllegalDataAddress, c)
  holdingRegisterGet := some fun c a =>
    if a = 0 then (modbusOk, c.pack, c) else (modbusIllegalDataAddress, 0, c)
  inputRegisterGet := some fun c a =>
    if a = 0 then (modbusOk, c.pack, c) else (modbusIllegalDataAddress, 0, c)
  holdingRegisterSet := some fun c a v =>
    if a = 0 then (modbusOk, .unpack v) else (modbusIllegalDataAddress, c)
  devid := some usbDevid

namespace ResponderLemmas

/-! ### The bits -/

theorem bit_pack (c : Coils) : (c.pack &&& 1 != 0) = c.a ∧ (c.pack &&& 2 != 0) = c.b := by
  obtain ⟨a, b⟩ := c
  cases a <;> cases b <;> decide

theorem set_pack (c : Coils) (v : Bool) :
    (if v then c.pack ||| 1 else c.pack &&& ~~~1) = Coils.pack { c with a := v } ∧
      (if v then c.pack ||| 2 else c.pack &&& ~~~2) = Coils.pack { c with b := v } := by
  obtain ⟨a, b⟩ := c
  cases a <;> cases b <;> cases v <;> decide

theorem pack_unpack (value : UInt16) : (Coils.unpack value).pack = value &&& 3 := by
  have h1 : value &&& 1 = value &&& 3 &&& 1 := (UInt16.and_assoc value 3 1).symm
  have h2 : value &&& 2 = value &&& 3 &&& 2 := (UInt16.and_assoc value 3 2).symm
  have hlt : (value &&& 3).toNat < 4 := by
    rw [UInt16.toNat_and]
    exact Nat.lt_succ_of_le Nat.and_le_right
  rw [Coils.unpack, h1, h2]
  obtain ⟨w, hw⟩ : ∃ w : Fin 4, value &&& 3 = UInt16.ofNat w :=
    ⟨⟨_, hlt⟩, UInt16.ofNat_toNat.symm⟩
  rw [hw]
  clear h1 h2 hlt hw
  revert w
  decide

theorem usbRegGet_matches (event : UInt16 → Callback) :
    Option.Rel (GetterMatches (fun _ coils (c : Coils) => coils = c.pack) event) (some usbRegGet)
      (some fun c a => if a = 0 then (modbusOk, c.pack, c) else (modbusIllegalDataAddress, 0, c)) :=
  .some fun calls s c a hs => by
    subst hs
    unfold usbRegGet
    by_cases h0 : a = 0
    · subst h0
      exact ⟨rfl, rfl, rfl⟩
    · simp [h0]

/-- `coils` is the register of the coils, and nothing else. -/
theorem usbModbusHandler_matches :
    usbModbusHandler.Matches (fun _ coils (c : Coils) => coils = c.pack) coilsHandler where
  coil_get := .some fun calls s c a hs => by
    subst hs
    unfold usbCoilGet
    by_cases h0 : a = 0
    · subst h0
      exact ⟨rfl, (bit_pack c).1, rfl⟩
    by_cases h1 : a = 1
    · subst h1
      exact ⟨rfl, (bit_pack c).2, rfl⟩
    · simp [h0, h1]
  discrete_input_get := .none
  coil_set := .some fun calls s c a v hs => by
    subst hs
    unfold usbCoilSet
    by_cases h0 : a = 0
    · subst h0
      exact ⟨rfl, (set_pack c v).1⟩
    by_cases h1 : a = 1
    · subst h1
      exact ⟨rfl, (set_pack c v).2⟩
    · simp [h0, h1]
  holding_register_get := usbRegGet_matches _
  input_register_get := usbRegGet_matches _
  holding_register_set := .some fun calls s c a v hs => by
    subst hs
    unfold usbRegSet
    by_cases h0 : a = 0
    · subst h0
      exact ⟨rfl, (pack_unpack v).symm⟩
    · simp [h0]
  devid := .some fun calls s c id hs => ⟨rfl, hs⟩

def usbStarted : Node UInt16 :=
  ⟨⟨9, fun _ => 0, 0, 0, 0, []⟩, [], 512, 0, false, .idle, [], []⟩

/-- The register is written, with bits that it does not have. -/
def registerWritten : List Act :=
  [.arrive (withCrc [9, 6, 0, 0, 0xff, 0xfe]), .work bufferSize 0 0]

end ResponderLemmas

open ResponderLemmas in
/-- No bytes, and no order of steps, tell the unit from one whose application has just the
coils: after each run the two are the same, with the coils as the bits of `coils`. -/
theorem responder_replaced {n : Node UInt16} (hn : n.bus.app = 0) (acts : List Act) :
    Option.Rel (NodeTwin fun _ coils (c : Coils) => coils = c.pack)
      (exec (step usbModbusHandler) n acts)
      (exec (step coilsHandler) (n.withApp ⟨false, false⟩) acts) :=
  exec_rel (fun _ _ a hm => step_twin usbModbusHandler_matches hm a) ⟨⟨false, false⟩, rfl, hn⟩ acts

open ResponderLemmas in
theorem responder_replaced_write :
    Option.Rel (NodeTwin fun _ coils (c : Coils) => coils = c.pack)
      (exec (step usbModbusHandler) usbStarted registerWritten)
      (exec (step coilsHandler) (usbStarted.withApp ⟨false, false⟩) registerWritten) :=
  responder_replaced rfl registerWritten

/-! ## 2. What is read -/

/-- The value that a call writes to a coil. -/
def Callback.writes (i : Fin 2) : Callback → Option Bool
  | .coilSet a v => if a.toNat = i then some v else none
  | .holdingRegisterSet a v => if a = 0 then some (v.toNat.testBit i) else none
  | _ => none

/-- The value that was written last to a coil. -/
def lastWritten (i : Fin 2) (cs : List Callback) : Bool :=
  (cs.filterMap (Callback.writes i)).getLast?.getD false

/-- The unit responds to a request with this response. -/
def RespondsWith {σ : Type} (h : Handler σ) (s : PrModbus σ) (q : Request) (rsp : Response) :
    Prop :=
  ∃ s', Handles h s (q.encode s.addr) s' ∧
    load s'.buffer 0 s'.rspSize = rsp.encode s.addr q.func

namespace ResponderLemmas

theorem lastWritten_concat (i : Fin 2) (cs : List Callback) (c : Callback) :
    lastWritten i (cs ++ [c]) = (c.writes i).getD (lastWritten i cs) := by
  unfold lastWritten
  rw [List.filterMap_append]
  cases hc : c.writes i with
  | none => simp [hc]
  | some v => simp [hc]

def coilsOf (cs : List Callback) : Coils := ⟨lastWritten 0 cs, lastWritten 1 cs⟩

theorem usbCoilGet_app (coils a : UInt16) : (usbCoilGet coils a).2.2 = coils := by
  unfold usbCoilGet
  split
  · rfl
  split
  · rfl
  · rfl

theorem usbRegGet_app (coils a : UInt16) : (usbRegGet coils a).2.2 = coils := by
  unfold usbRegGet
  split
  · rfl
  · rfl

theorem testBit_eq {value mask : UInt16} {i : Nat} (hmask : mask.toNat = 2 ^ i) :
    value.toNat.testBit i = (value &&& mask != 0) := by
  have hand : (value &&& mask).toNat = (value.toNat.testBit i).toNat * 2 ^ i := by
    rw [UInt16.toNat_and, hmask, Nat.and_two_pow]
  cases hbit : value.toNat.testBit i with
  | false =>
    have hzero : value &&& mask = 0 := by
      rw [← UInt16.toNat_inj, hand, hbit, Bool.toNat_false, Nat.zero_mul]
      rfl
    rw [hzero]
    rfl
  | true =>
    have hne : value &&& mask ≠ 0 := by
      intro heq
      rw [heq, hbit, Bool.toNat_true, Nat.one_mul] at hand
      exact absurd hand.symm (Nat.pos_iff_ne_zero.mp (Nat.two_pow_pos i))
    exact (bne_iff_ne.mpr hne).symm

theorem effect_pack (cs : List Callback) (c : Callback) :
    usbModbusHandler.effect (coilsOf cs).pack c = (coilsOf (cs ++ [c])).pack := by
  have hsame (h0 : c.writes 0 = none) (h1 : c.writes 1 = none) :
      coilsOf (cs ++ [c]) = coilsOf cs := by
    rw [coilsOf, lastWritten_concat, lastWritten_concat, h0, h1]
    rfl
  cases c with
  | coilGet a =>
    rw [hsame rfl rfl]
    exact usbCoilGet_app _ a
  | holdingRegisterGet a =>
    rw [hsame rfl rfl]
    exact usbRegGet_app _ a
  | inputRegisterGet a =>
    rw [hsame rfl rfl]
    exact usbRegGet_app _ a
  | discreteInputGet a => rw [hsame rfl rfl]; rfl
  | devid id => rw [hsame rfl rfl]; rfl
  | coilSet a v =>
    show (usbCoilSet (coilsOf cs).pack a v).2 = _
    unfold usbCoilSet
    by_cases h0 : a = 0
    · subst h0
      rw [if_pos rfl, (set_pack _ v).1, coilsOf, coilsOf, lastWritten_concat, lastWritten_concat]
      rfl
    by_cases h1 : a = 1
    · subst h1
      rw [if_neg h0, if_pos rfl, (set_pack _ v).2, coilsOf, coilsOf, lastWritten_concat,
        lastWritten_concat]
      rfl
    · rw [if_neg h0, if_neg h1, hsame (if_neg fun heq => h0 (UInt16.toNat_inj.mp heq))
        (if_neg fun heq => h1 (UInt16.toNat_inj.mp heq))]
  | holdingRegisterSet a v =>
    show (usbRegSet (coilsOf cs).pack a v).2 = _
    unfold usbRegSet
    have hlow : v.toNat.testBit (0 : Fin 2) = (v &&& 1 != 0) := testBit_eq rfl
    have hhigh : v.toNat.testBit (1 : Fin 2) = (v &&& 2 != 0) := testBit_eq rfl
    by_cases h0 : a = 0
    · rw [if_pos h0, ← pack_unpack, coilsOf, lastWritten_concat, lastWritten_concat,
        Callback.writes, if_pos h0, Callback.writes, if_pos h0, Option.getD_some, Option.getD_some,
        hlow, hhigh]
      rfl
    · rw [if_neg h0, hsame (if_neg h0) (if_neg h0)]

/-- Every run keeps the coils as they have been written. -/
theorem exec_coils {n n' : Node UInt16} (hn : n.bus.app = 0) {acts : List Act}
    (hrun : exec (step usbModbusHandler) n acts = some n') :
    ∃ cs, n'.bus.calls = n.bus.calls ++ cs ∧ n'.bus.app = (coilsOf cs).pack := by
  refine exec_keeps (P := fun calls app => ∃ cs, calls = n.bus.calls ++ cs ∧
    app = (coilsOf cs).pack) ?_ ⟨[], (List.append_nil _).symm, hn⟩ hrun
  rintro calls app c ⟨cs, rfl, rfl⟩
  exact ⟨cs ++ [c], List.append_assoc _ _ _, effect_pack cs c⟩

theorem respondsWith {σ : Type} {h : Handler σ} {s : PrModbus σ} {q : Request} (hq : q.Fits)
    {rsp : Response} (hrsp : (serve h q s.app).rsp = rsp) : RespondsWith h s q rsp := by
  obtain ⟨s', hhandles, hserves⟩ := handles_serves h s hq
  exact ⟨s', hhandles, hrsp ▸ hserves.rsp⟩

end ResponderLemmas

open ResponderLemmas in
/-- After any bytes, in any order of steps, the unit reads both coils, and the register with
either function code, as what was written last to them, as coils or as the register. -/
theorem responder_reads {n n' : Node UInt16} (hn : n.bus.app = 0) {acts : List Act}
    (hrun : exec (step usbModbusHandler) n acts = some n') :
    ∃ cs, n'.bus.calls = n.bus.calls ++ cs ∧
      RespondsWith usbModbusHandler n'.bus (.coils 0 2)
        (.bits [lastWritten 0 cs, lastWritten 1 cs]) ∧
      RespondsWith usbModbusHandler n'.bus (.holdingRegisters 0 1)
        (.registers [(⟨lastWritten 0 cs, lastWritten 1 cs⟩ : Coils).pack]) ∧
      RespondsWith usbModbusHandler n'.bus (.inputRegisters 0 1)
        (.registers [(⟨lastWritten 0 cs, lastWritten 1 cs⟩ : Coils).pack]) := by
  obtain ⟨cs, hcalls, happ⟩ := exec_coils hn hrun
  refine ⟨cs, hcalls, respondsWith ?_ ?_, respondsWith ?_ ?_, respondsWith ?_ ?_⟩
  · trivial
  · rw [happ]
    have hbits := bit_pack (coilsOf cs)
    show Response.bits [(coilsOf cs).pack &&& 1 != 0, (coilsOf cs).pack &&& 2 != 0] = _
    rw [hbits.1, hbits.2]
    rfl
  · trivial
  · rw [happ]
    rfl
  · trivial
  · rw [happ]
    rfl

open ResponderLemmas in
theorem responder_reads_write :
    ∃ n', exec (step usbModbusHandler) usbStarted registerWritten = some n' ∧
      RespondsWith usbModbusHandler n'.bus (.coils 0 2) (.bits [false, true]) ∧
      RespondsWith usbModbusHandler n'.bus (.inputRegisters 0 1) (.registers [2]) := by
  have hrun : (exec (step usbModbusHandler) usbStarted registerWritten).map
      (fun n => n.bus.calls) = some [.holdingRegisterSet 0 0xfffe] := by decide +kernel
  obtain ⟨n', hn', hcalls⟩ := Option.map_eq_some_iff.mp hrun
  obtain ⟨cs, hcs, hcoils, -, hregs⟩ := responder_reads rfl hn'
  obtain rfl : cs = [.holdingRegisterSet 0 0xfffe] := hcs.symm.trans hcalls
  exact ⟨n', hn', hcoils, hregs⟩

end Picore.Modbus
