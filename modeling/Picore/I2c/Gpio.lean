import Picore.I2c.Bus
import Picore.Lib.Transition

/-!
# The I/O expander drivers (`src/i2c_gpio/i2c_gpio.c`)

Two drivers that keep the output and configuration registers of their chip in a cache. Both
functions of a driver do the same with their own register; the configuration register holds
the complement of `oe_cache`. The cache is written before the bus, so the functions return
the cache whether the write succeeds or not.

A chip is its registers. A write that succeeds is taken by the chip, one that fails leaves
it as it is.

Results:
1. `tca9534Update_spec`, `pca9575Update_spec`: one call, pin by pin.
2. `cache_follows_iff`: as long as no call that asks for a change fails, the cache follows
   the chip, and the first one that does breaks it. `retry_lost`: a retry that returns
   `PR_OK` and writes nothing.
-/

namespace Picore.I2c

open Transition

variable {σ : Type}

/-- `struct pr_i2c_gpio` without the bus and the vtable, which are arguments here: the address, and
the last values that the driver has tried to write. -/
structure I2cGpio where
  saddr : UInt8
  setCache : UInt32
  oeCache : UInt32

def prI2cGpioInit (saddr : UInt8) : I2cGpio where
  saddr := saddr
  setCache := 0
  oeCache := 0

/-- The body of `tca9534_set` and `tca9534_oe`: the cache, the result and the bus. With
`flip` the complement goes to the register. -/
def tca9534Update (inst : I2cInst σ) (bus : σ) (saddr reg : UInt8) (flip : Bool)
    (cache mask value : UInt32) : UInt32 × PrError × σ :=
  let old := cache.toUInt8
  let new := ((old.toUInt32 &&& ~~~mask) ||| (value &&& mask)).toUInt8
  let (err, bus) := prI2cBusWrite inst bus saddr [reg, if flip then ~~~new else new]
  (new.toUInt32, err, bus)

def tca9534Set (inst : I2cInst σ) (bus : σ) (g : I2cGpio) (mask value : UInt32) :
    PrError × I2cGpio × σ :=
  let (cache, err, bus) := tca9534Update inst bus g.saddr 0x01 false g.setCache mask value
  (err, { g with setCache := cache }, bus)

def tca9534Oe (inst : I2cInst σ) (bus : σ) (g : I2cGpio) (mask value : UInt32) :
    PrError × I2cGpio × σ :=
  let (cache, err, bus) := tca9534Update inst bus g.saddr 0x03 true g.oeCache mask value
  (err, { g with oeCache := cache }, bus)

def pca9575W8 (inst : I2cInst σ) (bus : σ) (saddr reg value : UInt8) : PrError × σ :=
  prI2cBusWrite inst bus saddr [reg, value]

def pca9575W16 (inst : I2cInst σ) (bus : σ) (saddr reg : UInt8) (value : UInt16) : PrError × σ :=
  prI2cBusWrite inst bus saddr
    [0x80 ||| reg, (value &&& 0xff).toUInt8, ((value >>> 8) &&& 0xff).toUInt8]

/-- The branches of `pca9575_set` and `pca9575_oe`. The third one has the condition of the
second one. -/
def pca9575Send (inst : I2cInst σ) (bus : σ) (saddr reg : UInt8) (changed data : UInt16) :
    PrError × σ :=
  if changed = 0 then (.ok, bus)
  else if changed &&& 0xff00 = 0 then pca9575W8 inst bus saddr reg data.toUInt8
  else if changed &&& 0xff00 = 0 then pca9575W8 inst bus saddr (reg + 1) (data >>> 8).toUInt8
  else pca9575W16 inst bus saddr reg data

/-- The body of `pca9575_set` and `pca9575_oe`. -/
def pca9575Update (inst : I2cInst σ) (bus : σ) (saddr reg : UInt8) (flip : Bool)
    (cache mask value : UInt32) : UInt32 × PrError × σ :=
  let old := cache.toUInt16
  let new := ((old.toUInt32 &&& ~~~mask) ||| (value &&& mask)).toUInt16
  let changed := old ^^^ new
  let (err, bus) := pca9575Send inst bus saddr reg changed (if flip then ~~~new else new)
  (new.toUInt32, err, bus)

def pca9575Set (inst : I2cInst σ) (bus : σ) (g : I2cGpio) (mask value : UInt32) :
    PrError × I2cGpio × σ :=
  let (cache, err, bus) := pca9575Update inst bus g.saddr 0x0a false g.setCache mask value
  (err, { g with setCache := cache }, bus)

def pca9575Oe (inst : I2cInst σ) (bus : σ) (g : I2cGpio) (mask value : UInt32) :
    PrError × I2cGpio × σ :=
  let (cache, err, bus) := pca9575Update inst bus g.saddr 0x08 true g.oeCache mask value
  (err, { g with oeCache := cache }, bus)

/-- The two instances of `struct pr_i2c_gpio_vtable`: an 8-bit expander, and a 16-bit one with
another register layout. -/
inductive Vtable
  | tca9534
  | pca9575

def prI2cGpioSet (v : Vtable) (inst : I2cInst σ) (bus : σ) (g : I2cGpio) (mask value : UInt32) :
    PrError × I2cGpio × σ :=
  match v with
  | .tca9534 => tca9534Set inst bus g mask value
  | .pca9575 => pca9575Set inst bus g mask value

def prI2cGpioOe (v : Vtable) (inst : I2cInst σ) (bus : σ) (g : I2cGpio) (mask value : UInt32) :
    PrError × I2cGpio × σ :=
  match v with
  | .tca9534 => tca9534Oe inst bus g mask value
  | .pca9575 => pca9575Oe inst bus g mask value

/-! ## Chips -/

/-- The registers of an expander, by their numbers. -/
abbrev Regs := UInt8 → UInt8

/-- The chip stores bytes from the register `reg` on. -/
def Regs.storeBytes (increment : UInt8) : UInt8 → List UInt8 → Regs → Regs
  | _, [], regs => regs
  | reg, b :: bs, regs => storeBytes increment (reg + increment) bs (Function.update regs reg b)

/-- The chip takes a write. The first byte is the command: the register, and in bit 7
whether the register is incremented after each byte. -/
def Regs.take (regs : Regs) : List UInt8 → Regs
  | [] => regs
  | cmd :: bytes => storeBytes (if cmd < 0x80 then 0 else 1) (cmd &&& 0x7f) bytes regs

/-- The bus with the chip on it. A write succeeds, or fails with a negative error code. -/
def chipBus (fail : Option Nat) : I2cInst Regs where
  errorGeneric := -2
  errorTimeout := -1
  writeBlocking regs _ data _ :=
    match fail with
    | none => (toInt data.length, regs.take data)
    | some e => (Int.negSucc e, regs)
  readBlocking regs _ _ _ := (-2, [], regs)

/-- The two functions of a driver that write: the levels of the outputs, and which pins are outputs.
-/
inductive Op
  | set
  | oe
  deriving DecidableEq

/-- A call of one of the functions. If the bus fails during it, `fail` tells with which of the
negative codes. -/
structure Call where
  op : Op
  mask : UInt32
  value : UInt32
  fail : Option Nat

/-- The state of the driver, which holds the caches, and the registers of its chip. -/
structure Expander where
  gpio : I2cGpio
  regs : Regs

/-- A call on the bus that has the chip alone on it, and that fails or not as the call says. -/
def Call.run (v : Vtable) (s : Expander) (c : Call) : PrError × Expander :=
  let (err, gpio, regs) :=
    match c.op with
    | .set => prI2cGpioSet v (chipBus c.fail) s.regs s.gpio c.mask c.value
    | .oe => prI2cGpioOe v (chipBus c.fail) s.regs s.gpio c.mask c.value
  (err, ⟨gpio, regs⟩)

/-- Pin `i` of a mask, a value or a cache. -/
def pin (x : UInt32) (i : Nat) : Bool := x.toBitVec.getLsbD i

def Regs.bit (regs : Regs) (reg : UInt8) (i : Nat) : Bool := (regs reg).toBitVec.getLsbD i

/-- Pin `i` of two registers of 8 pins each. -/
def Regs.bit16 (regs : Regs) (reg : UInt8) (i : Nat) : Bool :=
  if i < 8 then regs.bit reg i else regs.bit (reg + 1) (i - 8)

def Vtable.pins : Vtable → Nat
  | .tca9534 => 8
  | .pca9575 => 16

/-- Pin `i` in the output register. -/
def Vtable.output (v : Vtable) (regs : Regs) (i : Nat) : Bool :=
  match v with
  | .tca9534 => regs.bit 0x01 i
  | .pca9575 => regs.bit16 0x0a i

/-- Pin `i` in the configuration register, in which inputs are 1. -/
def Vtable.config (v : Vtable) (regs : Regs) (i : Nat) : Bool :=
  match v with
  | .tca9534 => regs.bit 0x03 i
  | .pca9575 => regs.bit16 0x08 i

/-- What the chip does with pin `i`: its level, or whether it is an output. -/
def Vtable.state (v : Vtable) (regs : Regs) (i : Nat) : Op → Bool
  | .set => v.output regs i
  | .oe => !v.config regs i

def I2cGpio.cache (g : I2cGpio) : Op → UInt32
  | .set => g.setCache
  | .oe => g.oeCache

/-- The registers of a PCA9575 after power-on: outputs 0, all pins inputs. -/
def Regs.PowerOn (regs : Regs) : Prop :=
  regs 0x0a = 0 ∧ regs 0x0b = 0 ∧ regs 0x08 = 0xff ∧ regs 0x09 = 0xff

/-- Calls on one expander. The TCA9534 is written by every call, so any content will do at
the start. -/
def expander (v : Vtable) : Lts Expander Call where
  init s := (∃ saddr, s.gpio = prI2cGpioInit saddr) ∧
    match v with
    | .tca9534 => True
    | .pca9575 => s.regs.PowerOn
  step s c s' := s' = (c.run v s).2

/-- The cache follows the chip during a call: an error leaves it as it was, and with `PR_OK`
the pins in the mask are as requested. -/
def Follows (v : Vtable) (s : Expander) (c : Call) : Prop :=
  ((c.run v s).1 ≠ .ok → (c.run v s).2.gpio = s.gpio) ∧
  ((c.run v s).1 = .ok → ∀ i < v.pins, pin c.mask i = true →
    v.state (c.run v s).2.regs i c.op = pin c.value i)

/-- The call asks for a pin to be other than the cache says. -/
def Changes (v : Vtable) (s : Expander) (c : Call) : Prop :=
  ∃ i < v.pins, pin c.mask i = true ∧ pin c.value i ≠ pin (s.gpio.cache c.op) i

/-- The call does not fail, or asks for no change. -/
def Safe (v : Vtable) (s : Expander) (c : Call) : Prop := c.fail = none ∨ ¬Changes v s c

instance (v : Vtable) (s : Expander) (c : Call) : Decidable (Changes v s c) :=
  inferInstanceAs (Decidable (∃ i < v.pins, _))

instance (v : Vtable) (s : Expander) (c : Call) : Decidable (Safe v s c) :=
  inferInstanceAs (Decidable (_ ∨ _))

/-! ## 1. One call -/

/-- A pin after an update: that of the value if it is in the mask. -/
def merged (mask value cache : UInt32) (i : Nat) : Bool :=
  bif pin mask i then pin value i else pin cache i

theorem pin_ext {x y : UInt32} (h : ∀ i, pin x i = pin y i) : x = y :=
  UInt32.toBitVec_inj.mp (BitVec.eq_of_getLsbD_eq fun i _ => h i)

theorem pin_toUInt8 (x : UInt8) (i : Nat) : pin x.toUInt32 i = x.toBitVec.getLsbD i := by
  have hlt : x.toBitVec.getLsbD i = true → i < 32 := fun h =>
    Nat.lt_trans (BitVec.lt_of_getLsbD h) (by decide)
  simpa [pin] using hlt

theorem pin_toUInt16 (x : UInt16) (i : Nat) : pin x.toUInt32 i = x.toBitVec.getLsbD i := by
  have hlt : x.toBitVec.getLsbD i = true → i < 32 := fun h =>
    Nat.lt_trans (BitVec.lt_of_getLsbD h) (by decide)
  simpa [pin] using hlt

theorem merged_toUInt8 (cache mask value : UInt32) (i : Nat) :
    (((cache.toUInt8.toUInt32 &&& ~~~mask) ||| (value &&& mask)).toUInt8).toBitVec.getLsbD i =
      (decide (i < 8) && merged mask value cache i) := by
  rcases Nat.lt_or_ge i 8 with hi | hi
  · have h32 : i < 32 := Nat.lt_trans hi (by decide)
    simp only [merged, pin, UInt32.toBitVec_toUInt8, UInt32.toBitVec_or, UInt32.toBitVec_and,
      UInt32.toBitVec_not, UInt8.toBitVec_toUInt32, BitVec.getLsbD_setWidth, BitVec.getLsbD_or,
      BitVec.getLsbD_and, BitVec.getLsbD_not, hi, h32, decide_true, Bool.true_and]
    cases mask.toBitVec.getLsbD i <;> simp
  · rw [BitVec.getLsbD_of_ge _ _ hi, decide_eq_false (Nat.not_lt.mpr hi), Bool.false_and]

theorem merged_toUInt16 (cache mask value : UInt32) (i : Nat) :
    (((cache.toUInt16.toUInt32 &&& ~~~mask) ||| (value &&& mask)).toUInt16).toBitVec.getLsbD i =
      (decide (i < 16) && merged mask value cache i) := by
  rcases Nat.lt_or_ge i 16 with hi | hi
  · have h32 : i < 32 := Nat.lt_trans hi (by decide)
    simp only [merged, pin, UInt32.toBitVec_toUInt16, UInt32.toBitVec_or, UInt32.toBitVec_and,
      UInt32.toBitVec_not, UInt16.toBitVec_toUInt32, BitVec.getLsbD_setWidth, BitVec.getLsbD_or,
      BitVec.getLsbD_and, BitVec.getLsbD_not, hi, h32, decide_true, Bool.true_and]
    cases mask.toBitVec.getLsbD i <;> simp
  · rw [BitVec.getLsbD_of_ge _ _ hi, decide_eq_false (Nat.not_lt.mpr hi), Bool.false_and]

theorem bit_flip8 (flip : Bool) (x : UInt8) {i : Nat} (hi : i < 8) :
    (if flip then ~~~x else x).toBitVec.getLsbD i = (flip ^^ x.toBitVec.getLsbD i) := by
  cases flip
  · simp
  · simp [hi]

theorem bit_flip16 (flip : Bool) (x : UInt16) {i : Nat} (hi : i < 16) :
    (if flip then ~~~x else x).toBitVec.getLsbD i = (flip ^^ x.toBitVec.getLsbD i) := by
  cases flip
  · simp
  · simp [hi]

theorem write_ok (regs : Regs) (saddr : UInt8) (data : List UInt8) :
    prI2cBusWrite (chipBus none) regs saddr data = (.ok, regs.take data) := by
  simp only [prI2cBusWrite, chipBus, picoToPrErr_self]

theorem write_cases {fail : Option Nat} {regs regs' : Regs} {saddr : UInt8} {data : List UInt8}
    {err : PrError} (hlen : data.length ≤ 3)
    (hw : prI2cBusWrite (chipBus fail) regs saddr data = (err, regs')) :
    fail = none ∧ err = .ok ∧ regs' = regs.take data ∨
      fail ≠ none ∧ err ≠ .ok ∧ regs' = regs := by
  have hshort : ∀ n ≤ 3, 0 ≤ toInt n := by decide
  have h := hshort _ hlen
  cases fail with
  | none =>
    rw [write_ok] at hw
    obtain ⟨rfl, rfl⟩ := Prod.mk.inj hw
    exact .inl ⟨rfl, rfl, rfl⟩
  | some e =>
    have hne : Int.negSucc e ≠ toInt data.length := fun heq =>
      absurd (heq ▸ h) (Int.not_le.mpr (Int.negSucc_lt_zero e))
    have herr := picoToPrErr_ne_ok (chipBus (some e)) hne
    simp only [prI2cBusWrite, chipBus] at herr hw
    obtain ⟨rfl, rfl⟩ := Prod.mk.inj hw
    exact .inr ⟨Option.some_ne_none e, herr, rfl⟩

/-- A number of a register: bit 7 of the command is left for the auto-increment, and the bits below
it are the number whether it is set or not. -/
structure IsReg (reg : UInt8) : Prop where
  plain : reg < 0x80 ∧ reg &&& 0x7f = reg
  auto : ¬(0x80 ||| reg) < 0x80 ∧ (0x80 ||| reg) &&& 0x7f = reg
  next : reg + 1 ≠ reg

theorem take_one {reg : UInt8} (h : IsReg reg) (regs : Regs) (b : UInt8) :
    regs.take [reg, b] = Function.update regs reg b := by
  simp only [Regs.take, h.plain.2, Regs.storeBytes]

theorem take_two {reg : UInt8} (h : IsReg reg) (regs : Regs) (b c : UInt8) :
    regs.take [0x80 ||| reg, b, c] = Function.update (Function.update regs reg b) (reg + 1) c := by
  simp only [Regs.take, h.auto.1, h.auto.2, if_false, Regs.storeBytes]

/-- The body of `tca9534_set` and `tca9534_oe`: the cache is merged, and if the write does
not fail, the register holds it. -/
theorem tca9534Update_spec {fail : Option Nat} {regs regs' : Regs} {saddr reg : UInt8}
    (hreg : IsReg reg) {flip : Bool} {cache mask value cache' : UInt32} {err : PrError}
    (hr : tca9534Update (chipBus fail) regs saddr reg flip cache mask value =
      (cache', err, regs')) :
    (∀ i, pin cache' i = (decide (i < 8) && merged mask value cache i)) ∧
    (err = .ok ↔ fail = none) ∧ (err ≠ .ok → regs' = regs) ∧
    (∀ reg', reg' ≠ reg → regs' reg' = regs reg') ∧
    (err = .ok → ∀ i < 8, regs'.bit reg i = (flip ^^ pin cache' i)) := by
  rw [tca9534Update] at hr
  cases hw : prI2cBusWrite (chipBus fail) regs saddr [reg, if flip then
    ~~~((cache.toUInt8.toUInt32 &&& ~~~mask) ||| (value &&& mask)).toUInt8
    else ((cache.toUInt8.toUInt32 &&& ~~~mask) ||| (value &&& mask)).toUInt8] with
  | mk err1 regs1 =>
    simp only [hw] at hr
    obtain ⟨rfl, hrest⟩ := Prod.mk.inj hr
    obtain ⟨rfl, rfl⟩ := Prod.mk.inj hrest
    refine ⟨fun i => by rw [← merged_toUInt8, ← pin_toUInt8], ?_⟩
    rcases write_cases (by simp) hw with ⟨hok, rfl, rfl⟩ | ⟨hfail, herr, rfl⟩
    · rw [take_one hreg]
      refine ⟨iff_of_true rfl hok, fun h => absurd rfl h,
        fun reg' hne => Function.update_of_ne hne .., fun _ i hi => ?_⟩
      rw [Regs.bit, Function.update_self, bit_flip8 _ _ hi, pin_toUInt8]
    · exact ⟨iff_of_false herr hfail, fun _ => rfl, fun _ _ => rfl, fun h => absurd h herr⟩

theorem xor_eq_zero_iff (x y : UInt16) :
    x ^^^ y = 0 ↔ ∀ i < 16, x.toBitVec.getLsbD i = y.toBitVec.getLsbD i := by
  rw [UInt16.xor_eq_zero_iff]
  refine ⟨fun h i _ => by rw [h], fun h => ?_⟩
  exact UInt16.toBitVec_inj.mp (BitVec.eq_of_getLsbD_eq fun i hi => h i hi)

/-- When nothing changes in the high byte, its bits are clear. -/
theorem bit_of_low {x : UInt16} (h : x &&& 0xff00 = 0) {i : Nat} (h8 : 8 ≤ i) (hi : i < 16) :
    x.toBitVec.getLsbD i = false := by
  have hmask : ∀ j < 16, 8 ≤ j → (0xff00 : UInt16).toBitVec.getLsbD j = true := by decide
  have hbit : (x &&& 0xff00).toBitVec.getLsbD i = false := by
    rw [h]
    simp
  rwa [UInt16.toBitVec_and, BitVec.getLsbD_and, hmask i hi h8, Bool.and_true] at hbit

/-- The bits of the two bytes that `pca9575_w16` sends. -/
theorem bit_w16 (x : UInt16) {i : Nat} (hi : i < 8) :
    ((x &&& 0xff).toUInt8).toBitVec.getLsbD i = x.toBitVec.getLsbD i ∧
      (((x >>> 8) &&& 0xff).toUInt8).toBitVec.getLsbD i = x.toBitVec.getLsbD (8 + i) := by
  have hmask : ∀ j < 8, (0xff : UInt16).toBitVec.getLsbD j = true := by decide
  have hmask := hmask i hi
  constructor
  · simp only [UInt16.toBitVec_toUInt8, UInt16.toBitVec_and, BitVec.getLsbD_setWidth,
      BitVec.getLsbD_and, hi, decide_true, Bool.true_and, hmask, Bool.and_true]
  · simp only [UInt16.toBitVec_toUInt8, UInt16.toBitVec_and, BitVec.getLsbD_setWidth,
      BitVec.getLsbD_and, hi, decide_true, Bool.true_and, hmask, Bool.and_true]
    simp

/-- What is sent to a PCA9575. If the bits that do not change are in the register already,
it holds the data afterwards. -/
theorem pca9575Send_spec {fail : Option Nat} {regs regs' : Regs} {saddr reg : UInt8}
    (hreg : IsReg reg) {changed data : UInt16} {err : PrError}
    (hr : pca9575Send (chipBus fail) regs saddr reg changed data = (err, regs')) :
    (err = .ok ↔ fail = none ∨ changed = 0) ∧ (err ≠ .ok → regs' = regs) ∧
    (∀ reg', reg' ≠ reg → reg' ≠ reg + 1 → regs' reg' = regs reg') ∧
    (err = .ok → (∀ i < 16, changed.toBitVec.getLsbD i = false →
      regs.bit16 reg i = data.toBitVec.getLsbD i) →
      ∀ i < 16, regs'.bit16 reg i = data.toBitVec.getLsbD i) := by
  by_cases hzero : changed = 0
  · -- Nothing is sent.
    rw [pca9575Send, if_pos hzero] at hr
    obtain ⟨rfl, rfl⟩ := Prod.mk.inj hr
    refine ⟨iff_of_true rfl (.inr hzero), fun h => absurd rfl h, fun _ _ _ => rfl,
      fun _ h i hi => h i hi ?_⟩
    rw [hzero]
    simp
  · by_cases hlow : changed &&& 0xff00 = 0
    · rw [pca9575Send, if_neg hzero, if_pos hlow, pca9575W8] at hr
      rcases write_cases (by simp) hr with ⟨hok, rfl, rfl⟩ | ⟨hfail, herr, rfl⟩
      · rw [take_one hreg]
        refine ⟨iff_of_true rfl (.inl hok), fun h => absurd rfl h,
          fun reg' hne _ => Function.update_of_ne hne .., fun _ h i hi => ?_⟩
        rw [Regs.bit16]
        split
        · next h8 =>
          rw [Regs.bit, Function.update_self, UInt16.toBitVec_toUInt8, BitVec.getLsbD_setWidth,
            decide_eq_true h8, Bool.true_and]
        · next h8 =>
          -- The high byte does not change.
          have hold := h i hi (bit_of_low hlow (Nat.le_of_not_lt h8) hi)
          rw [Regs.bit16, if_neg h8] at hold
          rw [Regs.bit, Function.update_of_ne hreg.next]
          exact hold
      · exact ⟨iff_of_false herr (not_or.mpr ⟨hfail, hzero⟩), fun _ => rfl, fun _ _ _ => rfl,
          fun h => absurd h herr⟩
    · rw [pca9575Send, if_neg hzero, if_neg hlow, if_neg hlow, pca9575W16] at hr
      rcases write_cases (by simp) hr with ⟨hok, rfl, rfl⟩ | ⟨hfail, herr, rfl⟩
      · rw [take_two hreg]
        refine ⟨iff_of_true rfl (.inl hok), fun h => absurd rfl h, fun reg' h1 h2 => ?_,
          fun _ _ i hi => ?_⟩
        · rw [Function.update_of_ne h2, Function.update_of_ne h1]
        · rw [Regs.bit16]
          split
          · next h8 =>
            rw [Regs.bit, Function.update_of_ne hreg.next.symm, Function.update_self]
            exact (bit_w16 data h8).1
          · next h8 =>
            have h1 : i - 8 < 8 := by omega
            rw [Regs.bit, Function.update_self, (bit_w16 data h1).2,
              Nat.add_sub_of_le (Nat.le_of_not_lt h8)]
      · exact ⟨iff_of_false herr (not_or.mpr ⟨hfail, hzero⟩), fun _ => rfl, fun _ _ _ => rfl,
          fun h => absurd h herr⟩

/-- The body of `pca9575_set` and `pca9575_oe`: the cache is merged. If the registers agree
with the cache before, they do so afterwards, unless the write fails. -/
theorem pca9575Update_spec {fail : Option Nat} {regs regs' : Regs} {saddr reg : UInt8}
    (hreg : IsReg reg) {flip : Bool} {cache mask value cache' : UInt32} {err : PrError}
    (hr : pca9575Update (chipBus fail) regs saddr reg flip cache mask value =
      (cache', err, regs')) :
    (∀ i, pin cache' i = (decide (i < 16) && merged mask value cache i)) ∧
    (err = .ok ↔ fail = none ∨ ∀ i < 16, pin cache' i = pin cache i) ∧
    (err ≠ .ok → regs' = regs) ∧
    (∀ reg', reg' ≠ reg → reg' ≠ reg + 1 → regs' reg' = regs reg') ∧
    (err = .ok → (∀ i < 16, regs.bit16 reg i = (flip ^^ pin cache i)) →
      ∀ i < 16, regs'.bit16 reg i = (flip ^^ pin cache' i)) := by
  simp only [pca9575Update] at hr
  obtain ⟨rfl, hsend⟩ := Prod.mk.inj hr
  obtain ⟨hok, hfail, hframe, happlied⟩ := pca9575Send_spec hreg hsend
  have hold : ∀ i < 16, cache.toUInt16.toBitVec.getLsbD i = pin cache i := by
    intro i hi
    rw [UInt32.toBitVec_toUInt16, BitVec.getLsbD_setWidth, decide_eq_true hi, Bool.true_and, pin]
  refine ⟨fun i => by rw [pin_toUInt16, merged_toUInt16], ?_, hfail, hframe, fun herr h i hi => ?_⟩
  · rw [hok, xor_eq_zero_iff]
    refine or_congr Iff.rfl (forall₂_congr fun i hi => ?_)
    rw [hold i hi, pin_toUInt16, eq_comm]
  · rw [happlied herr (fun j hj hsame => ?_) i hi, bit_flip16 _ _ hi, pin_toUInt16]
    have hbit : pin cache j = ((cache.toUInt16.toUInt32 &&& ~~~mask) |||
        (value &&& mask)).toUInt16.toBitVec.getLsbD j := by
      rw [← hold j hj]
      rwa [UInt16.toBitVec_xor, BitVec.getLsbD_xor, bne_eq_false_iff_eq] at hsame
    rw [h j hj, bit_flip16 _ _ hj, hbit]

/-- The register that goes with a cache, and whether it holds the complement. -/
def Vtable.reg (v : Vtable) (op : Op) : UInt8 :=
  match v, op with
  | .tca9534, .set => 0x01
  | .tca9534, .oe => 0x03
  | .pca9575, .set => 0x0a
  | .pca9575, .oe => 0x08

def Op.flip : Op → Bool
  | .set => false
  | .oe => true

def Vtable.bits (v : Vtable) (regs : Regs) (reg : UInt8) (i : Nat) : Bool :=
  match v with
  | .tca9534 => regs.bit reg i
  | .pca9575 => regs.bit16 reg i

def Vtable.update (v : Vtable) (fail : Option Nat) (regs : Regs) (saddr reg : UInt8) (flip : Bool)
    (cache mask value : UInt32) : UInt32 × PrError × Regs :=
  match v with
  | .tca9534 => tca9534Update (chipBus fail) regs saddr reg flip cache mask value
  | .pca9575 => pca9575Update (chipBus fail) regs saddr reg flip cache mask value

def I2cGpio.withCache (g : I2cGpio) (op : Op) (x : UInt32) : I2cGpio :=
  match op with
  | .set => { g with setCache := x }
  | .oe => { g with oeCache := x }

theorem cache_withCache (g : I2cGpio) (op op' : Op) (x : UInt32) :
    (g.withCache op x).cache op' = if op' = op then x else g.cache op' := by
  cases op <;> cases op' <;> rfl

theorem state_eq (v : Vtable) (regs : Regs) (i : Nat) (op : Op) :
    v.state regs i op = (op.flip ^^ v.bits regs (v.reg op) i) := by
  cases v <;> cases op <;> simp [Vtable.state, Vtable.output, Vtable.config, Vtable.bits,
    Vtable.reg, Op.flip]

theorem run_eq (v : Vtable) (s : Expander) (c : Call) :
    c.run v s =
      let r := v.update c.fail s.regs s.gpio.saddr (v.reg c.op) c.op.flip (s.gpio.cache c.op)
        c.mask c.value
      (r.2.1, ⟨s.gpio.withCache c.op r.1, r.2.2⟩) := by
  obtain ⟨op, mask, value, fail⟩ := c
  cases v <;> cases op <;> rfl

theorem isReg (v : Vtable) (op : Op) : IsReg (v.reg op) := by
  cases v <;> cases op <;> exact ⟨by decide, by decide, by decide⟩

/-- The registers of the chip hold what the caches say. -/
def Agrees (v : Vtable) (s : Expander) : Prop :=
  ∀ op, ∀ i < v.pins, v.state s.regs i op = pin (s.gpio.cache op) i

/-- What a call returns and leaves, pin by pin. The cache takes the new values whether the bus fails
or not. The chip takes them if the call returns `PR_OK`, which for `pca9575` presupposes that chip
and cache agreed before, since that driver writes only what has changed in the cache. -/
structure Spec (v : Vtable) (s : Expander) (c : Call) (err : PrError) (s' : Expander) : Prop where
  cache : ∀ i, pin (s'.gpio.cache c.op) i =
    (decide (i < v.pins) && merged c.mask c.value (s.gpio.cache c.op) i)
  gpio : ∃ x, s'.gpio = s.gpio.withCache c.op x
  ok : c.fail = none → err = .ok
  unchanged : err = .ok → c.fail ≠ none →
    ∀ i < v.pins, pin (s'.gpio.cache c.op) i = pin (s.gpio.cache c.op) i
  failed : err ≠ .ok → s'.regs = s.regs
  frame : ∀ op, op ≠ c.op → ∀ i, v.state s'.regs i op = v.state s.regs i op
  applied : err = .ok → (v = .pca9575 → Agrees v s) →
    ∀ i < v.pins, v.state s'.regs i c.op = pin (s'.gpio.cache c.op) i

theorem call_spec (v : Vtable) (s : Expander) (c : Call) :
    Spec v s c (c.run v s).1 (c.run v s).2 := by
  rw [run_eq]
  obtain ⟨cache', err, regs', hr⟩ : ∃ cache' err regs', v.update c.fail s.regs s.gpio.saddr
      (v.reg c.op) c.op.flip (s.gpio.cache c.op) c.mask c.value = (cache', err, regs') :=
    ⟨_, _, _, rfl⟩
  simp only [hr]
  have hcache : (s.gpio.withCache c.op cache').cache c.op = cache' := by
    rw [cache_withCache, if_pos rfl]
  cases v with
  | tca9534 =>
    have hr : tca9534Update (chipBus c.fail) s.regs s.gpio.saddr (Vtable.tca9534.reg c.op) c.op.flip
      (s.gpio.cache c.op) c.mask c.value = (cache', err, regs') := hr
    obtain ⟨h1, h2, h3, h4, h5⟩ := tca9534Update_spec (isReg .tca9534 c.op) hr
    refine ⟨fun i => by rw [hcache]; exact h1 i, ⟨_, rfl⟩, h2.mpr,
      fun hok hfail => absurd (h2.mp hok) hfail, h3, fun op hne i => ?_, fun hok _ i hi => ?_⟩
    · have hreg : Vtable.tca9534.reg op ≠ Vtable.tca9534.reg c.op := by
        revert hne
        cases op <;> cases c.op <;> decide
      show Vtable.state _ regs' i op = _
      rw [state_eq, state_eq, Vtable.bits, Vtable.bits, Regs.bit, Regs.bit, h4 _ hreg]
    · rw [hcache, state_eq, Vtable.bits, h5 hok i hi]
      simp
  | pca9575 =>
    have hr : pca9575Update (chipBus c.fail) s.regs s.gpio.saddr (Vtable.pca9575.reg c.op) c.op.flip
      (s.gpio.cache c.op) c.mask c.value = (cache', err, regs') := hr
    obtain ⟨h1, h2, h3, h4, h5⟩ := pca9575Update_spec (isReg .pca9575 c.op) hr
    refine ⟨fun i => by rw [hcache]; exact h1 i, ⟨_, rfl⟩, fun hok => h2.mpr (.inl hok),
      fun hok hfail i hi => ?_, h3, fun op hne i => ?_, fun hok hagree i hi => ?_⟩
    · rw [hcache]
      exact (h2.mp hok).resolve_left hfail i hi
    · have hreg : ∀ reg', reg' = Vtable.pca9575.reg op ∨ reg' = Vtable.pca9575.reg op + 1 →
          regs' reg' = s.regs reg' := by
        intro reg' hreg'
        refine h4 reg' ?_ ?_
        · rcases hreg' with rfl | rfl <;> revert hne <;> cases op <;> cases c.op <;> decide
        · rcases hreg' with rfl | rfl <;> revert hne <;> cases op <;> cases c.op <;> decide
      show Vtable.state _ regs' i op = _
      rw [state_eq, state_eq, Vtable.bits, Vtable.bits, Regs.bit16, Regs.bit16, Regs.bit, Regs.bit,
        Regs.bit, Regs.bit, hreg _ (.inl rfl), hreg _ (.inr rfl)]
    · have hbits : ∀ j < 16, s.regs.bit16 (Vtable.pca9575.reg c.op) j =
          (c.op.flip ^^ pin (s.gpio.cache c.op) j) := by
        intro j hj
        have hstate := hagree rfl c.op j hj
        rw [state_eq] at hstate
        rw [← hstate, Vtable.bits]
        simp
      rw [hcache, state_eq, Vtable.bits, h5 hok hbits i hi]
      simp

/-! ## 2. Runs -/

/-- The caches have no bits beyond the pins, and a PCA9575 holds what they say. -/
structure Inv (v : Vtable) (s : Expander) : Prop where
  small : ∀ op i, v.pins ≤ i → pin (s.gpio.cache op) i = false
  agrees : v = .pca9575 → Agrees v s

theorem merged_of_not_changes {v : Vtable} {s : Expander} {c : Call} (h : ¬Changes v s c) {i : Nat}
    (hi : i < v.pins) :
    merged c.mask c.value (s.gpio.cache c.op) i = pin (s.gpio.cache c.op) i := by
  cases hm : pin c.mask i with
  | false => rw [merged, hm, cond_false]
  | true =>
    rw [merged, hm, cond_true]
    by_contra hne
    exact h ⟨i, hi, hm, hne⟩

/-- A call that asks for no change leaves the cache as it is. -/
theorem gpio_of_not_changes {v : Vtable} {s s' : Expander} {c : Call} {err : PrError}
    (hinv : Inv v s) (h : Spec v s c err s') (hc : ¬Changes v s c) : s'.gpio = s.gpio := by
  obtain ⟨x, hx⟩ := h.gpio
  have hsame : x = s.gpio.cache c.op := by
    refine pin_ext fun i => ?_
    have hcache := h.cache i
    rw [hx, cache_withCache, if_pos rfl] at hcache
    rw [hcache]
    rcases Nat.lt_or_ge i v.pins with hi | hi
    · rw [decide_eq_true hi, Bool.true_and, merged_of_not_changes hc hi]
    · rw [decide_eq_false (Nat.not_lt.mpr hi), Bool.false_and, hinv.small c.op i hi]
  rw [hx, hsame]
  cases c.op <;> rfl

theorem small_after {v : Vtable} {s s' : Expander} {c : Call} {err : PrError} (hinv : Inv v s)
    (h : Spec v s c err s') (op : Op) {i : Nat} (hi : v.pins ≤ i) :
    pin (s'.gpio.cache op) i = false := by
  rcases eq_or_ne op c.op with rfl | hne
  · rw [h.cache, decide_eq_false (Nat.not_lt.mpr hi), Bool.false_and]
  · obtain ⟨x, hx⟩ := h.gpio
    rw [hx, cache_withCache, if_neg hne]
    exact hinv.small op i hi

theorem inv_init {v : Vtable} {s : Expander} (h : (expander v).init s) : Inv v s := by
  obtain ⟨⟨saddr, hgpio⟩, hregs⟩ := h
  have hzero : ∀ op, s.gpio.cache op = 0 := by
    intro op
    rw [hgpio]
    cases op <;> rfl
  have hpin : ∀ i, pin 0 i = false := fun i => by simp [pin]
  refine ⟨fun op i _ => by rw [hzero, hpin], ?_⟩
  rintro rfl op i hi
  obtain ⟨h1, h2, h3, h4⟩ : s.regs.PowerOn := hregs
  have hones : ∀ j < 8, (0xff : UInt8).toBitVec.getLsbD j = true := by decide
  have hi : i < 16 := hi
  rw [hzero, hpin]
  cases op with
  | set => simp [Vtable.state, Vtable.output, Regs.bit16, Regs.bit, h1, h2]
  | oe =>
    simp only [Vtable.state, Vtable.config, Regs.bit16, Regs.bit, h3, Bool.not_eq_false']
    split
    · next h8 => exact hones i h8
    · next h8 =>
      show (s.regs 0x09).toBitVec.getLsbD (i - 8) = true
      rw [h4]
      exact hones (i - 8) (by omega)

theorem inv_step {v : Vtable} {s s' : Expander} {c : Call} (hinv : Inv v s)
    (hs : (expander v).step s c s') (hok : Safe v s c) : Inv v s' := by
  obtain rfl : s' = (c.run v s).2 := hs
  have hspec := call_spec v s c
  refine ⟨fun op i hi => small_after hinv hspec op hi, fun hv op i hi => ?_⟩
  rcases eq_or_ne op c.op with rfl | hne
  · by_cases herr : (c.run v s).1 = .ok
    · exact hspec.applied herr hinv.agrees i hi
    · -- A call that fails asks for no change.
      have hc : ¬Changes v s c := hok.resolve_left fun hnone => herr (hspec.ok hnone)
      rw [hspec.failed herr, gpio_of_not_changes hinv hspec hc]
      exact hinv.agrees hv c.op i hi
  · obtain ⟨x, hx⟩ := hspec.gpio
    rw [hspec.frame op hne, hx, cache_withCache, if_neg hne]
    exact hinv.agrees hv op i hi

theorem follows_iff {v : Vtable} {s : Expander} (hinv : Inv v s) (c : Call) :
    Follows v s c ↔ Safe v s c := by
  have hspec := call_spec v s c
  constructor
  · intro hfollows
    by_contra hsafe
    obtain ⟨hfail, hc⟩ := not_or.mp hsafe
    obtain ⟨i, hi, hm, hne⟩ := not_not.mp hc
    -- The cache takes the pin.
    have hcache : pin ((c.run v s).2.gpio.cache c.op) i = pin c.value i := by
      rw [hspec.cache, decide_eq_true hi, Bool.true_and, merged, hm, cond_true]
    by_cases herr : (c.run v s).1 = .ok
    · exact hne (hcache ▸ hspec.unchanged herr hfail i hi)
    · rw [hfollows.1 herr] at hcache
      exact hne hcache.symm
  · refine fun hsafe => ⟨fun herr => ?_, fun herr i hi hm => ?_⟩
    · exact gpio_of_not_changes hinv hspec (hsafe.resolve_left fun hnone => herr (hspec.ok hnone))
    · rw [hspec.applied herr hinv.agrees i hi, hspec.cache, decide_eq_true hi, Bool.true_and,
        merged, hm, cond_true]

/-- As long as no call that asks for a change fails, the cache follows the chip: an error
leaves it as it was, and after `PR_OK` the pins in the mask are as requested. It does so
during the next call exactly if that one does not fail either, or asks for no change. -/
theorem cache_follows_iff (v : Vtable) {s : Expander}
    (h : ((expander v).guard (Safe v)).Reachable s) (c : Call) : Follows v s c ↔ Safe v s c := by
  refine follows_iff ?_ c
  refine h.invariant (I := Inv v) ?_ ?_
  · exact fun s hs => inv_init hs
  · exact fun s c s' hinv hstep => inv_step hinv hstep.1 hstep.2

namespace GpioLemmas

def powerOn : Expander where
  gpio := prI2cGpioInit 0x20
  regs reg := if reg = 0x08 ∨ reg = 0x09 then 0xff else 0

theorem powerOn_init : (expander .pca9575).init powerOn :=
  ⟨⟨0x20, rfl⟩, by decide, by decide, by decide, by decide⟩

/-- Set pin 0, while the bus fails or not. -/
def setPin (fail : Option Nat) : Call := ⟨.set, 1, 1, fail⟩

def anyContent : Expander := ⟨prI2cGpioInit 0x20, fun _ => 0xff⟩

/-- Pin 0 is set and becomes an output. It is set once more, which the bus refuses. -/
def afterCalls : Expander :=
  [setPin none, ⟨.oe, 1, 1, none⟩, setPin (some 0)].foldl (fun s c => (c.run .tca9534 s).2)
    anyContent

theorem afterCalls_reachable :
    ((expander .tca9534).guard (Safe .tca9534)).Reachable afterCalls := by
  have hinit : ((expander .tca9534).guard (Safe .tca9534)).Reachable anyContent :=
    .init ⟨⟨0x20, rfl⟩, trivial⟩
  have hset := hinit.step (a := setPin none) ⟨rfl, by decide⟩
  have hoe := hset.step (a := ⟨.oe, 1, 1, none⟩) ⟨rfl, by decide⟩
  exact hoe.step (a := setPin (some 0)) ⟨rfl, by decide⟩

end GpioLemmas

open GpioLemmas in
/-- The cache still follows the chip if pin 0 is set again while the bus fails, and no longer if it
is cleared. -/
theorem cache_follows_iff_refused :
    ((expander .tca9534).guard (Safe .tca9534)).Reachable afterCalls ∧
      ((setPin (some 0)).run .tca9534 afterCalls).1 ≠ .ok ∧
      Follows .tca9534 afterCalls (setPin (some 0)) ∧
      ¬Follows .tca9534 afterCalls ⟨.set, 1, 0, some 0⟩ := by
  refine ⟨afterCalls_reachable, by decide, ?_, fun hfollows => ?_⟩
  · exact (cache_follows_iff .tca9534 afterCalls_reachable (setPin (some 0))).mpr (by decide)
  · exact absurd ((cache_follows_iff .tca9534 afterCalls_reachable _).mp hfollows) (by decide)

open GpioLemmas in
/-- Pin 0 is set and the bus fails: the call returns an error with the pin in the cache. The
same call is made again, with a bus that works: it returns `PR_OK`, and the pin in the output
register is still clear. -/
theorem retry_lost :
    ∃ s, (expander .pca9575).Reachable s ∧ s.gpio = prI2cGpioInit 0x20 ∧
      ((setPin (some 0)).run .pca9575 s).1 ≠ .ok ∧
      ((setPin (some 0)).run .pca9575 s).2.gpio.setCache = 1 ∧
      ((setPin none).run .pca9575 ((setPin (some 0)).run .pca9575 s).2).1 = .ok ∧
      Vtable.output .pca9575
        ((setPin none).run .pca9575 ((setPin (some 0)).run .pca9575 s).2).2.regs 0 = false ∧
      ¬Follows .pca9575 s (setPin (some 0)) := by
  refine ⟨powerOn, .init powerOn_init, rfl, by decide, by decide, by decide, by decide, fun h => ?_⟩
  have hgpio := h.1 (by decide)
  exact absurd (congrArg I2cGpio.setCache hgpio) (by decide)

end Picore.I2c
