import Picore.I2c.Gpio

/-!
# Writing what has changed, and writing everything

A call of the PCA9575 driver that changes nothing in its cache writes nothing. One that changes
the low byte only writes that byte, and any other one writes both. A driver that always writes
both bytes needs no cache to decide.

Results:
1. `pca9575Send_eq`: the registers after a call are those with both bytes written.
2. `selective_eq_plain`: so are they after any calls. The output register is `set_cache`, the
   configuration register the complement of `oe_cache`, and both are what the masked updates come
   to, one after the other.
-/

namespace Picore.I2c

variable {σ : Type}

/-- The 16-bit register with its low byte at `reg`. -/
def Regs.word (regs : Regs) (reg : UInt8) : UInt16 :=
  (regs reg).toUInt16 ||| (regs (reg + 1)).toUInt16 <<< 8

/-- `pca9575_set` and `pca9575_oe` without the branches. -/
def plainUpdate (inst : I2cInst σ) (bus : σ) (saddr reg : UInt8) (flip : Bool)
    (cache mask value : UInt32) : UInt32 × PrError × σ :=
  let old := cache.toUInt16
  let new := ((old.toUInt32 &&& ~~~mask) ||| (value &&& mask)).toUInt16
  let (err, bus) := pca9575W16 inst bus saddr reg (if flip then ~~~new else new)
  (new.toUInt32, err, bus)

/-- A call of `pca9575_set` or `pca9575_oe` on a bus that takes every write. -/
structure Update where
  op : Op
  mask : UInt32
  value : UInt32

/-- What it returns, and the driver and the chip after it. -/
def Update.run (s : Expander) (u : Update) : PrError × Expander :=
  Call.run .pca9575 s ⟨u.op, u.mask, u.value, none⟩

def Update.runPlain (s : Expander) (u : Update) : Expander :=
  let r := plainUpdate (chipBus none) s.regs s.gpio.saddr (Vtable.pca9575.reg u.op) u.op.flip
    (s.gpio.cache u.op) u.mask u.value
  ⟨s.gpio.withCache u.op r.1, r.2.2⟩

/-- The pins of the chip: their levels, and which are outputs. -/
structure Pins where
  output : UInt16
  enable : UInt16

def masked (old : UInt16) (mask value : UInt32) : UInt16 :=
  ((old.toUInt32 &&& ~~~mask) ||| (value &&& mask)).toUInt16

/-- A call on the pins as the header means it: the pins in the mask take the new values, and the
others keep theirs. -/
def Pins.apply (p : Pins) (u : Update) : Pins :=
  match u.op with
  | .set => { p with output := masked p.output u.mask u.value }
  | .oe => { p with enable := masked p.enable u.mask u.value }

/-- The registers of the chip are what the caches say, and both are the pins. -/
structure Mirrors (s : Expander) (p : Pins) : Prop where
  output : (s.regs.word 0x0a).toUInt32 = s.gpio.setCache
  config : s.regs.word 0x08 = ~~~s.gpio.oeCache.toUInt16
  set_cache : s.gpio.setCache = p.output.toUInt32
  oe_cache : s.gpio.oeCache = p.enable.toUInt32

/-! ## 1. One call -/

/-- The bytes that `pca9575_w16` sends. -/
def low (x : UInt16) : UInt8 := (x &&& 0xff).toUInt8

def high (x : UInt16) : UInt8 := ((x >>> 8) &&& 0xff).toUInt8

/-- The registers `reg` and `reg + 1` hold the bytes of `x`. -/
def Regs.Holds (regs : Regs) (reg : UInt8) (x : UInt16) : Prop :=
  regs reg = low x ∧ regs (reg + 1) = high x

def Regs.stored (regs : Regs) (reg : UInt8) (x : UInt16) : Regs :=
  Function.update (Function.update regs reg (low x)) (reg + 1) (high x)

theorem low_eq (x : UInt16) : low x = x.toUInt8 := by
  refine UInt8.toBitVec_inj.mp (BitVec.eq_of_getLsbD_eq fun i hi => ?_)
  rw [low, (bit_w16 x hi).1, UInt16.toBitVec_toUInt8, BitVec.getLsbD_setWidth, decide_eq_true hi,
    Bool.true_and]

theorem word_eq {regs : Regs} {reg : UInt8} {x : UInt16} (h : regs.Holds reg x) :
    regs.word reg = x := by
  refine UInt16.toBitVec_inj.mp (BitVec.eq_of_getLsbD_eq fun i hi => ?_)
  rw [Regs.word, h.1, h.2, UInt16.toBitVec_or, BitVec.getLsbD_or, UInt8.toBitVec_toUInt16,
    BitVec.getLsbD_setWidth, decide_eq_true hi, Bool.true_and, UInt16.toBitVec_shiftLeft]
  show (_ || ((high x).toUInt16.toBitVec <<< 8).getLsbD i) = _
  rw [BitVec.getLsbD_shiftLeft, decide_eq_true hi, Bool.true_and, UInt8.toBitVec_toUInt16,
    BitVec.getLsbD_setWidth]
  rcases Nat.lt_or_ge i 8 with h8 | h8
  · rw [low, (bit_w16 x h8).1, decide_eq_true h8]
    simp
  · have hi8 : i - 8 < 8 := by omega
    rw [high, (bit_w16 x hi8).2, Nat.add_sub_of_le h8, BitVec.getLsbD_of_ge _ _ h8,
      decide_eq_false (Nat.not_lt_of_le h8), decide_eq_true (Nat.lt_trans hi8 (by decide))]
    simp

/-- Words that differ in the low byte only have the same high byte. -/
theorem high_eq_of_low {x y : UInt16} (h : (x ^^^ y) &&& 0xff00 = 0) : high x = high y := by
  refine UInt8.toBitVec_inj.mp (BitVec.eq_of_getLsbD_eq fun i hi => ?_)
  have hbit := bit_of_low h (Nat.le_add_right 8 i) (Nat.add_lt_add_left hi 8)
  rw [UInt16.toBitVec_xor, BitVec.getLsbD_xor, bne_eq_false_iff_eq] at hbit
  rw [high, high, (bit_w16 x hi).2, (bit_w16 y hi).2, hbit]

/-- A register that is written with what it holds stays as it is. -/
theorem update_same {regs : Regs} {reg b : UInt8} (h : regs reg = b) :
    Function.update regs reg b = regs := by
  rw [← h, Function.update_eq_self]

theorem holds_stored {reg : UInt8} (hreg : IsReg reg) (regs : Regs) (x : UInt16) :
    (regs.stored reg x).Holds reg x := by
  refine ⟨?_, Function.update_self ..⟩
  rw [Regs.stored, Function.update_of_ne hreg.next.symm, Function.update_self]

theorem stored_other {regs : Regs} {reg reg' : UInt8} {x : UInt16} (h : reg' ≠ reg)
    (h' : reg' ≠ reg + 1) : regs.stored reg x reg' = regs reg' := by
  rw [Regs.stored, Function.update_of_ne h', Function.update_of_ne h]

theorem pca9575W16_eq {reg : UInt8} (hreg : IsReg reg) (regs : Regs) (saddr : UInt8)
    (data : UInt16) :
    pca9575W16 (chipBus none) regs saddr reg data = (.ok, regs.stored reg data) := by
  rw [pca9575W16, write_ok, take_two hreg]
  rfl

/-- Whichever bytes are sent, the registers are those with both bytes written. -/
theorem pca9575Send_eq {regs : Regs} {reg : UInt8} (hreg : IsReg reg) {old : UInt16}
    (hold : regs.Holds reg old) (saddr : UInt8) (data : UInt16) :
    pca9575Send (chipBus none) regs saddr reg (old ^^^ data) data =
      (.ok, regs.stored reg data) := by
  unfold pca9575Send
  split
  · next hzero =>
    obtain rfl := UInt16.xor_eq_zero_iff.mp hzero
    rw [Regs.stored, update_same hold.1, update_same hold.2]
  split
  · next hlow =>
    rw [pca9575W8, write_ok, take_one hreg, Regs.stored, ← high_eq_of_low hlow, low_eq,
      update_same (b := high old)]
    rw [Function.update_of_ne hreg.next]
    exact hold.2
  · exact pca9575W16_eq hreg regs saddr data

/-! ## 2. Runs -/

/-- What the chip should have in the register that goes with `op`. -/
def Op.data (op : Op) (x : UInt16) : UInt16 := if op.flip then ~~~x else x

theorem data_xor (op : Op) (x y : UInt16) : op.data x ^^^ op.data y = x ^^^ y := by
  cases op with
  | set => rfl
  | oe =>
    show ~~~x ^^^ ~~~y = x ^^^ y
    rw [UInt16.not_xor, UInt16.xor_not, UInt16.not_not]

def Pins.get (p : Pins) : Op → UInt16
  | .set => p.output
  | .oe => p.enable

theorem get_apply (p : Pins) (u : Update) (op : Op) :
    (p.apply u).get op = if op = u.op then masked (p.get u.op) u.mask u.value else p.get op := by
  obtain ⟨op', mask, value⟩ := u
  cases op <;> cases op' <;> rfl

def Synced (s : Expander) (p : Pins) : Prop :=
  ∀ op, s.gpio.cache op = (p.get op).toUInt32 ∧
    s.regs.Holds (Vtable.pca9575.reg op) (op.data (p.get op))

theorem Synced.mirrors {s : Expander} {p : Pins} (h : Synced s p) : Mirrors s p := by
  have hset : s.gpio.setCache = p.output.toUInt32 := (h .set).1
  have hoe : s.gpio.oeCache = p.enable.toUInt32 := (h .oe).1
  refine ⟨?_, ?_, hset, hoe⟩
  · rw [hset]
    exact congrArg _ (word_eq (h .set).2)
  · rw [hoe, UInt16.toUInt16_toUInt32]
    exact word_eq (h .oe).2

theorem synced_init {regs : Regs} (h : regs.PowerOn) (saddr : UInt8) :
    Synced ⟨prI2cGpioInit saddr, regs⟩ ⟨0, 0⟩ := by
  obtain ⟨h1, h2, h3, h4⟩ := h
  intro op
  cases op with
  | set => exact ⟨rfl, h1.trans (by decide), h2.trans (by decide)⟩
  | oe => exact ⟨rfl, h3.trans (by decide), h4.trans (by decide)⟩

/-- The registers of the outputs and those of the directions do not overlap. -/
theorem reg_disjoint {op op' : Op} (h : op' ≠ op) :
    Vtable.pca9575.reg op' ≠ Vtable.pca9575.reg op ∧
    Vtable.pca9575.reg op' ≠ Vtable.pca9575.reg op + 1 ∧
    Vtable.pca9575.reg op' + 1 ≠ Vtable.pca9575.reg op ∧
    Vtable.pca9575.reg op' + 1 ≠ Vtable.pca9575.reg op + 1 := by
  revert h
  cases op <;> cases op' <;> decide

theorem word_stored_other {regs : Regs} {op op' : Op} (h : op' ≠ op) (x : UInt16) :
    (regs.stored (Vtable.pca9575.reg op) x).word (Vtable.pca9575.reg op') =
      regs.word (Vtable.pca9575.reg op') := by
  obtain ⟨h1, h2, h3, h4⟩ := reg_disjoint h
  rw [Regs.word, Regs.word, stored_other h1 h2, stored_other h3 h4]

theorem runPlain_eq {s : Expander} {p : Pins} (h : Synced s p) (u : Update) :
    u.runPlain s =
      ⟨s.gpio.withCache u.op (masked (p.get u.op) u.mask u.value).toUInt32,
        s.regs.stored (Vtable.pca9575.reg u.op)
          (u.op.data (masked (p.get u.op) u.mask u.value))⟩ := by
  have hwrite := pca9575W16_eq (isReg .pca9575 u.op) s.regs s.gpio.saddr
    (u.op.data (masked (p.get u.op) u.mask u.value))
  rw [Op.data, masked] at hwrite
  simp only [Update.runPlain, plainUpdate, (h u.op).1, UInt16.toUInt16_toUInt32, hwrite]
  rfl

/-- A call of the driver does what the plain one does. -/
theorem run_eq_runPlain {s : Expander} {p : Pins} (h : Synced s p) (u : Update) :
    u.run s = (.ok, u.runPlain s) := by
  have hsend := pca9575Send_eq (isReg .pca9575 u.op) (h u.op).2 s.gpio.saddr
    (u.op.data (masked (p.get u.op) u.mask u.value))
  rw [data_xor] at hsend
  unfold Op.data masked at hsend
  rw [runPlain_eq h, Update.run, run_eq]
  simp only [Vtable.update, pca9575Update, (h u.op).1, UInt16.toUInt16_toUInt32, hsend]
  rfl

theorem synced_runPlain {s : Expander} {p : Pins} (h : Synced s p) (u : Update) :
    Synced (u.runPlain s) (p.apply u) := by
  intro op
  rw [runPlain_eq h, get_apply, cache_withCache]
  rcases eq_or_ne op u.op with rfl | hne
  · rw [if_pos rfl, if_pos rfl]
    exact ⟨rfl, holds_stored (isReg .pca9575 u.op) s.regs _⟩
  · obtain ⟨h1, h2, h3, h4⟩ := reg_disjoint hne
    rw [if_neg hne, if_neg hne]
    exact ⟨(h op).1, (stored_other h1 h2).trans (h op).2.1, (stored_other h3 h4).trans (h op).2.2⟩

/-- A sequence of calls of the driver as it is, which writes a register or a half of it only where
the cache has changed. -/
def runAll (s : Expander) (us : List Update) : Expander := us.foldl (fun s u => (u.run s).2) s

/-- The same sequence for a driver that writes both bytes in every call. -/
def runAllPlain (s : Expander) (us : List Update) : Expander := us.foldl (fun s u => u.runPlain s) s

theorem runAll_synced {s : Expander} {p : Pins} (h : Synced s p) (us : List Update) :
    runAll s us = runAllPlain s us ∧ Synced (runAll s us) (us.foldl Pins.apply p) := by
  induction us generalizing s p with
  | nil => exact ⟨rfl, h⟩
  | cons u us ih =>
    rw [runAll, runAllPlain, List.foldl_cons, List.foldl_cons, List.foldl_cons,
      run_eq_runPlain h]
    exact ih (synced_runPlain h u)

/-- After any calls of `pca9575_set` and `pca9575_oe`, the registers and the caches are those of
the driver that always writes both bytes. They are the pins after all masked updates, one after
the other. No call changes the register of the other function. -/
theorem selective_eq_plain {regs : Regs} (h : regs.PowerOn) (saddr : UInt8) (us : List Update) :
    runAll ⟨prI2cGpioInit saddr, regs⟩ us = runAllPlain ⟨prI2cGpioInit saddr, regs⟩ us ∧
    Mirrors (runAll ⟨prI2cGpioInit saddr, regs⟩ us) (us.foldl Pins.apply ⟨0, 0⟩) ∧
    ∀ u : Update, (u.run (runAll ⟨prI2cGpioInit saddr, regs⟩ us)).1 = .ok ∧
      ∀ op, op ≠ u.op →
        (u.run (runAll ⟨prI2cGpioInit saddr, regs⟩ us)).2.regs.word (Vtable.pca9575.reg op) =
          (runAll ⟨prI2cGpioInit saddr, regs⟩ us).regs.word (Vtable.pca9575.reg op) := by
  obtain ⟨hplain, hsynced⟩ := runAll_synced (synced_init h saddr) us
  refine ⟨hplain, hsynced.mirrors, fun u => ?_⟩
  rw [run_eq_runPlain hsynced]
  refine ⟨rfl, fun op hne => ?_⟩
  rw [runPlain_eq hsynced]
  exact word_stored_other hne _

open GpioLemmas in
theorem selective_eq_plain_setPin :
    powerOn.regs.PowerOn ∧
    runAll powerOn [⟨.set, 1, 1⟩] = runAllPlain powerOn [⟨.set, 1, 1⟩] ∧
    Mirrors (runAll powerOn [⟨.set, 1, 1⟩]) ⟨1, 0⟩ := by
  have hregs : powerOn.regs.PowerOn := ⟨by decide, by decide, by decide, by decide⟩
  obtain ⟨hplain, hmirrors, -⟩ := selective_eq_plain hregs 0x20 [⟨.set, 1, 1⟩]
  exact ⟨hregs, hplain, hmirrors⟩

end Picore.I2c
