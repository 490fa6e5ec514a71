import Picore.I2c.Shared

/-!
# An I/O expander as a port

An expander has inputs, too: a register that has the levels on all pins. `get` reads it, after
it has written the number of the register. The pins that are not outputs have a level from
outside, which may be another one at each read.

Results:
1. `tca9534Get`, `pca9575Get`: the calls that read the pins.
2. `PortChip`, `portInst`: the chip and its pins.
3. `Represents`: driver and chip are a port, whose outputs have the values that were set last and
   whose inputs have the levels from outside. Each call keeps it so (`update_represents`,
   `get_represents`).
-/

namespace Picore.I2c

variable {σ β : Type}

/-! ## 1. The calls that read -/

def tca9534Get (inst : I2cInst σ) (bus : σ) (g : I2cGpio) : PrError × UInt32 × σ :=
  let (err, rsp, bus) := prI2cBusWriteRead inst bus g.saddr [0x00] 1
  (err, (rsp.getD 0 0).toUInt32, bus)

def pca9575Get (inst : I2cInst σ) (bus : σ) (g : I2cGpio) : PrError × UInt32 × σ :=
  let (err, rsp, bus) := prI2cBusWriteRead inst bus g.saddr [0x80] 2
  (err, (rsp.getD 0 0).toUInt32 ||| ((rsp.getD 1 0).toUInt32 <<< 8), bus)

def prI2cGpioGet (v : Vtable) (inst : I2cInst σ) (bus : σ) (g : I2cGpio) : PrError × UInt32 × σ :=
  match v with
  | .tca9534 => tca9534Get inst bus g
  | .pca9575 => pca9575Get inst bus g

/-- `pr_i2c_gpio_set` and `pr_i2c_gpio_oe`. -/
def prI2cGpioUpdate (v : Vtable) (op : Op) (inst : I2cInst σ) (bus : σ) (g : I2cGpio)
    (mask value : UInt32) : PrError × I2cGpio × σ :=
  match op with
  | .set => prI2cGpioSet v inst bus g mask value
  | .oe => prI2cGpioOe v inst bus g mask value

section Hosted

variable {R : σ → β → Prop} {inst : I2cInst σ} {large : I2cInst β} {owns : UInt8 → Prop}
  {c : σ} {s : β} {g : I2cGpio}

theorem gpioUpdate_hosted (h : HostsWrites R inst large owns) (hr : R c s) (ha : owns g.saddr)
    (v : Vtable) (op : Op) (mask value : UInt32) :
    let x := prI2cGpioUpdate v op inst c g mask value
    let y := prI2cGpioUpdate v op large s g mask value
    y.1 = x.1 ∧ y.2.1 = x.2.1 ∧ R x.2.2 y.2.2 := by
  cases v with
  | tca9534 =>
    cases op with
    | set =>
      obtain ⟨-, herr, hbus⟩ :=
        tca9534Update_hosted h hr ha 0x01 false g.setCache mask value
      exact ⟨herr, rfl, hbus⟩
    | oe =>
      obtain ⟨-, herr, hbus⟩ := tca9534Update_hosted h hr ha 0x03 true g.oeCache mask value
      exact ⟨herr, rfl, hbus⟩
  | pca9575 =>
    cases op with
    | set =>
      obtain ⟨-, herr, hbus⟩ :=
        pca9575Update_hosted h hr ha 0x0a false g.setCache mask value
      exact ⟨herr, rfl, hbus⟩
    | oe =>
      obtain ⟨-, herr, hbus⟩ := pca9575Update_hosted h hr ha 0x08 true g.oeCache mask value
      exact ⟨herr, rfl, hbus⟩

theorem gpioGet_hosted (h : Hosts R inst large owns) (hr : R c s) (ha : owns g.saddr)
    (v : Vtable) :
    let x := prI2cGpioGet v inst c g
    let y := prI2cGpioGet v large s g
    y.1 = x.1 ∧ y.2.1 = x.2.1 ∧ R x.2.2 y.2.2 := by
  cases v with
  | tca9534 =>
    obtain ⟨herr, hdata, hbus⟩ := writeRead_hosted h hr ha [0x00] 1
    simp only [prI2cGpioGet, tca9534Get, herr, hdata]
    exact ⟨trivial, trivial, hbus⟩
  | pca9575 =>
    obtain ⟨herr, hdata, hbus⟩ := writeRead_hosted h hr ha [0x80] 2
    simp only [prI2cGpioGet, pca9575Get, herr, hdata]
    exact ⟨trivial, trivial, hbus⟩

end Hosted

/-! ## 2. The chip -/

/-- A chip, the last command that it was given, and the levels on the pins from outside, at each
read to come. -/
structure PortChip where
  regs : Regs
  cmd : UInt8
  levels : Nat → Regs

/-- The number of input registers. They are the first ones. -/
def Vtable.inputs : Vtable → UInt8
  | .tca9534 => 1
  | .pca9575 => 2

/-- The chip answers with a register. An input register has what is driven on the outputs, and the
levels from outside on the other pins. -/
def PortChip.answer (v : Vtable) (c : PortChip) (reg : UInt8) : UInt8 :=
  if reg < v.inputs then
    let config := c.regs (v.reg .oe + reg)
    (c.regs (v.reg .set + reg) &&& ~~~config) ||| (c.levels 0 reg &&& config)
  else c.regs reg

/-- The bus with the chip on it, at the address `saddr`. -/
def portInst (v : Vtable) (saddr : UInt8) : I2cInst PortChip where
  errorGeneric := -1
  errorTimeout := -2
  writeBlocking c saddr' data _ :=
    if saddr' = saddr then
      (toInt data.length, { c with regs := c.regs.take data, cmd := data.headD c.cmd })
    else (-1, c)
  readBlocking c saddr' n _ :=
    if saddr' = saddr then
      let first := c.cmd &&& 0x7f
      (toInt n,
        (List.range n).map fun j =>
          c.answer v (if c.cmd < 0x80 then first else first + UInt8.ofNat j),
        { c with levels := fun k => c.levels (k + 1) })
    else (-1, [], c)

def SameRegs (levels : Nat → Regs) (regs : Regs) (c : PortChip) : Prop :=
  c.regs = regs ∧ c.levels = levels

theorem portInst_hosts (v : Vtable) (saddr : UInt8) (levels : Nat → Regs) :
    HostsWrites (SameRegs levels) (chipBus none) (portInst v saddr) (· = saddr) := by
  refine ⟨?_⟩
  rintro regs c saddr' ⟨rfl, rfl⟩ rfl data nostop
  simp only [portInst, chipBus, if_true, picoToPrErr_self]
  exact ⟨⟨rfl, rfl⟩, trivial⟩

/-! ## 3. The port -/

/-- What is set on each pin, and the levels from outside, at each read to come. -/
structure Port where
  state : Op → Nat → Bool
  level : Nat → Nat → Bool

/-- What an application asks a port for: a change of some outputs or directions, or the levels on
all pins. -/
inductive PortOp
  | update (op : Op) (mask value : UInt32)
  | get

/-- What a port of `n` pins makes of it: the result, the pins read, and the port. -/
def PortOp.perform (n : Nat) (p : Port) : PortOp → (PrError × (Nat → Bool)) × Port
  | .update op mask value =>
    let pins i := if pin mask i then pin value i else p.state op i
    ((.ok, fun _ => false), { p with state := Function.update p.state op pins })
  | .get =>
    ((.ok, fun i => decide (i < n) && if p.state .oe i then p.state .set i else p.level 0 i),
      { p with level := fun k => p.level (k + 1) })

/-- A call of the driver, with what it returns and reads. -/
inductive PortPerforms (v : Vtable) (inst : I2cInst σ) (g : I2cGpio) (bus : σ) :
    PortOp → PrError × (Nat → Bool) → I2cGpio → σ → Prop
  | update {op : Op} {mask value : UInt32} {err : PrError} {g' : I2cGpio} {bus' : σ} :
      prI2cGpioUpdate v op inst bus g mask value = (err, g', bus') →
      PortPerforms v inst g bus (.update op mask value) (err, fun _ => false) g' bus'
  | get {err : PrError} {x : UInt32} {bus' : σ} :
      prI2cGpioGet v inst bus g = (err, x, bus') →
      PortPerforms v inst g bus .get (err, pin x) g bus'

/-- The registers and the caches have what the port has. -/
structure Represents (v : Vtable) (saddr : UInt8) (g : I2cGpio) (c : PortChip) (p : Port) :
    Prop where
  saddr : g.saddr = saddr
  state : ∀ op, ∀ i < v.pins, v.state c.regs i op = p.state op i
  cache : ∀ op, ∀ i < v.pins, pin (g.cache op) i = p.state op i
  level : ∀ k, ∀ i < v.pins, v.bits (c.levels k) 0 i = p.level k i

namespace PortLemmas

variable {v : Vtable} {saddr : UInt8} {g : I2cGpio} {c : PortChip} {p : Port}

theorem update_represents (h : Represents v saddr g c p) (op : Op) (mask value : UInt32) :
    ∃ g' c', prI2cGpioUpdate v op (portInst v saddr) c g mask value = (.ok, g', c') ∧
      Represents v saddr g' c' ((PortOp.update op mask value).perform v.pins p).2 := by
  have hspec := call_spec v ⟨g, c.regs⟩ ⟨op, mask, value, none⟩
  have hagrees : Agrees v ⟨g, c.regs⟩ := fun op i hi =>
    (h.state op i hi).trans (h.cache op i hi).symm
  obtain ⟨herr, hg, hregs, hlevels⟩ := gpioUpdate_hosted (portInst_hosts v saddr c.levels)
    ⟨rfl, rfl⟩ h.saddr v op mask value
  have hrun : Call.run v ⟨g, c.regs⟩ ⟨op, mask, value, none⟩ =
      ((prI2cGpioUpdate v op (chipBus none) c.regs g mask value).1,
        ⟨(prI2cGpioUpdate v op (chipBus none) c.regs g mask value).2.1,
          (prI2cGpioUpdate v op (chipBus none) c.regs g mask value).2.2⟩) := by
    cases op with
    | set => rfl
    | oe => rfl
  rw [hrun] at hspec
  generalize prI2cGpioUpdate v op (chipBus none) c.regs g mask value = x at herr hg hregs hspec
  generalize prI2cGpioUpdate v op (portInst v saddr) c g mask value = y at herr hg hregs hlevels
  obtain ⟨err, g1, regs1⟩ := x
  obtain ⟨err', g', c'⟩ := y
  obtain rfl : err' = err := herr
  obtain rfl : g' = g1 := hg
  obtain rfl : c'.regs = regs1 := hregs
  obtain ⟨hcache, ⟨z, hz⟩, hok, -, -, hframe, happlied⟩ := hspec
  obtain rfl : err' = .ok := hok rfl
  have hz : g' = g.withCache op z := hz
  have hpins : ∀ i < v.pins,
      pin (g'.cache op) i = if pin mask i then pin value i else p.state op i := by
    intro i hi
    rw [hcache, decide_eq_true hi, Bool.true_and, merged, h.cache op i hi]
    cases pin mask i <;> rfl
  refine ⟨g', c', rfl, ?_, fun op' i hi => ?_, fun op' i hi => ?_, fun k i hi => ?_⟩
  · rw [hz]
    cases op with
    | set => exact h.saddr
    | oe => exact h.saddr
  · simp only [PortOp.perform]
    rcases eq_or_ne op' op with rfl | hne
    · rw [Function.update_self, happlied rfl (fun _ => hagrees) i hi, hpins i hi]
    · rw [Function.update_of_ne hne, hframe op' hne i, h.state op' i hi]
  · simp only [PortOp.perform]
    rcases eq_or_ne op' op with rfl | hne
    · rw [Function.update_self, hpins i hi]
    · rw [Function.update_of_ne hne, hz, cache_withCache, if_neg hne, h.cache op' i hi]
  · rw [hlevels]
    exact h.level k i hi

/-- The number of the first register, and a read of `n` of them. -/
theorem writeRead_port (v : Vtable) (saddr : UInt8) (c : PortChip) (cmd : UInt8) (n : Nat) :
    ∃ c', prI2cBusWriteRead (portInst v saddr) c saddr [cmd] n =
        (.ok, (List.range n).map fun j => c.answer v
          (if cmd < 0x80 then cmd &&& 0x7f else (cmd &&& 0x7f) + UInt8.ofNat j), c') ∧
      c'.regs = c.regs ∧ c'.levels = fun k => c.levels (k + 1) := by
  have hwrite : (portInst v saddr).writeBlocking c saddr [cmd] true =
      (toInt [cmd].length, { c with cmd := cmd }) := by
    simp only [portInst, if_true]
    rfl
  have hread : (portInst v saddr).readBlocking { c with cmd := cmd } saddr n false =
      (toInt n, (List.range n).map fun j => c.answer v
        (if cmd < 0x80 then cmd &&& 0x7f else (cmd &&& 0x7f) + UInt8.ofNat j),
        { c with cmd := cmd, levels := fun k => c.levels (k + 1) }) := by
    simp only [portInst, if_true]
    rfl
  exact ⟨_, prI2cBusWriteRead_ok hwrite hread, rfl, rfl⟩

theorem bit_input (out levels config : UInt8) {i : Nat} (hi : i < 8) :
    ((out &&& ~~~config) ||| (levels &&& config)).toBitVec.getLsbD i =
      if config.toBitVec.getLsbD i then levels.toBitVec.getLsbD i else out.toBitVec.getLsbD i := by
  simp only [UInt8.toBitVec_or, UInt8.toBitVec_and, UInt8.toBitVec_not, BitVec.getLsbD_or,
    BitVec.getLsbD_and, BitVec.getLsbD_not, hi, decide_true, Bool.true_and]
  cases config.toBitVec.getLsbD i <;> simp

theorem pin_two (x y : UInt8) (i : Nat) :
    pin (x.toUInt32 ||| (y.toUInt32 <<< 8)) i =
      if i < 8 then x.toBitVec.getLsbD i else y.toBitVec.getLsbD (i - 8) := by
  have hshift : (y.toUInt32 <<< 8).toBitVec = y.toUInt32.toBitVec <<< 8 := rfl
  have hx := pin_toUInt8 x i
  have hy := pin_toUInt8 y (i - 8)
  rw [pin] at hx hy
  rw [pin, UInt32.toBitVec_or, BitVec.getLsbD_or, hshift, BitVec.getLsbD_shiftLeft, hx, hy]
  split
  · next h8 => simp [h8]
  · next h8 =>
    rw [BitVec.getLsbD_of_ge _ _ (Nat.le_of_not_lt h8)]
    rcases Nat.lt_or_ge i 32 with h32 | h32
    · simp [h8, h32]
    · rw [BitVec.getLsbD_of_ge y.toBitVec _ (by omega)]
      simp

theorem answer_pins {out config levels : UInt8} {i : Nat} (hi : i < 8) {o l s : Bool}
    (ho : (!config.toBitVec.getLsbD i) = o) (hs : out.toBitVec.getLsbD i = s)
    (hl : levels.toBitVec.getLsbD i = l) :
    ((out &&& ~~~config) ||| (levels &&& config)).toBitVec.getLsbD i = if o then s else l := by
  rw [bit_input _ _ _ hi, hs, hl, ← ho]
  cases config.toBitVec.getLsbD i <;> rfl

theorem get_tca9534 (h : Represents .tca9534 saddr g c p) (i : Nat) :
    pin (c.answer .tca9534 0).toUInt32 i = (PortOp.get.perform 8 p).1.2 i := by
  simp only [PortOp.perform, pin_toUInt8]
  rcases Nat.lt_or_ge i 8 with hi | hi
  · rw [decide_eq_true hi, Bool.true_and]
    exact answer_pins hi (h.state .oe i hi) (h.state .set i hi) (h.level 0 i hi)
  · rw [BitVec.getLsbD_of_ge _ _ hi, decide_eq_false (Nat.not_lt.mpr hi), Bool.false_and]

theorem get_pca9575 (h : Represents .pca9575 saddr g c p) (i : Nat) :
    pin ((c.answer .pca9575 0).toUInt32 ||| ((c.answer .pca9575 1).toUInt32 <<< 8)) i =
      (PortOp.get.perform 16 p).1.2 i := by
  simp only [PortOp.perform, pin_two]
  rcases Nat.lt_or_ge i 16 with hi | hi
  · have hoe := h.state .oe i hi
    have hset := h.state .set i hi
    have hlevel := h.level 0 i hi
    simp only [Vtable.state, Vtable.output, Vtable.config, Vtable.bits, Regs.bit16]
      at hoe hset hlevel
    rw [decide_eq_true hi, Bool.true_and]
    split
    · next h8 =>
      rw [if_pos h8] at hoe hset hlevel
      exact answer_pins h8 hoe hset hlevel
    · next h8 =>
      rw [if_neg h8] at hoe hset hlevel
      exact answer_pins (by omega) hoe hset hlevel
  · rw [if_neg (by omega), BitVec.getLsbD_of_ge _ _ (by omega), decide_eq_false (Nat.not_lt.mpr hi),
      Bool.false_and]

theorem get_represents (h : Represents v saddr g c p) :
    ∃ x c', prI2cGpioGet v (portInst v saddr) c g = (.ok, x, c') ∧
      pin x = (PortOp.get.perform v.pins p).1.2 ∧
      Represents v saddr g c' (PortOp.get.perform v.pins p).2 := by
  obtain rfl := h.saddr
  have hnext (c' : PortChip) (hregs : c'.regs = c.regs)
      (hlevels : c'.levels = fun k => c.levels (k + 1)) :
      Represents v g.saddr g c' (PortOp.get.perform v.pins p).2 :=
    ⟨rfl, hregs ▸ h.state, h.cache, fun k i hi => hlevels ▸ h.level (k + 1) i hi⟩
  cases v with
  | tca9534 =>
    obtain ⟨c', hread, hregs, hlevels⟩ := writeRead_port .tca9534 g.saddr c 0x00 1
    have hget : prI2cGpioGet .tca9534 (portInst .tca9534 g.saddr) c g =
        (.ok, (c.answer .tca9534 0).toUInt32, c') := by
      simp only [prI2cGpioGet, tca9534Get, hread]
      rfl
    exact ⟨_, c', hget, funext (get_tca9534 h), hnext c' hregs hlevels⟩
  | pca9575 =>
    obtain ⟨c', hread, hregs, hlevels⟩ := writeRead_port .pca9575 g.saddr c 0x80 2
    have hget : prI2cGpioGet .pca9575 (portInst .pca9575 g.saddr) c g =
        (.ok, (c.answer .pca9575 0).toUInt32 ||| ((c.answer .pca9575 1).toUInt32 <<< 8), c') := by
      simp only [prI2cGpioGet, pca9575Get, hread]
      rfl
    exact ⟨_, c', hget, funext (get_pca9575 h), hnext c' hregs hlevels⟩

end PortLemmas

end Picore.I2c
