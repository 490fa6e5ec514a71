import Picore.I2c.EepromStore
import Picore.I2c.Port

/-!
# EEPROMs and expanders on one bus

A board has its chips on one bus. Each driver is what it is on a bus of its own: its attempts and
its polls reach its own chip only, and that chip has the memory or the pins that the calls before
gave it, whatever was asked of the others in between.

Results:
1. `Component`: a chip with its driver, and what the two are for, on every bus that has the chip
   on it. `Peripheral.component`: the two kinds.
2. `board_refined`: over every sequence of requests, a board is its arrays of bytes and its ports.
-/

namespace Picore.I2c

open Memory Fuel

/-! ## 1. Components -/

/-- A chip, its driver, and what the two are for: a request changes a value of `Model`. -/
structure Component where
  Chip : Type
  Driver : Type
  Model : Type
  Request : Type
  Reply : Type
  /-- The bus with the chip on it, and nothing else. -/
  inst : I2cInst Chip
  owns : UInt8 → Prop
  /-- A call of the driver on a bus, with what it returns and leaves. -/
  Performs : ∀ {β : Type}, I2cInst β → Driver → β → Request → Reply → Driver → β → Prop
  perform : Model → Request → Reply × Model
  Fits : Request → Prop
  Refines : Driver → Chip → Model → Prop
  errorGeneric : inst.errorGeneric = -1
  errorTimeout : inst.errorTimeout = -2
  /-- The driver returns, and does to the chip and returns what `perform` does. -/
  refined : ∀ {β : Type} {R : Chip → β → Prop} {large : I2cInst β} {g : Driver} {c : Chip} {s : β}
    {m : Model} {q : Request}, Hosts R inst large owns → R c s → Refines g c m → Fits q →
    (∃ r g' s', Performs large g s q r g' s') ∧
      ∀ r g' s', Performs large g s q r g' s' →
        ∃ c' m', R c' s' ∧ perform m q = (r, m') ∧ Refines g' c' m'

namespace BoardLemmas

variable {β : Type}

section Eeprom

variable {R : BusyChip → β → Prop} {d : Device} {large : I2cInst β} {c : BusyChip} {s : β}

/-- The bytes of a range are at addresses that the chip answers to. -/
theorem range_owned {addr n : Nat} (hlt : addr + n < 2 ^ 32)
    (hin : outOfRange d.part addr n = false) {a : Nat} (ha : a < addr + n) :
    d.responds (d.part.slave d.saddr a) = true := by
  have hrange : addr + n ≤ d.part.size := (range_accepted_iff d.type hlt).mp hin
  exact (addressed (Nat.lt_of_lt_of_le ha hrange)).1

theorem read_alike (h : Hosts R (busyInst d) large (fun saddr => d.responds saddr = true))
    (hr : R c s) {addr n : Nat} (hn : n ≠ 0) (hlt : addr + n < 2 ^ 32) :
    let x := prI2cEepromRead d.type (busyInst d) c d.saddr addr n
    let y := prI2cEepromRead d.type large s d.saddr addr n
    y.1 = x.1 ∧ y.2.1 = x.2.1 ∧ R x.2.2 y.2.2 := by
  rw [prI2cEepromRead_eq, prI2cEepromRead_eq]
  exact eepromRead_hosted h hr fun hin =>
    range_owned hlt hin (Nat.lt_add_of_pos_right (Nat.pos_of_ne_zero hn))

theorem write_alike (h : Hosts R (busyInst d) large (fun saddr => d.responds saddr = true))
    (hr : R c s) {addr : Nat} {data : List UInt8} (hdata : data ≠ [])
    (hlt : addr + data.length < 2 ^ 32) (saddr0 : UInt8) (buf0 : Mem UInt8) (fuel : Nat) :
    Alike (Same R)
      (prI2cEepromWrite d.type (busyInst d) c d.saddr addr data data.length saddr0 buf0 fuel)
      (prI2cEepromWrite d.type large s d.saddr addr data data.length saddr0 buf0 fuel) :=
  eepromWrite_hosted h hr (List.length_pos_of_ne_nil hdata) (fun hin _ => range_owned hlt hin) data
    saddr0 buf0 fuel

/-- A call returns on the larger bus if it does on the chip's own one. -/
theorem performs_large (h : Hosts R (busyInst d) large (fun saddr => d.responds saddr = true))
    (hr : R c s) {q : StoreOp} (hq : q.Fits d.part) {r : PrError × List UInt8} {c' : BusyChip}
    (hp : Performs d (busyInst d) c q r c') : ∃ s', Performs d large s q r s' := by
  cases hp with
  | read hread =>
    obtain ⟨herr, hdata, -⟩ := read_alike h hr hq.1 hq.2
    rw [hread] at herr hdata
    exact ⟨_, .read (Prod.ext herr (Prod.ext hdata rfl))⟩
  | write hret =>
    obtain ⟨⟨err, s'⟩, ⟨rfl, -⟩, hlarge⟩ := hret.alike (write_alike h hr hq.1 hq.2.1 _ _)
    exact ⟨s', .write hlarge⟩

/-- What it returns there, it returns on the chip's own one. -/
theorem performs_own (h : Hosts R (busyInst d) large (fun saddr => d.responds saddr = true))
    (hr : R c s) {q : StoreOp} (hq : q.Fits d.part) {r : PrError × List UInt8} {s' : β}
    (hp : Performs d large s q r s') : ∃ c', R c' s' ∧ Performs d (busyInst d) c q r c' := by
  cases hp with
  | read hread =>
    obtain ⟨herr, hdata, hbus⟩ := read_alike h hr hq.1 hq.2
    rw [hread] at herr hdata hbus
    exact ⟨_, hbus, .read (Prod.ext herr.symm (Prod.ext hdata.symm rfl))⟩
  | write hret =>
    obtain ⟨⟨err, c'⟩, ⟨rfl, hbus⟩, hown⟩ := hret.alike_left (write_alike h hr hq.1 hq.2.1 _ _)
    exact ⟨c', hbus, .write hown⟩

end Eeprom

section Expander

variable {R : PortChip → β → Prop} {v : Vtable} {saddr : UInt8} {large : I2cInst β} {g : I2cGpio}
  {c : PortChip} {s : β} {p : Port}

/-- A call on the larger bus is one of the port. -/
theorem portPerforms_perform (h : Hosts R (portInst v saddr) large (· = saddr)) (hr : R c s)
    (hp : Represents v saddr g c p) {q : PortOp} {r : PrError × (Nat → Bool)} {g' : I2cGpio}
    {s' : β} (hq : PortPerforms v large g s q r g' s') :
    ∃ c', R c' s' ∧ (q.perform v.pins p).1 = r ∧
      Represents v saddr g' c' (q.perform v.pins p).2 := by
  cases hq with
  | @update op mask value err g' s' hcall =>
    obtain ⟨g1, c', hown, hrep⟩ := PortLemmas.update_represents hp op mask value
    obtain ⟨herr, hg, hbus⟩ := gpioUpdate_hosted h.toHostsWrites hr hp.saddr v op mask value
    rw [hown, hcall] at herr hg hbus
    obtain rfl : err = .ok := herr
    obtain rfl : g' = g1 := hg
    exact ⟨c', hbus, rfl, hrep⟩
  | @get err x s' hcall =>
    obtain ⟨x1, c', hown, hpins, hrep⟩ := PortLemmas.get_represents hp
    obtain ⟨herr, hx, hbus⟩ := gpioGet_hosted h hr hp.saddr v
    rw [hown, hcall] at herr hx hbus
    obtain rfl : err = .ok := herr
    obtain rfl : x = x1 := hx
    exact ⟨c', hbus, hpins ▸ rfl, hrep⟩

theorem portPerforms_exists (q : PortOp) : ∃ r g' s', PortPerforms v large g s q r g' s' := by
  cases q with
  | update op mask value => exact ⟨_, _, _, .update rfl⟩
  | get => exact ⟨_, _, _, .get rfl⟩

end Expander

end BoardLemmas

open BoardLemmas StoreLemmas

def eepromComponent (d : Device) : Component where
  Chip := BusyChip
  Driver := Unit
  Model := Mem UInt8
  Request := StoreOp
  Reply := PrError × List UInt8
  inst := busyInst d
  owns saddr := d.responds saddr = true
  Performs inst _ s q r _ s' := Performs d inst s q r s'
  perform m q := q.perform d.part.size m
  Fits q := q.Fits d.part
  Refines _ c m := c.Ready ∧ c.chip.mem = m
  errorGeneric := rfl
  errorTimeout := rfl
  refined := by
    rintro β R large g c s m q h hr ⟨hready, rfl⟩ hq
    refine ⟨?_, fun r _ s' hp => ?_⟩
    · obtain ⟨r, c', hown⟩ := performs_exists hready hq
      obtain ⟨s', hlarge⟩ := performs_large h hr hq hown
      exact ⟨r, (), s', hlarge⟩
    · obtain ⟨c', hbus, hown⟩ := performs_own h hr hq hp
      obtain ⟨hperform, hready'⟩ := performs_perform hready hq hown
      exact ⟨c', _, hbus, hperform, hready', rfl⟩

def expanderComponent (v : Vtable) (saddr : UInt8) : Component where
  Chip := PortChip
  Driver := I2cGpio
  Model := Port
  Request := PortOp
  Reply := PrError × (Nat → Bool)
  inst := portInst v saddr
  owns := (· = saddr)
  Performs inst g s q r g' s' := PortPerforms v inst g s q r g' s'
  perform p q := q.perform v.pins p
  Fits _ := True
  Refines g c p := Represents v saddr g c p
  errorGeneric := rfl
  errorTimeout := rfl
  refined h hr hp _ := by
    refine ⟨portPerforms_exists _, fun r g' s' hq => ?_⟩
    obtain ⟨c', hbus, rfl, hrep⟩ := portPerforms_perform h hr hp hq
    exact ⟨c', _, hbus, rfl, hrep⟩

/-- The two kinds of chips that the repository has drivers for: memory chips, and expanders with the
driver of their type and their address. -/
inductive Peripheral
  | eeprom (d : Device)
  | expander (v : Vtable) (saddr : UInt8)

/-- What each kind of chip is for: a memory chip holds an array of bytes, and an expander is a port.
-/
def Peripheral.component : Peripheral → Component
  | .eeprom d => eepromComponent d
  | .expander v saddr => expanderComponent v saddr

/-! ## 2. The board -/

/-- The chips of a board. No two answer to one address. -/
structure Layout (κ : Type) where
  part : κ → Peripheral
  owner : UInt8 → Option κ
  owns_iff : ∀ saddr k, (part k).component.owns saddr ↔ owner saddr = some k

section Board

variable {κ : Type} [DecidableEq κ] {L : Layout κ}

namespace Layout

def component (L : Layout κ) (k : κ) : Component := (L.part k).component

/-- The bus of the board. Each transaction goes to the chip that owns the slave address, and nothing
acknowledges an address that no chip owns. -/
def bus (L : Layout κ) : I2cInst (∀ k, (L.component k).Chip) :=
  wired (fun k => (L.component k).inst) L.owner

end Layout

/-- Several requests, each to one of the chips, with what they return. -/
inductive BoardSession (L : Layout κ) :
    (∀ k, (L.component k).Driver) → (∀ k, (L.component k).Chip) →
      List ((k : κ) × (L.component k).Request) → List ((k : κ) × (L.component k).Reply) →
      (∀ k, (L.component k).Driver) → (∀ k, (L.component k).Chip) → Prop
  | nil {g s} : BoardSession L g s [] [] g s
  | cons {k g s q r gk s1 qs rs g' s'} :
      (L.component k).Performs L.bus (g k) s q r gk s1 →
      BoardSession L (Function.update g k gk) s1 qs rs g' s' →
      BoardSession L g s (⟨k, q⟩ :: qs) (⟨k, r⟩ :: rs) g' s'

/-- The requests to a board, on what its chips are for: each request acts on the value of its own
place, and the others keep theirs. -/
def performBoard (L : Layout κ) : (∀ k, (L.component k).Model) →
    List ((k : κ) × (L.component k).Request) →
    List ((k : κ) × (L.component k).Reply) × (∀ k, (L.component k).Model)
  | m, [] => ([], m)
  | m, ⟨k, q⟩ :: qs =>
    let (r, mk) := (L.component k).perform (m k) q
    let (rs, m) := performBoard L (Function.update m k mk) qs
    (⟨k, r⟩ :: rs, m)

/-- Every chip and its driver are what the array or the port is. -/
def BoardRefines (L : Layout κ) (g : ∀ k, (L.component k).Driver) (s : ∀ k, (L.component k).Chip)
    (m : ∀ k, (L.component k).Model) : Prop :=
  ∀ k, (L.component k).Refines (g k) (s k) (m k)

namespace BoardLemmas

theorem bus_hosts (L : Layout κ) (s : ∀ k, (L.component k).Chip) (k : κ) :
    Hosts (Only s k) (L.component k).inst L.bus (L.component k).owns := by
  have h := wired_hosts (fun k => (L.component k).inst) L.owner s k (L.component k).errorGeneric
    (L.component k).errorTimeout
  rwa [← funext fun saddr => propext (L.owns_iff saddr k)] at h

theorem request_refines {g : ∀ k, (L.component k).Driver} {s : ∀ k, (L.component k).Chip}
    {m : ∀ k, (L.component k).Model} (h : BoardRefines L g s m) {k : κ}
    {q : (L.component k).Request} (hq : (L.component k).Fits q) :
    (∃ r gk s1, (L.component k).Performs L.bus (g k) s q r gk s1) ∧
      ∀ r gk s1, (L.component k).Performs L.bus (g k) s q r gk s1 →
        ∃ mk, (L.component k).perform (m k) q = (r, mk) ∧
          BoardRefines L (Function.update g k gk) s1 (Function.update m k mk) := by
  have hself : Only s k (s k) s := (Function.update_eq_self k s).symm
  obtain ⟨hexists, hall⟩ := (L.component k).refined (bus_hosts L s k) hself (h k) hq
  refine ⟨hexists, fun r gk s1 hp => ?_⟩
  obtain ⟨c', mk, rfl, hperform, hrefines⟩ := hall r gk s1 hp
  refine ⟨mk, hperform, fun j => ?_⟩
  rcases eq_or_ne j k with rfl | hne
  · simpa only [Function.update_self] using hrefines
  · simpa only [Function.update_of_ne hne] using h j

end BoardLemmas

open BoardLemmas in
/-- Every sequence of requests to the chips of a board comes to an end. It returns what the arrays
and ports do, and leaves each chip as its own array or port. A driver cannot tell the bus of the
board from one with its own chip alone, so what each component refines by itself it refines here. -/
theorem board_refined {g : ∀ k, (L.component k).Driver} {s : ∀ k, (L.component k).Chip}
    {m : ∀ k, (L.component k).Model} (h : BoardRefines L g s m)
    {qs : List ((k : κ) × (L.component k).Request)}
    (hqs : ∀ q ∈ qs, (L.component q.1).Fits q.2) :
    (∃ rs g' s', BoardSession L g s qs rs g' s') ∧
      ∀ rs g' s', BoardSession L g s qs rs g' s' →
        ∃ m', performBoard L m qs = (rs, m') ∧ BoardRefines L g' s' m' := by
  induction qs generalizing g s m with
  | nil =>
    refine ⟨⟨[], g, s, .nil⟩, fun rs g' s' hs => ?_⟩
    cases hs
    exact ⟨m, rfl, h⟩
  | cons q qs ih =>
    obtain ⟨k, q⟩ := q
    obtain ⟨hq, hrest⟩ := List.forall_mem_cons.mp hqs
    obtain ⟨hexists, hall⟩ := request_refines h hq
    refine ⟨?_, fun rs g' s' hs => ?_⟩
    · obtain ⟨r, gk, s1, h1⟩ := hexists
      obtain ⟨mk, -, hnext⟩ := hall r gk s1 h1
      obtain ⟨⟨rs, g', s', h2⟩, -⟩ := ih hnext hrest
      exact ⟨_, _, _, .cons h1 h2⟩
    · cases hs with
      | cons h1 h2 =>
        obtain ⟨mk, hperform, hnext⟩ := hall _ _ _ h1
        obtain ⟨m', hrun, hrefines⟩ := (ih hnext hrest).2 _ _ _ h2
        refine ⟨m', ?_, hrefines⟩
        rw [performBoard, hperform]
        simp only [hrun]

end Board

namespace BoardLemmas

open PageLemmas

/-- The places of the board that the result is shown on: one memory chip and one expander. -/
inductive Place
  | memory
  | pins
  deriving DecidableEq

def demoBoard : Layout Place where
  part
    | .memory => .eeprom demo
    | .pins => .expander .pca9575 0x20
  owner saddr :=
    if demo.responds saddr then some .memory else if saddr = 0x20 then some .pins else none
  owns_iff saddr k := by
    have hpins : demo.responds 0x20 = false := rfl
    cases k with
    | memory =>
      show demo.responds saddr = true ↔ _
      split
      · next h => simp [h]
      · next h =>
        split <;> simp [h]
    | pins =>
      show saddr = 0x20 ↔ _
      split
      · next h =>
        refine ⟨fun heq => ?_, fun heq => ?_⟩
        · rw [heq, hpins] at h
          exact absurd h Bool.false_ne_true
        · cases heq
      · split <;> simp [*]

def lowChip : PortChip := ⟨fun reg => if reg = 0x08 ∨ reg = 0x09 then 0xff else 0, 0, fun _ _ => 0⟩

def lowPort : Port := ⟨fun _ _ => false, fun _ _ => false⟩

theorem low_represents : Represents .pca9575 0x20 (prI2cGpioInit 0x20) lowChip lowPort := by
  refine ⟨rfl, fun op i hi => ?_, fun op i _ => ?_, fun k i _ => ?_⟩
  · show Vtable.state .pca9575 lowChip.regs i op = false
    have hi : i < 16 := hi
    cases op with
    | set => revert i; decide
    | oe => revert i; decide
  · have hzero : pin 0 i = false := BitVec.getLsbD_zero
    cases op with
    | set => exact hzero
    | oe => exact hzero
  · show Regs.bit16 (fun _ => 0) 0 i = false
    simp [Regs.bit16, Regs.bit]

def demoDrivers : ∀ k, (demoBoard.component k).Driver
  | .memory => ()
  | .pins => prI2cGpioInit 0x20

def demoChips : ∀ k, (demoBoard.component k).Chip
  | .memory => slow
  | .pins => lowChip

def demoModel : ∀ k, (demoBoard.component k).Model
  | .memory => fun _ => 0xff
  | .pins => lowPort

theorem demo_refines : BoardRefines demoBoard demoDrivers demoChips demoModel := by
  intro k
  cases k with
  | memory => exact ⟨⟨rfl, fun _ => show 5 < 128 by decide⟩, rfl⟩
  | pins => exact low_represents

def toMemory (q : StoreOp) : (k : Place) × (demoBoard.component k).Request := ⟨.memory, q⟩

def toPins (q : PortOp) : (k : Place) × (demoBoard.component k).Request := ⟨.pins, q⟩

def demoRequests : List ((k : Place) × (demoBoard.component k).Request) :=
  [toMemory (.write 15 [1, 2]), toPins (.update .oe 1 1), toPins (.update .set 3 1),
    toMemory (.read 15 2), toPins .get]

theorem demo_fits : ∀ q ∈ demoRequests, (demoBoard.component q.1).Fits q.2 := by
  intro q hq
  simp only [demoRequests, List.mem_cons, List.not_mem_nil, or_false] at hq
  rcases hq with rfl | rfl | rfl | rfl | rfl
  · exact ⟨by decide, by decide, .inl (by decide)⟩
  · exact trivial
  · exact trivial
  · exact ⟨by decide, by decide⟩
  · exact trivial

end BoardLemmas

open BoardLemmas in
/-- Two bytes are written and read, while a pin becomes an output and goes high. -/
theorem board_refined_two :
    ∃ pins g' s', BoardSession demoBoard demoDrivers demoChips demoRequests
      [⟨.memory, ((.ok, []) : PrError × List UInt8)⟩,
        ⟨.pins, ((.ok, fun _ => false) : PrError × (Nat → Bool))⟩,
        ⟨.pins, ((.ok, fun _ => false) : PrError × (Nat → Bool))⟩,
        ⟨.memory, ((.ok, [1, 2]) : PrError × List UInt8)⟩,
        ⟨.pins, ((.ok, pins) : PrError × (Nat → Bool))⟩] g' s' ∧ pins 0 = true := by
  obtain ⟨⟨rs, g', s', h⟩, hall⟩ := board_refined demo_refines demo_fits
  obtain ⟨m', hrun, -⟩ := hall rs g' s' h
  obtain rfl := congrArg Prod.fst hrun
  exact ⟨_, g', s', h, rfl⟩

end Picore.I2c
