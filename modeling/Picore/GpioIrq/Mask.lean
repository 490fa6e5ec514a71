import Picore.Lib.Bits
import Picore.Lib.Transition
import Picore.Task.Status

/-!
# The interrupt events of the pins (`src/gpio_irq/gpio_irq.c`)

A program sets the mask of the events that it waits for on a pin. The call only adds events to those
that are enabled, or changes nothing when the mask is 0. The callback of the interrupt disables all
events that it is called for when one of them is a level.

The pins are those of the chip, so that the test of the number in the callback never fails.

Results:
1. `AsSet`: the events that are enabled are those of the last mask without the levels that have been
   delivered since; `step_asSet_iff`: when one step leaves that.
2. `mask_exact`: it holds as long as each mask has all events that are enabled, and no level is
   delivered together with an edge that is enabled. Any other step breaks it.
-/

namespace Picore.GpioIrq

open Transition Bits
open Picore.Task (Status)

abbrev Gpio := Fin 30

/-- `GPIO_IRQ_LEVEL_LOW | GPIO_IRQ_LEVEL_HIGH`. -/
def levelEvents : UInt32 := 1 ||| 2

/-- `GPIO_IRQ_EDGE_FALL | GPIO_IRQ_EDGE_RISE`. -/
def edgeEvents : UInt32 := 4 ||| 8

variable {ι : Type}

/-- `g_irq`, the tasks, and the events that are enabled in the hardware. -/
structure Irq (ι : Type) where
  handler : Gpio → Option ι
  status : ι → Status
  enabled : Gpio → UInt32

def Irq.gpioSetIrqEnabled (s : Irq ι) (gpio : Gpio) (events : UInt32) (on : Bool) : Irq ι :=
  let e := s.enabled gpio
  { s with enabled :=
      Function.update s.enabled gpio (if on then e ||| events else e &&& ~~~events) }

def gpioIrqCallback [DecidableEq ι] (s : Irq ι) (gpio : Gpio) (eventMask : UInt32) : Irq ι :=
  let s := if eventMask &&& levelEvents ≠ 0 then s.gpioSetIrqEnabled gpio eventMask false else s
  match s.handler gpio with
  | none => s
  | some h => { s with status := Function.update s.status h (s.status h).exec }

def prGpioIrqBind (s : Irq ι) (gpio : Gpio) (task : Option ι) : Irq ι :=
  { s with handler := Function.update s.handler gpio task }

def prGpioIrqMaskSet (s : Irq ι) (gpio : Gpio) (eventMask : UInt32) : Irq ι :=
  s.gpioSetIrqEnabled gpio eventMask (eventMask ≠ 0)

/-- The pins, with the last mask that has been set on each and the levels delivered since. -/
structure Tracked (ι : Type) where
  irq : Irq ι
  mask : Gpio → UInt32
  levels : Gpio → UInt32

/-- The labels of the steps: the two functions that configure a pin, and an interrupt with the
events that it reports. -/
inductive Act (ι : Type)
  | bind (gpio : Gpio) (task : Option ι)
  | maskSet (gpio : Gpio) (eventMask : UInt32)
  /-- The interrupt is delivered to the callback. -/
  | deliver (gpio : Gpio) (eventMask : UInt32)

def Tracked.step [DecidableEq ι] (t : Tracked ι) : Act ι → Tracked ι
  | .bind gpio task => { t with irq := prGpioIrqBind t.irq gpio task }
  | .maskSet gpio eventMask =>
    { irq := prGpioIrqMaskSet t.irq gpio eventMask
      mask := Function.update t.mask gpio eventMask
      levels := Function.update t.levels gpio 0 }
  | .deliver gpio eventMask =>
    { t with
      irq := gpioIrqCallback t.irq gpio eventMask
      levels := Function.update t.levels gpio (t.levels gpio ||| (eventMask &&& levelEvents)) }

/-- At first no event is enabled on any pin. -/
def pins [DecidableEq ι] : Lts (Tracked ι) (Act ι) :=
  Lts.ofFun (fun t => ∃ handler status, t = ⟨⟨handler, status, fun _ => 0⟩, fun _ => 0, fun _ => 0⟩)
    fun t a => some (t.step a)

/-- The hardware has what was last set: the events of the mask without the levels delivered since,
and so all its edges. -/
structure AsSet (t : Tracked ι) (gpio : Gpio) : Prop where
  enabled : t.irq.enabled gpio = t.mask gpio &&& ~~~t.levels gpio
  edges : t.mask gpio &&& edgeEvents &&& ~~~t.irq.enabled gpio = 0

/-- A mask has all events that are enabled, and a level does not come with an edge that is. -/
def Ok (t : Tracked ι) : Act ι → Prop
  | .bind _ _ => True
  | .maskSet gpio eventMask => t.irq.enabled gpio &&& ~~~eventMask = 0
  | .deliver gpio eventMask =>
    eventMask &&& levelEvents = 0 ∨ t.irq.enabled gpio &&& eventMask &&& ~~~levelEvents = 0

instance (t : Tracked ι) : DecidablePred (Ok t)
  | .bind _ _ => isTrue trivial
  | .maskSet _ _ => inferInstanceAs (Decidable (_ = _))
  | .deliver _ _ => inferInstanceAs (Decidable (_ ∨ _))

/-! ## 1. One step -/

def LevelsOnly (t : Tracked ι) : Prop := ∀ gpio, t.levels gpio &&& ~~~levelEvents = 0

theorem asSet_iff {t : Tracked ι} (h : LevelsOnly t) (gpio : Gpio) :
    AsSet t gpio ↔ t.irq.enabled gpio = t.mask gpio &&& ~~~t.levels gpio := by
  refine ⟨fun hset => hset.enabled, fun henabled => ⟨henabled, ?_⟩⟩
  rw [henabled]
  exact outside_diff (h gpio) (by decide)

theorem enabled_maskSet (s : Irq ι) (gpio : Gpio) (eventMask : UInt32) :
    (prGpioIrqMaskSet s gpio eventMask).enabled =
      Function.update s.enabled gpio (s.enabled gpio ||| eventMask) := by
  rcases eq_or_ne eventMask 0 with rfl | hne
  · simp [prGpioIrqMaskSet, Irq.gpioSetIrqEnabled]
  · simp [prGpioIrqMaskSet, Irq.gpioSetIrqEnabled, hne]

variable [DecidableEq ι]

theorem enabled_callback (s : Irq ι) (gpio : Gpio) (eventMask : UInt32) :
    (gpioIrqCallback s gpio eventMask).enabled =
      if eventMask &&& levelEvents = 0 then s.enabled
      else Function.update s.enabled gpio (s.enabled gpio &&& ~~~eventMask) := by
  have hhandler (s : Irq ι) (h : Option ι) : (match h with
      | none => s
      | some h => { s with status := Function.update s.status h (s.status h).exec }).enabled =
        s.enabled := by
    cases h <;> rfl
  rw [gpioIrqCallback, hhandler]
  by_cases hlevel : eventMask &&& levelEvents = 0
  · rw [if_neg (not_not.2 hlevel), if_pos hlevel]
  · rw [if_pos hlevel, if_neg hlevel]
    rfl

theorem levelsOnly_step {t : Tracked ι} (h : LevelsOnly t) (a : Act ι) : LevelsOnly (t.step a) := by
  intro pin
  cases a with
  | bind gpio task => exact h pin
  | maskSet gpio eventMask =>
    rcases eq_or_ne pin gpio with rfl | hne
    · simp [Tracked.step]
    · simp [Tracked.step, hne, h pin]
  | deliver gpio eventMask =>
    rcases eq_or_ne pin gpio with rfl | hne
    · simp [Tracked.step, or_outside (h pin)]
    · simp [Tracked.step, hne, h pin]

theorem forall_gpio_iff {P : Gpio → Prop} {g : Gpio} (hother : ∀ pin, pin ≠ g → P pin) :
    (∀ pin, P pin) ↔ P g := by
  refine ⟨fun h => h g, fun h pin => ?_⟩
  rcases eq_or_ne pin g with rfl | hne
  · exact h
  · exact hother pin hne

/-- One step leaves the pins as they should be exactly when it meets the condition. -/
theorem step_asSet_iff {t : Tracked ι} (h : LevelsOnly t) (hset : ∀ gpio, AsSet t gpio)
    (a : Act ι) : (∀ gpio, AsSet (t.step a) gpio) ↔ Ok t a := by
  simp only [asSet_iff (levelsOnly_step h a)]
  cases a with
  | bind gpio task => exact iff_of_true (fun pin => (hset pin).enabled) trivial
  | maskSet gpio eventMask =>
    rw [forall_gpio_iff (g := gpio)]
    · simp only [Tracked.step, enabled_maskSet, Function.update_self, UInt32.not_zero]
      rw [Ok, ← or_eq_right_iff]
      simp
    · intro pin hne
      simp [Tracked.step, enabled_maskSet, hne, (hset pin).enabled]
  | deliver gpio eventMask =>
    rw [forall_gpio_iff (g := gpio)]
    · have henabled := (hset gpio).enabled
      simp only [Tracked.step, enabled_callback, Function.update_self, diff_or, ← henabled, Ok]
      by_cases hlevel : eventMask &&& levelEvents = 0
      · simp [hlevel]
      · simp only [hlevel, if_false, Function.update_self, false_or]
        exact diff_eq_iff
    · intro pin hne
      by_cases hlevel : eventMask &&& levelEvents = 0
      · simpa [Tracked.step, enabled_callback, hlevel, hne] using (hset pin).enabled
      · simpa [Tracked.step, enabled_callback, hlevel, hne] using (hset pin).enabled

/-! ## 2. Runs -/

/-- As long as every step meets `Ok`, the events that are enabled on each pin are those of the last
mask without the levels delivered since, among them all its edges. The next step keeps this exactly
when it meets the condition, too. -/
theorem mask_exact {t : Tracked ι} (h : (pins.guard Ok).Reachable t) :
    (∀ gpio, AsSet t gpio) ∧
      ∀ a t', pins.step t a t' → ((∀ gpio, AsSet t' gpio) ↔ Ok t a) := by
  have hinv : LevelsOnly t ∧ ∀ gpio, AsSet t gpio := by
    refine h.invariant (I := fun t => LevelsOnly t ∧ ∀ gpio, AsSet t gpio) ?_ ?_
    · rintro t ⟨handler, status, rfl⟩
      have hlevels : LevelsOnly ⟨⟨handler, status, fun _ => 0⟩, fun _ => 0, fun _ => 0⟩ :=
        fun _ => UInt32.zero_and
      exact ⟨hlevels, fun gpio => (asSet_iff hlevels gpio).2 UInt32.zero_and.symm⟩
    · rintro t a t' ⟨hlevels, hset⟩ ⟨hstep, hok⟩
      cases hstep
      exact ⟨levelsOnly_step hlevels a, (step_asSet_iff hlevels hset a).2 hok⟩
  refine ⟨hinv.2, fun a t' hstep => ?_⟩
  cases hstep
  exact step_asSet_iff hinv.1 hinv.2 a

namespace MaskLemmas

def start : Tracked Unit := ⟨⟨fun _ => none, fun _ => .idle, fun _ => 0⟩, fun _ => 0, fun _ => 0⟩

/-- Pin 15 asks for both edges, and an interrupt has been delivered for one of them, so that its
events are off. -/
def edges : Tracked Unit := (start.step (.maskSet 15 edgeEvents)).step (.deliver 15 4)

theorem reachable_edges : (pins.guard Ok).Reachable edges := by
  have hstart : (pins.guard Ok).Reachable start := .init ⟨_, _, rfl⟩
  have hset : (pins.guard Ok).Reachable (start.step (.maskSet 15 edgeEvents)) :=
    hstart.step ⟨rfl, by decide⟩
  exact hset.step ⟨rfl, .inl (by decide)⟩

end MaskLemmas

open MaskLemmas in
theorem mask_exact_edges :
    (pins.guard Ok).Reachable edges ∧ edges.irq.enabled 15 = edgeEvents ∧
      ∀ gpio, AsSet edges gpio :=
  ⟨reachable_edges, by decide, (mask_exact reachable_edges).1⟩

open MaskLemmas in
/-- Pin 15 is to wait for the falling edge, and then for the rising edge. It waits for both. -/
theorem falling_stays_enabled :
    ∃ t : Tracked Unit, pins.Reachable t ∧ t.mask 15 = 8 ∧ t.levels 15 = 0 ∧
      t.irq.enabled 15 = 4 ||| 8 ∧ ¬ AsSet t 15 := by
  have hstart : pins.Reachable start := .init ⟨_, _, rfl⟩
  refine ⟨_, (hstart.step (a := .maskSet 15 4) rfl).step (a := .maskSet 15 8) rfl, by decide,
    by decide, by decide, fun h => ?_⟩
  exact absurd h.enabled (by decide)

end Picore.GpioIrq
