import Picore.Lib.Transition
import Picore.Task.Status

/-!
# LED strips on the PIO (`src/pixel_led/pixel_led.c`)

The strips on the state machines of one PIO, with their tasks and the interrupt that fills
their FIFOs. A handler that runs in the main loop is cut where the interrupt can come: after
`on_refresh` has set `refreshing`, before it enables the interrupt, and after `on_done` has
cleared `refreshing`. The interrupt runs to its end. How many words go into each FIFO before
it is full is up to the hardware, which sends words at the same time.

`pio_interrupt_clear` works on the flags that programs set, which these do not, and is left
out.
-/

namespace Picore.PixelLed

open Transition
open Picore.Task (Status)

/-- What happens on a strip: `on_refresh` sets `refreshing`, a word is put into the FIFO for
the pixel `i`, the last word of a frame, `0`, is put, and `on_done` clears `refreshing`. -/
inductive Event
  | start
  | pixel (i : Nat) (word : UInt32)
  | final
  | stop
  deriving DecidableEq

/-- Where a handler of a strip has been cut, so that the interrupt may come. -/
inductive Run
  | idle
  /-- `on_refresh` has set `refreshing`. -/
  | refresh
  /-- `on_refresh` has set `offset` to 0. -/
  | enable
  /-- `on_done` has cleared `refreshing`. -/
  | done
  deriving DecidableEq

/-- `struct pr_pixel_led_strip`. `enabled` is the source of the PIO interrupt for the FIFO
of the strip, and `log` is what has happened so far. -/
structure Strip where
  pixelData : Nat → UInt32
  pixelCount : Nat
  offset : Nat
  refreshing : Bool
  dirty : Bool
  inv : Bool
  refreshTask : Status
  doneTask : Status
  enabled : Bool
  run : Run
  log : List Event

def prPixelLedStripInit (ledCount : Nat) (inv : Bool) : Strip where
  pixelData _ := 0
  pixelCount := ledCount
  offset := 0
  refreshing := false
  dirty := false
  inv := inv
  refreshTask := Status.idle.exec
  doneTask := .idle
  enabled := false
  run := .idle
  log := []

/-- The word that goes out for pixel `i`. The shift drops the top byte of the colour, and an
inverted output gets the complement. -/
def Strip.word (s : Strip) (i : Nat) : UInt32 :=
  let val := s.pixelData i <<< 8
  if s.inv then ~~~val else val

/-- The `while` loop of `on_pixel_led_irq`, with room for `room` words, and the value of
`done`. -/
def fill : Nat → Strip → Bool × Strip
  | 0, s => (false, s)
  | room + 1, s =>
    if s.offset < s.pixelCount then
      fill room { s with
        offset := s.offset + 1
        log := s.log ++ [.pixel s.offset (s.word s.offset)] }
    else (true, { s with log := s.log ++ [.final] })

def onPixelLedIrq (room : Nat) (s : Strip) : Strip :=
  match fill room s with
  | (true, s) => { s with doneTask := s.doneTask.execIn, enabled := false }
  | (false, s) => { s with enabled := true }

/-- `on_refresh`, until it has set `refreshing`. -/
def onRefresh (s : Strip) : Strip :=
  if s.refreshing then s
  else { s with refreshing := true, run := .refresh, log := s.log ++ [.start] }

/-- `on_done`, until it has cleared `refreshing`. -/
def onDone (s : Strip) : Strip :=
  { s with refreshing := false, run := .done, log := s.log ++ [.stop] }

/-- The next part of a handler that has been cut. -/
def resume (s : Strip) : Strip :=
  match s.run with
  | .idle => s
  | .refresh => { s with dirty := false, offset := 0, run := .enable }
  | .enable => { s with enabled := true, run := .idle }
  | .done =>
    { s with refreshTask := if s.dirty then s.refreshTask.exec else s.refreshTask, run := .idle }

def prPixelLedSetNorefresh (s : Strip) (offset : Nat) (value : UInt32) : Strip :=
  { s with dirty := true, pixelData := Function.update s.pixelData offset value }

def prPixelLedRefresh (s : Strip) : Strip := { s with refreshTask := s.refreshTask.exec }

/-- What happens to one strip outside of interrupts: the two calls of the application, the scheduler
with the handlers that it runs, and the alarm behind a frame. -/
inductive StripAct
  | set (offset : Nat) (value : UInt32)
  | refresh
  /-- The scheduler runs `refresh_task`. -/
  | onRefresh
  /-- The scheduler runs `done_task`. -/
  | onDone
  /-- The handler goes on. -/
  | resume
  /-- The alarm makes `done_task` pending. -/
  | expire

def Strip.step (s : Strip) : StripAct → Option Strip
  | .set offset value =>
    if offset < s.pixelCount then some (prPixelLedSetNorefresh s offset value) else none
  | .refresh => some (prPixelLedRefresh s)
  | .onRefresh =>
    if s.refreshTask = .pending ∧ s.run = .idle then
      some (PixelLed.onRefresh { s with refreshTask := .idle })
    else none
  | .onDone =>
    if s.doneTask = .pending ∧ s.run = .idle then
      some (PixelLed.onDone { s with doneTask := .idle })
    else none
  | .resume => if s.run = .idle then none else some (PixelLed.resume s)
  | .expire => if s.doneTask = .waiting then some { s with doneTask := s.doneTask.expire } else none

/-- `g_instance` of one PIO. -/
abbrev Pio := Fin 4 → Option Strip

/-- `on_pio_irq`. `room` is how many words can be put into each FIFO before it is full. -/
def onPioIrq (room : Fin 4 → Nat) (g : Pio) : Pio := fun sm =>
  (g sm).map (onPixelLedIrq (room sm))

/-- The interrupt is raised: a FIFO whose source is enabled is not full. -/
def Raised (room : Fin 4 → Nat) (g : Pio) : Prop :=
  ∃ sm, (g sm).any (·.enabled) = true ∧ room sm ≠ 0

instance (room : Fin 4 → Nat) (g : Pio) : Decidable (Raised room g) :=
  inferInstanceAs (Decidable (∃ _, _))

/-- The labels of the steps. The strips have the four state machines of the PIO, and share its
interrupt, in which each FIFO has room for some words. -/
inductive Act
  | strip (sm : Fin 4) (act : StripAct)
  | irq (room : Fin 4 → Nat)

def step (g : Pio) : Act → Option Pio
  | .strip sm act => do
    let s ← g sm
    let s ← s.step act
    some (Function.update g sm (some s))
  | .irq room => if Raised room g then some (onPioIrq room g) else none

/-- The strips on one PIO, once they are all initialised. -/
def pio : Lts Pio Act :=
  Lts.ofFun
    (fun g => ∀ sm s, g sm = some s → ∃ ledCount inv, s = prPixelLedStripInit ledCount inv) step

end Picore.PixelLed
