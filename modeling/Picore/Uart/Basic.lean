import Picore.Lib.Transition
import Picore.Task.Status

/-!
# The UART driver (`src/uart/uart.c`)

One `struct pr_uart`, its interrupt, its two tasks, and the FIFOs that it can be attached to,
which are queues of bytes here. The queue of the tasks runs them one at a time, possibly on
the other core: the handlers are cut after each round of their loops, and `on_uart_io` before
each of its calls.

The pins and the setup of the hardware are left out, and so are the baud rate and the format.
-/

namespace Picore.Uart

open Transition
open Picore.Task (Status)

variable {φ : Type}

/-- The tasks `to_port_task` and `from_port_task`, each of which moves bytes between the driver and
one FIFO. -/
inductive PortTask
  | toPort
  | fromPort
  deriving DecidableEq

/-- `struct pr_uart`: the FIFOs that it is attached to, and the byte of each direction with its
flag. The tasks are in `Sys`. -/
structure PrUart (φ : Type) where
  toPort : Option φ
  fromPort : Option φ
  rxbuf : UInt8
  txbuf : UInt8
  rxbufFree : UInt8
  txbufBusy : UInt8

/-- A FIFO of `size` bytes. `producer` and `consumer` are `none` also if they are tasks of
somebody else. -/
structure Port where
  bytes : List UInt8
  size : Nat
  producer : Option PortTask
  consumer : Option PortTask

/-- Where the handler of a task stands. The queue of the tasks runs one handler at a time, so there
is one such place. -/
inductive Run
  | idle
  /-- Before a round of its loop. -/
  | looping (t : PortTask)
  /-- Behind the loop. -/
  | leaving
  deriving DecidableEq

/-- What `on_uart_io` does next, with the flags that it has read before. -/
inductive Io
  | idle
  | isWritable
  | isReadable (isW : Bool)
  | execToPort (isW isR : Bool)
  | execFromPort (isR : Bool)
  | disable
  deriving DecidableEq

/-- The driver, the FIFOs, the statuses of the tasks and the enables of the interrupt.
`taken` and `put` are the bytes taken from the attached FIFOs and those given to
`uart_putc_raw`, `got` those from `uart_getc` and `delivered` those put into the attached
FIFOs. -/
structure Sys (φ : Type) where
  uart : PrUart φ
  ports : φ → Port
  status : PortTask → Status
  rxIrq : Bool
  txIrq : Bool
  run : Run
  io : Io
  taken : List UInt8
  put : List UInt8
  got : List UInt8
  delivered : List UInt8

/-- What the hardware answers: the byte at the head of its receive FIFO, if it is readable,
and whether it is writable. -/
structure Hw where
  readable : Option UInt8
  writable : Bool

/-- The fields that `pr_uart_init` sets. -/
def prUartInit (mem : PrUart φ) : PrUart φ :=
  { mem with fromPort := none, toPort := none, rxbufFree := 1 }

/-- After `pr_uart_init`, among some FIFOs. -/
def start (mem : PrUart φ) (ports : φ → Port) : Sys φ where
  uart := prUartInit mem
  ports := ports
  status _ := .idle
  rxIrq := false
  txIrq := false
  run := .idle
  io := .idle
  taken := []
  put := []
  got := []
  delivered := []

/-- `pr_task_exec`. -/
def Sys.exec (s : Sys φ) : Option PortTask → Sys φ
  | none => s
  | some t => { s with status := Function.update s.status t (s.status t).exec }

/-- `uart_set_irq_enables`. -/
def Sys.setIrqEnables (s : Sys φ) (rxHasData txNeedsData : Bool) : Sys φ :=
  { s with rxIrq := rxHasData, txIrq := txNeedsData }

variable [DecidableEq φ]

/-- `pr_fifo_write` of one byte, `none` if it returns 0. -/
def Sys.fifoWrite (s : Sys φ) (f : φ) (b : UInt8) : Option (Sys φ) :=
  let p := s.ports f
  if p.bytes.length < p.size then
    some (({ s with
      ports := Function.update s.ports f { p with bytes := p.bytes ++ [b] } } : Sys φ).exec
        p.consumer)
  else none

/-- `pr_fifo_read` of one byte, `none` if it returns 0. -/
def Sys.fifoRead (s : Sys φ) (f : φ) : Option (UInt8 × Sys φ) :=
  let p := s.ports f
  match p.bytes with
  | [] => none
  | b :: rest =>
    some (b, ({ s with
      ports := Function.update s.ports f { p with bytes := rest } } : Sys φ).exec p.producer)

/-- A round of the loop of `on_from_port`. -/
def onFromPort (s : Sys φ) (hw : Hw) : Sys φ :=
  match s.uart.fromPort with
  | none => { s with run := .leaving }
  | some f =>
    if s.uart.rxbufFree = 0 then
      match s.fifoWrite f s.uart.rxbuf with
      | none => { s with run := .leaving }
      | some s' =>
        { s' with
          uart := { s.uart with rxbufFree := 1 }
          delivered := s.delivered ++ [s.uart.rxbuf] }
    else
      match hw.readable with
      | none => { s with run := .leaving }
      | some c => { s with uart := { s.uart with rxbuf := c, rxbufFree := 0 }, got := s.got ++ [c] }

/-- A round of the loop of `on_to_port`. -/
def onToPort (s : Sys φ) (hw : Hw) : Sys φ :=
  match s.uart.toPort with
  | none => { s with run := .leaving }
  | some f =>
    if s.uart.txbufBusy = 0 then
      match s.fifoRead f with
      | none => { s with run := .leaving }
      | some (b, s') =>
        { s' with uart := { s.uart with txbuf := b, txbufBusy := 1 }, taken := s.taken ++ [b] }
    else if hw.writable then
      { s with uart := { s.uart with txbufBusy := 0 }, put := s.put ++ [s.uart.txbuf] }
    else { s with run := .leaving }

/-- The end of `on_from_port` and of `on_to_port`. -/
def Sys.leave (s : Sys φ) : Sys φ :=
  { s.setIrqEnables (s.uart.rxbufFree != 0) (s.uart.txbufBusy != 0) with run := .idle }

/-- The next step of `on_uart_io`. -/
def onUartIo (s : Sys φ) (hw : Hw) : Sys φ :=
  match s.io with
  | .idle => s
  | .isWritable => { s with io := .isReadable hw.writable }
  | .isReadable isW => { s with io := .execToPort isW hw.readable.isSome }
  | .execToPort isW isR =>
    { (if isW then s.exec (some .toPort) else s) with io := .execFromPort isR }
  | .execFromPort isR => { (if isR then s.exec (some .fromPort) else s) with io := .disable }
  | .disable => { s.setIrqEnables false false with io := .idle }

/-- `pr_fifo_producer_set`. -/
def producerSet (ports : φ → Port) (f : φ) (task : Option PortTask) : φ → Port :=
  Function.update ports f { ports f with producer := task }

/-- `pr_fifo_consumer_set`. -/
def consumerSet (ports : φ → Port) (f : φ) (task : Option PortTask) : φ → Port :=
  Function.update ports f { ports f with consumer := task }

/-- `pr_uart_attach`: the FIFOs that were attached lose the tasks of the driver, the new ones get
them, and both interrupts of the UART are enabled. -/
def prUartAttach (s : Sys φ) (fromUart toUart : Option φ) : Sys φ :=
  let ports := s.uart.fromPort.elim s.ports fun f => producerSet s.ports f none
  let ports := s.uart.toPort.elim ports fun f => consumerSet ports f none
  let uart := { s.uart with toPort := toUart, fromPort := fromUart }
  let ports := uart.fromPort.elim ports fun f => producerSet ports f (some .fromPort)
  let ports := uart.toPort.elim ports fun f => consumerSet ports f (some .toPort)
  ({ s with uart := uart, ports := ports } : Sys φ).setIrqEnables true true

/-- The labels of the steps: the application attaches FIFOs and uses their other ends, tasks are
asked for and run, and the interrupt goes on by one call. -/
inductive Act (φ : Type)
  | attach (fromUart toUart : Option φ)
  /-- Somebody else reads, writes or clears a FIFO. -/
  | port (f : φ) (bytes : List UInt8)
  /-- Somebody else passes a task to `pr_task_exec`. -/
  | notify (t : PortTask)
  /-- The scheduler runs a task. -/
  | run (t : PortTask)
  /-- A round of the loop of its handler. -/
  | round (hw : Hw)
  /-- Its handler returns. -/
  | leave
  /-- The interrupt comes. -/
  | irq (hw : Hw)
  /-- Its handler goes on. -/
  | io (hw : Hw)

/-- One step. The interrupt comes only for a condition that is enabled. -/
def step (s : Sys φ) : Act φ → Option (Sys φ)
  | .attach fromUart toUart => some (prUartAttach s fromUart toUart)
  | .port f bytes =>
    some { s with ports := Function.update s.ports f { s.ports f with bytes := bytes } }
  | .notify t => some (s.exec (some t))
  | .run t =>
    if s.status t = .pending ∧ s.run = .idle then
      some { s with status := Function.update s.status t .idle, run := .looping t }
    else none
  | .round hw =>
    match s.run with
    | .looping .fromPort => some (onFromPort s hw)
    | .looping .toPort => some (onToPort s hw)
    | _ => none
  | .leave => if s.run = .leaving then some s.leave else none
  | .irq hw =>
    if s.io = .idle ∧ (s.rxIrq = true ∧ hw.readable.isSome = true ∨
        s.txIrq = true ∧ hw.writable = true) then
      some { s with io := .isWritable }
    else none
  | .io hw => if s.io = .idle then none else some (onUartIo s hw)

/-- The driver in the memory `mem`, from `pr_uart_init` on. -/
def uart (mem : PrUart φ) : Lts (Sys φ) (Act φ) :=
  Lts.ofFun (fun s => ∃ ports, s = start mem ports) step

/-! ## What a step does -/

/-- The cases of `step`: under which condition each label is enabled, and the state behind it. -/
inductive Steps (s : Sys φ) : Act φ → Sys φ → Prop
  | attach (fromUart toUart : Option φ) :
    Steps s (.attach fromUart toUart) (prUartAttach s fromUart toUart)
  | port (f : φ) (bytes : List UInt8) :
    Steps s (.port f bytes)
      { s with ports := Function.update s.ports f { s.ports f with bytes := bytes } }
  | notify (t : PortTask) : Steps s (.notify t) (s.exec (some t))
  | run (t : PortTask) (hpending : s.status t = .pending) (hidle : s.run = .idle) :
    Steps s (.run t) { s with status := Function.update s.status t .idle, run := .looping t }
  | fromPort (hw : Hw) (hrun : s.run = .looping .fromPort) : Steps s (.round hw) (onFromPort s hw)
  | toPort (hw : Hw) (hrun : s.run = .looping .toPort) : Steps s (.round hw) (onToPort s hw)
  | leave (hrun : s.run = .leaving) : Steps s .leave s.leave
  | irq (hw : Hw) (hidle : s.io = .idle)
    (hirq : s.rxIrq = true ∧ hw.readable.isSome = true ∨ s.txIrq = true ∧ hw.writable = true) :
    Steps s (.irq hw) { s with io := .isWritable }
  | io (hw : Hw) (hio : s.io ≠ .idle) : Steps s (.io hw) (onUartIo s hw)

theorem step_cases {s t : Sys φ} {a : Act φ} (hs : step s a = some t) : Steps s a t := by
  cases a with
  | attach fromUart toUart =>
    cases hs
    exact .attach fromUart toUart
  | port f bytes =>
    cases hs
    exact .port f bytes
  | notify u =>
    cases hs
    exact .notify u
  | run u =>
    simp only [step, Option.ite_none_right_eq_some, Option.some.injEq] at hs
    obtain ⟨hrun, rfl⟩ := hs
    exact .run u hrun.1 hrun.2
  | round hw =>
    simp only [step] at hs
    split at hs
    · next hrun =>
      cases hs
      exact .fromPort hw hrun
    · next hrun =>
      cases hs
      exact .toPort hw hrun
    · cases hs
  | leave =>
    simp only [step, Option.ite_none_right_eq_some, Option.some.injEq] at hs
    obtain ⟨hrun, rfl⟩ := hs
    exact .leave hrun
  | irq hw =>
    simp only [step, Option.ite_none_right_eq_some, Option.some.injEq] at hs
    obtain ⟨hirq, rfl⟩ := hs
    exact .irq hw hirq.1 hirq.2
  | io hw =>
    simp only [step, Option.ite_none_left_eq_some, Option.some.injEq] at hs
    obtain ⟨hio, rfl⟩ := hs
    exact .io hw hio

/-! ## Frames -/

omit [DecidableEq φ] in
/-- `pr_task_exec` only changes the statuses, and no task stops being pending. -/
theorem exec_frame (s : Sys φ) (task : Option PortTask) :
    ∃ status, s.exec task = { s with status := status } ∧
      ∀ t, s.status t = .pending → status t = .pending := by
  cases task with
  | none => exact ⟨s.status, rfl, fun _ h => h⟩
  | some u => exact ⟨_, rfl, fun _ h => Status.update_exec s.status (P := (· = .pending)) rfl u h⟩

theorem fifoWrite_frame {s s' : Sys φ} {f : φ} {b : UInt8} (h : s.fifoWrite f b = some s') :
    ∃ ports status, s' = { s with ports := ports, status := status } := by
  simp only [Sys.fifoWrite] at h
  split at h
  · cases h
    obtain ⟨status, heq, -⟩ := exec_frame { s with
      ports := Function.update s.ports f { s.ports f with bytes := (s.ports f).bytes ++ [b] } }
      (s.ports f).consumer
    exact ⟨_, status, heq⟩
  · cases h

theorem fifoRead_frame {s s' : Sys φ} {f : φ} {b : UInt8} (h : s.fifoRead f = some (b, s')) :
    ∃ ports status, s' = { s with ports := ports, status := status } := by
  simp only [Sys.fifoRead] at h
  split at h
  · cases h
  · next b' rest hbytes =>
    cases h
    obtain ⟨status, heq, -⟩ := exec_frame { s with
      ports := Function.update s.ports f { s.ports f with bytes := rest } } (s.ports f).producer
    exact ⟨_, status, heq⟩

end Picore.Uart
