import Picore.Cdc.Basic

/-!
# Waiting data

Data in `to_usb` should not be left behind: while the host is connected, somebody has to
schedule the handler. `pr_fifo_write_done` does, and so does the handler itself, but only
while it sees the connection. `tud_cdc_line_state_cb`, which tells of a new connection, does
not.

Results:
1. `Covered`: there is no data, or the handler is going to look; `Noticed`.
2. `Inv`, `step_inv`: one step.
3. `waiting_data_scheduled`: as long as each new connection is noticed, no data is stranded.
   `connected_data_stranded`: data that is.
-/

namespace Picore.Cdc

open Memory Transition
open Picore.Fifo
open Picore.Task (Status)

variable {ι : Type}

/-! ## 1. Covered data -/

/-- The handler is running and has yet to schedule itself again, or to see that the host is
gone. -/
def Run.Looking (r : Run) : Prop := r ≠ .idle ∧ r ≠ .finish

/-- There is no data for the host, or the handler is going to look. -/
def Bridge.Covered (s : Bridge ι) : Prop :=
  s.toUsb.used = 0 ∨ (s.status s.handler).Active ∨ s.run.Looking

/-- Outside of a run of the handler, data for a connected host has the handler scheduled. -/
def Bridge.Kept (s : Bridge ι) : Prop :=
  s.connected = true → s.callback = false → s.run = .idle → s.toUsb.used ≠ 0 →
    (s.status s.handler).Active

/-- When the callback tells of a connection, the data is covered already. -/
def Noticed (s : Bridge ι) : Act ι → Prop
  | .lineState _ => s.connected = true → s.Covered
  | _ => True

instance (r : Run) : Decidable r.Looking := inferInstanceAs (Decidable (_ ∧ _))

instance (s : Bridge ι) : Decidable s.Covered := inferInstanceAs (Decidable (_ ∨ _ ∨ _))

instance (s : Bridge ι) : DecidablePred (Noticed s)
  | .lineState _ => inferInstanceAs (Decidable (_ → _))
  | .host _ | .lineCoding _ | .txComplete | .rx | .expire _ | .run _ | .handler _ | .write _
  | .read _ => .isTrue trivial

/-! ## 2. One step -/

theorem prFifoReadPrepare_consumer (f : PrFifo ι) (n : Nat) :
    (prFifoReadPrepare f n).2.2.consumer = f.consumer := by
  unfold prFifoReadPrepare
  lift_lets
  intro _ rptr size
  simp only [apply_ite Prod.snd, apply_ite PrFifo.consumer, ite_self]

/-- `pr_fifo_write_prepare` keeps the consumer, and the whole FIFO if it grants nothing. -/
theorem prFifoWritePrepare_frame (f : PrFifo ι) (n : Nat) :
    (prFifoWritePrepare f n).2.2.consumer = f.consumer ∧
      ((prFifoWritePrepare f n).1 = 0 → (prFifoWritePrepare f n).2.2 = f) := by
  unfold prFifoWritePrepare
  lift_lets
  intro _ wptr size
  by_cases h : size = 0
  · simp [h]
  · simp [h]

theorem prFifoReadDone_consumer (f : PrFifo ι) (n : Nat) :
    (prFifoReadDone f n).1.consumer = f.consumer := by
  simp only [prFifoReadDone]
  split <;> rfl

variable [DecidableEq ι]

/-- A call of `pr_task_exec` only changes the statuses, and nobody becomes idle. -/
theorem exec_frame (s : Bridge ι) (task : Option ι) :
    ∃ status, s.exec task = { s with status := status } ∧
      ∀ t, (s.status t).Active → (status t).Active := by
  cases task with
  | none => exact ⟨s.status, rfl, fun _ h => h⟩
  | some u => exact ⟨_, rfl, fun _ h => Status.update_exec s.status (by decide) u h⟩

theorem exec_active (s : Bridge ι) (t : ι) : ((s.exec (some t)).status t).Active := by
  show (Function.update s.status t _ t).Active
  rw [Function.update_self]
  exact Status.active_exec _

theorem exec_run (s : Bridge ι) (task : Option ι) (r : Run) :
    { s.exec task with run := r } = ({ s with run := r } : Bridge ι).exec task := by
  cases task <;> rfl

/-- What the callback does, once it has been called. -/
theorem lineState_eq (s : Bridge ι) (rts : Bool) :
    { tudCdcLineStateCb s rts with callback := false } =
      ({ s with ctsrts := rts, events := s.events ||| eventCtsrts, callback := false } :
        Bridge ι).exec s.onEvent := by
  unfold tudCdcLineStateCb
  cases s.onEvent <;> rfl

theorem exec_other (s : Bridge ι) {task : Option ι} {t : ι} (h : task ≠ some t) :
    (s.exec task).status t = s.status t := by
  cases task with
  | none => rfl
  | some u => exact Function.update_of_ne (fun heq => h (congrArg some heq.symm)) _ _

/-- A round of `pr_fifo_write` that puts something wakes the consumer. -/
theorem writeRound_eq (s : Bridge ι) (data : List UInt8) :
    s.writeRound data = s ∨ ∃ toUsb, toUsb.consumer = s.toUsb.consumer ∧
      s.writeRound data = ({ s with toUsb := toUsb } : Bridge ι).exec s.toUsb.consumer := by
  obtain ⟨hconsumer, hzero⟩ := prFifoWritePrepare_frame s.toUsb data.length
  unfold Bridge.writeRound
  generalize prFifoWritePrepare s.toUsb data.length = r at hconsumer hzero ⊢
  obtain ⟨size, dst, toUsb⟩ := r
  simp only at hconsumer hzero
  by_cases hsize : size = 0
  · left
    obtain rfl := hzero hsize
    simp [hsize, prFifoWriteDone, Bridge.exec]
  · right
    refine ⟨{ toUsb with
      buffer := store toUsb.buffer dst (data.take size), used := toUsb.used + size }, hconsumer, ?_⟩
    simp only [prFifoWriteDone, hsize, if_false, hconsumer]

/-- The handler is the consumer of `to_usb`, and the data is covered once the host and the
callback are through. -/
structure Inv (s : Bridge ι) : Prop where
  consumer : s.toUsb.consumer = some s.handler
  covered : s.connected = true → s.callback = false → s.Covered

theorem init_inv (handler : ι) (toUsb fromUsb : PrFifo ι) (onEvent : Option ι) (ctsrts : Bool)
    (status : ι → Status) (connected callback : Bool) :
    Inv (prCdcInterfaceInit handler toUsb fromUsb onEvent ctsrts status connected callback) :=
  ⟨rfl, fun _ _ => .inr (.inl (exec_active _ handler))⟩

theorem Inv.exec {s : Bridge ι} (h : Inv s) (task : Option ι) : Inv (s.exec task) := by
  obtain ⟨status, heq, hactive⟩ := exec_frame s task
  rw [heq]
  refine ⟨h.consumer, fun hconn hcb => ?_⟩
  exact (h.covered hconn hcb).imp_right (Or.imp_left (hactive _))

omit [DecidableEq ι] in
theorem Inv.looking {s : Bridge ι} (hc : s.toUsb.consumer = some s.handler)
    (hrun : s.run.Looking) : Inv s :=
  ⟨hc, fun _ _ => .inr (.inr hrun)⟩

theorem handlerStep_inv {s : Bridge ι} (h : Inv s) (hidle : s.run ≠ .idle) (usb : Usb) :
    Inv (s.handlerStep usb) := by
  unfold Bridge.handlerStep
  split
  · next hrun => exact absurd hrun hidle
  · -- Only a connected host makes the handler look.
    split
    · split
      · exact .looking h.consumer ⟨nofun, nofun⟩
      · exact .looking h.consumer ⟨nofun, nofun⟩
    · next hconn =>
      split
      · exact ⟨h.consumer, fun hc => absurd hc hconn⟩
      · exact ⟨h.consumer, fun hc => absurd hc hconn⟩
  · split
    · exact .looking h.consumer ⟨nofun, nofun⟩
    · exact .looking h.consumer ⟨nofun, nofun⟩
  · next usbFree hrun =>
    refine .looking ((prFifoReadPrepare_consumer s.toUsb usbFree).trans h.consumer) ?_
    show Run.Looking (ite _ _ _)
    split
    · exact ⟨nofun, nofun⟩
    · exact ⟨nofun, nofun⟩
  · next trSize hrun =>
    have hdone : Inv { s with toUsb := (prFifoReadDone s.toUsb trSize).1 } :=
      .looking ((prFifoReadDone_consumer s.toUsb trSize).trans h.consumer)
        (by rw [hrun]; exact ⟨nofun, nofun⟩)
    exact .looking (hdone.exec _).consumer ⟨nofun, nofun⟩
  · next trSize hrun =>
    refine .looking ?_ ⟨nofun, nofun⟩
    show (ite _ _ _ : Bridge ι).toUsb.consumer = _
    split
    · exact h.consumer
    · exact h.consumer
  · split
    · exact .looking h.consumer ⟨nofun, nofun⟩
    · exact .looking h.consumer ⟨nofun, nofun⟩
  · exact .looking h.consumer ⟨nofun, nofun⟩
  · next trData trSize hrun =>
    have hdone : ∀ fromUsb, Inv { s with fromUsb := fromUsb } := fun _ => ⟨h.consumer, h.covered⟩
    exact .looking ((hdone _).exec _).consumer ⟨nofun, nofun⟩
  · refine ⟨h.consumer, fun _ _ => .inr (.inl ?_)⟩
    show (Function.update s.status s.handler _ s.handler).Active
    rw [Function.update_self]
    exact Status.active_execIn _
  · next hrun =>
    have hend : Inv { s with run := .idle } := by
      refine ⟨h.consumer, fun hc hcb => ?_⟩
      rcases h.covered hc hcb with h1 | h1 | h1
      · exact .inl h1
      · exact .inr (.inl h1)
      · exact absurd hrun h1.2
    split
    · exact hend
    · rw [exec_run]
      exact hend.exec s.onEvent

/-- Every step keeps the invariant, if a new connection is noticed. -/
theorem step_inv {s t : Bridge ι} {a : Act ι} (h : Inv s) (hs : step s a = some t)
    (hok : Noticed s a) : Inv t := by
  cases a with
  | host connected =>
    simp only [step, Option.ite_none_left_eq_some, Option.some.injEq] at hs
    obtain ⟨-, rfl⟩ := hs
    exact ⟨h.consumer, fun _ hcb => by cases hcb⟩
  | lineState rts =>
    simp only [step, Option.ite_none_right_eq_some, Option.some.injEq] at hs
    obtain ⟨-, rfl⟩ := hs
    rw [lineState_eq]
    exact Inv.exec (s := { s with
      ctsrts := rts, events := s.events ||| eventCtsrts, callback := false })
      ⟨h.consumer, fun hc _ => hok hc⟩ s.onEvent
  | lineCoding lc =>
    cases hs
    exact Inv.exec (s := { s with lc := lc, events := s.events ||| eventLc })
      ⟨h.consumer, h.covered⟩ s.onEvent
  | txComplete =>
    cases hs
    exact h.exec _
  | rx =>
    cases hs
    exact h.exec _
  | expire u =>
    cases hs
    refine ⟨h.consumer, fun hc hcb => (h.covered hc hcb).imp_right (Or.imp_left fun hactive => ?_)⟩
    show (Function.update s.status u _ s.handler).Active
    rcases eq_or_ne s.handler u with heq | hne
    · rw [heq, Function.update_self, Status.active_expire, ← heq]
      exact hactive
    · rw [Function.update_of_ne hne]
      exact hactive
  | run u =>
    simp only [step] at hs
    split at hs
    · split at hs
      · split at hs
        · cases hs
          exact .looking h.consumer ⟨nofun, nofun⟩
        · cases hs
      · next hne =>
        cases hs
        refine ⟨h.consumer, fun hc hcb => ?_⟩
        refine (h.covered hc hcb).imp_right (Or.imp_left fun hactive => ?_)
        show (Function.update s.status u _ s.handler).Active
        rw [Function.update_of_ne (Ne.symm hne)]
        exact hactive
    · cases hs
  | handler usb =>
    simp only [step, Option.ite_none_left_eq_some, Option.some.injEq] at hs
    obtain ⟨hrun, rfl⟩ := hs
    exact handlerStep_inv h hrun usb
  | write data =>
    cases hs
    rcases writeRound_eq s data with heq | ⟨toUsb, hconsumer, heq⟩
    · rw [heq]
      exact h
    · -- The handler is the consumer that is woken.
      rw [heq, h.consumer]
      exact ⟨hconsumer.trans h.consumer, fun _ _ => .inr (.inl (exec_active _ _))⟩
  | read n =>
    cases hs
    have hread : ∀ fromUsb, Inv { s with fromUsb := fromUsb } := fun _ => ⟨h.consumer, h.covered⟩
    exact (hread _).exec _

/-! ## 3. Main result -/

theorem reachable_inv {s : Bridge ι} (h : (bridge.guard Noticed).Reachable s) : Inv s := by
  refine h.invariant (I := Inv) ?_ ?_
  · rintro s ⟨handler, toUsb, fromUsb, onEvent, ctsrts, status, connected, callback, rfl⟩
    exact init_inv handler toUsb fromUsb onEvent ctsrts status connected callback
  · rintro s a t hs ⟨hstep, hok⟩
    exact step_inv hs hstep hok

omit [DecidableEq ι] in
theorem Inv.kept {s : Bridge ι} (h : Inv s) : s.Kept := by
  intro hc hcb hrun hused
  rcases h.covered hc hcb with h1 | h1 | h1
  · exact absurd h1 hused
  · exact h1
  · exact absurd hrun h1.1

/-- No data is stranded as long as every connection is noticed: when the callback comes, the
FIFO is empty, or the handler is scheduled or about to look. Outside of a run of the handler,
a connection that is not noticed strands the data. -/
theorem waiting_data_scheduled {s : Bridge ι} (h : (bridge.guard Noticed).Reachable s) :
    s.Kept ∧ ∀ rts t, s.run = .idle → s.onEvent ≠ some s.handler →
      step s (.lineState rts) = some t → (t.Kept ↔ Noticed s (.lineState rts)) := by
  have hinv := reachable_inv h
  refine ⟨hinv.kept, fun rts t hrun hother hs => ⟨fun hkept hc => ?_, fun hok => ?_⟩⟩
  · simp only [step] at hs
    split at hs
    · cases hs
      rw [lineState_eq] at hkept
      obtain ⟨status, heq, -⟩ := exec_frame { s with
        ctsrts := rts, events := s.events ||| eventCtsrts, callback := false } s.onEvent
      have hstatus := exec_other { s with
        ctsrts := rts, events := s.events ||| eventCtsrts, callback := false } hother
      rw [heq] at hkept hstatus
      by_cases hused : s.toUsb.used = 0
      · exact .inl hused
      · refine .inr (.inl ?_)
        have hactive : (status s.handler).Active := hkept hc rfl hrun hused
        rwa [show status s.handler = s.status s.handler from hstatus] at hactive
    · cases hs
  · exact (step_inv hinv hs hok).kept

namespace StrandLemmas

/-- Two FIFOs of eight bytes. No host is connected, and the handler has not run yet. -/
def fresh : Bridge Bool :=
  prCdcInterfaceInit true (prFifoInit (fun _ => 0) 8) (prFifoInit (fun _ => 0) 8) (some false)
    false (fun _ => .idle) false false

def looksInVain : List (Act Bool) :=
  [.run true, .handler ⟨0, 0, fun _ => 0⟩, .handler ⟨0, 0, fun _ => 0⟩]

theorem reachable_fresh : (bridge.guard Noticed).Reachable fresh :=
  .init ⟨_, _, _, _, _, _, _, _, rfl⟩

end StrandLemmas

open StrandLemmas in
/-- The application writes, and the host connects before the handler has run. -/
theorem waiting_data_scheduled_early : ∃ s : Bridge Bool,
    (bridge.guard Noticed).Reachable s ∧ s.connected = true ∧ s.callback = false ∧
    s.toUsb.used = 2 ∧ s.Kept := by
  have hexec : exec (guarded step Noticed) fresh [.write [1, 2], .host true, .lineState true] =
      some _ := rfl
  have hreach := reachable_fresh.exec_guarded hexec
  exact ⟨_, hreach, rfl, rfl, rfl, (waiting_data_scheduled hreach).1⟩

open StrandLemmas in
/-- The handler has found no host after the application has written. The host connects, and
nothing schedules the handler. -/
theorem connected_data_stranded : ∃ s : Bridge Bool, bridge.Reachable s ∧
    s.connected = true ∧ s.callback = false ∧ s.run = .idle ∧ s.toUsb.used = 2 ∧
    s.status s.handler = .idle ∧ ¬s.Kept := by
  have hexec : exec step fresh (.write [1, 2] :: looksInVain ++ [.host true, .lineState true]) =
      some _ := rfl
  have hreach := Lts.reachable_exec reachable_fresh.of_guard hexec
  refine ⟨_, hreach, rfl, rfl, rfl, rfl, rfl, fun hkept => ?_⟩
  exact absurd (hkept rfl rfl rfl (by decide)) (by decide)

end Picore.Cdc
