import Picore.PixelLed.Frames

/-!
# Pixels that are set while a strip sends

A refresh that is asked for while another one is on its way is dropped by `on_refresh`. The pixels
set meanwhile have made the strip dirty, and `on_done` asks for the refresh again. Here the handlers
run to their ends, and the interrupt may come at any time, whatever has raised it.

Results:
1. `Tracked`: a strip with the pixels that a refresh is due for; `step_exec`: a step is one or more
   steps of the strip.
2. `Updated`: what every step keeps; `step_updated`.
3. `updates_not_lost`: a refresh is pending for such pixels, or the strip is sending and dirty.
   While it is refreshing, its interrupt is enabled or `done_task` is on its way.
-/

namespace Picore.PixelLed

open Transition
open Picore.Task (Status)

def prPixelLedSet (s : Strip) (offset : Nat) (value : UInt32) : Strip :=
  prPixelLedRefresh (prPixelLedSetNorefresh s offset value)

/-- The loop of `pr_pixel_led_set_many`. -/
def setPixels (s : Strip) (offset : Nat) : List UInt32 → Strip
  | [] => s
  | v :: value => setPixels (prPixelLedSetNorefresh s offset v) (offset + 1) value

def prPixelLedSetMany (s : Strip) (offset : Nat) (value : List UInt32) : Strip :=
  prPixelLedRefresh (setPixels s offset value)

/-- The scheduler runs `refresh_task`: `on_refresh` as a whole. -/
def runRefresh (s : Strip) : Strip := resume (resume (onRefresh { s with refreshTask := .idle }))

/-- The scheduler runs `done_task`: `on_done` as a whole. -/
def runDone (s : Strip) : Strip := resume (onDone { s with doneTask := .idle })

/-- A strip, and the pixels that `pr_pixel_led_set` and `pr_pixel_led_set_many` have set since the
latest refresh started. -/
structure Tracked where
  strip : Strip
  since : List Nat

/-- What can happen to a strip that is alone on its PIO. -/
inductive Update
  | set (offset : Nat) (value : UInt32)
  | setMany (offset : Nat) (value : List UInt32)
  | setNorefresh (offset : Nat) (value : UInt32)
  | refresh
  | refreshTask
  | doneTask
  /-- The interrupt, with room for `room` words. -/
  | irq (room : Nat)
  /-- The alarm of `done_task`. -/
  | expire

def Tracked.step (t : Tracked) : Update → Option Tracked
  | .set offset value =>
    if offset < t.strip.pixelCount then
      some ⟨prPixelLedSet t.strip offset value, t.since ++ [offset]⟩
    else none
  | .setMany offset value =>
    if offset + value.length ≤ t.strip.pixelCount then
      some ⟨prPixelLedSetMany t.strip offset value,
        t.since ++ List.range' offset value.length⟩
    else none
  | .setNorefresh offset value =>
    if offset < t.strip.pixelCount then
      some { t with strip := prPixelLedSetNorefresh t.strip offset value }
    else none
  | .refresh => some { t with strip := prPixelLedRefresh t.strip }
  | .refreshTask =>
    if t.strip.refreshTask = .pending then
      -- A refresh starts unless one is on its way.
      some ⟨runRefresh t.strip, if t.strip.refreshing then t.since else []⟩
    else none
  | .doneTask =>
    if t.strip.doneTask = .pending then some { t with strip := runDone t.strip } else none
  | .irq room => some { t with strip := onPixelLedIrq room t.strip }
  | .expire =>
    if t.strip.doneTask = .waiting then
      some { t with strip := { t.strip with doneTask := t.strip.doneTask.expire } }
    else none

def updates : Lts Tracked Update :=
  Lts.ofFun (fun t => ∃ ledCount inv, t = ⟨prPixelLedStripInit ledCount inv, []⟩) Tracked.step

/-! ## 1. Steps of the strip -/

theorem runRefresh_eq {s : Strip} (h : s.run = .idle) :
    runRefresh s =
      if s.refreshing then { s with refreshTask := .idle }
      else { s with
        refreshTask := .idle
        refreshing := true
        dirty := false
        offset := 0
        enabled := true
        log := s.log ++ [.start] } := by
  cases hrefreshing : s.refreshing <;> simp [runRefresh, onRefresh, resume, hrefreshing, h]

theorem runDone_eq (s : Strip) :
    runDone s = { s with
      doneTask := .idle
      refreshing := false
      refreshTask := if s.dirty then s.refreshTask.exec else s.refreshTask
      run := .idle
      log := s.log ++ [.stop] } := rfl

/-- The loop sets pixels only, and makes the strip dirty. -/
theorem setPixels_eq (s : Strip) (offset : Nat) (value : List UInt32) :
    ∃ data, setPixels s offset value =
      { s with pixelData := data, dirty := s.dirty || decide (value ≠ []) } := by
  induction value generalizing s offset with
  | nil => exact ⟨s.pixelData, by simp [setPixels]⟩
  | cons v value ih =>
    obtain ⟨data, hdata⟩ := ih (prPixelLedSetNorefresh s offset v) (offset + 1)
    refine ⟨data, ?_⟩
    rw [setPixels, hdata]
    simp [prPixelLedSetNorefresh]

theorem setPixels_exec (s : Strip) (offset : Nat) {value : List UInt32}
    (h : offset + value.length ≤ s.pixelCount) (acts : List StripAct) :
    ∃ sets, exec Strip.step s (sets ++ acts) = exec Strip.step (setPixels s offset value) acts := by
  induction value generalizing s offset with
  | nil => exact ⟨[], rfl⟩
  | cons v value ih =>
    rw [List.length_cons] at h
    have hlt : offset < s.pixelCount := by omega
    have hle : offset + 1 + value.length ≤ s.pixelCount := by omega
    obtain ⟨sets, hsets⟩ := ih (prPixelLedSetNorefresh s offset v) (offset + 1) hle
    refine ⟨.set offset v :: sets, ?_⟩
    simp [exec, Strip.step, hlt, hsets, setPixels]

/-- A step without the interrupt is a list of steps of the strip. -/
theorem step_exec {t t' : Tracked} {a : Update} (hrun : t.strip.run = .idle)
    (h : t.step a = some t') :
    (∃ room, a = .irq room ∧ t'.strip = onPixelLedIrq room t.strip) ∨
      ∃ acts, exec Strip.step t.strip acts = some t'.strip := by
  cases a with
  | set offset value =>
    simp only [Tracked.step, Option.ite_none_right_eq_some, Option.some.injEq] at h
    obtain ⟨hlt, rfl⟩ := h
    exact .inr ⟨[.set offset value, .refresh], by simp [exec, Strip.step, hlt, prPixelLedSet]⟩
  | setMany offset value =>
    simp only [Tracked.step, Option.ite_none_right_eq_some, Option.some.injEq] at h
    obtain ⟨hle, rfl⟩ := h
    obtain ⟨sets, hsets⟩ := setPixels_exec t.strip offset hle [.refresh]
    exact .inr ⟨_, hsets⟩
  | setNorefresh offset value =>
    simp only [Tracked.step, Option.ite_none_right_eq_some, Option.some.injEq] at h
    obtain ⟨hlt, rfl⟩ := h
    exact .inr ⟨[.set offset value], by simp [exec, Strip.step, hlt]⟩
  | refresh =>
    cases h
    exact .inr ⟨[.refresh], rfl⟩
  | refreshTask =>
    simp only [Tracked.step, Option.ite_none_right_eq_some, Option.some.injEq] at h
    obtain ⟨hpending, rfl⟩ := h
    right
    rw [runRefresh_eq hrun]
    cases hrefreshing : t.strip.refreshing with
    | true =>
      exact ⟨[.onRefresh], by simp [exec, Strip.step, hpending, hrun, onRefresh, hrefreshing]⟩
    | false =>
      exact ⟨[.onRefresh, .resume, .resume],
        by simp [exec, Strip.step, hpending, hrun, onRefresh, hrefreshing, resume]⟩
  | doneTask =>
    simp only [Tracked.step, Option.ite_none_right_eq_some, Option.some.injEq] at h
    obtain ⟨hpending, rfl⟩ := h
    exact .inr ⟨[.onDone, .resume],
      by simp [exec, Strip.step, hpending, hrun, onDone, runDone]⟩
  | irq room =>
    cases h
    exact .inl ⟨room, rfl, rfl⟩
  | expire =>
    simp only [Tracked.step, Option.ite_none_right_eq_some, Option.some.injEq] at h
    obtain ⟨hwait, rfl⟩ := h
    exact .inr ⟨[.expire], by simp [exec, Strip.step, hwait]⟩

/-! ## 2. One step -/

/-- What every step keeps, on a strip that is alone on its PIO: as long as values have been set that
are not in a frame yet, a refresh is asked for or under way, and whatever is under way will end. -/
structure Updated (t : Tracked) : Prop where
  run : t.strip.run = .idle
  /-- The next `on_done` sees that pixels have been set. -/
  dirty : t.since ≠ [] → t.strip.dirty = true
  due : t.since ≠ [] → t.strip.refreshTask = .pending ∨ t.strip.refreshing = true
  going : t.strip.refreshing = true → t.strip.enabled = true ∨ t.strip.doneTask.Active

theorem init_updated (ledCount : Nat) (inv : Bool) :
    Updated ⟨prPixelLedStripInit ledCount inv, []⟩ :=
  ⟨rfl, fun h => absurd rfl h, fun h => absurd rfl h, fun h => Bool.noConfusion h⟩

/-- The calls of the program leave the transfer alone, and a pixel that is set comes with a
pending refresh. -/
theorem Updated.call {t : Tracked} (h : Updated t) (data : Nat → UInt32) (dirty : Bool)
    (refreshTask : Status) (since : List Nat) (hdirty : since ≠ [] → dirty = true)
    (hdue : since ≠ [] → refreshTask = .pending ∨ t.strip.refreshing = true) :
    Updated ⟨{ t.strip with pixelData := data, dirty := dirty, refreshTask := refreshTask },
      since⟩ :=
  ⟨h.run, hdirty, hdue, h.going⟩

/-- The interrupt either goes on or makes `done_task` wait. -/
theorem irq_frame (room : Nat) (s : Strip) :
    (onPixelLedIrq room s).run = s.run ∧ (onPixelLedIrq room s).dirty = s.dirty ∧
      (onPixelLedIrq room s).refreshTask = s.refreshTask ∧
      (onPixelLedIrq room s).refreshing = s.refreshing ∧
      ((onPixelLedIrq room s).enabled = true ∨ (onPixelLedIrq room s).doneTask.Active) := by
  obtain ⟨hrefreshing, hrun, -, hdirty, htask⟩ := fill_fields room s
  rw [onPixelLedIrq]
  split
  · next heq =>
    simp only [heq] at hrefreshing hrun hdirty htask
    exact ⟨hrun, hdirty, htask, hrefreshing, .inr (Status.active_execIn _)⟩
  · next heq =>
    simp only [heq] at hrefreshing hrun hdirty htask
    exact ⟨hrun, hdirty, htask, hrefreshing, .inl rfl⟩

theorem irq_updated {t : Tracked} (h : Updated t) (room : Nat) :
    Updated { t with strip := onPixelLedIrq room t.strip } := by
  obtain ⟨hrun, hdirty, htask, hrefreshing, hgoing⟩ := irq_frame room t.strip
  refine ⟨hrun.trans h.run, fun hs => hdirty.trans (h.dirty hs), fun hs => ?_, fun _ => hgoing⟩
  rw [htask, hrefreshing]
  exact h.due hs

theorem refreshTask_updated {t : Tracked} (h : Updated t) :
    Updated ⟨runRefresh t.strip, if t.strip.refreshing then t.since else []⟩ := by
  rw [runRefresh_eq h.run]
  cases hrefreshing : t.strip.refreshing with
  | true =>
    -- The refresh is dropped; the dirty flag stands for it.
    exact ⟨h.run, h.dirty, fun _ => .inr rfl, fun _ => h.going hrefreshing⟩
  | false =>
    exact ⟨h.run, fun hs => absurd rfl hs, fun hs => absurd rfl hs, fun _ => .inl rfl⟩

theorem doneTask_updated {t : Tracked} (h : Updated t) :
    Updated { t with strip := runDone t.strip } := by
  rw [runDone_eq]
  refine ⟨rfl, h.dirty, fun hs => .inl ?_, fun hr => Bool.noConfusion hr⟩
  rw [if_pos (h.dirty hs)]
  rfl

theorem step_updated {t t' : Tracked} {a : Update} (h : Updated t) (hs : t.step a = some t') :
    Updated t' := by
  cases a with
  | set offset value =>
    simp only [Tracked.step, Option.ite_none_right_eq_some, Option.some.injEq] at hs
    obtain ⟨-, rfl⟩ := hs
    exact h.call _ true _ _ (fun _ => rfl) fun _ => .inl rfl
  | setMany offset value =>
    simp only [Tracked.step, Option.ite_none_right_eq_some, Option.some.injEq] at hs
    obtain ⟨-, rfl⟩ := hs
    obtain ⟨data, hdata⟩ := setPixels_eq t.strip offset value
    rw [prPixelLedSetMany, hdata]
    refine h.call data _ _ _ (fun hsince => ?_) fun _ => .inl rfl
    by_cases hvalue : value = []
    · have hold : t.since ≠ [] := by simpa [hvalue] using hsince
      simp [h.dirty hold]
    · simp [hvalue]
  | setNorefresh offset value =>
    simp only [Tracked.step, Option.ite_none_right_eq_some, Option.some.injEq] at hs
    obtain ⟨-, rfl⟩ := hs
    exact h.call _ true _ _ (fun _ => rfl) h.due
  | refresh =>
    cases hs
    exact h.call _ _ _ _ h.dirty fun _ => .inl rfl
  | refreshTask =>
    simp only [Tracked.step, Option.ite_none_right_eq_some, Option.some.injEq] at hs
    obtain ⟨-, rfl⟩ := hs
    exact refreshTask_updated h
  | doneTask =>
    simp only [Tracked.step, Option.ite_none_right_eq_some, Option.some.injEq] at hs
    obtain ⟨-, rfl⟩ := hs
    exact doneTask_updated h
  | irq room =>
    cases hs
    exact irq_updated h room
  | expire =>
    simp only [Tracked.step, Option.ite_none_right_eq_some, Option.some.injEq] at hs
    obtain ⟨hwait, rfl⟩ := hs
    have hactive : t.strip.doneTask.Active := by
      rw [hwait]
      decide
    exact ⟨h.run, h.dirty, h.due, fun _ => .inr ((Status.active_expire _).mpr hactive)⟩

/-! ## 3. Runs -/

theorem updates_updated {t : Tracked} (h : updates.Reachable t) : Updated t := by
  refine h.invariant (I := Updated) ?_ fun _ _ _ => step_updated
  rintro t ⟨ledCount, inv, rfl⟩
  exact init_updated ledCount inv

/-- In every reachable state: if `pr_pixel_led_set` or `pr_pixel_led_set_many` has set a pixel since
the latest refresh started, `refresh_task` is pending or the strip is refreshing and dirty. While it
is refreshing, its interrupt is enabled or `done_task` is waiting or pending. -/
theorem updates_not_lost {t : Tracked} (h : updates.Reachable t) :
    (t.since ≠ [] → t.strip.refreshTask = .pending ∨
      (t.strip.refreshing = true ∧ t.strip.dirty = true)) ∧
    (t.strip.refreshing = true → t.strip.enabled = true ∨ t.strip.doneTask = .waiting ∨
      t.strip.doneTask = .pending) := by
  have hinv := updates_updated h
  refine ⟨fun hs => (hinv.due hs).imp_right fun hr => ⟨hr, hinv.dirty hs⟩, fun hr => ?_⟩
  refine (hinv.going hr).imp_right fun hactive => ?_
  cases hdone : t.strip.doneTask with
  | idle => exact absurd hdone hactive
  | waiting => exact .inl rfl
  | pending => exact .inr rfl

namespace UpdatesLemmas

/-- A pixel is set while the first refresh waits for its last word, and the refresh for it is
dropped. -/
def acts : List Update := [.refreshTask, .irq 4, .set 0 7, .refreshTask]

def meanwhile : Tracked := (exec Tracked.step ⟨prPixelLedStripInit 1 false, []⟩ acts).getD
  ⟨prPixelLedStripInit 1 false, []⟩

theorem reachable_meanwhile : updates.Reachable meanwhile := by
  have hexec : exec Tracked.step ⟨prPixelLedStripInit 1 false, []⟩ acts = some meanwhile := rfl
  exact Lts.reachable_exec (.init ⟨1, false, rfl⟩) hexec

end UpdatesLemmas

open UpdatesLemmas in
theorem updates_not_lost_meanwhile :
    updates.Reachable meanwhile ∧ meanwhile.since = [0] ∧
      meanwhile.strip.refreshTask = .idle ∧
      (meanwhile.strip.refreshing = true ∧ meanwhile.strip.dirty = true) := by
  refine ⟨reachable_meanwhile, rfl, rfl, ?_⟩
  exact ((updates_not_lost reachable_meanwhile).1 (by decide)).resolve_left (by decide)

end Picore.PixelLed
