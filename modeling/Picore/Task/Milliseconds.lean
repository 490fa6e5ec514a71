import Picore.Task.Refine

/-!
# Delays in microseconds and in milliseconds

`pr_task_exec_in_us` and `pr_task_exec_in_ms` have the same body around two functions of the
Pico SDK. Both take a delay of 64 bits. The one that `pr_task_exec_in_ms` passes it to takes 32
bits.

Results:
1. `Delays`: what the SDK computes. `execIn_deadline_eq`: two deadlines lead to the same state
   only if they are the same or not used.
2. `delays_agree_iff`: a delay in milliseconds is the delay of as many thousand microseconds iff
   the task is pending or the delay fits 32 bits. `long_delay_cut`: one that does not.
-/

namespace Picore.Task

open Fuel

variable {ι : Type} [DecidableEq ι] {handler : ι → Bool}

/-! ## 1. Deadlines -/

/-- The two functions of the SDK add the delay to the current time. `make_timeout_time_us` takes 64
bits and `make_timeout_time_ms` takes 32. -/
structure Delays (sdk : Sdk) : Prop where
  us : ∀ us, sdk.makeTimeoutTimeUs us = sdk.getAbsoluteTime + us % 2 ^ 64
  ms : ∀ ms, sdk.makeTimeoutTimeMs ms = sdk.getAbsoluteTime + 1000 * (ms % 2 ^ 32)

/-- A task that is not pending is left with its deadline. -/
theorem execIn_exec_at (sdk : Sdk) {s : Sched ι} {a : Schedule ι Nat}
    (h : Represents handler s a) {t : ι} (hp : (s.tasks t).pending = false) (d : Nat) :
    ∃ s', Returns (fun fuel => execIn sdk t d fuel s) s' ∧ (s'.tasks t).exec_at = d := by
  obtain ⟨s', hrun, hrep, -⟩ := execIn_represents sdk h t d (Nat.lt_succ_self _)
  have hnot : t ∉ a.pending := fun hmem => by
    rw [(h.pending_flag t).mpr hmem] at hp
    cases hp
  exact ⟨s', ⟨_, hrun⟩, hrep.exec_at (t, d) ((Schedule.mem_waiting_execIn d hnot).mpr (.inl rfl))⟩

/-- Two deadlines lead to the same state iff the task is pending or they are the same. -/
theorem execIn_deadline_eq {sdk : Sdk} {s : Sched ι} {a : Schedule ι Nat}
    (h : Represents handler s a) (t : ι) (d d' : Nat) :
    (∃ s', Returns (fun fuel => execIn sdk t d fuel s) s' ∧
      Returns (fun fuel => execIn sdk t d' fuel s) s') ↔ (s.tasks t).pending = true ∨ d = d' := by
  constructor
  · rintro ⟨s', hd, hd'⟩
    cases hp : (s.tasks t).pending with
    | true => exact .inl rfl
    | false =>
      obtain ⟨s1, hd1, h1⟩ := execIn_exec_at sdk h hp d
      obtain ⟨s2, hd2, h2⟩ := execIn_exec_at sdk h hp d'
      rw [(execIn_fueled sdk t d s).returns_unique hd1 hd] at h1
      rw [(execIn_fueled sdk t d' s).returns_unique hd2 hd', h1] at h2
      exact .inr h2
  · rintro (hp | rfl)
    · have hsame : ∀ d fuel, execIn sdk t d fuel s = .ok s := fun d fuel => if_pos hp
      exact ⟨s, ⟨0, hsame d 0⟩, ⟨0, hsame d' 0⟩⟩
    · obtain ⟨s', hrun, -⟩ := execIn_represents sdk h t d (Nat.lt_succ_self _)
      exact ⟨s', ⟨_, hrun⟩, ⟨_, hrun⟩⟩

/-! ## 2. Both functions -/

/-- The deadlines are the same iff the delay is not cut to 32 bits. -/
theorem deadlines_eq_iff {sdk : Sdk} (hsdk : Delays sdk) {ms : Nat}
    (hfit : 1000 * ms + sdk.getAbsoluteTime < 2 ^ 63) :
    sdk.makeTimeoutTimeMs ms = sdk.makeTimeoutTimeUs (1000 * ms) ↔ ms < 2 ^ 32 := by
  have hus : 1000 * ms < 2 ^ 64 := by omega
  rw [hsdk.us, hsdk.ms, Nat.mod_eq_of_lt hus, Nat.add_left_cancel_iff,
    Nat.mul_right_inj (by decide)]
  constructor
  · intro heq
    rw [← heq]
    exact Nat.mod_lt _ (by decide)
  · exact Nat.mod_eq_of_lt

/-- After any calls, both functions return, and leave the same lists, flags, deadlines and alarms,
iff the task is pending or the delay fits 32 bits. The argument of `make_timeout_time_ms` has no
more bits than that. -/
theorem delays_agree_iff {s0 s : Sched ι} (h0 : Fresh handler s0) {calls : List (Sdk × Call ι)}
    {replies : List (Reply ι)} (hrun : Returns (fun fuel => runCalls fuel calls s0) (replies, s))
    {sdk : Sdk} (hsdk : Delays sdk) (task : ι) {ms : Nat}
    (hfit : 1000 * ms + sdk.getAbsoluteTime < 2 ^ 63) :
    (∃ s', Returns (fun fuel => prTaskExecInMs sdk task ms fuel s) s' ∧
      Returns (fun fuel => prTaskExecInUs sdk task (1000 * ms) fuel s) s') ↔
      (s.tasks task).pending = true ∨ ms < 2 ^ 32 := by
  obtain ⟨fuel, hrun⟩ := hrun
  obtain ⟨a, hrep⟩ := runCalls_keeps h0.represents hrun
  rw [← deadlines_eq_iff hsdk hfit]
  exact execIn_deadline_eq hrep task _ _

namespace MillisecondsLemmas

open RefineLemmas

/-- The SDK at a given time, with arguments cut to the widths of its parameters. -/
def narrowAt (now : Nat) : Sdk :=
  { sdkAt now with
    makeTimeoutTimeUs us := now + us % 2 ^ 64
    makeTimeoutTimeMs ms := now + 1000 * (ms % 2 ^ 32) }

theorem delays_narrowAt (now : Nat) : Delays (narrowAt now) := ⟨fun _ => rfl, fun _ => rfl⟩

/-- The state after a delayed request for the other task. -/
def asked : Sched Bool :=
  match runCalls 3 [(narrowAt 0, .execInUs false 10)] start with
  | .ok (_, s) => s
  | .error _ => start

theorem asked_returns :
    Returns (fun fuel => runCalls fuel [(narrowAt 0, .execInUs false 10)] start) ([.done], asked) :=
  ⟨3, rfl⟩

end MillisecondsLemmas

open MillisecondsLemmas RefineLemmas in
theorem delays_agree_iff_second :
    (∃ s', Returns (fun fuel => prTaskExecInMs (narrowAt 5) true 1 fuel asked) s' ∧
      Returns (fun fuel => prTaskExecInUs (narrowAt 5) true 1000 fuel asked) s') ↔
      (asked.tasks true).pending = true ∨ 1 < 2 ^ 32 :=
  delays_agree_iff fresh_start asked_returns (delays_narrowAt 5) true (by decide)

open MillisecondsLemmas RefineLemmas in
/-- A delay of `2 ^ 32` milliseconds, about 50 days, ends at once. -/
theorem long_delay_cut :
    Delays (narrowAt 0) ∧ 1000 * 2 ^ 32 + (narrowAt 0).getAbsoluteTime < 2 ^ 63 ∧
    ∃ s1 s2, Returns (fun fuel => prTaskExecInMs (narrowAt 0) true (2 ^ 32) fuel start) s1 ∧
      Returns (fun fuel => prTaskExecInUs (narrowAt 0) true (1000 * 2 ^ 32) fuel start) s2 ∧
      (s1.tasks true).exec_at = 0 ∧ (s2.tasks true).exec_at = 4294967296000 := by
  have hrep := fresh_start.represents
  obtain ⟨s1, hms, h1⟩ := execIn_exec_at (narrowAt 0) hrep rfl _
  obtain ⟨s2, hus, h2⟩ := execIn_exec_at (narrowAt 0) hrep rfl _
  exact ⟨delays_narrowAt 0, by decide, s1, s2, hms, hus, h1, h2⟩

end Picore.Task
