import Mathlib.Data.List.Basic

/-!
# A lock and the stacks of its contexts

Each context has a stack of frames, some of which hold the lock. `Owned` says that the
lock has an owner exactly when one frame of one context holds it. It is kept when a
context replaces its stack by one with as many holding frames, when it takes a free lock,
and when it releases the lock.
-/

namespace Lock

variable {κ π : Type} [DecidableEq κ] {holds : π → Bool}

/-- The owner has one frame that holds the lock, and the other contexts have none. -/
def Owned (holds : π → Bool) (lock : Option κ) (stack : κ → List π) : Prop :=
  ∀ k, (stack k).countP holds = if lock = some k then 1 else 0

namespace Owned

variable {lock : Option κ} {stack : κ → List π} {k : κ} {frames : List π}

/-- A context with a frame that holds the lock owns it. -/
theorem owner (h : Owned holds lock stack) {pc : π} (hmem : pc ∈ stack k)
    (hpc : holds pc = true) : lock = some k := by
  by_contra hne
  have hnone := (h k).trans (if_neg hne)
  exact List.countP_eq_zero.mp hnone pc hmem hpc

theorem keep (h : Owned holds lock stack)
    (hcount : frames.countP holds = (stack k).countP holds) :
    Owned holds lock (Function.update stack k frames) := by
  intro j
  rcases eq_or_ne j k with rfl | hj
  · rw [Function.update_self, hcount]
    exact h j
  · rw [Function.update_of_ne hj]
    exact h j

theorem acquire (h : Owned holds none stack)
    (hcount : frames.countP holds = (stack k).countP holds + 1) :
    Owned holds (some k) (Function.update stack k frames) := by
  have hnone : ∀ j, (stack j).countP holds = 0 := h
  intro j
  rcases eq_or_ne j k with rfl | hj
  · rw [Function.update_self, hcount, hnone, if_pos rfl]
  · rw [Function.update_of_ne hj, hnone, if_neg fun he => hj (Option.some.inj he).symm]

theorem release (h : Owned holds lock stack)
    (hcount : (stack k).countP holds = frames.countP holds + 1) :
    Owned holds none (Function.update stack k frames) := by
  obtain ⟨pc, hmem, hpc⟩ : ∃ pc ∈ stack k, holds pc = true :=
    List.countP_pos_iff.mp (hcount ▸ Nat.succ_pos _)
  obtain rfl : lock = some k := h.owner hmem hpc
  intro j
  rw [if_neg (by simp)]
  rcases eq_or_ne j k with rfl | hj
  · have hone := h j
    rw [if_pos rfl, hcount] at hone
    rw [Function.update_self]
    exact Nat.succ.inj hone
  · rw [Function.update_of_ne hj, h j, if_neg fun he => hj (Option.some.inj he).symm]

end Owned

end Lock
