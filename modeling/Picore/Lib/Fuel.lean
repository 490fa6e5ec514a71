import Mathlib.Logic.Basic
import Mathlib.Tactic.Common

/-!
# Computations that may fault or not end

An outcome is a value, a fault, or `timeout`: the computation has not ended
within the fuel it was given. A computation with unbounded loops is a function
of its fuel, and more fuel only turns `timeout` into something else.

Results:
1. `bind_eq_ok`: how a sequence of computations returns.
2. `Approx`, `Approx.bind`: the order in which `timeout` is least.
3. `Fueled.ok_mono`, `Fueled.returns_unique`: what a fueled computation returns
   does not depend on the fuel.
4. `Safe`, `Safe.bind`: a computation does not fault and keeps a postcondition.
   `Ensures`, `Ensures.bind`: the same for one that may fault.
5. `Ends`, `Ends.bind`: a computation does not run out of fuel. If it is safe as well, it
   returns (`Safe.returns`).
6. `Alike`, `Alike.bind`: two computations that come to the same, but for what they return. Both
   return or none does (`Returns.alike`).
-/

namespace Fuel

variable {ε α β γ δ : Type}

/-- Why a computation has no value: it has met an error of the program, or its fuel did not suffice.
-/
inductive Stop (ε : Type)
  | fault (e : ε)
  | timeout

abbrev Outcome (ε α : Type) := Except (Stop ε) α

/-! ## 1. Sequencing -/

@[simp] theorem bind_ok (a : α) (f : α → Outcome ε β) :
    ((.ok a : Outcome ε α) >>= f) = f a := rfl

@[simp] theorem bind_error (e : Stop ε) (f : α → Outcome ε β) :
    ((.error e : Outcome ε α) >>= f) = .error e := rfl

theorem bind_eq_ok {x : Outcome ε α} {f : α → Outcome ε β} {b : β} :
    (x >>= f) = .ok b ↔ ∃ a, x = .ok a ∧ f a = .ok b := by
  cases x with
  | ok a => simp
  | error e => simp

theorem toOption_eq_some {x : Outcome ε α} {a : α} : x.toOption = some a ↔ x = .ok a := by
  cases x with
  | ok b => simp [Except.toOption]
  | error e => simp [Except.toOption]

/-! ## 2. The order on outcomes -/

/-- `x` is what `y` is, as far as its fuel goes: it is the same, or it has not ended yet. -/
def Approx (x y : Outcome ε α) : Prop := x = .error .timeout ∨ x = y

theorem Approx.refl (x : Outcome ε α) : Approx x x := .inr rfl

theorem Approx.trans {x y z : Outcome ε α} (h : Approx x y) (h' : Approx y z) : Approx x z := by
  rcases h with h | rfl
  · exact .inl h
  · exact h'

theorem Approx.timeout (y : Outcome ε α) : Approx (.error .timeout) y := .inl rfl

theorem Approx.bind {x y : Outcome ε α} {f g : α → Outcome ε β} (h : Approx x y)
    (hf : ∀ a, Approx (f a) (g a)) : Approx (x >>= f) (y >>= g) := by
  rcases h with rfl | rfl
  · exact .timeout _
  · cases x with
    | ok a => exact hf a
    | error e => exact .refl _

/-! ## 3. Fueled computations -/

def Fueled (c : Nat → Outcome ε α) : Prop := ∀ n, Approx (c n) (c (n + 1))

theorem Fueled.mono {c : Nat → Outcome ε α} (h : Fueled c) {m n : Nat} (hle : m ≤ n) :
    Approx (c m) (c n) := by
  induction hle with
  | refl => exact .refl _
  | step _ ih => exact ih.trans (h _)

theorem Fueled.ok_mono {c : Nat → Outcome ε α} (h : Fueled c) {m n : Nat} {a : α} (hle : m ≤ n)
    (hm : c m = .ok a) : c n = .ok a := by
  rcases h.mono hle with ht | he
  · rw [hm] at ht
    cases ht
  · rw [← he, hm]

/-- `c` returns `a`, given enough fuel. For a definition that more fuel does not change, this is
what the program returns. -/
def Returns (c : Nat → Outcome ε α) (a : α) : Prop := ∃ n, c n = .ok a

theorem Fueled.returns_unique {c : Nat → Outcome ε α} (h : Fueled c) {a b : α}
    (ha : Returns c a) (hb : Returns c b) : a = b := by
  obtain ⟨m, hm⟩ := ha
  obtain ⟨n, hn⟩ := hb
  have h1 := h.ok_mono (Nat.le_max_left m n) hm
  have h2 := h.ok_mono (Nat.le_max_right m n) hn
  rw [h1] at h2
  exact Except.ok.inj h2

/-- A computation that only works on the result of another returns when that one does. -/
theorem returns_map_iff {c : Nat → Outcome ε α} (f : α → β) :
    (∃ b, Returns (fun n => c n >>= fun a => .ok (f a)) b) ↔ ∃ a, Returns c a := by
  constructor
  · rintro ⟨b, n, hn⟩
    obtain ⟨a, ha, -⟩ := bind_eq_ok.mp hn
    exact ⟨a, n, ha⟩
  · rintro ⟨a, n, ha⟩
    exact ⟨f a, n, by simp only [ha, bind_ok]⟩

theorem map_eq_timeout {x : Outcome ε α} (f : α → β) :
    (x >>= fun a => .ok (f a)) = .error .timeout ↔ x = .error .timeout := by
  cases x with
  | ok a => exact iff_of_false (fun h => by cases h) (fun h => by cases h)
  | error e => simp

/-! ## 4. Safety -/

/-- `x` does not fault, and what it returns satisfies `P`. -/
def Safe (P : α → Prop) : Outcome ε α → Prop
  | .ok a => P a
  | .error (.fault _) => False
  | .error .timeout => True

theorem safe_iff {P : α → Prop} {x : Outcome ε α} :
    Safe P x ↔ (∀ e, x ≠ .error (.fault e)) ∧ ∀ a, x = .ok a → P a := by
  cases x with
  | ok a => simp [Safe]
  | error e => cases e <;> simp [Safe]

theorem Safe.bind {P : α → Prop} {Q : β → Prop} {x : Outcome ε α} {f : α → Outcome ε β}
    (hx : Safe P x) (hf : ∀ a, P a → Safe Q (f a)) : Safe Q (x >>= f) := by
  cases x with
  | ok a => exact hf a hx
  | error e =>
    cases e with
    | fault e => exact hx.elim
    | timeout => trivial

theorem Safe.mono {P Q : α → Prop} {x : Outcome ε α} (hx : Safe P x) (h : ∀ a, P a → Q a) :
    Safe Q x := by
  cases x with
  | ok a => exact h a hx
  | error e => cases e <;> exact hx

/-- What `x` returns satisfies `P`. It says nothing if `x` stops without a result. -/
def Ensures (P : α → Prop) (x : Outcome ε α) : Prop := ∀ a, x = .ok a → P a

theorem Ensures.trivial (x : Outcome ε α) : Ensures (fun _ => True) x := fun _ _ => True.intro

theorem ensures_ok {P : α → Prop} {a : α} (h : P a) : Ensures P (.ok a : Outcome ε α) := by
  rintro b hb
  cases hb
  exact h

theorem Ensures.bind {P : α → Prop} {Q : β → Prop} {x : Outcome ε α} {f : α → Outcome ε β}
    (hx : Ensures P x) (hf : ∀ a, P a → Ensures Q (f a)) : Ensures Q (x >>= f) := by
  intro b hb
  obtain ⟨a, ha, hfa⟩ := bind_eq_ok.mp hb
  exact hf a (hx a ha) b hfa

/-! ## 5. Termination -/

/-- `x` has ended: it has returned, or it has faulted. -/
def Ends (x : Outcome ε α) : Prop := x ≠ .error .timeout

theorem ends_ok (a : α) : Ends (.ok a : Outcome ε α) := fun h => by cases h

theorem ends_fault (e : ε) : Ends (.error (.fault e) : Outcome ε α) := fun h => by cases h

theorem Ends.bind {x : Outcome ε α} {f : α → Outcome ε β} (hx : Ends x) (hf : ∀ a, Ends (f a)) :
    Ends (x >>= f) := by
  cases x with
  | ok a => exact hf a
  | error e =>
    cases e with
    | fault e => exact ends_fault e
    | timeout => exact absurd rfl hx

theorem Safe.returns {P : α → Prop} {x : Outcome ε α} (hx : Safe P x) (hends : Ends x) :
    ∃ a, x = .ok a ∧ P a := by
  cases x with
  | ok a => exact ⟨a, rfl, hx⟩
  | error e =>
    cases e with
    | fault e => exact hx.elim
    | timeout => exact absurd rfl hends

/-- What has faulted does not return with more fuel. -/
theorem Fueled.not_returns {c : Nat → Outcome ε α} (h : Fueled c) {m : Nat} {e : ε}
    (hm : c m = .error (.fault e)) (a : α) : ¬ Returns c a := by
  rintro ⟨n, hn⟩
  have h1 := h.ok_mono (Nat.le_max_right m n) hn
  rcases h.mono (Nat.le_max_left m n) with h2 | h2
  · rw [hm] at h2
    cases h2
  · rw [hm, h1] at h2
    cases h2

/-! ## 6. Two computations -/

/-- Two computations agree: both return, and `Q` relates what they return, or both stop for the same
reason. -/
inductive Alike (Q : α → β → Prop) : Outcome ε α → Outcome ε β → Prop
  | ok {a : α} {b : β} : Q a b → Alike Q (.ok a) (.ok b)
  | error (e : Stop ε) : Alike Q (.error e) (.error e)

theorem Alike.refl (x : Outcome ε α) : Alike (· = ·) x x := by
  cases x with
  | ok a => exact .ok rfl
  | error e => exact .error e

theorem Alike.bind {Q : α → β → Prop} {R : γ → δ → Prop} {x : Outcome ε α} {y : Outcome ε β}
    {f : α → Outcome ε γ} {g : β → Outcome ε δ} (hxy : Alike Q x y)
    (hfg : ∀ a b, Q a b → Alike R (f a) (g b)) : Alike R (x >>= f) (y >>= g) := by
  cases hxy with
  | ok h => exact hfg _ _ h
  | error e => exact .error e

theorem Alike.ite {Q : α → β → Prop} {c : Prop} [Decidable c] {x x' : Outcome ε α}
    {y y' : Outcome ε β} (h : c → Alike Q x y) (h' : ¬c → Alike Q x' y') :
    Alike Q (if c then x else x') (if c then y else y') := by
  split
  · exact h ‹_›
  · exact h' ‹_›

/-- The second of two computations that agree returns if the first one does. -/
theorem Returns.alike {Q : α → β → Prop} {x : Nat → Outcome ε α} {y : Nat → Outcome ε β} {a : α}
    (hx : Returns x a) (h : ∀ n, Alike Q (x n) (y n)) : ∃ b, Q a b ∧ Returns y b := by
  obtain ⟨n, hn⟩ := hx
  have hn' := h n
  rw [hn] at hn'
  generalize hy : y n = o at hn'
  cases hn' with
  | ok hq => exact ⟨_, hq, n, hy⟩

/-- The first of two computations that agree returns if the second one does. -/
theorem Returns.alike_left {Q : α → β → Prop} {x : Nat → Outcome ε α} {y : Nat → Outcome ε β}
    {b : β} (hy : Returns y b) (h : ∀ n, Alike Q (x n) (y n)) : ∃ a, Q a b ∧ Returns x a := by
  obtain ⟨n, hn⟩ := hy
  have hn' := h n
  rw [hn] at hn'
  generalize hx : x n = o at hn'
  cases hn' with
  | ok hq => exact ⟨_, hq, n, hx⟩

theorem Alike.toOption {Q : α → β → Prop} {x : Outcome ε α} {y : Outcome ε β} (h : Alike Q x y) :
    Option.Rel Q x.toOption y.toOption := by
  cases h with
  | ok h => exact .some h
  | error e => exact .none

end Fuel
