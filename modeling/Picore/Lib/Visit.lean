import Mathlib.Data.List.Basic

/-!
# Calls until the first error

A callback is called for one argument after the other. It returns an error code, a value and
the next state of its owner, and the first error ends the calls. `i` counts the calls.

Results:
1. `Run`: the calls that are made, with the values that they return.
2. `Run.length_le`, `Run.fails`: they go as far as the first error.
3. `visit`, `Run.visit_eq`: the same as a function of the arguments.
-/

namespace Visit

variable {σ β α ε : Type}

/-- The calls `cs`, from call `i` on. They return the values beside the arguments. Only the
last one may return an error, which is then `err`. -/
inductive Run (ask : σ → β → Nat → ε × α × σ) (ok : ε) :
    Nat → σ → List (β × α) → ε → σ → Prop
  | done {i : Nat} {s : σ} : Run ask ok i s [] ok s
  | stop {i : Nat} {s : σ} {b : β} : (ask s b i).1 ≠ ok →
      Run ask ok i s [(b, (ask s b i).2.1)] (ask s b i).1 (ask s b i).2.2
  | next {i : Nat} {s s' : σ} {b : β} {cs : List (β × α)} {err : ε} : (ask s b i).1 = ok →
      Run ask ok (i + 1) (ask s b i).2.2 cs err s' →
      Run ask ok i s ((b, (ask s b i).2.1) :: cs) err s'

/-- The state after `k` calls for the arguments `arg i`, `arg (i + 1)`, …, whatever they
return. -/
def after (ask : σ → β → Nat → ε × α × σ) (arg : Nat → β) : Nat → σ → Nat → σ
  | _, s, 0 => s
  | i, s, k + 1 => after ask arg (i + 1) (ask s (arg i) i).2.2 k

def errorAt (ask : σ → β → Nat → ε × α × σ) (arg : Nat → β) (i : Nat) (s : σ) (k : Nat) : ε :=
  (ask (after ask arg i s k) (arg (i + k)) (i + k)).1

theorem errorAt_succ (ask : σ → β → Nat → ε × α × σ) (arg : Nat → β) (i : Nat) (s : σ) (k : Nat) :
    errorAt ask arg i s (k + 1) = errorAt ask arg (i + 1) (ask s (arg i) i).2.2 k := by
  rw [errorAt, errorAt, Nat.add_right_comm, Nat.add_assoc]
  rfl

variable {ask : σ → β → Nat → ε × α × σ} {ok err : ε} {arg : Nat → β} {i : Nat} {s s' : σ}
  {cs : List (β × α)}

theorem Run.length_le (h : Run ask ok i s cs err s')
    (hargs : cs.map Prod.fst = (List.range' i cs.length).map arg) {k : Nat}
    (hk : errorAt ask arg i s k ≠ ok) : cs.length ≤ k + 1 := by
  induction h generalizing k with
  | done => exact Nat.zero_le _
  | stop => exact Nat.succ_le_succ (Nat.zero_le k)
  | next herr hrun ih =>
    rw [List.length_cons, List.range'_succ, List.map_cons, List.map_cons, List.cons.injEq] at hargs
    obtain ⟨rfl, hargs⟩ := hargs
    cases k with
    | zero => exact absurd herr hk
    | succ k =>
      rw [errorAt_succ] at hk
      exact Nat.succ_le_succ (ih hargs hk)

/-- Calls that end with an error have come to one. -/
theorem Run.fails (h : Run ask ok i s cs err s')
    (hargs : cs.map Prod.fst = (List.range' i cs.length).map arg) (herr : err ≠ ok) :
    ∃ k, cs.length = k + 1 ∧ errorAt ask arg i s k ≠ ok := by
  induction h with
  | done => exact absurd rfl herr
  | stop hstop =>
    obtain ⟨rfl, -⟩ := List.cons.inj hargs
    exact ⟨0, rfl, hstop⟩
  | next _ hrun ih =>
    rw [List.length_cons, List.range'_succ, List.map_cons, List.map_cons, List.cons.injEq] at hargs
    obtain ⟨rfl, hargs⟩ := hargs
    obtain ⟨k, hlen, hk⟩ := ih hargs herr
    refine ⟨k + 1, congrArg (· + 1) hlen, ?_⟩
    rw [errorAt_succ]
    exact hk

/-! ## Calls as a function -/

/-- The calls for the arguments `bs` up to the first error: this error, the calls with the values
that they return, and the state after them. -/
def visit [DecidableEq ε] (ask : σ → β → ε × α × σ) (ok : ε) :
    List β → σ → ε × List (β × α) × σ
  | [], s => (ok, [], s)
  | b :: bs, s =>
    let (err, a, s) := ask s b
    if err = ok then
      let (err, cs, s) := visit ask ok bs s
      (err, (b, a) :: cs, s)
    else (err, [(b, a)], s)

theorem visit_singleton [DecidableEq ε] (ask : σ → β → ε × α × σ) (ok : ε) (b : β) (s : σ) :
    visit ask ok [b] s = ((ask s b).1, [(b, (ask s b).2.1)], (ask s b).2.2) := by
  simp only [visit]
  by_cases herr : (ask s b).1 = ok
  · rw [if_pos herr, herr]
  · rw [if_neg herr]

/-- Calls for some of the arguments are those of `visit`, if they go as far as they can. -/
theorem Run.visit_eq [DecidableEq ε] (ask : σ → β → ε × α × σ) {bs : List β}
    (h : Run (fun s b _ => ask s b) ok i s cs err s') (hargs : cs.map Prod.fst <+: bs)
    (hall : err = ok → cs.map Prod.fst = bs) : visit ask ok bs s = (err, cs, s') := by
  induction h generalizing bs with
  | done =>
    obtain rfl := hall rfl
    rfl
  | stop herr =>
    obtain ⟨rest, rfl⟩ := hargs
    rw [List.map_cons, List.cons_append, visit]
    exact if_neg herr
  | next hok _ ih =>
    obtain ⟨rest, rfl⟩ := hargs
    rw [List.map_cons, List.cons_append, visit]
    simp only
    rw [if_pos hok, ih (List.prefix_append _ rest) fun herr => ?_]
    have h1 := hall herr
    rw [List.map_cons, List.cons_append] at h1
    exact (List.cons.inj h1).2

end Visit
