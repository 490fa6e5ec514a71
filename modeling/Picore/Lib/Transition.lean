import Mathlib.Logic.Basic
import Mathlib.Data.Option.Defs

/-!
# Labelled transition systems

A system is a set of initial states and a labelled step relation. A state is
reachable when a finite run of steps leads to it from an initial state.

Results:
1. `Reachable.invariant`: a predicate that holds initially and that every step
   preserves holds in every reachable state. With `guard`, only the steps that meet a
   condition need preserve it.
   `Reachable.simulation`: a system whose steps are steps of another one, or change
   nothing that this one sees.
2. `exec`, `Reachable.exec`, `reachable_exec`: executing a list of labels;
   `Reachable.exec_guarded`: labels that meet a condition. `exec_rel`: two systems that
   take related steps.
-/

namespace Transition

variable {σ τ α β : Type}

/-- A labelled transition system over states `σ` and labels `α`. -/
structure Lts (σ α : Type) where
  init : σ → Prop
  step : σ → α → σ → Prop

/-- `L.Reachable s`: some finite run of `L` ends in `s`. -/
inductive Lts.Reachable (L : Lts σ α) : σ → Prop
  | init {s : σ} : L.init s → L.Reachable s
  | step {s t : σ} {a : α} : L.Reachable s → L.step s a t → L.Reachable t

/-- The system whose step is a partial function of the state and the label. -/
def Lts.ofFun (init : σ → Prop) (f : σ → α → Option σ) : Lts σ α where
  init := init
  step s a t := f s a = some t

/-- The subsystem of `L` whose steps all meet the condition `ok`, which may
look at the state before the step and at its label. -/
def Lts.guard (L : Lts σ α) (ok : σ → α → Prop) : Lts σ α where
  init := L.init
  step s a t := L.step s a t ∧ ok s a

/-- The system that goes on from `s`, with the same steps. What it reaches is what can still come.
-/
def Lts.after (L : Lts σ α) (s : σ) : Lts σ α where
  init t := t = s
  step := L.step

/-! ## 1. The invariant rule -/

/-- A predicate that holds initially and that every step preserves holds in
every reachable state. -/
theorem Lts.Reachable.invariant {L : Lts σ α} {I : σ → Prop} (h0 : ∀ s, L.init s → I s)
    (hstep : ∀ s a t, I s → L.step s a t → I t) {s : σ} (h : L.Reachable s) : I s := by
  induction h with
  | init hi => exact h0 _ hi
  | step _ hs ih => exact hstep _ _ _ ih hs

theorem Lts.Reachable.after {L : Lts σ α} {s t : σ} (hs : L.Reachable s)
    (ht : (L.after s).Reachable t) : L.Reachable t :=
  ht.invariant (fun _ hu => hu ▸ hs) fun _ _ _ hu hstep => hu.step hstep

/-- The runs of a subsystem are runs of the system. -/
theorem Lts.Reachable.of_guard {L : Lts σ α} {ok : σ → α → Prop} {s : σ}
    (h : (L.guard ok).Reachable s) : L.Reachable s :=
  h.invariant (fun _ hs => .init hs) fun _ _ _ hs hstep => hs.step hstep.1

/-- A system simulates another one when each step of that one, under an invariant, is
one of its own steps or none. -/
theorem Lts.Reachable.simulation {L : Lts σ α} {M : Lts τ β} {I : σ → Prop} (f : σ → τ)
    (h0 : ∀ s, L.init s → I s ∧ M.init (f s))
    (hstep : ∀ s a t, I s → L.step s a t → I t ∧ (f t = f s ∨ ∃ b, M.step (f s) b (f t)))
    {s : σ} (h : L.Reachable s) : M.Reachable (f s) := by
  have hboth : I s ∧ M.Reachable (f s) := by
    refine h.invariant (I := fun s => I s ∧ M.Reachable (f s)) ?_ ?_
    · exact fun s hs => ⟨(h0 s hs).1, .init (h0 s hs).2⟩
    · rintro s a t ⟨hs, hreach⟩ hst
      obtain ⟨ht, hsame | ⟨b, hb⟩⟩ := hstep s a t hs hst
      · exact ⟨ht, hsame ▸ hreach⟩
      · exact ⟨ht, hreach.step hb⟩
  exact hboth.2

/-! ## 2. Execution -/

/-- Execute the labels one after the other, if each of them is enabled in its turn. -/
def exec (f : σ → α → Option σ) : σ → List α → Option σ
  | s, [] => some s
  | s, a :: as => (f s a).bind fun t => exec f t as

theorem exec_append (f : σ → α → Option σ) (s : σ) (as bs : List α) :
    exec f s (as ++ bs) = (exec f s as).bind fun t => exec f t bs := by
  induction as generalizing s with
  | nil => rfl
  | cons a as ih =>
    rw [List.cons_append, exec, exec, Option.bind_assoc]
    exact congrArg _ (funext ih)

/-- Related states stay related, and the same labels can be executed. -/
theorem exec_rel {R : σ → τ → Prop} {f : σ → α → Option σ} {g : τ → α → Option τ}
    (hfg : ∀ s t a, R s t → Option.Rel R (f s a) (g t a)) {s : σ} {t : τ} (h : R s t)
    (as : List α) : Option.Rel R (exec f s as) (exec g t as) := by
  induction as generalizing s t with
  | nil => exact .some h
  | cons a as ih =>
    have hstep := hfg s t a h
    rw [exec, exec]
    generalize f s a = x at hstep ⊢
    generalize g t a = y at hstep ⊢
    cases hstep with
    | none => exact .none
    | some h1 => exact ih h1

/-- What an executed list of steps leads to is reachable. -/
theorem Lts.Reachable.exec {L : Lts σ α} {f : σ → β → Option σ}
    (hf : ∀ s b t, f s b = some t → ∃ a, L.step s a t) {s t : σ} {bs : List β}
    (h : L.Reachable s) (he : Transition.exec f s bs = some t) : L.Reachable t := by
  induction bs generalizing s with
  | nil =>
    cases he
    exact h
  | cons b bs ih =>
    obtain ⟨u, hu, hrest⟩ := Option.bind_eq_some_iff.mp he
    obtain ⟨a, ha⟩ := hf s b u hu
    exact ih (h.step ha) hrest

/-- What an executed list of labels leads to is reachable. -/
theorem Lts.reachable_exec {init : σ → Prop} {f : σ → α → Option σ} {s t : σ} {as : List α}
    (h : (Lts.ofFun init f).Reachable s) (he : exec f s as = some t) :
    (Lts.ofFun init f).Reachable t :=
  h.exec (fun _ a _ hstep => ⟨a, hstep⟩) he

def guarded (f : σ → α → Option σ) (ok : σ → α → Prop) [∀ s, DecidablePred (ok s)] (s : σ)
    (a : α) : Option σ :=
  if ok s a then f s a else none

theorem Lts.Reachable.exec_guarded {init : σ → Prop} {f : σ → α → Option σ} {ok : σ → α → Prop}
    [∀ s, DecidablePred (ok s)] {s t : σ} {as : List α}
    (h : ((Lts.ofFun init f).guard ok).Reachable s)
    (he : Transition.exec (guarded f ok) s as = some t) :
    ((Lts.ofFun init f).guard ok).Reachable t := by
  refine h.exec (fun s a t hstep => ⟨a, ?_⟩) he
  unfold guarded at hstep
  split at hstep
  · next hok => exact ⟨hstep, hok⟩
  · cases hstep

end Transition
