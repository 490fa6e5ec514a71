import Mathlib.Data.List.Basic
import Mathlib.Tactic.Common

/-!
# Attempts up to a limit

An attempt changes the state and has a result. It is made again until the result is good or as
many attempts have been made as allowed.

Results:
1. `run_last`: the run ends after the last attempt. `Last.good_iff`: when that one is good.
2. `after_invariant`, `Seen.result`: invariants of attempts, and attempts seen through a map.
3. `after_logged`: attempts with a log.
4. `Tried.unique`, `Tried.good_iff`: whole runs.
5. `run_countdown`: attempts that fail as often as a count says.
-/

namespace Retry

variable {α β ε τ : Type}

/-- Attempts until one is good, with `n` more after this one. -/
def run (good : ε → Prop) [DecidablePred good] (attempt : α → ε × α) : Nat → α → ε × α
  | 0, s => attempt s
  | n + 1, s => if good (attempt s).1 then attempt s else run good attempt n (attempt s).2

/-- The state after `n` attempts, whatever they have returned. -/
def after (attempt : α → ε × α) (s : α) : Nat → α
  | 0 => s
  | n + 1 => (attempt (after attempt s n)).2

/-- What attempt `n` returns, in the state that the attempts before it leave. -/
def result (attempt : α → ε × α) (s : α) (n : Nat) : ε := (attempt (after attempt s n)).1

/-- Attempt `n` is the last one: none before it is good, and it is good or there are no more. -/
structure Last (good : ε → Prop) (attempt : α → ε × α) (limit : Nat) (s : α) (n : Nat) : Prop where
  lt : n < limit
  failed : ∀ i < n, ¬ good (result attempt s i)
  stopped : good (result attempt s n) ∨ n + 1 = limit

/-! ## 1. The last attempt -/

theorem after_step (attempt : α → ε × α) (s : α) (n : Nat) :
    after attempt (attempt s).2 n = after attempt s (n + 1) := by
  induction n with
  | zero => rfl
  | succ n ih =>
    rw [after, ih]
    rfl

theorem result_step (attempt : α → ε × α) (s : α) (n : Nat) :
    result attempt (attempt s).2 n = result attempt s (n + 1) := by
  rw [result, after_step, result]

theorem run_last (good : ε → Prop) [DecidablePred good] (attempt : α → ε × α) (n : Nat) (s : α) :
    ∃ m, Last good attempt (n + 1) s m ∧
      run good attempt n s = (result attempt s m, after attempt s (m + 1)) := by
  induction n generalizing s with
  | zero => exact ⟨0, ⟨Nat.one_pos, nofun, .inr rfl⟩, rfl⟩
  | succ n ih =>
    by_cases hgood : good (attempt s).1
    · exact ⟨0, ⟨Nat.succ_pos _, nofun, .inl hgood⟩, by rw [run, if_pos hgood]; rfl⟩
    · obtain ⟨m, hlast, hrun⟩ := ih (attempt s).2
      refine ⟨m + 1, ⟨Nat.succ_lt_succ hlast.lt, fun i hi => ?_, ?_⟩, ?_⟩
      · cases i with
        | zero => exact hgood
        | succ i =>
          rw [← result_step]
          exact hlast.failed i (Nat.lt_of_succ_lt_succ hi)
      · rw [← result_step]
        exact hlast.stopped.imp_right (congrArg (· + 1))
      · rw [run, if_neg hgood, hrun, result_step, after_step]

section
variable {good : ε → Prop} {attempt : α → ε × α} {limit : Nat} {s : α} {n : Nat}

/-- The last attempt is good iff one of those allowed is. -/
theorem Last.good_iff (h : Last good attempt limit s n) :
    good (result attempt s n) ↔ ∃ i < limit, good (result attempt s i) := by
  refine ⟨fun hgood => ⟨n, h.lt, hgood⟩, fun ⟨i, hi, hgood⟩ => ?_⟩
  rcases h.stopped with hstop | hstop
  · exact hstop
  · rcases Nat.lt_or_eq_of_le (Nat.le_of_lt_succ (hstop ▸ hi)) with hlt | rfl
    · exact absurd hgood (h.failed i hlt)
    · exact hgood

theorem Last.unique {m : Nat} (h : Last good attempt limit s m) (h' : Last good attempt limit s n) :
    m = n := by
  -- The earlier one of two last attempts would be good.
  have hle : ∀ {i j}, Last good attempt limit s i → Last good attempt limit s j → j ≤ i :=
    fun {i j} hi hj => Nat.le_of_not_lt fun hlt => by
      rcases hi.stopped with hgood | hlimit
      · exact hj.failed i hlt hgood
      · exact absurd hj.lt (Nat.not_lt_of_le (hlimit ▸ hlt))
  exact Nat.le_antisymm (hle h' h) (hle h h')

/-! ## 2. Invariants and maps -/

theorem after_invariant {I : α → Prop} (hI : ∀ s, I s → I (attempt s).2) (hs : I s) (n : Nat) :
    I (after attempt s n) := by
  induction n with
  | zero => exact hs
  | succ n ih => exact hI _ ih

end

/-- An invariant of the attempts that are not good holds up to the first good one. -/
theorem after_failed (good : ε → Prop) {attempt : α → ε × α} {s : α} {n : Nat} {I : α → Prop}
    (hI : ∀ s, I s → ¬ good (attempt s).1 → I (attempt s).2) (hs : I s)
    (hfailed : ∀ i < n, ¬ good (result attempt s i)) : I (after attempt s n) := by
  induction n with
  | zero => exact hs
  | succ n ih =>
    have hn := ih fun i hi => hfailed i (Nat.lt_succ_of_lt hi)
    exact hI _ hn (hfailed n (Nat.lt_succ_self n))

/-- `attempt'` does through `f` what `attempt` does, as long as `I` holds, which it goes on to. -/
def Seen (I : α → Prop) (f : α → β) (attempt : α → ε × α) (attempt' : β → ε × β) : Prop :=
  ∀ s, I s → attempt' (f s) = ((attempt s).1, f (attempt s).2) ∧ I (attempt s).2

section
variable {I : α → Prop} {f : α → β} {attempt : α → ε × α} {attempt' : β → ε × β} {s : α}

theorem Seen.after (h : Seen I f attempt attempt') (hs : I s) (n : Nat) :
    after attempt' (f s) n = f (after attempt s n) := by
  induction n with
  | zero => rfl
  | succ n ih =>
    have hn := after_invariant (fun s hs => (h s hs).2) hs n
    rw [Retry.after, ih, (h _ hn).1, Retry.after]

theorem Seen.result (h : Seen I f attempt attempt') (hs : I s) (n : Nat) :
    result attempt' (f s) n = result attempt s n := by
  have hn := after_invariant (fun s hs => (h s hs).2) hs n
  rw [Retry.result, h.after hs, (h _ hn).1, Retry.result]

theorem Seen.last (h : Seen I f attempt attempt') (hs : I s) {good : ε → Prop} {limit n : Nat}
    (hlast : Last good attempt limit s n) : Last good attempt' limit (f s) n := by
  refine ⟨hlast.lt, fun i hi => ?_, ?_⟩
  · rw [h.result hs]
    exact hlast.failed i hi
  · rw [h.result hs]
    exact hlast.stopped

end

/-! ## 3. Logs -/

/-- Something that the state before each of `n` attempts says about it. -/
def record (event : α → τ) (attempt : α → ε × α) (s : α) (n : Nat) : List τ :=
  (List.range n).map fun i => event (after attempt s i)

@[simp] theorem length_record (event : α → τ) (attempt : α → ε × α) (s : α) (n : Nat) :
    (record event attempt s n).length = n := by
  rw [record, List.length_map, List.length_range]

theorem record_succ (event : α → τ) (attempt : α → ε × α) (s : α) (n : Nat) :
    record event attempt s (n + 1) =
      record event attempt s n ++ [event (after attempt s n)] := by
  rw [record, List.range_succ, List.map_append]
  rfl

theorem mem_record {event : α → τ} {attempt : α → ε × α} {s : α} {n : Nat} {x : τ} :
    x ∈ record event attempt s n ↔ ∃ i < n, event (after attempt s i) = x := by
  simp only [record, List.mem_map, List.mem_range]

theorem flatten_record_singleton (event : α → τ) (attempt : α → ε × α) (s : α) (n : Nat) :
    (record (fun s => [event s]) attempt s n).flatten = record event attempt s n := by
  rw [record, ← List.flatMap_def]
  exact List.flatMap_pure_eq_map _ _

def logged (attempt : α → ε × α) (event : α → List τ) (s : α × List τ) : ε × α × List τ :=
  ((attempt s.1).1, (attempt s.1).2, s.2 ++ event s.1)

theorem after_logged (attempt : α → ε × α) (event : α → List τ) (s : α × List τ) (n : Nat) :
    after (logged attempt event) s n =
      (after attempt s.1 n, s.2 ++ (record event attempt s.1 n).flatten) := by
  induction n with
  | zero => exact Prod.ext rfl (List.append_nil _).symm
  | succ n ih =>
    rw [after, ih, logged, record_succ, List.flatten_append, List.flatten_singleton,
      ← List.append_assoc]
    rfl

theorem result_logged (attempt : α → ε × α) (event : α → List τ) (s : α × List τ) (n : Nat) :
    result (logged attempt event) s n = result attempt s.1 n := by
  rw [result, after_logged, logged, result]

theorem Last.of_logged {good : ε → Prop} {attempt : α → ε × α} {event : α → List τ} {limit : Nat}
    {s : α × List τ} {n : Nat} (h : Last good (logged attempt event) limit s n) :
    Last good attempt limit s.1 n := by
  refine ⟨h.lt, fun i hi => ?_, ?_⟩
  · rw [← result_logged attempt event]
    exact h.failed i hi
  · rw [← result_logged attempt event]
    exact h.stopped

/-! ## 4. A whole run -/

/-- The attempts up to the last one: its result, the state after it, and the record of all. -/
inductive Tried (good : ε → Prop) (attempt : α → ε × α) (event : α → τ) (limit : Nat) (s : α) :
    ε → α → List τ → Prop
  | last {n : Nat} : Last good attempt limit s n →
      Tried good attempt event limit s (result attempt s n) (after attempt s (n + 1))
        (record event attempt s (n + 1))

section
variable {good : ε → Prop} {attempt : α → ε × α} {event : α → τ} {limit : Nat} {s s' : α} {e : ε}
  {xs : List τ}

theorem Tried.unique {e' : ε} {s'' : α} {xs' : List τ}
    (h : Tried good attempt event limit s e s' xs)
    (h' : Tried good attempt event limit s e' s'' xs') : e = e' ∧ s' = s'' ∧ xs = xs' := by
  cases h with
  | last h =>
    cases h' with
    | last h' =>
      obtain rfl := h.unique h'
      exact ⟨rfl, rfl, rfl⟩

theorem Tried.length_le (h : Tried good attempt event limit s e s' xs) : xs.length ≤ limit := by
  cases h with
  | last h =>
    rw [length_record]
    exact h.lt

theorem Tried.good_iff (h : Tried good attempt event limit s e s' xs) :
    good e ↔ ∃ i < limit, good (result attempt s i) := by
  cases h with
  | last h => exact h.good_iff

theorem Tried.mem (h : Tried good attempt event limit s e s' xs) {x : τ} (hx : x ∈ xs) :
    ∃ i, (∀ j < i, ¬ good (result attempt s j)) ∧ x = event (after attempt s i) := by
  cases h with
  | last h =>
    obtain ⟨i, hi, hx⟩ := mem_record.mp hx
    exact ⟨i, fun j hj => h.failed j (Nat.lt_of_lt_of_le hj (Nat.le_of_lt_succ hi)), hx.symm⟩

/-- What is recorded of the last attempt, behind the record of attempts that are not good. -/
theorem Tried.split (h : Tried good attempt event limit s e s' xs) :
    ∃ n, xs = record event attempt s n ++ [event (after attempt s n)] ∧
      e = result attempt s n ∧ ∀ i < n, ¬ good (result attempt s i) := by
  cases h with
  | @last n h => exact ⟨n, record_succ event attempt s n, rfl, h.failed⟩

end

/-! ## 5. Counting down -/

/-- An attempt fails as long as the count is positive, which it takes one from, and is good with
the count at zero. -/
structure CountsDown (good : ε → Prop) (attempt : α → ε × α) (count : α → Nat) (I : α → Prop) :
    Prop where
  fails : ∀ s, I s → 0 < count s → ¬ good (attempt s).1 ∧ I (attempt s).2 ∧
    count (attempt s).2 + 1 = count s
  good : ∀ s, I s → count s = 0 → good (attempt s).1

/-- With as many attempts as the count, the run ends in a good one. -/
theorem run_countdown {good : ε → Prop} [DecidablePred good] {attempt : α → ε × α}
    {count : α → Nat} {I : α → Prop} (h : CountsDown good attempt count I) {s : α} (hs : I s)
    {n : Nat} (hle : count s ≤ n) :
    ∃ t, I t ∧ count t = 0 ∧ run good attempt n s = attempt t := by
  induction n generalizing s with
  | zero => exact ⟨s, hs, Nat.le_zero.mp hle, rfl⟩
  | succ n ih =>
    rcases Nat.eq_zero_or_pos (count s) with hzero | hpos
    · exact ⟨s, hs, hzero, by rw [run, if_pos (h.good s hs hzero)]⟩
    · obtain ⟨hfails, hnext, hcount⟩ := h.fails s hs hpos
      obtain ⟨t, ht, hzero, hrun⟩ :=
        ih hnext (Nat.le_of_succ_le_succ (Nat.le_trans (Nat.le_of_eq hcount) hle))
      exact ⟨t, ht, hzero, by rw [run, if_neg hfails, hrun]⟩

end Retry
