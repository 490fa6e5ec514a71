import Mathlib.Data.List.Sort

/-!
# Schedules

What a task queue is for, without its pointers: a sequence of tasks to run, and
a list of tasks to run later, each with its deadline. A schedule carries the
proof that no task is in it twice and that the deadlines are in order. Times are
any linear order.

Results:
1. `exec`, `execIn`, `expire`, `pop`: the operations, which keep the invariant.
2. `mem_waiting_execIn`, `execIn_deadline`: a task asked for with a deadline
   waits for it, and for no other one.
3. `expire_next`, `expire_idle`: expiry one task at a time.
-/

namespace Picore.Task

variable {ι τ : Type} [LinearOrder τ]

/-- Tasks to run, in order, and tasks that wait, with their deadlines. -/
@[ext] structure Schedule (ι τ : Type) [LinearOrder τ] where
  pending : List ι
  waiting : List (ι × τ)
  pending_nodup : pending.Nodup
  waiting_nodup : (waiting.map Prod.fst).Nodup
  sorted : waiting.Pairwise fun a b => a.2 ≤ b.2
  disjoint : ∀ t ∈ pending, t ∉ waiting.map Prod.fst

namespace Schedule

def sleepers (a : Schedule ι τ) : List ι := a.waiting.map Prod.fst

theorem not_pending {a : Schedule ι τ} {t : ι} (h : t ∈ a.sleepers) : t ∉ a.pending :=
  fun hp => a.disjoint t hp h

def empty : Schedule ι τ where
  pending := []
  waiting := []
  pending_nodup := List.nodup_nil
  waiting_nodup := List.nodup_nil
  sorted := List.Pairwise.nil
  disjoint := by simp

def restrict (a : Schedule ι τ) (w : List (ι × τ)) (h : w.Sublist a.waiting) : Schedule ι τ where
  pending := a.pending
  waiting := w
  pending_nodup := a.pending_nodup
  waiting_nodup := a.waiting_nodup.sublist (h.map _)
  sorted := a.sorted.sublist h
  disjoint t ht hw := a.disjoint t ht ((h.map _).subset hw)

def unwait [DecidableEq ι] (a : Schedule ι τ) (t : ι) : Schedule ι τ :=
  a.restrict (a.waiting.filter fun e => e.1 ≠ t) List.filter_sublist

theorem not_mem_sleepers_unwait [DecidableEq ι] (a : Schedule ι τ) (t : ι) :
    t ∉ (a.unwait t).sleepers := by
  simp [unwait, restrict, sleepers]

theorem unwait_of_not_mem [DecidableEq ι] {a : Schedule ι τ} {t : ι} (h : t ∉ a.sleepers) :
    a.unwait t = a := by
  refine Schedule.ext rfl (List.filter_eq_self.mpr fun e he => ?_)
  simpa using ne_of_mem_of_not_mem (List.mem_map_of_mem he) h

/-- The first waiting entry is the only one of its task. -/
theorem waiting_unwait_head [DecidableEq ι] {a : Schedule ι τ} {t : ι} {d : τ}
    {w : List (ι × τ)} (hw : a.waiting = (t, d) :: w) : (a.unwait t).waiting = w := by
  have hnodup := a.waiting_nodup
  rw [hw, List.map_cons, List.nodup_cons] at hnodup
  simp only [unwait, restrict, hw]
  rw [List.filter_cons_of_neg (by simp)]
  exact List.filter_eq_self.mpr fun e he => by
    simpa using ne_of_mem_of_not_mem (List.mem_map_of_mem he) hnodup.1

/-- A task that is not in the schedule goes to the end of the pending ones. -/
def append (a : Schedule ι τ) (t : ι) (hp : t ∉ a.pending) (hw : t ∉ a.sleepers) :
    Schedule ι τ where
  pending := a.pending ++ [t]
  waiting := a.waiting
  pending_nodup := List.nodup_append.mpr ⟨a.pending_nodup, List.nodup_singleton t, by
    intro u hu v hv
    rw [List.mem_singleton] at hv
    exact hv ▸ ne_of_mem_of_not_mem hu hp⟩
  waiting_nodup := a.waiting_nodup
  sorted := a.sorted
  disjoint u hu := by
    rcases List.mem_append.mp hu with hu | hu
    · exact a.disjoint u hu
    · rw [List.mem_singleton.mp hu]
      exact hw

/-- The entries in front of which an entry is inserted: those with a deadline
that is not earlier. -/
def Due (a b : ι × τ) : Prop := a.2 ≤ b.2

instance : DecidableRel (Due (ι := ι) (τ := τ)) := fun a b =>
  inferInstanceAs (Decidable (a.2 ≤ b.2))

instance : Std.Total (Due (ι := ι) (τ := τ)) := ⟨fun a b => le_total a.2 b.2⟩

instance : IsTrans (ι × τ) Due := ⟨fun _ _ _ => le_trans⟩

/-- A task that is not in the schedule gets a waiting entry. -/
def insert (a : Schedule ι τ) (t : ι) (d : τ) (hp : t ∉ a.pending) (hw : t ∉ a.sleepers) :
    Schedule ι τ where
  pending := a.pending
  waiting := a.waiting.orderedInsert Due (t, d)
  pending_nodup := a.pending_nodup
  waiting_nodup := by
    have hperm := (a.waiting.perm_orderedInsert Due (t, d)).map Prod.fst
    exact hperm.nodup_iff.mpr (List.nodup_cons.mpr ⟨hw, a.waiting_nodup⟩)
  sorted := List.Pairwise.orderedInsert (t, d) _ a.sorted
  disjoint u hu hmem := by
    have hperm := (a.waiting.perm_orderedInsert Due (t, d)).map Prod.fst
    rcases List.mem_cons.mp (hperm.mem_iff.mp hmem) with rfl | hmem
    · exact hp hu
    · exact a.disjoint u hu hmem

/-! ## 1. The operations -/

/-- Run `t` as soon as possible: behind the pending tasks, unless it is one of them, and no longer
at its deadline. -/
def exec [DecidableEq ι] (a : Schedule ι τ) (t : ι) : Schedule ι τ :=
  if h : t ∈ a.pending then a else (a.unwait t).append t h (a.not_mem_sleepers_unwait t)

/-- Run `t` at the deadline `d`, in place of the one it had. A task that is pending already stays
so. -/
def execIn [DecidableEq ι] (a : Schedule ι τ) (t : ι) (d : τ) : Schedule ι τ :=
  if h : t ∈ a.pending then a else (a.unwait t).insert t d h (a.not_mem_sleepers_unwait t)

/-- Every task whose deadline has come is to be run. -/
def expire (a : Schedule ι τ) (now : τ) : Schedule ι τ where
  pending := a.pending ++ (a.waiting.filter fun e => e.2 ≤ now).map Prod.fst
  waiting := a.waiting.filter fun e => ¬e.2 ≤ now
  pending_nodup := by
    refine List.nodup_append.mpr ⟨a.pending_nodup,
      a.waiting_nodup.sublist (List.filter_sublist.map _), fun t ht u hu => ?_⟩
    exact (ne_of_mem_of_not_mem ((List.filter_sublist.map _).subset hu) (a.disjoint t ht)).symm
  waiting_nodup := a.waiting_nodup.sublist (List.filter_sublist.map _)
  sorted := a.sorted.sublist List.filter_sublist
  disjoint t ht hw := by
    rcases List.mem_append.mp ht with ht | ht
    · exact a.disjoint t ht ((List.filter_sublist.map _).subset hw)
    · -- Two entries of one task are the same entry.
      obtain ⟨⟨u, d⟩, hu, rfl⟩ := List.mem_map.mp ht
      obtain ⟨⟨v, e⟩, hv, heq⟩ := List.mem_map.mp hw
      rw [List.mem_filter] at hu hv
      have hsame := List.inj_on_of_nodup_map a.waiting_nodup hu.1 hv.1 heq.symm
      rw [← hsame] at hv
      exact absurd (by simpa using hu.2) (by simpa using hv.2 : ¬d ≤ now)

/-- The first pending task is taken out to be run. -/
def pop (a : Schedule ι τ) : Schedule ι τ where
  pending := a.pending.tail
  waiting := a.waiting
  pending_nodup := a.pending_nodup.sublist (List.tail_sublist _)
  waiting_nodup := a.waiting_nodup
  sorted := a.sorted
  disjoint t ht := a.disjoint t (List.mem_of_mem_tail ht)

/-! ## 2. Deadlines -/

/-- A task that is asked for with a deadline waits for it, and the others for
theirs. -/
theorem mem_waiting_execIn [DecidableEq ι] {a : Schedule ι τ} {t : ι} (d : τ)
    (h : t ∉ a.pending) {e : ι × τ} :
    e ∈ (a.execIn t d).waiting ↔ e = (t, d) ∨ e ∈ a.waiting ∧ e.1 ≠ t := by
  simp [execIn, h, insert, unwait, restrict, List.mem_orderedInsert]

theorem execIn_deadline [DecidableEq ι] {a : Schedule ι τ} {t : ι} {d d' : τ} (h : t ∉ a.pending)
    (hmem : (t, d') ∈ (a.execIn t d).waiting) : d' = d := by
  rcases (mem_waiting_execIn d h).mp hmem with heq | ⟨-, hne⟩
  · exact (Prod.mk.inj heq).2
  · exact absurd rfl hne

/-! ## 3. Expiry -/

/-- A task whose deadline has come is pending before the others expire. -/
theorem expire_next {a b : Schedule ι τ} {now : τ} {t : ι} {d : τ} {w : List (ι × τ)}
    (ha : a.waiting = (t, d) :: w) (hd : d ≤ now) (hp : b.pending = a.pending ++ [t])
    (hw : b.waiting = w) : b.expire now = a.expire now := by
  refine Schedule.ext ?_ ?_
  · simp [expire, ha, hp, hw, hd]
  · simp [expire, ha, hw, hd]

theorem expire_idle {a : Schedule ι τ} {now : τ} (h : ∀ e ∈ a.waiting.head?, ¬e.2 ≤ now) :
    a.expire now = a := by
  have hall : ∀ e ∈ a.waiting, ¬e.2 ≤ now := by
    have hsorted := a.sorted
    cases hw : a.waiting with
    | nil => simp
    | cons e w =>
      rw [hw] at h hsorted
      rintro f hf hle
      rcases List.mem_cons.mp hf with rfl | hf
      · exact h f (by simp) hle
      · exact h e (by simp) (le_trans (List.rel_of_pairwise_cons hsorted hf) hle)
  refine Schedule.ext ?_ (List.filter_eq_self.mpr fun e he => by simpa using hall e he)
  have hnone : (a.waiting.filter fun e => e.2 ≤ now) = [] :=
    List.filter_eq_nil_iff.mpr fun e he => by simpa using hall e he
  simp [expire, hnone]

end Schedule

end Picore.Task
