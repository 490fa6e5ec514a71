import Picore.I2c.Bus
import Picore.Lib.Ring
import Picore.Lib.Transition

/-!
# The pointer queue (`src/queue/queue.c`)

A ring of pointers. `pr_queue_push` and `pr_queue_pop` work on it under the lock, and then
schedule a task. The counters are `uint32_t` in the source; they are natural numbers here,
since none of them goes past `size`.

Any number of contexts make calls at the same time. A call has three steps: it starts, its
locked section runs, and it schedules a task and returns. The entries that were pushed and
those that were popped are ghost variables.

Results:
1. `Bounded`: what the queue is for, a sequence of at most `size` entries.
2. `pushLocked_holds`, `popLocked_holds`: the locked sections on a queue that holds a part
   of a stream.
3. `queue_linearizable`: the locked sections are the operations of `Bounded`, and a call
   that fails leaves no trace.
-/

namespace Picore.Queue

open Memory Ring Transition
open I2c (PrError)

variable {κ τ α : Type} {size : Nat}

/-- `struct pr_queue`, with entries of type `α` and task handles of type `τ`. -/
structure PrQueue (τ α : Type) where
  consumer : Option τ
  producer : Option τ
  entry : Mem α
  size : Nat
  wptr : Nat
  rptr : Nat
  free : Nat
  used : Nat

/-- `pr_queue_init`, `mem` being what `malloc` returned. -/
def prQueueInit (mem : Mem α) (size : Nat) : PrQueue τ α where
  consumer := none
  producer := none
  entry := mem
  size := size
  wptr := 0
  rptr := 0
  free := size
  used := 0

def prQueueConsumerSet (q : PrQueue τ α) (task : Option τ) : PrQueue τ α :=
  { q with consumer := task }

def prQueueProducerSet (q : PrQueue τ α) (task : Option τ) : PrQueue τ α :=
  { q with producer := task }

/-- The locked section of `pr_queue_push`. -/
def pushLocked (q : PrQueue τ α) (entry : α) : PrError × PrQueue τ α :=
  if q.free ≠ 0 then
    (.ok, { q with
      free := q.free - 1
      used := q.used + 1
      entry := store q.entry q.wptr [entry]
      wptr := if q.wptr + 1 ≥ q.size then 0 else q.wptr + 1 })
  else (.memory, q)

/-- The locked section of `pr_queue_pop`. The second result is the content of `*entry`,
which is `entry` before. -/
def popLocked (q : PrQueue τ α) (entry : α) : PrError × α × PrQueue τ α :=
  if q.used ≠ 0 then
    (.ok, q.entry q.rptr, { q with
      free := q.free + 1
      used := q.used - 1
      rptr := if q.rptr + 1 ≥ q.size then 0 else q.rptr + 1 })
  else (.memory, entry, q)

/-- `if (!ret) pr_task_exec(task)`: the calls of `pr_task_exec`. -/
def notify (ret : PrError) (task : Option τ) : List (Option τ) :=
  if ret = .ok then [task] else []

/-! ## 1. Bounded FIFOs -/

/-- A sequence of at most `size` entries, which is what the queue is for. -/
structure Bounded (α : Type) (size : Nat) where
  items : List α
  bound : items.length ≤ size

namespace Bounded

/-- Put an entry at the end, if there is room. -/
def push (b : Bounded α size) (x : α) : Option (Bounded α size) :=
  if h : b.items.length < size then
    some ⟨b.items ++ [x], by rw [List.length_append]; exact h⟩
  else none

/-- The first entry is taken out, unless there is none. -/
def pop (b : Bounded α size) : Option (α × Bounded α size) :=
  match h : b.items with
  | [] => none
  | x :: xs => some (x, ⟨xs, Nat.le_of_succ_le (by simpa [h] using b.bound)⟩)

theorem push_eq_none {b : Bounded α size} {x : α} : b.push x = none ↔ b.items.length = size := by
  unfold push
  have hbound := b.bound
  split
  · next h => exact iff_of_false (Option.some_ne_none _) (Nat.ne_of_lt h)
  · next h => exact iff_of_true rfl (Nat.le_antisymm hbound (Nat.le_of_not_lt h))

theorem items_of_push {b b' : Bounded α size} {x : α} (h : b.push x = some b') :
    b'.items = b.items ++ [x] := by
  unfold push at h
  split at h
  · cases h
    rfl
  · cases h

theorem pop_eq_none {b : Bounded α size} : b.pop = none ↔ b.items = [] := by
  unfold pop
  split
  · next h => exact iff_of_true rfl h
  · next x xs h =>
    have hne : b.items ≠ [] := h ▸ List.cons_ne_nil x xs
    exact iff_of_false (Option.some_ne_none _) hne

theorem items_of_pop {b b' : Bounded α size} {x : α} (h : b.pop = some (x, b')) :
    b.items = x :: b'.items := by
  unfold pop at h
  split at h
  · cases h
  · next hitems =>
    cases h
    exact hitems

end Bounded

/-! ## 2. The locked sections -/

/-- The queue holds the entries of the stream `pushed` behind the first `popped` ones. -/
structure Stores (q : PrQueue τ α) (size : Nat) (pushed : List α) (popped : Nat) : Prop where
  size_eq : q.size = size
  total : q.used + q.free = size
  length : pushed.length = popped + q.used
  wptr : q.wptr = pushed.length % size
  rptr : q.rptr = popped % size
  holds : Holds q.entry size pushed popped pushed.length

theorem stores_init (mem : Mem α) (size : Nat) :
    Stores (prQueueInit mem size : PrQueue τ α) size [] 0 where
  size_eq := rfl
  total := Nat.zero_add _
  length := rfl
  wptr := (Nat.zero_mod _).symm
  rptr := (Nat.zero_mod _).symm
  holds _ _ h := absurd h (Nat.not_lt_zero _)

/-- An index that is moved by one, and set to zero at the end, is that of the next
position. -/
theorem advance_one {p : Nat} (h : 0 < size) :
    (if p % size + 1 ≥ size then 0 else p % size + 1) = (p + 1) % size := by
  have hlt := Nat.mod_lt p h
  rw [← advance_eq (Nat.succ_le_of_lt hlt)]
  refine if_congr ?_ rfl rfl
  exact ⟨fun hge => Nat.le_antisymm (Nat.succ_le_of_lt hlt) hge, fun heq => Nat.le_of_eq heq.symm⟩

theorem pushLocked_full {q : PrQueue τ α} (h : q.free = 0) (x : α) :
    pushLocked q x = (.memory, q) := by
  rw [pushLocked, if_neg (not_not_intro h)]

theorem popLocked_empty {q : PrQueue τ α} (h : q.used = 0) (x : α) :
    popLocked q x = (.memory, x, q) := by
  rw [popLocked, if_neg (not_not_intro h)]

/-- A push with room adds its entry to the stream. -/
theorem pushLocked_holds {q : PrQueue τ α} {pushed : List α} {popped : Nat}
    (h : Stores q size pushed popped) (hfree : q.free ≠ 0) (x : α) :
    (pushLocked q x).1 = .ok ∧ Stores (pushLocked q x).2 size (pushed ++ [x]) popped := by
  have hpos : 0 < size := by
    have := h.total
    omega
  have hfit : pushed.length % size + [x].length ≤ size := Nat.mod_lt _ hpos
  have hwindow : pushed.length + [x].length ≤ popped + size := by
    have h1 := h.total
    have h2 := h.length
    simp only [List.length_singleton]
    omega
  have hstore := h.holds.store hfit hwindow
  rw [pushLocked, if_pos hfree]
  refine ⟨rfl, h.size_eq, ?_, ?_, ?_, h.rptr, ?_⟩
  · have := h.total
    show q.used + 1 + (q.free - 1) = size
    omega
  · show (pushed ++ [x]).length = popped + (q.used + 1)
    rw [List.length_append, h.length]
    rfl
  · show (if q.wptr + 1 ≥ q.size then 0 else q.wptr + 1) = (pushed ++ [x]).length % size
    rw [h.wptr, h.size_eq, advance_one hpos, List.length_append]
    rfl
  · show Holds (store q.entry q.wptr [x]) size (pushed ++ [x]) popped (pushed ++ [x]).length
    rw [h.wptr, List.length_append]
    exact hstore

/-- A pop with something to pop reads the next entry of the stream. -/
theorem popLocked_holds {q : PrQueue τ α} {pushed : List α} {popped : Nat}
    (h : Stores q size pushed popped) (hused : q.used ≠ 0) (x : α) :
    (popLocked q x).1 = .ok ∧ pushed[popped]? = some (popLocked q x).2.1 ∧
      Stores (popLocked q x).2.2 size pushed (popped + 1) := by
  have hpos : 0 < size := by
    have := h.total
    omega
  have hlt : popped < pushed.length := by
    have := h.length
    omega
  rw [popLocked, if_pos hused]
  refine ⟨rfl, ?_, h.size_eq, ?_, ?_, h.wptr, ?_, h.holds.mono (Nat.le_succ _) (Nat.le_refl _)⟩
  · show pushed[popped]? = some (q.entry q.rptr)
    rw [h.rptr]
    exact h.holds popped (Nat.le_refl _) hlt
  · have := h.total
    show q.used - 1 + (q.free + 1) = size
    omega
  · have := h.length
    show pushed.length = popped + 1 + (q.used - 1)
    omega
  · show (if q.rptr + 1 ≥ q.size then 0 else q.rptr + 1) = (popped + 1) % size
    rw [h.rptr, h.size_eq, advance_one hpos]

/-! ## 3. Contexts -/

/-- Where a context stands in a call: before the locked section, or behind it with the code that the
call is going to return. -/
inductive Pc (α : Type)
  | idle
  | pushing (entry : α)
  | popping
  /-- The locked section of `pr_queue_push` is over. -/
  | pushed (ret : PrError)
  /-- The locked section of `pr_queue_pop` is over. -/
  | popped (ret : PrError)

/-- The queue, the variable that each context gives to `pr_queue_pop`, and where the
contexts stand. `pushed` and `popped` are the entries of the calls that succeeded, in
order, and `scheduled` are the calls of `pr_task_exec`. -/
structure Sys (κ τ α : Type) where
  queue : PrQueue τ α
  slot : κ → α
  pc : κ → Pc α
  pushed : List α
  popped : List α
  scheduled : List (Option τ)

/-- The labels of the steps. A call is made, runs its locked section and returns in three steps, and
the two tasks may be set at any time. -/
inductive Act (κ τ α : Type)
  | push (k : κ) (entry : α)
  | pop (k : κ) (slot : α)
  | locked (k : κ)
  | leave (k : κ)
  | setConsumer (task : Option τ)
  | setProducer (task : Option τ)

/-- A prefix and the element behind it are a prefix. -/
theorem prefix_next {l m : List α} {x : α} (h : l <+: m) (hx : m[l.length]? = some x) :
    l ++ [x] <+: m := by
  obtain ⟨rest, rfl⟩ := h
  rw [List.getElem?_append_right (Nat.le_refl _), Nat.sub_self] at hx
  cases rest with
  | nil => cases hx
  | cons y rest =>
    cases hx
    exact ⟨rest, by simp⟩

section Steps

variable [DecidableEq κ]

def Sys.goes (s : Sys κ τ α) (k : κ) (pc : Pc α) : Sys κ τ α :=
  { s with pc := Function.update s.pc k pc }

/-- The locked section of the call of `k`. The entries that go in or out are recorded, in the order
of these sections. -/
def Sys.locked (s : Sys κ τ α) (k : κ) : Pc α → Option (Sys κ τ α)
  | .pushing x =>
    let (ret, queue) := pushLocked s.queue x
    let s' := { s with
      queue := queue
      pushed := if ret = PrError.ok then s.pushed ++ [x] else s.pushed }
    some (s'.goes k (.pushed ret))
  | .popping =>
    let (ret, x, queue) := popLocked s.queue (s.slot k)
    let s' := { s with
      queue := queue
      slot := Function.update s.slot k x
      popped := if ret = PrError.ok then s.popped ++ [x] else s.popped }
    some (s'.goes k (.popped ret))
  | _ => none

/-- The end of the call of `k`: the task is passed to `pr_task_exec` unless the call has failed. -/
def Sys.leave (s : Sys κ τ α) (k : κ) : Pc α → Option (Sys κ τ α)
  | .pushed ret =>
    let s' := { s with scheduled := s.scheduled ++ notify ret s.queue.consumer }
    some (s'.goes k .idle)
  | .popped ret =>
    let s' := { s with scheduled := s.scheduled ++ notify ret s.queue.producer }
    some (s'.goes k .idle)
  | _ => none

def step (s : Sys κ τ α) : Act κ τ α → Option (Sys κ τ α)
  | .push k x =>
    match s.pc k with
    | .idle => some (s.goes k (.pushing x))
    | _ => none
  | .pop k x =>
    match s.pc k with
    | .idle => some ({ s with slot := Function.update s.slot k x }.goes k .popping)
    | _ => none
  | .locked k => s.locked k (s.pc k)
  | .leave k => s.leave k (s.pc k)
  | .setConsumer t => some { s with queue := prQueueConsumerSet s.queue t }
  | .setProducer t => some { s with queue := prQueueProducerSet s.queue t }

/-- The contexts `κ` on one queue that has been initialised. -/
def contexts (κ τ : Type) [DecidableEq κ] (mem : Mem α) (size : Nat) :
    Lts (Sys κ τ α) (Act κ τ α) :=
  Lts.ofFun (fun s => s.queue = prQueueInit mem size ∧ (∀ k, s.pc k = .idle) ∧
    s.pushed = [] ∧ s.popped = []) step

/-- The queue holds what was pushed and not popped, in the order of the locked sections. -/
structure Inv (size : Nat) (s : Sys κ τ α) : Prop where
  stores : Stores s.queue size s.pushed s.popped.length
  order : s.popped <+: s.pushed

omit [DecidableEq κ] in
theorem inv_init {mem : Mem α} {s : Sys κ τ α} (hq : s.queue = prQueueInit mem size)
    (hpushed : s.pushed = []) (hpopped : s.popped = []) : Inv size s := by
  refine ⟨?_, ?_⟩
  · rw [hq, hpushed, hpopped]
    exact stores_init mem size
  · rw [hpopped]
    exact List.nil_prefix

omit [DecidableEq κ] in
/-- The entries in the queue are a bounded sequence: what has been pushed and not popped. -/
theorem Inv.bounded {s : Sys κ τ α} (h : Inv size s) :
    ∃ b : Bounded α size, s.pushed = s.popped ++ b.items ∧ s.queue.used = b.items.length := by
  obtain ⟨items, hitems⟩ := h.order
  have hused : s.queue.used = items.length := by
    have hlen := h.stores.length
    rw [← hitems, List.length_append] at hlen
    exact (Nat.add_left_cancel hlen).symm
  refine ⟨⟨items, ?_⟩, hitems.symm, hused⟩
  rw [← hused, ← h.stores.total]
  exact Nat.le_add_right _ _

def Sys.afterPush (s : Sys κ τ α) (k : κ) (x : α) : Sys κ τ α :=
  let s' := { s with queue := (pushLocked s.queue x).2, pushed := s.pushed ++ [x] }
  s'.goes k (.pushed .ok)

def Sys.afterPop (s : Sys κ τ α) (k : κ) (x : α) : Sys κ τ α :=
  let s' := { s with
    queue := (popLocked s.queue (s.slot k)).2.2
    slot := Function.update s.slot k x
    popped := s.popped ++ [x] }
  s'.goes k (.popped .ok)

theorem locked_push {s : Sys κ τ α} (h : Inv size s) (k : κ) (x : α) :
    s.queue.free = 0 ∧ s.locked k (.pushing x) = some (s.goes k (.pushed .memory)) ∨
    s.queue.free ≠ 0 ∧ s.locked k (.pushing x) = some (s.afterPush k x) ∧
      Inv size (s.afterPush k x) := by
  rcases Nat.eq_zero_or_pos s.queue.free with hfree | hfree
  · refine .inl ⟨hfree, ?_⟩
    simp only [Sys.locked, pushLocked_full hfree]
    rfl
  · obtain ⟨hret, hstores⟩ := pushLocked_holds h.stores (Nat.ne_of_gt hfree) x
    refine .inr ⟨Nat.ne_of_gt hfree, ?_, hstores, h.order.trans (List.prefix_append _ _)⟩
    simp only [Sys.locked, hret, if_true]
    rfl

/-- The locked section of a pop. It leaves the variable alone if it fails. -/
theorem locked_pop {s : Sys κ τ α} (h : Inv size s) (k : κ) :
    s.queue.used = 0 ∧ s.locked k .popping = some (s.goes k (.popped .memory)) ∨
    ∃ x, s.pushed[s.popped.length]? = some x ∧
      s.locked k .popping = some (s.afterPop k x) ∧ Inv size (s.afterPop k x) := by
  rcases Nat.eq_zero_or_pos s.queue.used with hused | hused
  · refine .inl ⟨hused, ?_⟩
    simp only [Sys.locked, popLocked_empty hused, Function.update_eq_self]
    rfl
  · obtain ⟨hret, hx, hstores⟩ := popLocked_holds h.stores (Nat.ne_of_gt hused) (s.slot k)
    refine .inr ⟨_, hx, ?_, ?_, ?_⟩
    · simp only [Sys.locked, hret, if_true]
      rfl
    · show Stores _ size s.pushed (s.popped ++ [_]).length
      rw [List.length_append]
      exact hstores
    · exact prefix_next h.order hx

theorem inv_locked {s s' : Sys κ τ α} (h : Inv size s) {k : κ} {pc : Pc α}
    (hs : s.locked k pc = some s') : Inv size s' := by
  cases pc with
  | pushing x =>
    rcases locked_push h k x with ⟨-, heq⟩ | ⟨-, heq, hinv⟩
    · rw [heq] at hs
      cases hs
      exact ⟨h.stores, h.order⟩
    · rw [heq] at hs
      cases hs
      exact hinv
  | popping =>
    rcases locked_pop h k with ⟨-, heq⟩ | ⟨x, -, heq, hinv⟩
    · rw [heq] at hs
      cases hs
      exact ⟨h.stores, h.order⟩
    · rw [heq] at hs
      cases hs
      exact hinv
  | _ => cases hs

theorem inv_step {s s' : Sys κ τ α} (h : Inv size s) {a : Act κ τ α} (hs : step s a = some s') :
    Inv size s' := by
  cases a with
  | push k x =>
    simp only [step] at hs
    split at hs
    · cases hs
      exact ⟨h.stores, h.order⟩
    · cases hs
  | pop k x =>
    simp only [step] at hs
    split at hs
    · cases hs
      exact ⟨h.stores, h.order⟩
    · cases hs
  | locked k => exact inv_locked h hs
  | leave k =>
    simp only [step, Sys.leave] at hs
    split at hs
    · cases hs
      exact ⟨h.stores, h.order⟩
    · cases hs
      exact ⟨h.stores, h.order⟩
    · cases hs
  | setConsumer t =>
    cases hs
    exact ⟨⟨h.stores.1, h.stores.2, h.stores.3, h.stores.4, h.stores.5, h.stores.6⟩, h.order⟩
  | setProducer t =>
    cases hs
    exact ⟨⟨h.stores.1, h.stores.2, h.stores.3, h.stores.4, h.stores.5, h.stores.6⟩, h.order⟩

theorem reachable_inv {mem : Mem α} {s : Sys κ τ α} (h : (contexts κ τ mem size).Reachable s) :
    Inv size s := by
  refine h.invariant (I := Inv size) ?_ ?_
  · exact fun s hs => inv_init hs.1 hs.2.2.1 hs.2.2.2
  · exact fun s a t hs hstep => inv_step hs hstep

/-- A call that has failed returns and leaves everything else as it is, tasks included. -/
theorem leave_failed {s s' : Sys κ τ α} {k : κ}
    (h : s.pc k = .pushed .memory ∨ s.pc k = .popped .memory) (hs : step s (.leave k) = some s') :
    s' = s.goes k .idle := by
  rcases h with h | h
  · simp only [step, h, Sys.leave, notify, reduceCtorEq, if_false, List.append_nil] at hs
    exact (Option.some.inj hs).symm
  · simp only [step, h, Sys.leave, notify, reduceCtorEq, if_false, List.append_nil] at hs
    exact (Option.some.inj hs).symm

/-- Whatever the contexts do, `used + free` is the size, and the entries that were popped
are the first ones that were pushed. The entries in between are a bounded FIFO. The locked
section of a call acts on it, and fails exactly when it is full, or empty. A call that
fails changes nothing but where its context stands, up to its end. -/
theorem queue_linearizable (mem : Mem α) (size : Nat) {s : Sys κ τ α}
    (h : (contexts κ τ mem size).Reachable s) :
    s.queue.used + s.queue.free = size ∧ s.popped <+: s.pushed ∧
    (∃ b : Bounded α size, s.pushed = s.popped ++ b.items ∧ s.queue.used = b.items.length ∧
      ∀ k s', (contexts κ τ mem size).step s (.locked k) s' →
        (∀ x, s.pc k = .pushing x →
          b.items.length = size ∧ s' = s.goes k (.pushed .memory) ∨
          ∃ b', b.push x = some b' ∧ s'.pc k = .pushed .ok ∧ s'.pushed = s.pushed ++ [x] ∧
            s'.popped = s.popped ∧ s'.pushed = s'.popped ++ b'.items) ∧
        (s.pc k = .popping →
          b.items = [] ∧ s' = s.goes k (.popped .memory) ∨
          ∃ x b', b.pop = some (x, b') ∧ s'.pc k = .popped .ok ∧ s'.slot k = x ∧
            s'.popped = s.popped ++ [x] ∧ s'.pushed = s.pushed ∧
            s'.pushed = s'.popped ++ b'.items)) ∧
    ∀ k s', (contexts κ τ mem size).step s (.leave k) s' →
      s.pc k = .pushed .memory ∨ s.pc k = .popped .memory → s' = s.goes k .idle := by
  have hinv := reachable_inv h
  obtain ⟨b, hitems, hused⟩ := hinv.bounded
  have htotal := hinv.stores.total
  refine ⟨htotal, hinv.order, ⟨b, hitems, hused, fun k s' hs => ⟨fun x hpc => ?_, fun hpc => ?_⟩⟩,
    fun k s' hs hpc => leave_failed hpc hs⟩
  · have hs : s.locked k (s.pc k) = some s' := hs
    rw [hpc] at hs
    rcases locked_push hinv k x with ⟨hfree, heq⟩ | ⟨hfree, heq, -⟩
    · rw [heq] at hs
      cases hs
      exact .inl ⟨by rw [← hused, ← htotal, hfree, Nat.add_zero], rfl⟩
    · rw [heq] at hs
      cases hs
      cases hpush : b.push x with
      | none =>
        rw [Bounded.push_eq_none, ← hused, ← htotal] at hpush
        exact absurd (Nat.left_eq_add.mp hpush) hfree
      | some b' =>
        refine .inr ⟨b', rfl, Function.update_self .., rfl, rfl, ?_⟩
        show s.pushed ++ [x] = s.popped ++ b'.items
        rw [hitems, Bounded.items_of_push hpush, List.append_assoc]
  · have hs : s.locked k (s.pc k) = some s' := hs
    rw [hpc] at hs
    rcases locked_pop hinv k with ⟨hzero, heq⟩ | ⟨x, hx, heq, -⟩
    · rw [heq] at hs
      cases hs
      exact .inl ⟨List.length_eq_zero_iff.mp (hused.symm.trans hzero), rfl⟩
    · rw [heq] at hs
      cases hs
      rw [hitems, List.getElem?_append_right (Nat.le_refl _), Nat.sub_self] at hx
      cases hpop : b.pop with
      | none =>
        rw [Bounded.pop_eq_none.mp hpop] at hx
        cases hx
      | some r =>
        obtain ⟨y, b'⟩ := r
        rw [Bounded.items_of_pop hpop] at hx hitems
        cases hx
        refine .inr ⟨x, b', rfl, Function.update_self .., Function.update_self .., rfl, rfl, ?_⟩
        show s.pushed = s.popped ++ [x] ++ b'.items
        rw [hitems, List.append_assoc]
        rfl

end Steps

namespace BoundedLemmas

def start : Sys Bool Unit Nat where
  queue := prQueueInit (fun _ => 0) 1
  slot _ := 0
  pc _ := .idle
  pushed := []
  popped := []
  scheduled := []

/-- The contexts push 7 and 8, the second one takes the lock first, and it then calls `pr_queue_pop`
while the first one is still inside its call. -/
def calls : List (Act Bool Unit Nat) :=
  [.push false 7, .push true 8, .locked true, .leave true, .locked false, .pop true 5]

/-- The pop has started, and the push of `false` has failed. -/
def midway : Sys Bool Unit Nat := (exec step start calls).getD start

theorem reachable_midway : (contexts Bool Unit (fun _ => 0) 1).Reachable midway :=
  Lts.reachable_exec (s := start) (.init ⟨rfl, fun _ => rfl, rfl, rfl⟩)
    (show exec step start calls = some midway from rfl)

end BoundedLemmas

open BoundedLemmas in
/-- In a queue with one cell one of two pushes fails. -/
theorem queue_linearizable_midway :
    (contexts Bool Unit (fun _ => 0) 1).Reachable midway ∧
    midway.pc false = .pushed .memory ∧ midway.pushed = [8] ∧
    midway.queue.used + midway.queue.free = 1 ∧ midway.popped <+: midway.pushed :=
  have h := queue_linearizable (fun _ => 0) 1 reachable_midway
  ⟨reachable_midway, rfl, rfl, h.1, h.2.1⟩

end Picore.Queue
