import Picore.Modbus.Stall
import Picore.Task.Milliseconds

/-!
# The timeout of a unit

A unit as in `Bus`, on a task queue and with a clock that never goes back. The flags of a
`Node` are what the last handler asked the scheduler for: the calls are made one after the
other, behind the rest of the handler. The transport, the alarm and the other tasks of the
queue make calls of their own at any time, but none of them asks for `clear`.

Results:
1. `notBefore_call`: what a call does to a task that it does not ask for.
2. `onWork_waits`: the worker leaves bytes in the buffer only when it asks for `clear`.
3. `inv_step`: no step lets `clear` run early, unless a delay is refused.
4. `timeout_drops_silence`: as long as the delay is not refused to a worker that has read
   bytes, `clear` drops them no earlier than `TIMEOUT_MS` after they were read.
   `late_byte_dropped`: a run in which it is refused.
-/

namespace Picore.Modbus

open Fuel Transition Picore.Task StallLemmas

variable {σ ι : Type} [DecidableEq ι]

def timeoutMs : Nat := 50

/-- A call that does not ask for the task `t`, and that is not one of the main loop. -/
def Foreign (t : ι) : Call ι → Bool
  | .exec (some u) => u ≠ t
  | .exec none => true
  | .execInUs u _ => u ≠ t
  | .execInMs u _ => u ≠ t
  | .alarm _ => true
  | .pop => false

def Node.quiet (n : Node σ) : Node σ := { n with worker := false, clear := .idle }

def Node.requests (worker clear : ι) (n : Node σ) : List (Call ι) :=
  (if n.worker then [.exec (some worker)] else []) ++
    if n.clear = .waiting then [.execInMs clear timeoutMs] else []

/-- Whether `on_work` reads bytes into the buffer. -/
def Node.reads (k : Nat) (n : Node σ) : Bool :=
  n.bus.rspSize = 0 && (n.received k).bus.ptr ≠ n.bus.ptr

/-- A unit on its queue. `todo` are the calls that the running handler has still to make,
`read` tells whether it has read bytes, and `lastRead` when the worker last did. -/
structure Timed (σ ι : Type) where
  node : Node σ
  sched : Sched ι
  todo : List (Call ι)
  read : Bool
  clock : Nat
  lastRead : Option Nat

/-- The labels of the steps, each with the time at which it is made. The handlers of the unit are
cut at their calls of the scheduler, and other tasks and contexts may come in at these points. -/
inductive TimedAct (ι : Type)
  /-- The transport writes to the rx FIFO. -/
  | arrive (bytes : List UInt8)
  /-- The transport takes bytes from the tx FIFO. -/
  | drain (len : Nat)
  /-- The transport, the alarm or another task makes a call. -/
  | call (fuel : Nat) (c : Call ι)
  /-- The main loop takes out another task. -/
  | other (t : ι)
  /-- It takes out the worker, which runs up to its call of the scheduler. -/
  | work (k fuel : Nat) (past : UInt8)
  /-- It takes out `clear`, which runs up to its call of the scheduler. -/
  | clear
  /-- The running handler makes its next call. -/
  | issue (fuel : Nat)

/-- The queue without its first pending task, which is `t`. -/
def popped (t : ι) (s : Sched ι) : Option (Sched ι) :=
  match prTaskPendingQueuePop s with
  | (some u, s') => if u = t then some s' else none
  | (none, _) => none

def called (sdk : Sdk) (fuel : Nat) (c : Call ι) (s : Sched ι) : Option (Sched ι) :=
  (c.run sdk fuel s).toOption.map Prod.snd

/-- What happens at a time. The main loop takes out a task when no handler runs. -/
def Timed.act (h : Handler σ) (sdk : Sdk) (worker clear : ι) (time : Nat) (s : Timed σ ι) :
    TimedAct ι → Option (Timed σ ι)
  | .arrive bytes => some { s with node := { s.node with rx := s.node.rx ++ bytes } }
  | .drain len =>
    if len ≤ s.node.used then
      some { s with node := { s.node with free := s.node.free + len, used := s.node.used - len } }
    else none
  | .call fuel c =>
    if Foreign clear c then (called sdk fuel c s.sched).map fun sched => { s with sched := sched }
    else none
  | .other t =>
    if s.todo.isEmpty && t ≠ worker && t ≠ clear then
      (popped t s.sched).map fun sched => { s with sched := sched }
    else none
  | .work k fuel past =>
    if s.todo.isEmpty then
      (popped worker s.sched).bind fun sched =>
      (onWork h k fuel past s.node.quiet).toOption.map fun node =>
        { s with
          node := node
          sched := sched
          todo := node.requests worker clear
          read := s.node.reads k
          lastRead := if s.node.reads k then some time else s.lastRead }
    else none
  | .clear =>
    if s.todo.isEmpty then
      (popped clear s.sched).map fun sched =>
        { s with
          node := onClear s.node.quiet
          sched := sched
          todo := (onClear s.node.quiet).requests worker clear
          read := false }
    else none
  | .issue fuel =>
    match s.todo with
    | [] => none
    | c :: todo => (called sdk fuel c s.sched).map fun sched =>
      { s with sched := sched, todo := todo }

def timedStep (h : Handler σ) (sdk : Nat → Sdk) (worker clear : ι) (s : Timed σ ι)
    (l : Nat × TimedAct ι) : Option (Timed σ ι) :=
  if s.clock ≤ l.1 then
    (s.act h (sdk l.1) worker clear l.1 l.2).map fun s' => { s' with clock := l.1 }
  else none

theorem timedStep_eq_some {h : Handler σ} {sdk : Nat → Sdk} {worker clear : ι} {s s' : Timed σ ι}
    {time : Nat} {act : TimedAct ι} :
    timedStep h sdk worker clear s (time, act) = some s' ↔
      s.clock ≤ time ∧ ∃ s1, s.act h (sdk time) worker clear time act = some s1 ∧
        { s1 with clock := time } = s' := by
  rw [timedStep]
  split
  · rw [Option.map_eq_some_iff]
    exact ⟨fun hs => ⟨‹_›, hs⟩, fun hs => hs.2⟩
  · exact ⟨nofun, fun hs => absurd hs.1 ‹_›⟩

/-- The state after `pr_modbus_init`, on a queue that has just been initialised. -/
structure Timed.Init (handler : ι → Bool) (s : Timed σ ι) : Prop where
  node : s.node.Init
  sched : Fresh handler s.sched
  todo : s.todo = []

/-- A unit with a clock, under every order of steps. -/
def timedLine (h : Handler σ) (handler : ι → Bool) (sdk : Nat → Sdk) (worker clear : ι) :
    Lts (Timed σ ι) (Nat × TimedAct ι) :=
  Lts.ofFun (Timed.Init handler) (timedStep h sdk worker clear)

/-- Received bytes that `clear` drops are at least `TIMEOUT_MS` old. -/
def DropsSilence (L : Lts (Timed σ ι) (Nat × TimedAct ι)) : Prop :=
  ∀ s, L.Reachable s → ∀ time s', L.step s (time, .clear) s' →
    s.node.bus.rspSize = 0 → s.node.bus.ptr ≠ 0 →
    ∃ read, s.lastRead = some read ∧ read + 1000 * timeoutMs ≤ time

/-- A worker that has read bytes and asks for `clear` finds it not pending. -/
def Rearms (clear : ι) (s : Timed σ ι) : Nat × TimedAct ι → Prop
  | (_, .issue _) => s.read = true → s.todo.head? = some (.execInMs clear timeoutMs) →
      (s.sched.tasks clear).pending = false
  | _ => True

/-! ## 1. Calls -/

/-- The task does not run before `d`: it waits for no earlier time, and it is pending only
when that has come. -/
structure NotBefore (a : Schedule ι Nat) (t : ι) (d clock : Nat) : Prop where
  pending : t ∈ a.pending → d ≤ clock
  waiting : ∀ e, (t, e) ∈ a.waiting → d ≤ e

variable {a : Schedule ι Nat} {t : ι} {d clock time : Nat}

omit [DecidableEq ι] in
theorem NotBefore.later (h : NotBefore a t d clock) (htime : clock ≤ time) :
    NotBefore a t d time :=
  ⟨fun hp => (h.pending hp).trans htime, h.waiting⟩

namespace TimeoutLemmas

omit [DecidableEq ι] in
theorem notBefore_pop (h : NotBefore a t d clock) : NotBefore a.pop t d clock :=
  ⟨fun hp => h.pending (List.mem_of_mem_tail hp), h.waiting⟩

theorem notBefore_exec (h : NotBefore a t d clock) {u : ι} (hne : u ≠ t) :
    NotBefore (a.exec u) t d clock := by
  unfold Schedule.exec
  split
  · exact h
  · refine ⟨fun hp => ?_, fun e he => h.waiting e (List.mem_filter.mp he).1⟩
    rcases List.mem_append.mp hp with hp | hp
    · exact h.pending hp
    · exact absurd (List.mem_singleton.mp hp).symm hne

theorem notBefore_execIn (h : NotBefore a t d clock) {u : ι} (hne : u ≠ t) (e : Nat) :
    NotBefore (a.execIn u e) t d clock := by
  refine ⟨fun hp => h.pending (pending_execIn a u e ▸ hp), fun f hf => ?_⟩
  by_cases hu : u ∈ a.pending
  · rw [Schedule.execIn, dif_pos hu] at hf
    exact h.waiting f hf
  · rcases (Schedule.mem_waiting_execIn e hu).mp hf with heq | ⟨hmem, -⟩
    · exact absurd (Prod.mk.inj heq).1.symm hne
    · exact h.waiting f hmem

omit [DecidableEq ι] in
theorem notBefore_expire (h : NotBefore a t d clock) (htime : clock ≤ time) :
    NotBefore (a.expire time) t d time := by
  refine ⟨fun hp => ?_, fun e he => h.waiting e (List.mem_filter.mp he).1⟩
  rcases List.mem_append.mp hp with hp | hp
  · exact (h.pending hp).trans htime
  · obtain ⟨⟨u, e⟩, hmem, rfl⟩ := List.mem_map.mp hp
    obtain ⟨hmem, he⟩ := List.mem_filter.mp hmem
    exact (h.waiting e hmem).trans (of_decide_eq_true he)

/-- A task that nobody asks for still does not run before `d`. -/
theorem notBefore_call {handler : ι → Bool} (h : NotBefore a t d clock) {sdk : Sdk}
    (hsdk : sdk.getAbsoluteTime = time) (htime : clock ≤ time) {c : Call ι}
    (hc : Foreign t c = true) : NotBefore (a.call handler sdk c).2 t d time := by
  have hlater := h.later htime
  cases c with
  | exec task =>
    cases task with
    | none => exact hlater
    | some u =>
      rw [Schedule.call]
      split
      · exact notBefore_exec hlater (of_decide_eq_true hc)
      · exact hlater
  | execInUs u us => exact notBefore_execIn hlater (of_decide_eq_true hc) _
  | execInMs u ms => exact notBefore_execIn hlater (of_decide_eq_true hc) _
  | alarm id =>
    rw [← hsdk] at htime ⊢
    exact notBefore_expire h htime
  | pop => cases hc

/-- A delay that is not refused is the only one. -/
theorem notBefore_rearm {e : Nat} (hp : t ∉ a.pending) (hd : d ≤ e) :
    NotBefore (a.execIn t e) t d time := by
  refine ⟨fun hmem => absurd (pending_execIn a t e ▸ hmem) hp, fun f hf => ?_⟩
  rw [Schedule.execIn_deadline hp hf]
  exact hd

theorem notBefore_refused {e : Nat} (h : NotBefore a t d clock) (hd : d ≤ e) :
    NotBefore (a.execIn t e) t d clock := by
  by_cases hp : t ∈ a.pending
  · rw [Schedule.execIn, dif_pos hp]
    exact h
  · exact notBefore_rearm hp hd

/-! ## 2. The worker -/

theorem txTry_sent {n : Node σ} (hn : n.bus.rspSize ≠ 0)
    (hsize : (modbusTxTry n).bus.rspSize = 0) : (modbusTxTry n).bus.ptr = 0 := by
  revert hsize
  unfold modbusTxTry
  simp only
  split
  · exact fun _ => rfl
  · exact fun hsize => absurd hsize hn

/-- Bytes that stay in the buffer wait for `clear`. -/
theorem rxTry_waits {h : Handler σ} {k fuel : Nat} {past : UInt8} {n n' : Node σ}
    (hn : n.bus.rspSize = 0) (hok : modbusRxTry h k fuel past n = .ok n')
    (hsize : n'.bus.rspSize = 0) (hptr : n'.bus.ptr ≠ 0) : n' = (n.received k).execClear := by
  rw [modbusRxTry] at hok
  by_cases hlen : bufferSize < modbusReqFrameLen (n.received k).bus.buffer (n.received k).bus.ptr
  · rw [reqTry_oversized h fuel hlen, bind_ok] at hok
    cases hok
    exact absurd rfl hptr
  by_cases hfound : Found (n.received k).bus
      (modbusReqFrameLen (n.received k).bus.buffer (n.received k).bus.ptr)
  · rw [reqTry_found h fuel hfound, busReqHandle_eq] at hok
    obtain ⟨⟨useful, n1⟩, hreq, hok⟩ := bind_eq_ok.mp hok
    obtain ⟨n2, hreq, hn2⟩ := bind_eq_ok.mp hreq
    obtain ⟨⟨called, bus⟩, hresp, hreq⟩ := bind_eq_ok.mp hreq
    cases hreq
    cases hn2
    cases hok
    cases called with
    | false =>
      refine absurd ?_ hptr
      rw [busReqRespond_ignored hresp]
      rfl
    | true =>
      obtain ⟨-, hpos, -⟩ := busReqRespond_called hresp
      exact absurd (txTry_sent (Nat.ne_of_gt hpos) hsize) hptr
  · rw [reqTry_none h fuel (Nat.le_of_not_lt hlen) hfound, bind_ok] at hok
    simp only [Bool.false_eq_true, if_false] at hok
    by_cases htaken : bufferSize <
          modbusRspFrameLen past (n.received k).bus.buffer (n.received k).bus.ptr ∨
        Found (n.received k).bus
          (modbusRspFrameLen past (n.received k).bus.buffer (n.received k).bus.ptr)
    · rw [rspTry_taken (n := n.received k) past hn htaken] at hok
      cases hok
      exact absurd rfl hptr
    · rw [rspTry_none past htaken] at hok
      simp only [Bool.false_eq_true, if_false] at hok
      split at hok
      · cases hok
        rfl
      · cases hok
        exact absurd hptr ‹_›

omit [DecidableEq ι] in
/-- The worker leaves bytes in the buffer only when it asks for `clear`. They were there
before, or it has read some. -/
theorem onWork_waits {h : Handler σ} {k fuel : Nat} {past : UInt8} {n n' : Node σ}
    (hok : onWork h k fuel past n.quiet = .ok n') (hsize : n'.bus.rspSize = 0)
    (hptr : n'.bus.ptr ≠ 0) (worker clear : ι) :
    n'.requests worker clear = [.execInMs clear timeoutMs] ∧ n.bus.rspSize = 0 ∧
      (n.reads k = false → n.bus.ptr ≠ 0) := by
  rw [onWork] at hok
  split at hok
  · cases hok
    exact absurd (txTry_sent ‹_› hsize) hptr
  · have hn : n.bus.rspSize = 0 := not_not.mp ‹_›
    obtain rfl := rxTry_waits (n := n.quiet) hn hok hsize hptr
    refine ⟨rfl, hn, fun hreads => ?_⟩
    have hsame : (n.received k).bus.ptr = n.bus.ptr := by
      simpa [Node.reads, hn] using hreads
    rw [← hsame]
    exact hptr

theorem requests_spec {worker clear : ι} (hne : worker ≠ clear) (n : Node σ) {c : Call ι}
    (hc : c ∈ n.requests worker clear) :
    Foreign clear c = true ∨ c = .execInMs clear timeoutMs := by
  rcases List.mem_append.mp hc with hc | hc
  · split at hc
    · rw [List.mem_singleton.mp hc]
      exact .inl (decide_eq_true hne)
    · cases hc
  · split at hc
    · exact .inr (List.mem_singleton.mp hc)
    · cases hc

/-! ## 3. Steps -/

theorem popped_represents {handler : ι → Bool} {s s' : Sched ι} (h : Represents handler s a)
    (hpop : popped t s = some s') : t ∈ a.pending ∧ Represents handler s' a.pop := by
  obtain ⟨hhead, hrep, -⟩ := prTaskPendingQueuePop_represents h
  rw [popped] at hpop
  split at hpop
  · next u s1 heq =>
    rw [heq] at hhead hrep
    split at hpop
    · next hu =>
      cases hpop
      rw [← hu]
      exact ⟨List.mem_of_head? hhead.symm, hrep⟩
    · cases hpop
  · cases hpop

theorem called_represents {handler : ι → Bool} {s s' : Sched ι} (h : Represents handler s a)
    {sdk : Sdk} {fuel : Nat} {c : Call ι} (hcall : called sdk fuel c s = some s') :
    Represents handler s' (a.call handler sdk c).2 := by
  rw [called] at hcall
  cases hrun : c.run sdk fuel s with
  | error e =>
    rw [hrun] at hcall
    cases hcall
  | ok r =>
    rw [hrun] at hcall
    cases hcall
    exact (call_of_represents h ⟨fuel, hrun⟩).2

/-- Bytes in the buffer: the worker that read them is about to ask for `clear`, or `clear`
does not run before their time is over. -/
structure Inv (handler : ι → Bool) (clear : ι) (s : Timed σ ι) (a : Schedule ι Nat) : Prop where
  sched : Represents handler s.sched a
  todo : ∀ c ∈ s.todo, Foreign clear c = true ∨ c = .execInMs clear timeoutMs
  bytes : s.node.bus.rspSize = 0 → s.node.bus.ptr ≠ 0 →
    ∃ read, s.lastRead = some read ∧ read ≤ s.clock ∧
      (s.read = true ∧ s.todo = [.execInMs clear timeoutMs] ∨
        NotBefore a clear (read + 1000 * timeoutMs) s.clock)

variable {handler : ι → Bool} {worker clear : ι}

theorem inv_init {s : Timed σ ι} (h : s.Init handler) :
    Inv handler clear s .empty where
  sched := h.sched.represents
  todo c hc := by
    rw [h.todo] at hc
    cases hc
  bytes _ hptr := absurd h.node.ptr hptr

theorem Inv.later {s : Timed σ ι} (h : Inv handler clear s a) (htime : s.clock ≤ time) :
    Inv handler clear { s with clock := time } a where
  sched := h.sched
  todo := h.todo
  bytes hsize hptr := by
    obtain ⟨read, hread, hle, hwhy⟩ := h.bytes hsize hptr
    exact ⟨read, hread, hle.trans htime, hwhy.imp_right fun hnot => hnot.later htime⟩

theorem inv_call {s : Timed σ ι} (h : Inv handler clear s a) {sdk : Sdk}
    (hsdk : sdk.getAbsoluteTime = time) (htime : s.clock ≤ time) {fuel : Nat} {c : Call ι}
    (hc : Foreign clear c = true) {sched : Sched ι}
    (hcall : called sdk fuel c s.sched = some sched) :
    Inv handler clear { s with sched := sched, clock := time } (a.call handler sdk c).2 where
  sched := called_represents h.sched hcall
  todo := h.todo
  bytes hsize hptr := by
    obtain ⟨read, hread, hle, hwhy⟩ := h.bytes hsize hptr
    refine ⟨read, hread, hle.trans htime, hwhy.imp_right fun hnot => ?_⟩
    exact notBefore_call hnot hsdk htime hc

theorem inv_work {h : Handler σ} {s : Timed σ ι} (hs : Inv handler clear s a)
    (hne : worker ≠ clear) (htime : s.clock ≤ time) (htodo : s.todo = []) {k fuel : Nat}
    {past : UInt8} {sched : Sched ι} {node : Node σ} (hpop : popped worker s.sched = some sched)
    (hok : onWork h k fuel past s.node.quiet = .ok node) :
    Inv handler clear
      { s with
        node := node
        sched := sched
        todo := node.requests worker clear
        read := s.node.reads k
        lastRead := if s.node.reads k then some time else s.lastRead
        clock := time } a.pop where
  sched := (popped_represents hs.sched hpop).2
  todo _ hc := requests_spec hne node hc
  bytes hsize hptr := by
    obtain ⟨hasks, hsize', hptr'⟩ := onWork_waits hok hsize hptr worker clear
    cases hreads : s.node.reads k with
    | true => exact ⟨time, rfl, Nat.le_refl time, .inl ⟨rfl, hasks⟩⟩
    | false =>
      -- The bytes were there before, and no call for them was left to be made.
      obtain ⟨read, hread, hle, ⟨-, hcalls⟩ | hnot⟩ := hs.bytes hsize' (hptr' hreads)
      · rw [htodo] at hcalls
        cases hcalls
      · exact ⟨read, hread, hle.trans htime, .inr ((notBefore_pop hnot).later htime)⟩

theorem inv_issue {s : Timed σ ι} (hs : Inv handler clear s a) {sdk : Sdk}
    (hnow : sdk.getAbsoluteTime = time) (hsdk : Delays sdk) (htime : s.clock ≤ time)
    {fuel : Nat} (hrearms : Rearms clear s (time, .issue fuel)) {c : Call ι} {todo : List (Call ι)}
    (htodo : s.todo = c :: todo) {sched : Sched ι}
    (hcall : called sdk fuel c s.sched = some sched) :
    Inv handler clear { s with sched := sched, todo := todo, clock := time }
      (a.call handler sdk c).2 where
  sched := called_represents hs.sched hcall
  todo c hc := hs.todo c (htodo ▸ List.mem_cons_of_mem _ hc)
  bytes hsize hptr := by
    obtain ⟨read, hread, hle, hwhy⟩ := hs.bytes hsize hptr
    refine ⟨read, hread, hle.trans htime, .inr ?_⟩
    have hdelay : read + 1000 * timeoutMs ≤ sdk.makeTimeoutTimeMs timeoutMs := by
      rw [hsdk.ms, hnow]
      exact Nat.add_le_add_right (hle.trans htime) _
    rcases hwhy with ⟨hreads, hcalls⟩ | hnot
    · obtain ⟨rfl, -⟩ := List.cons.inj (htodo.symm.trans hcalls)
      have hp : clear ∉ a.pending := fun hmem => by
        have hflag := hrearms hreads (by rw [hcalls]; rfl)
        rw [(hs.sched.pending_flag clear).mpr hmem] at hflag
        cases hflag
      exact notBefore_rearm hp hdelay
    · rcases hs.todo c (htodo ▸ List.mem_cons_self) with hc | rfl
      · exact notBefore_call hnot hnow htime hc
      · exact (notBefore_refused hnot hdelay).later htime

theorem inv_step {h : Handler σ} {sdk : Nat → Sdk}
    (hnow : ∀ time, (sdk time).getAbsoluteTime = time) (hsdk : ∀ time, Delays (sdk time))
    (hne : worker ≠ clear) {s s' : Timed σ ι} (hs : Inv handler clear s a)
    {l : Nat × TimedAct ι} (hrearms : Rearms clear s l)
    (hstep : timedStep h sdk worker clear s l = some s') :
    ∃ a', Inv handler clear s' a' := by
  obtain ⟨time, act⟩ := l
  obtain ⟨htime, s1, hact, rfl⟩ := timedStep_eq_some.mp hstep
  have hlater := hs.later htime
  cases act with
  | arrive bytes =>
    cases hact
    exact ⟨a, hlater.sched, hlater.todo, hlater.bytes⟩
  | drain len =>
    rw [Timed.act] at hact
    split at hact
    · cases hact
      exact ⟨a, hlater.sched, hlater.todo, hlater.bytes⟩
    · cases hact
  | call fuel c =>
    rw [Timed.act] at hact
    split at hact
    · obtain ⟨sched, hcall, rfl⟩ := Option.map_eq_some_iff.mp hact
      exact ⟨_, inv_call hs (hnow time) htime ‹_› hcall⟩
    · cases hact
  | other t =>
    rw [Timed.act] at hact
    split at hact
    · obtain ⟨sched, hpop, rfl⟩ := Option.map_eq_some_iff.mp hact
      refine ⟨a.pop, (popped_represents hs.sched hpop).2, hs.todo, fun hsize hptr => ?_⟩
      obtain ⟨read, hread, hle, hwhy⟩ := hlater.bytes hsize hptr
      exact ⟨read, hread, hle, hwhy.imp_right notBefore_pop⟩
    · cases hact
  | work k fuel past =>
    rw [Timed.act] at hact
    split at hact
    · obtain ⟨sched, hpop, hact⟩ := Option.bind_eq_some_iff.mp hact
      obtain ⟨node, hok, rfl⟩ := Option.map_eq_some_iff.mp hact
      exact ⟨_, inv_work hs hne htime (List.isEmpty_iff.mp ‹_›) hpop
        (toOption_eq_some.mp hok)⟩
    · cases hact
  | clear =>
    rw [Timed.act] at hact
    split at hact
    · obtain ⟨sched, hpop, rfl⟩ := Option.map_eq_some_iff.mp hact
      exact ⟨a.pop, (popped_represents hs.sched hpop).2, fun c hc => requests_spec hne _ hc,
        fun _ hptr => absurd rfl hptr⟩
    · cases hact
  | issue fuel =>
    rw [Timed.act] at hact
    split at hact
    · cases hact
    · obtain ⟨sched, hcall, rfl⟩ := Option.map_eq_some_iff.mp hact
      exact ⟨_, inv_issue hs (hnow time) (hsdk time) htime hrearms ‹_› hcall⟩

/-- When `clear` runs, it is pending, and no other handler runs. -/
theorem clear_pending {h : Handler σ} {sdk : Nat → Sdk} {s s' : Timed σ ι}
    (hs : Inv handler clear s a) (hstep : timedStep h sdk worker clear s (time, .clear) = some s') :
    s.clock ≤ time ∧ s.todo = [] ∧ clear ∈ a.pending := by
  obtain ⟨htime, s1, hact, -⟩ := timedStep_eq_some.mp hstep
  rw [Timed.act] at hact
  split at hact
  · obtain ⟨sched, hpop, -⟩ := Option.map_eq_some_iff.mp hact
    exact ⟨htime, List.isEmpty_iff.mp ‹_›, (popped_represents hs.sched hpop).1⟩
  · cases hact

end TimeoutLemmas

open TimeoutLemmas

/-! ## 4. Main result -/

/-- As long as no worker that has read bytes is refused the delay, `clear` drops nothing that is not
`TIMEOUT_MS` old. The delay is refused while `clear` is pending, and then `clear` runs next and
finds the new bytes. -/
theorem timeout_drops_silence (h : Handler σ) (handler : ι → Bool) {sdk : Nat → Sdk}
    (hnow : ∀ time, (sdk time).getAbsoluteTime = time) (hsdk : ∀ time, Delays (sdk time))
    {worker clear : ι} (hne : worker ≠ clear) :
    DropsSilence ((timedLine h handler sdk worker clear).guard (Rearms clear)) := by
  intro s hs time s' hstep hsize hptr
  obtain ⟨a, ha⟩ : ∃ a, Inv handler clear s a := by
    refine hs.invariant (I := fun s => ∃ a, Inv handler clear s a) ?_ ?_
    · exact fun s hinit => ⟨.empty, inv_init hinit⟩
    · exact fun s l s' ⟨a, ha⟩ hst => inv_step hnow hsdk hne ha hst.2 hst.1
  obtain ⟨htime, htodo, hmem⟩ := clear_pending ha hstep.1
  obtain ⟨read, hread, -, ⟨-, hcalls⟩ | hnot⟩ := ha.bytes hsize hptr
  · rw [htodo] at hcalls
    cases hcalls
  · exact ⟨read, hread, (hnot.pending hmem).trans htime⟩

namespace TimeoutLemmas

open TransmitLemmas RefineLemmas MillisecondsLemmas

/-- The unit, and its two tasks on a queue: the worker, `false`, and `clear`, `true`. -/
def atRest : Timed Unit Bool := ⟨started, start, [], false, 0, none⟩

/-- A byte comes, and 50 ms later another one. The worker runs behind the alarm. -/
def slowBytes : List (Nat × TimedAct Bool) :=
  [(0, .arrive [1]), (0, .call 3 (.exec (some false))), (0, .work bufferSize 0 0), (0, .issue 3),
    (49999, .arrive [3]), (49999, .call 3 (.exec (some false))), (50000, .call 3 (.alarm 1)),
    (50000, .work bufferSize 0 0), (50000, .issue 3)]

theorem atRest_init : atRest.Init fun _ => true := ⟨started_init, fresh_start, rfl⟩

end TimeoutLemmas

open TransmitLemmas MillisecondsLemmas in
theorem timeout_drops_silence_narrow :
    DropsSilence ((timedLine oneRegister (fun _ => true) narrowAt false true).guard
      (Rearms true)) :=
  timeout_drops_silence oneRegister (fun _ => true) (fun _ => rfl) delays_narrowAt (by decide)

open TransmitLemmas MillisecondsLemmas in
/-- The alarm makes `clear` pending, then the worker reads another byte, and `clear` drops it at
once. -/
theorem late_byte_dropped :
    ¬ DropsSilence (timedLine oneRegister (fun _ => true) narrowAt false true) := by
  intro hdrops
  have hrun : (exec (timedStep oneRegister narrowAt false true) atRest slowBytes).map
      (fun s => (s.node.bus.rspSize, s.node.bus.ptr, s.lastRead)) = some (0, 2, some 50000) := by
    decide +kernel
  have hclear : ((exec (timedStep oneRegister narrowAt false true) atRest slowBytes).bind
      fun s => timedStep oneRegister narrowAt false true s (50000, .clear)).isSome = true := by
    decide +kernel
  obtain ⟨s, hs, hfields⟩ := Option.map_eq_some_iff.mp hrun
  obtain ⟨hsize, hptr, hlast⟩ : s.node.bus.rspSize = 0 ∧ s.node.bus.ptr = 2 ∧
      s.lastRead = some 50000 := by
    simpa using hfields
  rw [hs] at hclear
  obtain ⟨s', hs'⟩ := Option.isSome_iff_exists.mp hclear
  obtain ⟨read, hread, hle⟩ := hdrops s (Lts.reachable_exec (.init atRest_init) hs) 50000 s' hs'
    hsize (by rw [hptr]; decide)
  rw [hlast] at hread
  cases hread
  exact absurd hle (by decide)

end Picore.Modbus
