import Picore.Fifo.Copy

/-!
# Clearing a FIFO during transfers (`pr_fifo_clear`)

`pr_fifo_clear` resets both pointers and both counters without regard to the reservations
that are open. The done of such a reservation still adds its size to a counter from which
nothing is missing any more.

The counters are natural numbers, as in `Picore.Fifo.Basic`. The result is about runs in
which they are bounded by the size.

Results:
1. `Sys`, `step`, `cleared`: clears and transfers in any order. A reservation that was open at
   the latest clear is void.
2. `inv_step`: without the void reservations, what is left is a FIFO that was fresh at the
   latest clear.
3. `clear_safe`: clears are safe in every run without a late done. `late_done_overcounts`: a late
   done makes the counters exceed the size. `clear_unsafe`: such a run.
-/

namespace Picore.Fifo.Clear

open Memory Ring Transition ZeroCopy

variable {τ : Type}

/-! ## 1. The system -/

/-- A reservation has been prepared and its done has not been called. -/
def isOpen : Reservation → Bool
  | .closed => false
  | _ => true

/-- The FIFO and both sides. `stored` and `loaded` are what went through reservations made
since the latest clear. -/
structure Sys (τ : Type) where
  zero : ZeroCopy.Sys τ
  /-- the reservation of the producer was open at the latest clear -/
  producerVoid : Bool
  /-- the reservation of the consumer was open at the latest clear -/
  consumerVoid : Bool
  /-- the offsets committed by `write_done` since the latest clear, with their bytes -/
  committed : List (Nat × UInt8)

/-- Transfers, clears, and giving up a void reservation without its done. -/
inductive Act
  | transfer (a : ZeroCopy.Act)
  | clear
  | writeDrop
  | readDrop

def commits (s : ZeroCopy.Sys τ) : ZeroCopy.Act → List (Nat × UInt8)
  | .writeDone =>
    match s.producer with
    | .copied pos k => (List.range k).map fun i => (pos + i, s.fifo.buffer (pos + i))
    | _ => []
  | _ => []

def step (s : Sys τ) : Act → Option (Sys τ)
  | .transfer a => (ZeroCopy.step s.zero a).map fun t =>
    { zero :=
        { t with
          stored := if s.producerVoid then s.zero.stored else t.stored
          loaded := if s.consumerVoid then s.zero.loaded else t.loaded }
      producerVoid := s.producerVoid && isOpen t.producer
      consumerVoid := s.consumerVoid && isOpen t.consumer
      committed := s.committed ++ commits s.zero a }
  | .clear => some
    { zero := { s.zero with fifo := prFifoClear s.zero.fifo, stored := [], loaded := [] }
      producerVoid := isOpen s.zero.producer
      consumerVoid := isOpen s.zero.consumer
      committed := [] }
  | .writeDrop =>
    if s.producerVoid then
      some { s with zero := { s.zero with producer := .closed }, producerVoid := false }
    else none
  | .readDrop =>
    if s.consumerVoid then
      some { s with zero := { s.zero with consumer := .closed }, consumerVoid := false }
    else none

def Fresh (size : Nat) (s : Sys τ) : Prop :=
  ZeroCopy.Fresh size s.zero ∧ s.producerVoid = false ∧ s.consumerVoid = false ∧ s.committed = []

/-- One producer and one consumer on a FIFO of `size` bytes that may be cleared at any time. -/
def cleared (τ : Type) (size : Nat) : Lts (Sys τ) Act :=
  .ofFun (Fresh size) step

/-- The step is the done of bytes that were reserved before the latest clear. -/
def Late (s : Sys τ) : Act → Prop
  | .transfer .writeDone => s.producerVoid = true ∧ 0 < s.zero.producer.count
  | .transfer .readDone => s.consumerVoid = true ∧ 0 < s.zero.consumer.count
  | _ => False

instance (s : Sys τ) (a : Act) : Decidable (Late s a) :=
  match a with
  | .transfer .writeDone =>
    inferInstanceAs (Decidable (s.producerVoid = true ∧ 0 < s.zero.producer.count))
  | .transfer .readDone =>
    inferInstanceAs (Decidable (s.consumerVoid = true ∧ 0 < s.zero.consumer.count))
  | .transfer (.writePrepare _) | .transfer (.store _) | .transfer (.readPrepare _)
  | .transfer .load | .clear | .writeDrop | .readDrop => isFalse id

def current (s : Sys τ) : ZeroCopy.Sys τ :=
  { s.zero with
    producer := if s.producerVoid then .closed else s.zero.producer
    consumer := if s.consumerVoid then .closed else s.zero.consumer }

/-- The consumer has been handed nothing but bytes that a `write_done` has committed there since
the latest clear. -/
def HandedCommitted (s : Sys τ) : Prop :=
  ∀ pos k, (current s).consumer = .prepared pos k →
    ∀ i, pos ≤ i → i < pos + k → (i, s.zero.fifo.buffer i) ∈ s.committed

/-- What a clear must not break: the counters do not exceed the size, what the producer has been
handed since is inside the buffer and overlaps no unread byte, and what the consumer has been
handed since is committed. -/
structure Safe (size : Nat) (s : Sys τ) : Prop where
  counted : s.zero.fifo.used + s.zero.fifo.free ≤ size
  separated : Separated size (current s)
  handed : HandedCommitted s

/-! ## 2. The invariant -/

/-- The bytes committed since the latest clear are recorded at their offsets. -/
def Recorded (size : Nat) (z : ZeroCopy.Sys τ) (committed : List (Nat × UInt8)) : Prop :=
  ∀ p, p + z.producer.moved < z.stored.length →
    ∀ b, z.stored[p]? = some b → (p % size, b) ∈ committed

/-- The ring invariant holds of what is left without the void reservations. While the
producer's one is void, nothing has been stored since the latest clear. -/
structure Inv (size : Nat) (s : Sys τ) : Prop where
  ring : ∃ C D, ZeroCopy.Inv size C D (current s)
  behind : s.producerVoid = true → isOpen s.zero.producer = true ∧ s.zero.stored = []
  held : s.consumerVoid = true → isOpen s.zero.consumer = true
  recorded : Recorded size (current s) s.committed

theorem fresh_inv {size : Nat} {s : Sys τ} (h : Fresh size s) : Inv size s := by
  obtain ⟨zero, producerVoid, consumerVoid, committed⟩ := s
  obtain ⟨hzero, rfl, rfl, rfl⟩ := h
  refine ⟨⟨0, 0, ZeroCopy.fresh_inv hzero⟩, nofun, nofun, fun p hp => ?_⟩
  obtain ⟨mem, consumer, producer, rfl⟩ := hzero
  exact absurd hp (Nat.not_lt_zero _)

theorem recorded_step {size C D : Nat} {z z' : ZeroCopy.Sys τ} {a : ZeroCopy.Act}
    {committed : List (Nat × UInt8)} (hz : ZeroCopy.Inv size C D z)
    (h : Recorded size z committed) (hs : ZeroCopy.step z a = some z') :
    Recorded size z' (committed ++ commits z a) := by
  obtain ⟨fifo, producer, consumer, stored, loaded⟩ := z
  intro p hp b hb
  rw [List.mem_append]
  cases a with
  | writePrepare n =>
    cases producer with
    | prepared | copied => cases hs
    | closed =>
      obtain rfl := Option.some.inj hs
      exact .inl (h p hp b hb)
  | store data =>
    cases producer with
    | closed | copied => cases hs
    | prepared pos k =>
      simp only [ZeroCopy.step, Option.ite_none_right_eq_some, Option.some.injEq] at hs
      obtain ⟨rfl, rfl⟩ := hs
      have hp : p + data.length < (stored ++ data).length := hp
      rw [List.length_append] at hp
      have hlt : p < stored.length := by omega
      have hb : (stored ++ data)[p]? = some b := hb
      rw [List.getElem?_append_left hlt] at hb
      exact .inl (h p hlt b hb)
  | writeDone =>
    cases producer with
    | closed | prepared => cases hs
    | copied pos k =>
      obtain rfl := Option.some.inj hs
      have hp : p < stored.length := hp
      have hb : stored[p]? = some b := hb
      have hwrote : stored.length = C + k := hz.wrote
      rcases Nat.lt_or_ge p C with hlt | hge
      · have hbefore : p + k < stored.length := by
          rw [hwrote]
          exact Nat.add_lt_add_right hlt k
        exact .inl (h p hbefore b hb)
      · -- The byte is one of those that the reservation has stored.
        obtain ⟨i, rfl⟩ := Nat.exists_eq_add_of_le hge
        obtain ⟨hpos, hfit⟩ : pos = C % size ∧ pos + k ≤ size := hz.writeAt
        have hi : i < k := by omega
        have hunread := hz.unread
        have hcell := hz.live (C + i) (by omega) hp
        rw [hb, Option.some.injEq] at hcell
        have hoffset : pos + i = (C + i) % size := by
          rw [hpos] at hfit ⊢
          exact mod_add_of_fits hfit hi
        refine .inr (List.mem_map.mpr ⟨i, List.mem_range.mpr hi, ?_⟩)
        rw [hoffset, hcell]
  | readPrepare n =>
    cases consumer with
    | prepared | copied => cases hs
    | closed =>
      obtain rfl := Option.some.inj hs
      exact .inl (h p hp b hb)
  | load =>
    cases consumer with
    | closed | copied => cases hs
    | prepared pos k =>
      obtain rfl := Option.some.inj hs
      exact .inl (h p hp b hb)
  | readDone =>
    cases consumer with
    | closed | prepared => cases hs
    | copied pos k =>
      obtain rfl := Option.some.inj hs
      exact .inl (h p hp b hb)

theorem inv_clear {size : Nat} {s t : Sys τ} (h : Inv size s)
    (hs : step s .clear = some t) : Inv size t := by
  obtain ⟨C, D, hring⟩ := h.ring
  obtain ⟨⟨fifo, producer, consumer, stored, loaded⟩, producerVoid, consumerVoid, committed⟩ := s
  obtain rfl := Option.some.inj hs
  obtain rfl : fifo.size = size := hring.fixed
  refine ⟨⟨0, 0, ZeroCopy.fresh_inv ⟨fifo.buffer, fifo.consumer, fifo.producer, ?_⟩⟩,
    fun hopen => ⟨hopen, rfl⟩, fun hopen => hopen, fun p hp => absurd hp (Nat.not_lt_zero _)⟩
  -- Every reservation that was open is void now.
  cases producer <;> cases consumer <;> rfl

theorem inv_writeDrop {size : Nat} {s t : Sys τ} (h : Inv size s)
    (hs : step s .writeDrop = some t) : Inv size t := by
  obtain ⟨⟨fifo, producer, consumer, stored, loaded⟩, producerVoid, consumerVoid, committed⟩ := s
  cases producerVoid with
  | false => cases hs
  | true =>
    obtain rfl := Option.some.inj hs
    exact ⟨h.ring, nofun, h.held, h.recorded⟩

theorem inv_readDrop {size : Nat} {s t : Sys τ} (h : Inv size s)
    (hs : step s .readDrop = some t) : Inv size t := by
  obtain ⟨⟨fifo, producer, consumer, stored, loaded⟩, producerVoid, consumerVoid, committed⟩ := s
  cases consumerVoid with
  | false => cases hs
  | true =>
    obtain rfl := Option.some.inj hs
    exact ⟨h.ring, h.behind, nofun, h.recorded⟩

/-- The reservation of the side that takes the step is void. -/
def ofVoid (s : Sys τ) : ZeroCopy.Act → Bool
  | .writePrepare _ | .store _ | .writeDone => s.producerVoid
  | .readPrepare _ | .load | .readDone => s.consumerVoid

/-- A step of a side whose reservation is not void is a step of what is left. -/
theorem step_current {s t : Sys τ} {a : ZeroCopy.Act} (hv : ofVoid s a = false)
    (hs : step s (.transfer a) = some t) :
    ZeroCopy.step (current s) a = some (current t) ∧ commits (current s) a = commits s.zero a := by
  obtain ⟨⟨fifo, producer, consumer, stored, loaded⟩, producerVoid, consumerVoid, committed⟩ := s
  cases a with
  | writePrepare n =>
    obtain rfl : producerVoid = false := hv
    cases producer with
    | prepared | copied => cases hs
    | closed =>
      obtain rfl := Option.some.inj hs
      refine ⟨?_, rfl⟩
      cases consumerVoid <;> cases consumer <;> rfl
  | store data =>
    obtain rfl : producerVoid = false := hv
    cases producer with
    | closed | copied => cases hs
    | prepared pos k =>
      obtain ⟨u, hu, rfl⟩ := Option.map_eq_some_iff.mp hs
      simp only [ZeroCopy.step, Option.ite_none_right_eq_some, Option.some.injEq] at hu
      obtain ⟨rfl, rfl⟩ := hu
      refine ⟨(if_pos rfl).trans ?_, rfl⟩
      cases consumerVoid <;> cases consumer <;> rfl
  | writeDone =>
    obtain rfl : producerVoid = false := hv
    cases producer with
    | closed | prepared => cases hs
    | copied pos k =>
      obtain rfl := Option.some.inj hs
      refine ⟨?_, rfl⟩
      cases consumerVoid <;> cases consumer <;> rfl
  | readPrepare n =>
    obtain rfl : consumerVoid = false := hv
    cases consumer with
    | prepared | copied => cases hs
    | closed =>
      obtain rfl := Option.some.inj hs
      refine ⟨?_, rfl⟩
      cases producerVoid <;> cases producer <;> rfl
  | load =>
    obtain rfl : consumerVoid = false := hv
    cases consumer with
    | closed | copied => cases hs
    | prepared pos k =>
      obtain rfl := Option.some.inj hs
      refine ⟨?_, rfl⟩
      cases producerVoid <;> cases producer <;> rfl
  | readDone =>
    obtain rfl : consumerVoid = false := hv
    cases consumer with
    | closed | prepared => cases hs
    | copied pos k =>
      obtain rfl := Option.some.inj hs
      refine ⟨?_, rfl⟩
      cases producerVoid <;> cases producer <;> rfl

/-- A late store goes into a buffer in which nothing is stored since the clear. -/
theorem ring_store {size C D : Nat} {z : ZeroCopy.Sys τ} (h : ZeroCopy.Inv size C D z)
    (hs : z.stored = []) (buffer : Mem UInt8) :
    ZeroCopy.Inv size C D { z with fifo := { z.fifo with buffer := buffer } } where
  fixed := h.fixed
  wrote := h.wrote
  readBack := h.readBack
  wptr := h.wptr
  rptr := h.rptr
  unread := h.unread
  total := h.total
  writeAt := h.writeAt
  readAt := h.readAt
  live := by
    intro p _ hp
    have hp : p < z.stored.length := hp
    rw [hs] at hp
    exact absurd hp (Nat.not_lt_zero p)
  inOrder := h.inOrder
  degenerate := h.degenerate

/-- A step of a side whose reservation is void changes nothing of what is left but the buffer,
and that only while nothing is stored. -/
theorem step_void {size : Nat} {s t : Sys τ} {a : ZeroCopy.Act} (h : Inv size s)
    (hv : ofVoid s a = true) (hlate : ¬ Late s (.transfer a))
    (hs : step s (.transfer a) = some t) :
    (∃ buffer, current t = { current s with fifo := { (current s).fifo with buffer := buffer } } ∧
      ((current s).stored = [] ∨ buffer = (current s).fifo.buffer)) ∧
    ∀ e ∈ s.committed, e ∈ t.committed := by
  have hbehind := h.behind
  have hheld := h.held
  obtain ⟨⟨fifo, producer, consumer, stored, loaded⟩, producerVoid, consumerVoid, committed⟩ := s
  obtain ⟨u, hu, rfl⟩ := Option.map_eq_some_iff.mp hs
  refine ⟨?_, fun e he => List.mem_append_left _ he⟩
  cases a with
  | writePrepare n =>
    obtain rfl : producerVoid = true := hv
    cases producer with
    | prepared | copied => cases hu
    | closed => cases (hbehind rfl).1
  | store data =>
    obtain rfl : producerVoid = true := hv
    cases producer with
    | closed | copied => cases hu
    | prepared pos k =>
      simp only [ZeroCopy.step, Option.ite_none_right_eq_some, Option.some.injEq] at hu
      obtain ⟨rfl, rfl⟩ := hu
      refine ⟨Memory.store fifo.buffer pos data, ?_, .inl (hbehind rfl).2⟩
      cases consumerVoid <;> cases consumer <;> rfl
  | writeDone =>
    obtain rfl : producerVoid = true := hv
    cases producer with
    | closed | prepared => cases hu
    | copied pos k =>
      obtain rfl : k = 0 := Nat.eq_zero_of_not_pos fun hk => hlate ⟨rfl, hk⟩
      obtain rfl := Option.some.inj hu
      refine ⟨fifo.buffer, ?_, .inr rfl⟩
      cases consumerVoid <;> cases consumer <;> rfl
  | readPrepare n =>
    obtain rfl : consumerVoid = true := hv
    cases consumer with
    | prepared | copied => cases hu
    | closed => cases hheld rfl
  | load =>
    obtain rfl : consumerVoid = true := hv
    cases consumer with
    | closed | copied => cases hu
    | prepared pos k =>
      obtain rfl := Option.some.inj hu
      refine ⟨fifo.buffer, ?_, .inr rfl⟩
      cases producerVoid <;> cases producer <;> rfl
  | readDone =>
    obtain rfl : consumerVoid = true := hv
    cases consumer with
    | closed | prepared => cases hu
    | copied pos k =>
      obtain rfl : k = 0 := Nat.eq_zero_of_not_pos fun hk => hlate ⟨rfl, hk⟩
      obtain rfl := Option.some.inj hu
      refine ⟨fifo.buffer, ?_, .inr rfl⟩
      cases producerVoid <;> cases producer <;> rfl

theorem inv_transfer {size : Nat} {s t : Sys τ} {a : ZeroCopy.Act} (h : Inv size s)
    (hlate : ¬ Late s (.transfer a)) (hs : step s (.transfer a) = some t) : Inv size t := by
  obtain ⟨C, D, hring⟩ := h.ring
  have hleft : (∃ C D, ZeroCopy.Inv size C D (current t)) ∧
      Recorded size (current t) t.committed := by
    cases hv : ofVoid s a with
    | false =>
      obtain ⟨hcurrent, hcommits⟩ := step_current hv hs
      refine ⟨inv_step ⟨C, D, hring⟩ hcurrent, ?_⟩
      have hcommitted : t.committed = s.committed ++ commits s.zero a := by
        obtain ⟨u, -, rfl⟩ := Option.map_eq_some_iff.mp hs
        rfl
      rw [hcommitted, ← hcommits]
      exact recorded_step hring h.recorded hcurrent
    | true =>
      obtain ⟨⟨buffer, hcurrent, hkept⟩, hcommitted⟩ := step_void h hv hlate hs
      rw [hcurrent]
      refine ⟨⟨C, D, ?_⟩, fun p hp b hb => hcommitted _ (h.recorded p hp b hb)⟩
      rcases hkept with hnone | rfl
      · exact ring_store hring hnone buffer
      · exact hring
  obtain ⟨u, -, rfl⟩ := Option.map_eq_some_iff.mp hs
  refine ⟨hleft.1, fun hopen => ?_, fun hopen => (Bool.and_eq_true_iff.mp hopen).2, hleft.2⟩
  obtain ⟨hvoid, hopen⟩ := Bool.and_eq_true_iff.mp hopen
  exact ⟨hopen, (if_pos hvoid).trans (h.behind hvoid).2⟩

/-- Every step that is not a late done keeps the invariant. -/
theorem inv_step {size : Nat} {s t : Sys τ} {a : Act} (h : Inv size s) (hlate : ¬ Late s a)
    (hs : step s a = some t) : Inv size t := by
  cases a with
  | transfer a => exact inv_transfer h hlate hs
  | clear => exact inv_clear h hs
  | writeDrop => exact inv_writeDrop h hs
  | readDrop => exact inv_readDrop h hs

theorem reachable_inv {size : Nat} {s : Sys τ}
    (h : ((cleared τ size).guard fun s a => ¬ Late s a).Reachable s) : Inv size s := by
  refine h.invariant (I := Inv size) (fun _ h0 => fresh_inv h0) ?_
  rintro s a t hi ⟨hs, hlate⟩
  exact inv_step hi hlate hs

/-! ## 3. Safety -/

theorem inv_handed {size : Nat} {s : Sys τ} (h : Inv size s) : HandedCommitted s := by
  obtain ⟨C, D, hring⟩ := h.ring
  intro pos k hconsumer i hlo hhi
  have hunread := hring.unread
  have hwrote := hring.wrote
  have hat := hring.readAt
  rw [hconsumer] at hat hunread
  obtain ⟨rfl, hfit⟩ : pos = D % size ∧ pos + k ≤ size := hat
  obtain ⟨j, rfl⟩ := Nat.exists_eq_add_of_le hlo
  have hj : j < k := Nat.lt_of_add_lt_add_left hhi
  have hunread : C = D + k + (current s).fifo.used := hunread
  rw [mod_add_of_fits hfit hj]
  refine h.recorded (D + j) ?_ _ (hring.live (D + j) (Nat.le_add_right D j) ?_)
  · have hwrote : s.zero.stored.length = C + (current s).producer.moved := hwrote
    omega
  · omega

/-- Clears at any time are safe in every run in which no done is called for bytes that were reserved
before the latest clear. Such a done would add to counts that the clear has reset already. -/
theorem clear_safe {size : Nat} {s : Sys τ}
    (h : ((cleared τ size).guard fun s a => ¬ Late s a).Reachable s) : Safe size s := by
  have hi := reachable_inv h
  obtain ⟨C, D, hring⟩ := hi.ring
  refine ⟨?_, inv_separated hring, inv_handed hi⟩
  have htotal := hring.total
  rw [Nat.add_assoc] at htotal
  exact Nat.le.intro htotal

namespace ClearLemmas

def freshFour : Sys Unit where
  zero :=
    { fifo := prFifoProducerSet (prFifoConsumerSet (prFifoInit (fun _ => 0) 4) none) none
      producer := .closed
      consumer := .closed
      stored := []
      loaded := [] }
  producerVoid := false
  consumerVoid := false
  committed := []

theorem freshFour_fresh : Fresh 4 freshFour :=
  ⟨⟨fun _ => 0, none, none, rfl⟩, rfl, rfl, rfl⟩

theorem reachable_freshFour :
    ((cleared Unit 4).guard fun s a => ¬ Late s a).Reachable freshFour :=
  .init freshFour_fresh

/-- A clear between the store of two bytes and their done. -/
def lateRun : List Act :=
  [.transfer (.writePrepare 2), .transfer (.store [10, 11]), .clear, .transfer .writeDone]

/-- A clear while both sides have a reservation, which they give up. -/
def timelyRun : List Act :=
  [.transfer (.writePrepare 3), .transfer (.store [10, 11, 12]), .transfer .writeDone,
    .transfer (.readPrepare 2), .transfer (.writePrepare 1), .clear, .transfer (.store [13]),
    .transfer .load, .readDrop, .writeDrop, .transfer (.writePrepare 4),
    .transfer (.store [20, 21, 22, 23]), .transfer .writeDone, .transfer (.readPrepare 2)]

end ClearLemmas

open ClearLemmas in
theorem clear_safe_timely : ∃ s,
    ((cleared Unit 4).guard fun s a => ¬ Late s a).Reachable s ∧
      s.committed = [(0, 20), (1, 21), (2, 22), (3, 23)] ∧ s.zero.consumer = .prepared 0 2 ∧
      Safe 4 s := by
  have hexec : exec (guarded step fun s a => ¬ Late s a) freshFour timelyRun = some _ := rfl
  have hreach := reachable_freshFour.exec_guarded hexec
  exact ⟨_, hreach, rfl, rfl, clear_safe hreach⟩

/-- A side whose reservation is closed has none to leave out. -/
theorem void_open (void : Bool) (r : Reservation) :
    (if void && isOpen r then .closed else r) = if void then .closed else r := by
  cases void <;> cases r <;> rfl

/-- After a late done the counters and the reservations made since the clear exceed the size. -/
theorem late_done_overcounts {size : Nat} {s t : Sys τ} {a : Act}
    (h : ((cleared τ size).guard fun s a => ¬ Late s a).Reachable s) (hlate : Late s a)
    (hs : step s a = some t) :
    size < t.zero.fifo.used + t.zero.fifo.free + (current t).consumer.count +
      (current t).producer.count := by
  obtain ⟨C, D, hring⟩ := (reachable_inv h).ring
  have htotal := hring.total
  obtain ⟨⟨fifo, producer, consumer, stored, loaded⟩, producerVoid, consumerVoid, committed⟩ := s
  cases a with
  | clear | writeDrop | readDrop => cases hlate
  | transfer a =>
    cases a with
    | writePrepare | store | readPrepare | load => cases hlate
    | writeDone =>
      obtain ⟨hvoid, hk⟩ := hlate
      obtain rfl : producerVoid = true := hvoid
      cases producer with
      | closed | prepared => cases hs
      | copied pos k =>
        have hk : 0 < k := hk
        obtain rfl := Option.some.inj hs
        simp only [current, void_open, prFifoWriteDone_fst, if_true, Reservation.count] at htotal ⊢
        omega
    | readDone =>
      obtain ⟨hvoid, hk⟩ := hlate
      obtain rfl : consumerVoid = true := hvoid
      cases consumer with
      | closed | prepared => cases hs
      | copied pos k =>
        have hk : 0 < k := hk
        obtain rfl := Option.some.inj hs
        simp only [current, void_open, prFifoReadDone_fst, if_true, Reservation.count] at htotal ⊢
        omega

open ClearLemmas in
/-- The done after the clear makes two bytes used while all four are free, and the next prepare
hands the producer the unread bytes. -/
theorem clear_unsafe : ∃ s t, (cleared Unit 4).Reachable s ∧
    4 < s.zero.fifo.used + s.zero.fifo.free ∧
    step s (.transfer (.writePrepare 4)) = some t ∧ ¬ Separated 4 (current t) := by
  have hexec : exec step freshFour lateRun = some _ := rfl
  refine ⟨_, _, Lts.reachable_exec (.init freshFour_fresh) hexec, ?_, rfl, fun h => ?_⟩
  · decide
  · exact (h.2.2 0 ⟨Nat.le_refl 0, by decide⟩).2 0 (by decide) rfl

end Picore.Fifo.Clear
