import Mathlib.Data.Nat.Bitwise
import Mathlib.Data.List.Basic

/-!
# The program of a strip (`src/pixel_led/pixel_led.pio`)

A state machine of the PIO runs three instructions in a circle. Each takes one cycle and its
delay. Side-set and `out` drive the same pin. `pull` waits for a word, but only when the
threshold of 24 bits has been shifted out, and holds its side-set meanwhile. `wrap` leads from
the last instruction back to the first.

Words are put into the FIFO at any time. A full FIFO is no concern of the program.

Results:
1. `Sm.tick`: one cycle.
2. `wordWave`: the level of the pin for a word, 24 times ten cycles.
3. `tick_stage`: one cycle more of the wave.
4. `wire_words`: the pin shows the words in order, however they come in.
-/

namespace Picore.PixelLed

/-! ## 1. The state machine -/

/-- What the instructions of both programs do besides their side-set and their delay. -/
inductive Op
  /-- `pull ifempty block`. -/
  | pull
  | nop
  /-- `out pins 1`. -/
  | outPins
  deriving DecidableEq

/-- An instruction: what it does, the level that it sets on the side-set pin, if any, and for how
many cycles it stays after the first. -/
structure Instr where
  op : Op
  side : Option Bool
  delay : Nat

/-- `pixel_led_tx`, and `pixel_led_tx_inv` if `inv`. -/
def pixelLedTx (inv : Bool) : Fin 3 → Instr
  | 0 => ⟨.pull, some inv, 2⟩
  | 1 => ⟨.nop, some !inv, 2⟩
  | 2 => ⟨.outPins, none, 3⟩

/-- The pull threshold of `sm_config_set_out_shift`. -/
def pullThreshold : Nat := 24

/-- A state machine with its FIFO. `shifted` is the output shift counter, which stops at 32. -/
structure Sm where
  pc : Fin 3
  delay : Nat
  osr : UInt32
  shifted : Nat
  pin : Bool
  fifo : List UInt32

def Sm.next (s : Sm) (delay : Nat) : Sm := { s with pc := s.pc + 1, delay := delay }

/-- One cycle. An instruction that still has delay cycles waits, and otherwise the next one is
executed. `out` shifts to the left. -/
def Sm.tick (program : Fin 3 → Instr) (s : Sm) : Sm :=
  match s.delay with
  | delay + 1 => { s with delay := delay }
  | 0 =>
    let i := program s.pc
    let s := { s with pin := i.side.getD s.pin }
    match i.op with
    | .nop => s.next i.delay
    | .pull =>
      if s.shifted < pullThreshold then s.next i.delay
      else
        match s.fifo with
        | [] => s
        | w :: fifo => { s with osr := w, shifted := 0, fifo := fifo }.next i.delay
    | .outPins =>
      { s with
        pin := s.osr.toNat.testBit 31
        osr := s.osr <<< 1
        shifted := min (s.shifted + 1) 32 }.next i.delay

/-- After `pixel_led_sm_init`. There is nothing in the shift register, and the pin is high. -/
def smInit : Sm := ⟨0, 0, 0, 32, true, []⟩

/-- What happens to a state machine: a word is put into its FIFO, or a cycle passes. -/
inductive SmAct
  /-- `pio_sm_put`. -/
  | put (w : UInt32)
  /-- A cycle passes. -/
  | tick

def Sm.step (program : Fin 3 → Instr) (s : Sm) : SmAct → Sm
  | .put w => { s with fifo := s.fifo ++ [w] }
  | .tick => s.tick program

def Sm.run (program : Fin 3 → Instr) (s : Sm) (acts : List SmAct) : Sm :=
  acts.foldl (Sm.step program) s

/-- The level of the pin in every cycle of a run. -/
def Sm.wire (program : Fin 3 → Instr) : Sm → List SmAct → List Bool
  | _, [] => []
  | s, .put w :: acts => Sm.wire program (s.step program (.put w)) acts
  | s, .tick :: acts => (s.tick program).pin :: Sm.wire program (s.tick program) acts

def cycles (n : Nat) : List SmAct := List.replicate n .tick

/-- The words that are put into the FIFO in a run. -/
def puts : List SmAct → List UInt32
  | [] => []
  | .put w :: acts => w :: puts acts
  | .tick :: acts => puts acts

/-! ## 2. The wave -/

/-- The level in cycle `t` of a word: for each bit, from the most significant one on, three
cycles at rest, three that are not, and four with the bit. -/
def level (inv : Bool) (w : UInt32) (t : Nat) : Bool :=
  if t % 10 < 3 then inv else if t % 10 < 6 then !inv else w.toNat.testBit (31 - t / 10)

/-- The level of the pin in the first `n` of the 240 cycles that a word takes. -/
def waveUpTo (inv : Bool) (w : UInt32) (n : Nat) : List Bool := (List.range n).map (level inv w)

def wordWave (inv : Bool) (w : UInt32) : List Bool := waveUpTo inv w 240

/-- The pin at rest for `k` cycles, at the level that the side-set of `pull` gives it. -/
def resting (inv : Bool) (k : Nat) : List Bool := List.replicate k inv

/-- The pin has shown these words, with any rest before each. -/
inductive Wave (inv : Bool) : List UInt32 → List Bool → Prop
  | nil : Wave inv [] []
  | word {ws : List UInt32} {wire : List Bool} (k : Nat) (w : UInt32) : Wave inv ws wire →
      Wave inv (ws ++ [w]) (wire ++ (resting inv k ++ wordWave inv w))

/-- The next instruction is a `pull` that needs a word. -/
structure Sm.Ready (s : Sm) : Prop where
  pc : s.pc = 0
  delay : s.delay = 0
  shifted : pullThreshold ≤ s.shifted

/-- The pin has shown the first of the words, and now shows rest, or the beginning of the next
one. -/
inductive Shows (inv : Bool) (s : Sm) (ws : List UInt32) (wire : List Bool) : Prop
  | rest {sent : List UInt32} {done : List Bool} {k : Nat} : ws = sent ++ s.fifo → s.Ready →
      Wave inv sent done → wire = done ++ resting inv k → Shows inv s ws wire
  | word {sent : List UInt32} {w : UInt32} {done : List Bool} {k t : Nat} :
      ws = sent ++ w :: s.fifo → ¬ s.Ready → t < 240 → Wave inv sent done →
      wire = done ++ (resting inv k ++ waveUpTo inv w t) → Shows inv s ws wire

namespace PioLemmas

/-! ## 3. One cycle -/

theorem level_rest (inv : Bool) (w : UInt32) (j : Nat) {c : Nat} (hc : c < 3) :
    level inv w (10 * j + c) = inv := by
  rw [level, Nat.mul_add_mod, Nat.mod_eq_of_lt (Nat.lt_trans hc (by decide)), if_pos hc]

theorem level_pulse (inv : Bool) (w : UInt32) (j : Nat) {c : Nat} (hc : 3 ≤ c) (hc' : c < 6) :
    level inv w (10 * j + c) = !inv := by
  rw [level, Nat.mul_add_mod, Nat.mod_eq_of_lt (Nat.lt_trans hc' (by decide)),
    if_neg (Nat.not_lt_of_le hc), if_pos hc']

theorem level_bit (inv : Bool) (w : UInt32) (j : Nat) {c : Nat} (hc : 6 ≤ c) (hc' : c < 10) :
    level inv w (10 * j + c) = w.toNat.testBit (31 - j) := by
  have hdiv : (10 * j + c) / 10 = j := by
    rw [Nat.mul_add_div (by decide), Nat.div_eq_of_lt hc', Nat.add_zero]
  rw [level, Nat.mul_add_mod, Nat.mod_eq_of_lt hc', hdiv,
    if_neg (Nat.not_lt_of_le (Nat.le_trans (by decide) hc)), if_neg (Nat.not_lt_of_le hc)]

theorem waveUpTo_succ (inv : Bool) (w : UInt32) (n : Nat) :
    waveUpTo inv w (n + 1) = waveUpTo inv w n ++ [level inv w n] := by
  rw [waveUpTo, List.range_succ, List.map_append]
  rfl

def shifts (w : UInt32) (j : Nat) : UInt32 := (fun osr : UInt32 => osr <<< 1)^[j] w

theorem shifts_succ (w : UInt32) (j : Nat) : shifts w j <<< 1 = shifts w (j + 1) :=
  (Function.iterate_succ_apply' (fun osr : UInt32 => osr <<< 1) j w).symm

theorem testBit_shifts (w : UInt32) (j : Nat) {i : Nat} (hj : j ≤ i) (hi : i < 32) :
    (shifts w j).toNat.testBit i = w.toNat.testBit (i - j) := by
  induction j generalizing i with
  | zero => rfl
  | succ j ih =>
    have hone : (1 : UInt32).toNat % 32 = 1 := rfl
    rw [← shifts_succ, UInt32.toNat_shiftLeft, hone, Nat.testBit_mod_two_pow,
      Nat.testBit_shiftLeft, decide_eq_true hi, decide_eq_true (Nat.le_trans (Nat.succ_pos j) hj),
      Bool.true_and, Bool.true_and, ih (Nat.le_sub_one_of_lt hj) (by omega), Nat.sub_sub,
      Nat.add_comm 1 j]

/-- Bit `j` of the word has been on the pin for some cycles. The instruction still takes
`delay` of them. -/
inductive At (inv : Bool) (w : UInt32) (j : Nat) (s : Sm) : Nat → Prop
  | pull : s.delay < 3 → s.pc = 1 → s.osr = shifts w j → s.shifted = j → s.pin = inv →
      At inv w j s (3 - s.delay)
  | nop : s.delay < 3 → s.pc = 2 → s.osr = shifts w j → s.shifted = j → s.pin = (!inv) →
      At inv w j s (6 - s.delay)
  | out : s.delay < 4 → s.pc = 0 → s.osr = shifts w (j + 1) → s.shifted = j + 1 →
      s.pin = w.toNat.testBit (31 - j) → At inv w j s (10 - s.delay)

variable {inv : Bool} {w : UInt32} {j c : Nat} {s : Sm}

theorem tick_at (hs : At inv w j s c) (hj : j < 24) (hc : c < 10) :
    At inv w j (s.tick (pixelLedTx inv)) (c + 1) ∧
      (s.tick (pixelLedTx inv)).pin = level inv w (10 * j + c) ∧
      (s.tick (pixelLedTx inv)).fifo = s.fifo := by
  obtain ⟨pc, delay, osr, shifted, pin, fifo⟩ := s
  cases hs with
  | pull hd hpc hosr hshifted hpin =>
    simp only at hd hpc hosr hshifted hpin hc ⊢
    subst hpc hosr hshifted hpin
    cases delay with
    | succ d =>
      refine ⟨?_, (level_rest _ w _ (by omega)).symm, rfl⟩
      rw [show 3 - (d + 1) + 1 = 3 - d by omega]
      exact .pull (Nat.lt_of_succ_lt hd) rfl rfl rfl rfl
    | zero =>
      refine ⟨?_, (level_pulse _ w _ (by decide) (by decide)).symm, rfl⟩
      exact .nop (Nat.lt_succ_self 2) rfl rfl rfl rfl
  | nop hd hpc hosr hshifted hpin =>
    simp only at hd hpc hosr hshifted hpin hc ⊢
    subst hpc hosr hshifted hpin
    cases delay with
    | succ d =>
      refine ⟨?_, (level_pulse _ w _ (by omega) (by omega)).symm, rfl⟩
      rw [show 6 - (d + 1) + 1 = 6 - d by omega]
      exact .nop (Nat.lt_of_succ_lt hd) rfl rfl rfl rfl
    | zero =>
      have hbit : (shifts w shifted).toNat.testBit 31 = w.toNat.testBit (31 - shifted) :=
        testBit_shifts w shifted (by omega) (by decide)
      have hmin : min (shifted + 1) 32 = shifted + 1 := Nat.min_eq_left (by omega)
      refine ⟨?_, hbit.trans (level_bit _ w _ (by decide) (by decide)).symm, rfl⟩
      exact .out (Nat.lt_succ_self 3) rfl (shifts_succ w shifted) hmin hbit
  | out hd hpc hosr hshifted hpin =>
    simp only at hd hpc hosr hshifted hpin hc ⊢
    subst hpc hosr hshifted hpin
    cases delay with
    | succ d =>
      refine ⟨?_, (level_bit _ w _ (by omega) (by omega)).symm, rfl⟩
      rw [show 10 - (d + 1) + 1 = 10 - d by omega]
      exact .out (Nat.lt_of_succ_lt hd) rfl rfl rfl rfl
    | zero => exact absurd hc (by omega)

theorem At.over (hs : At inv w j s 10) :
    s.delay = 0 ∧ s.pc = 0 ∧ s.osr = shifts w (j + 1) ∧ s.shifted = j + 1 := by
  generalize hc : 10 = c at hs
  cases hs with
  | pull => omega
  | nop => omega
  | out hd hpc hosr hshifted hpin => exact ⟨by omega, hpc, hosr, hshifted⟩

/-- The first cycle of the next bit of a word: `pull` finds that bits are left. -/
theorem tick_next (hs : At inv w j s 10) (hj : j + 1 < 24) :
    At inv w (j + 1) (s.tick (pixelLedTx inv)) 1 ∧
      (s.tick (pixelLedTx inv)).pin = inv ∧ (s.tick (pixelLedTx inv)).fifo = s.fifo := by
  obtain ⟨hdelay, hpc, hosr, hshifted⟩ := hs.over
  obtain ⟨pc, delay, osr, shifted, pin, fifo⟩ := s
  simp only at hdelay hpc hosr hshifted
  subst hdelay hpc hosr hshifted
  have htick : Sm.tick (pixelLedTx inv) ⟨0, 0, shifts w (j + 1), j + 1, pin, fifo⟩ =
      ⟨1, 2, shifts w (j + 1), j + 1, inv, fifo⟩ := if_pos hj
  rw [htick]
  exact ⟨.pull (Nat.lt_succ_self 2) rfl rfl rfl rfl, rfl, rfl⟩

/-- The first cycle of a word: `pull` finds one in the FIFO. -/
theorem tick_word (inv : Bool) (hs : s.Ready) {fifo : List UInt32} (hfifo : s.fifo = w :: fifo) :
    At inv w 0 (s.tick (pixelLedTx inv)) 1 ∧
      (s.tick (pixelLedTx inv)).pin = inv ∧ (s.tick (pixelLedTx inv)).fifo = fifo := by
  obtain ⟨pc, delay, osr, shifted, pin, fifo'⟩ := s
  obtain ⟨hpc, hdelay, hshifted⟩ := hs
  simp only at hpc hdelay hshifted hfifo
  subst hpc hdelay hfifo
  have htick : Sm.tick (pixelLedTx inv) ⟨0, 0, osr, shifted, pin, w :: fifo⟩ =
      ⟨1, 2, w, 0, inv, fifo⟩ := if_neg (Nat.not_lt_of_le hshifted)
  rw [htick]
  exact ⟨.pull (Nat.lt_succ_self 2) rfl rfl rfl rfl, rfl, rfl⟩

theorem tick_rest (inv : Bool) (hs : s.Ready) (hfifo : s.fifo = []) :
    (s.tick (pixelLedTx inv)).Ready ∧ (s.tick (pixelLedTx inv)).pin = inv ∧
      (s.tick (pixelLedTx inv)).fifo = [] := by
  obtain ⟨pc, delay, osr, shifted, pin, fifo⟩ := s
  obtain ⟨hpc, hdelay, hshifted⟩ := hs
  simp only at hfifo hpc hdelay hshifted
  subst hfifo hpc hdelay
  have htick : Sm.tick (pixelLedTx inv) ⟨0, 0, osr, shifted, pin, []⟩ =
      ⟨0, 0, osr, shifted, inv, []⟩ := if_neg (Nat.not_lt_of_le hshifted)
  rw [htick]
  exact ⟨⟨rfl, rfl, hshifted⟩, rfl, rfl⟩

theorem At.ready (hs : At inv w 23 s 10) : s.Ready := by
  obtain ⟨hdelay, hpc, -, hshifted⟩ := hs.over
  exact ⟨hpc, hdelay, hshifted.ge⟩

theorem At.not_ready (hs : At inv w j s c) (ht : 10 * j + c < 240) : ¬ s.Ready := by
  rintro ⟨hpc, hdelay, hshifted⟩
  cases hs with
  | pull hd hpc' =>
    rw [hpc] at hpc'
    cases hpc'
  | nop hd hpc' =>
    rw [hpc] at hpc'
    cases hpc'
  | out hd hpc' hosr hshifted' =>
    rw [pullThreshold, hshifted'] at hshifted
    omega

/-! ## 4. Runs -/

/-- Where the program stands, when `ws` have been put and the pin has shown `wire`. -/
inductive Stage (inv : Bool) (s : Sm) (ws : List UInt32) (wire : List Bool) : Prop
  | rest {sent : List UInt32} {done : List Bool} {k : Nat} : ws = sent ++ s.fifo → s.Ready →
      Wave inv sent done → wire = done ++ resting inv k → Stage inv s ws wire
  | word {sent : List UInt32} {w : UInt32} {done : List Bool} {k j c : Nat} :
      ws = sent ++ w :: s.fifo → At inv w j s c → j < 24 → c ≤ 10 → 10 * j + c < 240 →
      Wave inv sent done → wire = done ++ (resting inv k ++ waveUpTo inv w (10 * j + c)) →
      Stage inv s ws wire

variable {ws : List UInt32} {wire : List Bool}

theorem put_stage (hs : Stage inv s ws wire) (w : UInt32) :
    Stage inv { s with fifo := s.fifo ++ [w] } (ws ++ [w]) wire := by
  cases hs with
  | rest hws hready hdone hwire =>
    refine .rest ?_ ⟨hready.pc, hready.delay, hready.shifted⟩ hdone hwire
    rw [hws, List.append_assoc]
  | word hws hat hj hc ht hdone hwire =>
    refine .word ?_ ?_ hj hc ht hdone hwire
    · rw [hws, List.append_assoc, List.cons_append]
    · cases hat with
      | pull h1 h2 h3 h4 h5 => exact .pull h1 h2 h3 h4 h5
      | nop h1 h2 h3 h4 h5 => exact .nop h1 h2 h3 h4 h5
      | out h1 h2 h3 h4 h5 => exact .out h1 h2 h3 h4 h5

/-- The pin has shown one level more of a word. -/
theorem wave_snoc (done : List Bool) (k t : Nat) :
    done ++ (resting inv k ++ waveUpTo inv w t) ++ [level inv w t] =
      done ++ (resting inv k ++ waveUpTo inv w (t + 1)) := by
  rw [waveUpTo_succ, List.append_assoc, List.append_assoc]

theorem tick_stage (hs : Stage inv s ws wire) :
    Stage inv (s.tick (pixelLedTx inv)) ws (wire ++ [(s.tick (pixelLedTx inv)).pin]) := by
  cases hs with
  | @rest sent done k hws hready hdone hwire =>
    cases hfifo : s.fifo with
    | nil =>
      obtain ⟨hready', hpin, hfifo'⟩ := tick_rest inv hready hfifo
      refine .rest (k := k + 1) ?_ hready' hdone ?_
      · rw [hws, hfifo, hfifo']
      · rw [hwire, hpin, resting, resting, List.replicate_succ', List.append_assoc]
    | cons w fifo =>
      obtain ⟨hat, hpin, hfifo'⟩ := tick_word inv hready hfifo
      refine .word (k := k) (j := 0) ?_ hat (by decide) (by decide) (by decide) hdone ?_
      · rw [hws, hfifo, hfifo']
      · rw [hwire, hpin, List.append_assoc]
        rfl
  | @word sent w done k j c hws hat hj hc ht hdone hwire =>
    rcases Nat.lt_or_eq_of_le hc with hc | rfl
    · obtain ⟨hat', hpin, hfifo⟩ := tick_at hat hj hc
      have hwire' : wire ++ [(s.tick (pixelLedTx inv)).pin] =
          done ++ (resting inv k ++ waveUpTo inv w (10 * j + (c + 1))) := by
        rw [hwire, hpin, wave_snoc, Nat.add_assoc]
      rw [← hfifo] at hws
      rcases Nat.lt_or_ge (10 * j + (c + 1)) 240 with ht' | ht'
      · exact .word hws hat' hj hc ht' hdone hwire'
      · obtain ⟨rfl, rfl⟩ : j = 23 ∧ c = 9 := by omega
        refine .rest (k := 0) ?_ hat'.ready (.word k w hdone) ?_
        · rw [hws, List.append_assoc]
          rfl
        · rw [hwire']
          exact (List.append_nil _).symm
    · obtain ⟨hat', hpin, hfifo⟩ := tick_next hat (by omega)
      have hlevel : level inv w (10 * j + 10) = inv :=
        level_rest inv w (j + 1) (Nat.zero_lt_succ 2)
      refine .word (k := k) (j := j + 1) ?_ hat' (by omega) (by decide) (by omega) hdone ?_
      · rw [hws, hfifo]
      · rw [hwire, hpin.trans hlevel.symm, wave_snoc]
        rfl

theorem run_stage (hs : Stage inv s ws wire) (acts : List SmAct) :
    Stage inv (s.run (pixelLedTx inv) acts) (ws ++ puts acts)
      (wire ++ s.wire (pixelLedTx inv) acts) := by
  induction acts generalizing s ws wire with
  | nil =>
    rw [puts, Sm.wire, List.append_nil, List.append_nil]
    exact hs
  | cons a acts ih =>
    cases a with
    | put w =>
      have hput := ih (put_stage hs w)
      rwa [List.append_assoc] at hput
    | tick =>
      have htick := ih (tick_stage hs)
      rwa [List.append_assoc] at htick

theorem Stage.shows (hs : Stage inv s ws wire) : Shows inv s ws wire := by
  cases hs with
  | rest hws hready hdone hwire => exact .rest hws hready hdone hwire
  | word hws hat hj hc ht hdone hwire => exact .word hws (hat.not_ready ht) ht hdone hwire

theorem init_stage (inv : Bool) : Stage inv smInit [] [] :=
  .rest (k := 0) rfl ⟨rfl, rfl, by decide⟩ .nil rfl

/-! ### Words go out -/

theorem run_cycles (program : Fin 3 → Instr) (s : Sm) (m n : Nat) :
    s.run program (cycles (m + n)) = (s.run program (cycles m)).run program (cycles n) := by
  rw [cycles, List.replicate_add, Sm.run, List.foldl_append]
  rfl

theorem run_succ (program : Fin 3 → Instr) (s : Sm) (n : Nat) :
    s.run program (cycles (n + 1)) = (s.tick program).run program (cycles n) := rfl

theorem run_word (hs : At inv w j s c) (hj : j < 24) (hc : c ≤ 10) {r : Nat}
    (hr : 10 * j + c + r = 240) : (s.run (pixelLedTx inv) (cycles r)).Ready ∧
      (s.run (pixelLedTx inv) (cycles r)).fifo = s.fifo := by
  induction r generalizing j c s with
  | zero =>
    obtain ⟨rfl, rfl⟩ : j = 23 ∧ c = 10 := by omega
    exact ⟨hs.ready, rfl⟩
  | succ r ih =>
    rcases Nat.lt_or_eq_of_le hc with hc | rfl
    · obtain ⟨hat, -, hfifo⟩ := tick_at hs hj hc
      rw [← hfifo]
      exact ih hat hj hc (by omega)
    · obtain ⟨hat, -, hfifo⟩ := tick_next hs (by omega)
      rw [← hfifo]
      exact ih hat (by omega) (by decide) (by omega)

theorem run_ready (inv : Bool) (hs : s.Ready) : ∃ n ≤ 240 * s.fifo.length,
    (s.run (pixelLedTx inv) (cycles n)).Ready ∧
      (s.run (pixelLedTx inv) (cycles n)).fifo = [] := by
  induction hlen : s.fifo.length generalizing s with
  | zero => exact ⟨0, Nat.zero_le _, hs, List.eq_nil_of_length_eq_zero hlen⟩
  | succ len ih =>
    obtain ⟨w, fifo, hfifo⟩ := List.exists_cons_of_length_eq_add_one hlen
    obtain ⟨hat, -, hfifo'⟩ := tick_word inv hs hfifo
    obtain ⟨hready, hrest⟩ := run_word (r := 239) hat (by decide) (by decide) (by decide)
    rw [← run_succ] at hready hrest
    have hlen' : (s.run (pixelLedTx inv) (cycles (239 + 1))).fifo.length = len := by
      rw [hrest, hfifo']
      rw [hfifo] at hlen
      exact Nat.succ.inj hlen
    obtain ⟨n, hn, hend⟩ := ih hready hlen'
    rw [← run_cycles] at hend
    exact ⟨239 + 1 + n, by omega, hend⟩

end PioLemmas

open PioLemmas

/-- However words are put among the cycles, the pin shows them in order, each as an unbroken
wave of its 24 most significant bits. All of them have been shown when the program waits for a
word with an empty FIFO, and so it does after 240 cycles for each word that is left. -/
theorem wire_words (inv : Bool) (acts : List SmAct) :
    Shows inv (smInit.run (pixelLedTx inv) acts) (puts acts)
        (smInit.wire (pixelLedTx inv) acts) ∧
      ∃ n ≤ 240 * ((smInit.run (pixelLedTx inv) acts).fifo.length + 1),
        ((smInit.run (pixelLedTx inv) acts).run (pixelLedTx inv) (cycles n)).Ready ∧
        ((smInit.run (pixelLedTx inv) acts).run (pixelLedTx inv) (cycles n)).fifo = [] := by
  have hstage := run_stage (init_stage inv) acts
  rw [List.nil_append, List.nil_append] at hstage
  refine ⟨hstage.shows, ?_⟩
  generalize smInit.run (pixelLedTx inv) acts = s at hstage ⊢
  cases hstage with
  | rest hws hready hdone hwire =>
    obtain ⟨n, hn, hend⟩ := run_ready inv hready
    exact ⟨n, by omega, hend⟩
  | word hws hat hj hc ht hdone hwire =>
    obtain ⟨r, hr⟩ := Nat.exists_eq_add_of_le ht.le
    obtain ⟨hready, hfifo⟩ := run_word hat hj hc hr.symm
    obtain ⟨n, hn, hend⟩ := run_ready inv hready
    rw [← run_cycles] at hend
    rw [hfifo] at hn
    exact ⟨r + n, by omega, hend⟩

end Picore.PixelLed
