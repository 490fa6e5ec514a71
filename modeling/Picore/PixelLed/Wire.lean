import Picore.PixelLed.Basic
import Picore.PixelLed.Pio

/-!
# A frame on the wire

The interrupt of a strip puts the words of a frame into the FIFO, as many at a time as there is
room, and the program sends them. Between the two there is nothing but the order of the words.

Results:
1. `interrupts_words`: the words of a frame, whatever room each interrupt finds.
2. `wave_seen`: the wave on an inverted strip.
3. `frame_wire`: what the wire shows of a frame.
-/

namespace Picore.PixelLed

/-! ## 1. The words of a frame -/

def Event.put : Event → Option UInt32
  | .pixel _ w => some w
  | .final => some 0
  | .start | .stop => none

/-- All words that the driver has put into the FIFO. -/
def Strip.words (s : Strip) : List UInt32 := s.log.filterMap Event.put

/-- The interrupt comes again and again while its source is enabled, and finds this room. -/
def interrupts : List Nat → Strip → Strip
  | [], s => s
  | room :: rooms, s => if s.enabled then interrupts rooms (onPixelLedIrq room s) else s

/-- What the strip sees of a word, when an inverter stands between the pin and the strip. -/
def seen (inv : Bool) (w : UInt32) : UInt32 := if inv then ~~~w else w

/-- The words of a frame, as the strip sees them: the pixels, and what comes behind the last. -/
def Strip.pixels (s : Strip) : List UInt32 :=
  (List.range s.pixelCount).map (fun i => s.pixelData i <<< 8) ++ [seen s.inv 0]

namespace WireLemmas

/-- The driver has put the words of the first pixels. -/
structure Sending (s0 s : Strip) : Prop where
  pixel_data : s.pixelData = s0.pixelData
  pixel_count : s.pixelCount = s0.pixelCount
  inv : s.inv = s0.inv
  offset : s.offset ≤ s0.pixelCount
  words : s.words = s0.words ++ (List.range s.offset).map s0.word

def Sent (s0 s : Strip) : Prop :=
  s.words = s0.words ++ ((List.range s0.pixelCount).map s0.word ++ [0])

theorem Sending.word {s0 s : Strip} (hs : Sending s0 s) (i : Nat) : s.word i = s0.word i := by
  rw [Strip.word, Strip.word, hs.pixel_data, hs.inv]

/-- With room for all that remains, the frame is over. -/
theorem fill_sending {s0 : Strip} (room : Nat) {s : Strip} (hs : Sending s0 s) :
    (fill room s).1 = false ∧ Sending s0 (fill room s).2 ∧
        (fill room s).2.offset = s.offset + room ∨
      (fill room s).1 = true ∧ Sent s0 (fill room s).2 := by
  induction room generalizing s with
  | zero => exact .inl ⟨rfl, hs, rfl⟩
  | succ room ih =>
    rw [fill]
    split
    · next hlt =>
      have hnext : Sending s0 { s with
          offset := s.offset + 1
          log := s.log ++ [.pixel s.offset (s.word s.offset)] } := by
        refine ⟨hs.pixel_data, hs.pixel_count, hs.inv, hs.pixel_count ▸ hlt, ?_⟩
        have hwords := hs.words
        rw [Strip.words] at hwords ⊢
        rw [List.filterMap_append, hwords, List.range_succ, List.map_append, List.append_assoc,
          hs.word]
        rfl
      rcases ih hnext with ⟨hdone, hsending, hoffset⟩ | hsent
      · refine .inl ⟨hdone, hsending, hoffset.trans ?_⟩
        rw [Nat.add_assoc, Nat.add_comm 1 room]
      · exact .inr hsent
    · next hge =>
      have hend : s.offset = s0.pixelCount :=
        Nat.le_antisymm hs.offset (hs.pixel_count ▸ Nat.le_of_not_lt hge)
      refine .inr ⟨rfl, ?_⟩
      have hwords := hs.words
      rw [Strip.words] at hwords
      rw [Sent, Strip.words, List.filterMap_append, hwords, hend, List.append_assoc]
      rfl

theorem irq_sending {s0 : Strip} (room : Nat) {s : Strip} (hs : Sending s0 s) :
    (onPixelLedIrq room s).enabled = true ∧ Sending s0 (onPixelLedIrq room s) ∧
        (onPixelLedIrq room s).offset = s.offset + room ∨
      (onPixelLedIrq room s).enabled = false ∧ Sent s0 (onPixelLedIrq room s) := by
  rw [onPixelLedIrq]
  rcases fill_sending room hs with ⟨hdone, hsending, hoffset⟩ | ⟨hdone, hsent⟩
  · rw [← Prod.eta (fill room s), hdone]
    exact .inl ⟨rfl, ⟨hsending.1, hsending.2, hsending.3, hsending.4, hsending.5⟩, hoffset⟩
  · rw [← Prod.eta (fill room s), hdone]
    exact .inr ⟨rfl, hsent⟩

/-- Every interrupt goes on where the last one has stopped. -/
theorem interrupts_sending {s0 : Strip} (rooms : List Nat) {s : Strip} (hs : Sending s0 s)
    (henabled : s.enabled = true) :
    (interrupts rooms s).enabled = true ∧ Sending s0 (interrupts rooms s) ∧
        (interrupts rooms s).offset = s.offset + rooms.sum ∨
      (interrupts rooms s).enabled = false ∧ Sent s0 (interrupts rooms s) := by
  induction rooms generalizing s with
  | nil => exact .inl ⟨henabled, hs, rfl⟩
  | cons room rooms ih =>
    rw [interrupts, if_pos henabled]
    rcases irq_sending room hs with ⟨henabled', hsending, hoffset⟩ | ⟨hdisabled, hsent⟩
    · rcases ih hsending henabled' with ⟨h1, h2, h3⟩ | hsent
      · refine .inl ⟨h1, h2, ?_⟩
        rw [h3, hoffset, List.sum_cons, Nat.add_assoc]
      · exact .inr hsent
    · right
      cases rooms with
      | nil => exact ⟨hdisabled, hsent⟩
      | cons room' rooms =>
        rw [interrupts, if_neg (by rw [hdisabled]; exact Bool.false_ne_true)]
        exact ⟨hdisabled, hsent⟩

end WireLemmas

open WireLemmas

/-- When the interrupts have found room for more words than there are pixels, the frame is over,
and its words have been put: those of the pixels in order, and the last one. -/
theorem interrupts_words {s : Strip} (hoffset : s.offset = 0) (henabled : s.enabled = true)
    {rooms : List Nat} (hrooms : s.pixelCount < rooms.sum) :
    (interrupts rooms s).enabled = false ∧
      (interrupts rooms s).words = s.words ++ ((List.range s.pixelCount).map s.word ++ [0]) := by
  have hstart : Sending s s := by
    refine ⟨rfl, rfl, rfl, hoffset ▸ Nat.zero_le _, ?_⟩
    rw [hoffset, List.range_zero, List.map_nil, List.append_nil]
  rcases interrupts_sending rooms hstart henabled with ⟨-, hsending, hend⟩ | hsent
  · rw [hoffset, Nat.zero_add] at hend
    exact absurd hsending.offset (Nat.not_le_of_lt (hend ▸ hrooms))
  · exact hsent

namespace WireLemmas

/-! ## 2. Inverted strips -/

theorem testBit_not (w : UInt32) {i : Nat} (hi : i < 32) :
    (~~~w).toNat.testBit i = !w.toNat.testBit i := by
  have hnot : (~~~w).toNat = 2 ^ 32 - (w.toNat + 1) := by
    rw [UInt32.toNat_not, Nat.add_comm w.toNat 1, ← Nat.sub_sub]
    rfl
  rw [hnot, Nat.testBit_two_pow_sub_succ w.toNat_lt, decide_eq_true hi, Bool.true_and]

theorem level_seen (inv : Bool) (w : UInt32) (t : Nat) :
    level false (seen inv w) t = (level inv w t ^^ inv) := by
  have hbit : (seen inv w).toNat.testBit (31 - t / 10) =
      (w.toNat.testBit (31 - t / 10) ^^ inv) := by
    cases inv with
    | false => exact (Bool.xor_false _).symm
    | true => exact (testBit_not w (by omega)).trans (Bool.xor_true _).symm
  unfold level
  rw [hbit]
  split
  · exact (Bool.xor_self inv).symm
  split
  · cases inv <;> rfl
  · rfl

theorem wordWave_seen (inv : Bool) (w : UInt32) :
    wordWave false (seen inv w) = (wordWave inv w).map (· ^^ inv) := by
  rw [wordWave, wordWave, waveUpTo, waveUpTo, List.map_map]
  exact List.map_congr_left fun t _ => level_seen inv w t

/-- On an inverted strip, the wire is the complement of what the strip sees. -/
theorem wave_seen {inv : Bool} {ws : List UInt32} {wire : List Bool} (h : Wave inv ws wire) :
    Wave false (ws.map (seen inv)) (wire.map (· ^^ inv)) := by
  induction h with
  | nil => exact .nil
  | word k w _ ih =>
    have hrest : (resting inv k).map (· ^^ inv) = resting false k := by
      rw [resting, List.map_replicate, Bool.xor_self]
      rfl
    rw [List.map_append, List.map_append, List.map_append, hrest, ← wordWave_seen]
    exact .word k _ ih

theorem seen_word (s : Strip) (i : Nat) : seen s.inv (s.word i) = s.pixelData i <<< 8 := by
  rw [seen, Strip.word]
  cases s.inv with
  | false => rfl
  | true => exact UInt32.not_not

/-- A program that waits with an empty FIFO has shown all words. -/
theorem Shows.all {inv : Bool} {s : Sm} {ws : List UInt32} {wire : List Bool}
    (h : Shows inv s ws wire) (hready : s.Ready) (hfifo : s.fifo = []) :
    ∃ done k, Wave inv ws done ∧ wire = done ++ resting inv k := by
  cases h with
  | @rest sent done k hws _ hdone hwire =>
    rw [hfifo, List.append_nil] at hws
    exact ⟨done, k, hws ▸ hdone, hwire⟩
  | word _ hnot => exact absurd hready hnot

end WireLemmas

/-- However much room each interrupt finds, and whenever the words come in among the cycles: when
the program waits for more, the wire has shown all frames before, then each pixel with its 24
bits in order, and then one word more. All of it is inverted if the strip is. The last word is a
dark pixel only if it is not. -/
theorem frame_wire {s : Strip} (hoffset : s.offset = 0) (henabled : s.enabled = true)
    {rooms : List Nat} (hrooms : s.pixelCount < rooms.sum) {acts : List SmAct}
    (hputs : puts acts = (interrupts rooms s).words)
    (hready : (smInit.run (pixelLedTx s.inv) acts).Ready)
    (hfifo : (smInit.run (pixelLedTx s.inv) acts).fifo = []) :
    ∃ done k, smInit.wire (pixelLedTx s.inv) acts = done ++ resting s.inv k ∧
      Wave false (s.words.map (seen s.inv) ++ s.pixels) (done.map (· ^^ s.inv)) := by
  have hstage := PioLemmas.run_stage (PioLemmas.init_stage s.inv) acts
  rw [List.nil_append, List.nil_append] at hstage
  obtain ⟨done, k, hdone, hwire⟩ := Shows.all hstage.shows hready hfifo
  refine ⟨done, k, hwire, ?_⟩
  have hseen := wave_seen hdone
  rw [hputs, (interrupts_words hoffset henabled hrooms).2, List.map_append, List.map_append,
    List.map_map] at hseen
  have hpixels : seen s.inv ∘ s.word = fun i => s.pixelData i <<< 8 := funext (seen_word s)
  rw [hpixels] at hseen
  exact hseen

namespace WireLemmas

/-- An inverted strip with one pixel, at the start of a frame. -/
def inverted : Strip :=
  { prPixelLedStripInit 1 true with pixelData := fun _ => 0x00ff10, enabled := true }

def twoWords : List SmAct :=
  [.tick, .put (~~~0x00ff1000), .tick, .put 0] ++ cycles 479

end WireLemmas

theorem frame_wire_inverted :
    ∃ done k, smInit.wire (pixelLedTx true) twoWords = done ++ resting true k ∧
      Wave false [0x00ff1000, 0xffffffff] (done.map (· ^^ true)) :=
  frame_wire (s := inverted) rfl rfl (show inverted.pixelCount < [1, 0, 1].sum by decide)
    (by decide +kernel) ⟨by decide +kernel, by decide +kernel, by decide +kernel⟩
    (by decide +kernel)

end Picore.PixelLed
