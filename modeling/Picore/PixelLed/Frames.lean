import Picore.PixelLed.Basic

/-!
# Frames

A strip should send frames: `on_refresh` starts one, the words of the pixels go out in order,
then the last word, and `on_done` ends it. `on_pio_irq` serves every strip of its PIO, also
those that are not sending.

Results:
1. `Framed`: the strip has sent whole frames, and a part of another one exactly if it is
   refreshing.
2. `Stage`: where a strip stands in its frame; `strip_stage`, `irq_stage`: one step.
3. `strips_framed`: as long as every interrupt only finds room in the FIFOs of strips that
   are sending, all strips are framed. `alone_framed`: so is a strip that is alone on its
   PIO. `idle_strip_sends`: a strip that sends before its first refresh.
-/

namespace Picore.PixelLed

open Transition
open Picore.Task (Status)

/-! ## 1. Frames -/

def Event.kind : Event → Event
  | .pixel i _ => .pixel i 0
  | e => e

/-- A frame up to the word of the pixel `i`. -/
def sentUpTo (i : Nat) : List Event := .start :: (List.range i).map fun j => .pixel j 0

/-- The events of a whole frame of `count` pixels, whatever the words are: the start, the pixels in
their order, the last word, and the stop. -/
def frame (count : Nat) : List Event := sentUpTo count ++ [.final, .stop]

def frames (count m : Nat) : List Event := (List.replicate m (frame count)).flatten

/-- The strip has sent whole frames, and the beginning of another one exactly if it is
refreshing. -/
def Framed (s : Strip) : Prop :=
  ∃ m part rest, s.log.map Event.kind = frames s.pixelCount m ++ part ∧
    part ++ rest = frame s.pixelCount ∧ rest ≠ [] ∧ (s.refreshing = true ↔ part ≠ [])

/-- The words that a step adds are those of the pixels as they are now. -/
def OwnWords (s s' : Strip) : Prop :=
  ∃ new, s'.log = s.log ++ new ∧ ∀ i w, .pixel i w ∈ new → w = s.word i

theorem frames_succ (count m : Nat) : frames count (m + 1) = frames count m ++ frame count := by
  simp [frames, List.replicate_succ']

theorem sentUpTo_succ (i : Nat) : sentUpTo (i + 1) = sentUpTo i ++ [.pixel i 0] := by
  simp [sentUpTo, List.range_succ]

theorem sentUpTo_prefix {i count : Nat} (h : i ≤ count) : sentUpTo i <+: sentUpTo count := by
  obtain ⟨d, rfl⟩ := Nat.exists_eq_add_of_le h
  induction d with
  | zero => exact List.prefix_rfl
  | succ d ih =>
    rw [← Nat.add_assoc, sentUpTo_succ]
    exact (ih (Nat.le_add_right i d)).trans (List.prefix_append _ _)

/-! ## 2. One step -/

/-- Where the strip stands after `m` whole frames. Each stage fixes the flags, and with them what is
in the log: the frames, and how much of the next one has gone out. -/
inductive Stage (s : Strip) (m : Nat) : Prop
  /-- Between two frames. -/
  | rest : s.refreshing = false → (s.run = .idle ∨ s.run = .done) → s.doneTask = .idle →
      s.log.map Event.kind = frames s.pixelCount m → Stage s m
  /-- `offset` is still that of the last frame. -/
  | starting : s.refreshing = true → s.run = .refresh → s.doneTask = .idle →
      s.log.map Event.kind = frames s.pixelCount m ++ sentUpTo 0 → Stage s m
  /-- The words of the pixels go out. -/
  | sending : s.refreshing = true → (s.run = .idle ∨ s.run = .enable) → s.doneTask = .idle →
      s.offset ≤ s.pixelCount →
      s.log.map Event.kind = frames s.pixelCount m ++ sentUpTo s.offset → Stage s m
  /-- The last word has gone out. -/
  | sent : s.refreshing = true → (s.run = .idle ∨ s.run = .enable) → s.doneTask.Active →
      s.log.map Event.kind = frames s.pixelCount m ++ (sentUpTo s.pixelCount ++ [.final]) →
      Stage s m

theorem Stage.framed {s : Strip} {m : Nat} (h : Stage s m) : Framed s := by
  cases h with
  | rest hrefreshing _ _ hlog =>
    refine ⟨m, [], frame s.pixelCount, by rw [hlog, List.append_nil], rfl, List.cons_ne_nil _ _, ?_⟩
    simp [hrefreshing]
  | starting hrefreshing _ _ hlog =>
    obtain ⟨rest, hrest⟩ := sentUpTo_prefix (Nat.zero_le s.pixelCount)
    refine ⟨m, sentUpTo 0, rest ++ [.final, .stop], hlog, ?_, by simp, ?_⟩
    · rw [frame, ← hrest, List.append_assoc]
    · simp [hrefreshing, sentUpTo]
  | sending hrefreshing _ _ hoffset hlog =>
    obtain ⟨rest, hrest⟩ := sentUpTo_prefix hoffset
    refine ⟨m, sentUpTo s.offset, rest ++ [.final, .stop], hlog, ?_, by simp, ?_⟩
    · rw [frame, ← hrest, List.append_assoc]
    · simp [hrefreshing, sentUpTo]
  | sent hrefreshing _ _ hlog =>
    refine ⟨m, _, [.stop], hlog, ?_, List.cons_ne_nil _ _, ?_⟩
    · rw [frame, List.append_assoc]
      rfl
    · simp [hrefreshing]

/-- A strip that is sending: `on_refresh` has set `offset`, and the last word has not been
put. -/
def Strip.Sending (s : Strip) : Prop :=
  s.refreshing = true ∧ s.run ≠ .refresh ∧ s.doneTask = .idle

/-- The interrupt only finds room in the FIFOs of strips that are sending. -/
def Serviced (g : Pio) : Act → Prop
  | .irq room => ∀ sm s, g sm = some s → room sm ≠ 0 → s.Sending
  | .strip _ _ => True

theorem init_stage (ledCount : Nat) (inv : Bool) : Stage (prPixelLedStripInit ledCount inv) 0 :=
  .rest rfl (.inl rfl) rfl rfl

/-- The pixels, `refresh_task` and the interrupt source are not part of it. -/
theorem Stage.touch {s : Strip} {m : Nat} (h : Stage s m) (data : Nat → UInt32)
    (dirty enabled : Bool) (refreshTask : Status) :
    Stage { s with
      pixelData := data, dirty := dirty, enabled := enabled, refreshTask := refreshTask } m := by
  cases h with
  | rest h1 h2 h3 h4 => exact .rest h1 h2 h3 h4
  | starting h1 h2 h3 h4 => exact .starting h1 h2 h3 h4
  | sending h1 h2 h3 h4 h5 => exact .sending h1 h2 h3 h4 h5
  | sent h1 h2 h3 h4 => exact .sent h1 h2 h3 h4

theorem strip_stage {s s' : Strip} {m : Nat} {act : StripAct} (h : Stage s m)
    (hs : s.step act = some s') : ∃ m', Stage s' m' := by
  cases act with
  | set offset value =>
    simp only [Strip.step, Option.ite_none_right_eq_some, Option.some.injEq] at hs
    obtain ⟨-, rfl⟩ := hs
    exact ⟨m, h.touch ..⟩
  | refresh =>
    cases hs
    exact ⟨m, h.touch ..⟩
  | onRefresh =>
    simp only [Strip.step, Option.ite_none_right_eq_some, Option.some.injEq] at hs
    obtain ⟨hrun, rfl⟩ := hs
    refine ⟨m, ?_⟩
    cases h with
    | rest h1 h2 h3 h4 =>
      simp only [onRefresh, h1, Bool.false_eq_true, if_false]
      exact .starting rfl rfl h3 (by simp [h4, sentUpTo, Event.kind])
    | starting h1 h2 h3 h4 => exact absurd (h2.symm.trans hrun.2) (by decide)
    | sending h1 h2 h3 h4 h5 =>
      simp only [onRefresh, h1, if_true]
      exact .sending rfl h2 h3 h4 h5
    | sent h1 h2 h3 h4 =>
      simp only [onRefresh, h1, if_true]
      exact .sent rfl h2 h3 h4
  | onDone =>
    simp only [Strip.step, Option.ite_none_right_eq_some, Option.some.injEq] at hs
    obtain ⟨hrun, rfl⟩ := hs
    cases h with
    | rest h1 h2 h3 h4 => exact absurd (h3.symm.trans hrun.1) (by decide)
    | starting h1 h2 h3 h4 => exact absurd (h3.symm.trans hrun.1) (by decide)
    | sending h1 h2 h3 h4 h5 => exact absurd (h3.symm.trans hrun.1) (by decide)
    | sent h1 h2 h3 h4 =>
      -- The frame is complete.
      refine ⟨m + 1, .rest rfl (.inr rfl) rfl ?_⟩
      simp [onDone, h4, Event.kind, frames_succ, frame]
  | resume =>
    simp only [Strip.step, Option.ite_none_left_eq_some, Option.some.injEq] at hs
    obtain ⟨hrun, rfl⟩ := hs
    refine ⟨m, ?_⟩
    cases h with
    | rest h1 h2 h3 h4 =>
      simp only [resume, h2.resolve_left hrun]
      exact .rest h1 (.inl rfl) h3 h4
    | starting h1 h2 h3 h4 =>
      simp only [resume, h2]
      exact .sending h1 (.inr rfl) h3 (Nat.zero_le _) h4
    | sending h1 h2 h3 h4 h5 =>
      simp only [resume, h2.resolve_left hrun]
      exact .sending h1 (.inl rfl) h3 h4 h5
    | sent h1 h2 h3 h4 =>
      simp only [resume, h2.resolve_left hrun]
      exact .sent h1 (.inl rfl) h3 h4
  | expire =>
    simp only [Strip.step, Option.ite_none_right_eq_some, Option.some.injEq] at hs
    obtain ⟨hwait, rfl⟩ := hs
    cases h with
    | rest h1 h2 h3 h4 => exact absurd (h3.symm.trans hwait) (by decide)
    | starting h1 h2 h3 h4 => exact absurd (h3.symm.trans hwait) (by decide)
    | sending h1 h2 h3 h4 h5 => exact absurd (h3.symm.trans hwait) (by decide)
    | sent h1 h2 h3 h4 => exact ⟨m, .sent h1 h2 ((Status.active_expire _).mpr h3) h4⟩

/-- The loop of the interrupt, for a strip that is sending. -/
theorem fill_stage {m : Nat} (room : Nat) : ∀ {s : Strip}, s.refreshing = true →
    (s.run = .idle ∨ s.run = .enable) → s.doneTask = .idle → s.offset ≤ s.pixelCount →
    s.log.map Event.kind = frames s.pixelCount m ++ sentUpTo s.offset →
    ((fill room s).1 = false ∧ Stage (fill room s).2 m) ∨
    ((fill room s).1 = true ∧
      Stage { (fill room s).2 with doneTask := (fill room s).2.doneTask.execIn } m) := by
  induction room with
  | zero => exact fun h1 h2 h3 h4 h5 => .inl ⟨rfl, .sending h1 h2 h3 h4 h5⟩
  | succ room ih =>
    intro s h1 h2 h3 h4 h5
    rw [fill]
    split
    · next hlt =>
      refine ih h1 h2 h3 hlt ?_
      simp [h5, Event.kind, sentUpTo_succ]
    · next hge =>
      have hend : s.offset = s.pixelCount := Nat.le_antisymm h4 (Nat.le_of_not_lt hge)
      refine .inr ⟨rfl, .sent h1 h2 (Status.active_execIn _) ?_⟩
      simp [h5, hend, Event.kind]

theorem irq_stage {s : Strip} {m : Nat} (h : Stage s m) (hs : s.Sending) (room : Nat) :
    Stage (onPixelLedIrq room s) m := by
  obtain ⟨hrefreshing, hrun, hdone⟩ := hs
  cases h with
  | rest h1 => exact absurd (h1.symm.trans hrefreshing) (by decide)
  | starting _ h2 => exact absurd h2 hrun
  | sent _ _ h3 => exact absurd hdone h3
  | sending h1 h2 h3 h4 h5 =>
    rw [onPixelLedIrq]
    rcases fill_stage room h1 h2 h3 h4 h5 with ⟨heq, hstage⟩ | ⟨heq, hstage⟩
    · rw [← Prod.eta (fill room s), heq]
      exact hstage.touch _ _ true _
    · rw [← Prod.eta (fill room s), heq]
      exact hstage.touch _ _ false _

theorem full_stage {s : Strip} {m : Nat} (h : Stage s m) : Stage (onPixelLedIrq 0 s) m :=
  h.touch _ _ true _

/-- What `fill` adds to the log are words of pixels, as they are now, and the last word of a
frame. -/
theorem fill_log (room : Nat) : ∀ s : Strip, ∃ new, (fill room s).2.log = s.log ++ new ∧
    ∀ e ∈ new, e = .final ∨ ∃ i, e = .pixel i (s.word i) := by
  induction room with
  | zero => exact fun s => ⟨[], (List.append_nil _).symm, fun e he => absurd he (by simp)⟩
  | succ room ih =>
    intro s
    rw [fill]
    split
    · obtain ⟨new, hlog, hnew⟩ := ih { s with
        offset := s.offset + 1
        log := s.log ++ [.pixel s.offset (s.word s.offset)] }
      refine ⟨.pixel s.offset (s.word s.offset) :: new, ?_, fun e he => ?_⟩
      · rw [hlog, List.append_assoc]
        rfl
      · rcases List.mem_cons.mp he with rfl | he
        · exact .inr ⟨_, rfl⟩
        · exact hnew e he
    · exact ⟨[.final], rfl, fun e he => .inl (List.mem_singleton.mp he)⟩

theorem irq_ownWords (room : Nat) (s : Strip) : OwnWords s (onPixelLedIrq room s) := by
  obtain ⟨new, hlog, hnew⟩ := fill_log room s
  refine ⟨new, ?_, fun i w hmem => ?_⟩
  · rw [onPixelLedIrq]
    split
    · next heq => rw [← hlog, heq]
    · next heq => rw [← hlog, heq]
  · rcases hnew _ hmem with heq | ⟨j, heq⟩
    · cases heq
    · cases heq
      rfl

theorem strip_log {s s' : Strip} {act : StripAct} (hs : s.step act = some s') :
    s'.log = s.log ∨ s'.log = s.log ++ [.start] ∨ s'.log = s.log ++ [.stop] := by
  cases act with
  | set offset value =>
    simp only [Strip.step, Option.ite_none_right_eq_some, Option.some.injEq] at hs
    obtain ⟨-, rfl⟩ := hs
    exact .inl rfl
  | refresh =>
    cases hs
    exact .inl rfl
  | onRefresh =>
    simp only [Strip.step, Option.ite_none_right_eq_some, Option.some.injEq] at hs
    obtain ⟨-, rfl⟩ := hs
    rw [onRefresh]
    split
    · exact .inl rfl
    · exact .inr (.inl rfl)
  | onDone =>
    simp only [Strip.step, Option.ite_none_right_eq_some, Option.some.injEq] at hs
    obtain ⟨-, rfl⟩ := hs
    exact .inr (.inr rfl)
  | resume =>
    simp only [Strip.step, Option.ite_none_left_eq_some, Option.some.injEq] at hs
    obtain ⟨-, rfl⟩ := hs
    left
    rw [resume]
    split
    · rfl
    · rfl
    · rfl
    · rfl
  | expire =>
    simp only [Strip.step, Option.ite_none_right_eq_some, Option.some.injEq] at hs
    obtain ⟨-, rfl⟩ := hs
    exact .inl rfl

theorem ownWords_of_log {s s' : Strip}
    (h : s'.log = s.log ∨ s'.log = s.log ++ [.start] ∨ s'.log = s.log ++ [.stop]) :
    OwnWords s s' := by
  rcases h with h | h | h
  · exact ⟨[], by rw [h, List.append_nil], fun _ _ hmem => absurd hmem List.not_mem_nil⟩
  · exact ⟨_, h, fun _ _ hmem => by simp at hmem⟩
  · exact ⟨_, h, fun _ _ hmem => by simp at hmem⟩

/-! ## 3. Runs -/

theorem step_strip {g g' : Pio} {sm : Fin 4} {act : StripAct}
    (h : step g (.strip sm act) = some g') :
    ∃ s s', g sm = some s ∧ s.step act = some s' ∧ g' = Function.update g sm (some s') := by
  obtain ⟨s, hs, h⟩ := Option.bind_eq_some_iff.mp h
  obtain ⟨s', hs', h⟩ := Option.bind_eq_some_iff.mp h
  exact ⟨s, s', hs, hs', (Option.some.inj h).symm⟩

theorem step_irq {g g' : Pio} {room : Fin 4 → Nat} (h : step g (.irq room) = some g') :
    Raised room g ∧ g' = onPioIrq room g := by
  simp only [step] at h
  split at h
  · next hraised => exact ⟨hraised, (Option.some.inj h).symm⟩
  · cases h

theorem step_ownWords {g g' : Pio} {act : Act} (h : step g act = some g') {sm : Fin 4}
    {s s' : Strip} (hs : g sm = some s) (hs' : g' sm = some s') : OwnWords s s' := by
  cases act with
  | strip sm' sact =>
    obtain ⟨u, u', hu, hstep, rfl⟩ := step_strip h
    rcases eq_or_ne sm sm' with rfl | hne
    · rw [Function.update_self] at hs'
      rw [hs] at hu
      cases hu
      cases hs'
      exact ownWords_of_log (strip_log hstep)
    · rw [Function.update_of_ne hne, hs] at hs'
      cases hs'
      exact ownWords_of_log (.inl rfl)
  | irq room =>
    obtain ⟨-, rfl⟩ := step_irq h
    rw [onPioIrq, hs] at hs'
    cases hs'
    exact irq_ownWords (room sm) s

theorem step_stage {g g' : Pio} {act : Act} (hinv : ∀ sm s, g sm = some s → ∃ m, Stage s m)
    (h : step g act = some g') (hok : Serviced g act) :
    ∀ sm s, g' sm = some s → ∃ m, Stage s m := by
  intro sm s hs
  cases act with
  | strip sm' sact =>
    obtain ⟨u, u', hu, hstep, rfl⟩ := step_strip h
    rcases eq_or_ne sm sm' with rfl | hne
    · rw [Function.update_self] at hs
      cases hs
      obtain ⟨m, hm⟩ := hinv sm u hu
      exact strip_stage hm hstep
    · rw [Function.update_of_ne hne] at hs
      exact hinv sm s hs
  | irq room =>
    obtain ⟨-, rfl⟩ := step_irq h
    obtain ⟨u, hu, rfl⟩ := Option.map_eq_some_iff.mp hs
    obtain ⟨m, hm⟩ := hinv sm u hu
    rcases Nat.eq_zero_or_pos (room sm) with hroom | hroom
    · rw [hroom]
      exact ⟨m, full_stage hm⟩
    · exact ⟨m, irq_stage hm (hok sm u hu (Nat.ne_of_gt hroom)) _⟩

/-- As long as every interrupt only finds room in the FIFOs of strips that are sending, each
strip sends its own frames: the words of its pixels in order and the last word, once between
two starts of a refresh, none while it is not refreshing, and all of them before it stops. -/
theorem strips_framed {g : Pio} (h : (pio.guard Serviced).Reachable g) :
    (∀ sm s, g sm = some s → Framed s) ∧
    ∀ act g', pio.step g act g' → ∀ sm s s', g sm = some s → g' sm = some s' → OwnWords s s' := by
  refine ⟨fun sm s hs => ?_, fun act g' hstep sm s s' hs hs' => step_ownWords hstep hs hs'⟩
  have hstage : ∀ sm s, g sm = some s → ∃ m, Stage s m := by
    refine h.invariant (I := fun g => ∀ sm s, g sm = some s → ∃ m, Stage s m) ?_ ?_
    · intro g hg sm s hs
      obtain ⟨ledCount, inv, rfl⟩ := hg sm s hs
      exact ⟨0, init_stage ledCount inv⟩
    · exact fun g act g' hinv hstep => step_stage hinv hstep.1 hstep.2
  obtain ⟨m, hm⟩ := hstage sm s hs
  exact hm.framed

def alone (sm : Fin 4) : Lts Pio Act :=
  Lts.ofFun (fun g => ∃ ledCount inv,
    g = Function.update (fun _ => none) sm (some (prPixelLedStripInit ledCount inv))) step

/-- When nothing but its own FIFO raises the interrupt, the source is only enabled while the
strip is sending. -/
structure Undisturbed (s : Strip) : Prop where
  enabled : s.enabled = true → s.refreshing = true ∧ s.run = .idle ∧ s.doneTask = .idle
  done : s.doneTask.Active → s.refreshing = true ∧ s.run = .idle
  run : s.run = .refresh ∨ s.run = .enable → s.refreshing = true

theorem undisturbed_init (ledCount : Nat) (inv : Bool) :
    Undisturbed (prPixelLedStripInit ledCount inv) where
  enabled he := by cases he
  done hd := absurd rfl hd
  run hr := by
    rcases hr with hr | hr
    · cases hr
    · cases hr

theorem strip_undisturbed {s s' : Strip} {act : StripAct} (h : Undisturbed s)
    (hs : s.step act = some s') : Undisturbed s' := by
  cases act with
  | set offset value =>
    simp only [Strip.step, Option.ite_none_right_eq_some, Option.some.injEq] at hs
    obtain ⟨-, rfl⟩ := hs
    exact ⟨h.enabled, h.done, h.run⟩
  | refresh =>
    cases hs
    exact ⟨h.enabled, h.done, h.run⟩
  | onRefresh =>
    simp only [Strip.step, Option.ite_none_right_eq_some, Option.some.injEq] at hs
    obtain ⟨-, rfl⟩ := hs
    rw [onRefresh]
    split
    · exact ⟨h.enabled, h.done, h.run⟩
    · next hrest =>
      exact ⟨fun he => absurd (h.enabled he).1 hrest, fun hd => absurd (h.done hd).1 hrest,
        fun _ => rfl⟩
  | onDone =>
    simp only [Strip.step, Option.ite_none_right_eq_some, Option.some.injEq] at hs
    obtain ⟨hrun, rfl⟩ := hs
    refine ⟨fun he => ?_, fun hd => absurd rfl hd, fun hr => by simp [onDone] at hr⟩
    exact absurd ((h.enabled he).2.2.symm.trans hrun.1) (by decide)
  | resume =>
    simp only [Strip.step, Option.ite_none_left_eq_some, Option.some.injEq] at hs
    obtain ⟨hrun, rfl⟩ := hs
    -- The handler has been cut, so the source is off and `done_task` is idle.
    have hoff : s.enabled ≠ true := fun he => hrun (h.enabled he).2.1
    have hidle : ¬s.doneTask.Active := fun hd => hrun (h.done hd).2
    rw [resume]
    split
    · exact h
    · next heq => exact ⟨fun he => absurd he hoff, fun hd => absurd hd hidle,
        fun _ => h.run (.inl heq)⟩
    · next heq => exact ⟨fun _ => ⟨h.run (.inr heq), rfl, not_not.mp hidle⟩,
        fun hd => absurd hd hidle, fun hr => by simp at hr⟩
    · exact ⟨fun he => absurd he hoff, fun hd => absurd hd hidle, fun hr => by simp at hr⟩
  | expire =>
    simp only [Strip.step, Option.ite_none_right_eq_some, Option.some.injEq] at hs
    obtain ⟨hwait, rfl⟩ := hs
    have hactive : s.doneTask.Active := by
      rw [hwait]
      decide
    exact ⟨fun he => absurd (h.enabled he).2.2 hactive, fun _ => h.done hactive, h.run⟩

theorem fill_fields (room : Nat) : ∀ s : Strip, (fill room s).2.refreshing = s.refreshing ∧
    (fill room s).2.run = s.run ∧ (fill room s).2.doneTask = s.doneTask ∧
    (fill room s).2.dirty = s.dirty ∧ (fill room s).2.refreshTask = s.refreshTask := by
  induction room with
  | zero => exact fun s => ⟨rfl, rfl, rfl, rfl, rfl⟩
  | succ room ih =>
    intro s
    rw [fill]
    split
    · exact ih _
    · exact ⟨rfl, rfl, rfl, rfl, rfl⟩

theorem irq_undisturbed {s : Strip} (h : Undisturbed s) (he : s.enabled = true) (room : Nat) :
    Undisturbed (onPixelLedIrq room s) := by
  obtain ⟨h1, h2, h3⟩ := h.enabled he
  obtain ⟨hf1, hf2, hf3, -⟩ := fill_fields room s
  rw [onPixelLedIrq]
  split
  · next heq =>
    simp only [heq] at hf1 hf2 hf3
    exact ⟨fun hoff => by simp at hoff, fun _ => ⟨hf1.trans h1, hf2.trans h2⟩,
      fun _ => hf1.trans h1⟩
  · next heq =>
    simp only [heq] at hf1 hf2 hf3
    exact ⟨fun _ => ⟨hf1.trans h1, hf2.trans h2, hf3.trans h3⟩,
      fun hd => absurd (hf3.trans h3) hd, fun _ => hf1.trans h1⟩

/-- The strip on the state machine `sm` is the only one on the PIO, and its interrupt is enabled
only while it is sending. -/
def Alone (sm : Fin 4) (g : Pio) : Prop :=
  (∀ sm', sm' ≠ sm → g sm' = none) ∧ ∃ s, g sm = some s ∧ Undisturbed s

theorem alone_serviced {sm : Fin 4} {g g' : Pio} {act : Act} (h : Alone sm g)
    (hs : step g act = some g') : Alone sm g' ∧ Serviced g act := by
  obtain ⟨hnone, s, hg, hund⟩ := h
  have honly : ∀ sm' u, g sm' = some u → sm' = sm ∧ u = s := by
    intro sm' u hu
    by_contra hne
    rcases eq_or_ne sm' sm with rfl | hne'
    · rw [hg] at hu
      exact hne ⟨rfl, (Option.some.inj hu).symm⟩
    · rw [hnone sm' hne'] at hu
      cases hu
  cases act with
  | strip sm' sact =>
    obtain ⟨u, u', hu, hstep, rfl⟩ := step_strip hs
    obtain ⟨rfl, rfl⟩ := honly sm' u hu
    refine ⟨⟨fun i hi => ?_, u', Function.update_self .., strip_undisturbed hund hstep⟩, trivial⟩
    rw [Function.update_of_ne hi]
    exact hnone i hi
  | irq room =>
    obtain ⟨⟨i, hany, -⟩, rfl⟩ := step_irq hs
    obtain ⟨u, hu, hen⟩ := (Option.any_eq_true _ _).mp hany
    obtain ⟨rfl, rfl⟩ := honly i u hu
    obtain ⟨h1, h2, h3⟩ := hund.enabled hen
    refine ⟨⟨fun j hj => ?_, _, ?_, irq_undisturbed hund hen (room i)⟩, fun sm' v hv _ => ?_⟩
    · rw [onPioIrq, hnone j hj]
      rfl
    · rw [onPioIrq, hg]
      rfl
    · obtain ⟨-, rfl⟩ := honly sm' v hv
      exact ⟨h1, by rw [h2]; decide, h3⟩

/-- A strip that is alone on its PIO is framed. -/
theorem alone_framed {sm : Fin 4} {g : Pio} (h : (alone sm).Reachable g) {s : Strip}
    (hs : g sm = some s) : Framed s := by
  have hreach : (pio.guard Serviced).Reachable g := by
    refine h.simulation (M := pio.guard Serviced) (I := Alone sm) id ?_ ?_
    · rintro g ⟨ledCount, inv, rfl⟩
      refine ⟨⟨fun sm' hne => Function.update_of_ne hne .., _, Function.update_self .., ?_⟩,
        fun sm' u hu => ?_⟩
      · exact undisturbed_init ledCount inv
      · rcases eq_or_ne sm' sm with rfl | hne
        · rw [id_eq, Function.update_self] at hu
          exact ⟨ledCount, inv, (Option.some.inj hu).symm⟩
        · rw [id_eq, Function.update_of_ne hne] at hu
          cases hu
    · intro g act g' halone hstep
      obtain ⟨halone', hok⟩ := alone_serviced halone hstep
      exact ⟨halone', .inr ⟨act, hstep, hok⟩⟩
  exact (strips_framed hreach).1 sm s hs

namespace FramesLemmas

/-- Two strips of one pixel, the first two on their PIO. -/
def two : Pio := fun sm => if sm.val < 2 then some (prPixelLedStripInit 1 false) else none

theorem two_init : pio.init two := by
  intro sm s hs
  simp only [two] at hs
  split at hs
  · exact ⟨1, false, (Option.some.inj hs).symm⟩
  · cases hs

def stripStep (g : Pio) (act : Fin 4 × StripAct) : Option Pio := step g (.strip act.1 act.2)

def started : Pio := (exec stripStep two [(0, .onRefresh), (0, .resume), (0, .resume)]).getD two

theorem reachable_started : (pio.guard Serviced).Reachable started := by
  have hexec : exec stripStep two [(0, .onRefresh), (0, .resume), (0, .resume)] = some started :=
    rfl
  exact Lts.Reachable.exec (L := pio.guard Serviced) (f := stripStep)
    (fun _ act _ h => ⟨.strip act.1 act.2, h, trivial⟩) (.init two_init) hexec

/-- The interrupt has filled the FIFO of the first strip. -/
def filled : Pio := onPioIrq (fun sm => if sm = 0 then 4 else 0) started

theorem reachable_filled : (pio.guard Serviced).Reachable filled := by
  refine reachable_started.step (a := .irq fun sm => if sm = 0 then 4 else 0) ⟨rfl, ?_⟩
  intro sm s hs hroom
  obtain rfl : sm = 0 := by
    by_contra hne
    exact hroom (if_neg hne)
  cases hs
  exact ⟨rfl, by decide, rfl⟩

end FramesLemmas

open FramesLemmas in
theorem strips_framed_filled :
    (pio.guard Serviced).Reachable filled ∧
    (filled 0).map (·.log) = some [.start, .pixel 0 0, .final] ∧
    ∀ sm s, filled sm = some s → Framed s :=
  ⟨reachable_filled, rfl, (strips_framed reachable_filled).1⟩

open FramesLemmas in
/-- The first strip has started its refresh, and the interrupt finds room in both FIFOs. The
word of a pixel goes to the second strip, whose first refresh has not begun. -/
theorem idle_strip_sends :
    ∃ g s, pio.Reachable g ∧ g 1 = some s ∧ s.refreshing = false ∧ s.log = [.pixel 0 0] ∧
      ¬Framed s := by
  refine ⟨onPioIrq (fun _ => 1) started, _,
    reachable_started.of_guard.step (a := .irq fun _ => 1) rfl, rfl, rfl, rfl, ?_⟩
  rintro ⟨m, part, rest, hlog, -, -, hpart⟩
  obtain rfl : part = [] := by
    by_contra hne
    exact absurd (hpart.mpr hne) (by decide)
  rw [List.append_nil] at hlog
  cases m with
  | zero => cases hlog
  | succ m =>
    rw [frames, List.replicate_succ, List.flatten_cons] at hlog
    exact absurd (List.cons.inj hlog).1 (by decide)

end Picore.PixelLed
