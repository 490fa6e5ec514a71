import Picore.Modbus.Request

/-!
# The device identification loop, turn by turn

`MODBUS_READ_DEVICE_IDENTIFICATION` asks the application for one object in each
turn of its loop. What a turn does is said once, for each of the four ways it can
go: the object is written or there is none, it does not fit, it is written over
the end of the buffer, or there is no turn left.

Results:
1. `devidLoop_turn`, `devidLoop_break`, `devidLoop_fault`, `devidLoop_end`.
2. `devidLoop_turns`: the loop after any number of turns.
3. `turns_app`, `turns_ptr`: where these turns leave the application and `ptr`.
4. `devidLoop_inv`: the turns that a loop that ends has gone through.
5. `busReqRespond_devid`: the rest of the request around the loop.
-/

namespace Picore.Modbus

open Memory Fuel

variable {σ : Type}

/-! ## 1. One turn -/

/-- What `devid` answers, and the application after that. -/
def Handler.answer (h : Handler σ) (app : σ) (id : UInt8) : Option (List UInt8) × σ :=
  match h.devid with
  | none => (none, app)
  | some getter => getter app id

/-- An object in a response: its id, its length and its bytes. -/
def objectBytes (id : UInt8) (data : List UInt8) : List UInt8 :=
  id :: UInt8.ofNat (min data.length 0x40) :: data.take (min data.length 0x40)

/-- How many bytes an answer takes in a response. -/
def objectSize : Option (List UInt8) → Nat
  | none => 0
  | some data => min data.length 0x40 + 2

@[simp] theorem length_objectBytes (id : UInt8) (data : List UInt8) :
    (objectBytes id data).length = objectSize (some data) := by
  simp [objectBytes, objectSize]

/-- The turn for `id` breaks the loop, with `ptr` bytes in the response. -/
def Breaks (ptr : Nat) : Option (List UInt8) → Prop
  | none => False
  | some data => spaceLeft ptr < min data.length 0x40

theorem breaks_some {ptr : Nat} {data : List UInt8} :
    Breaks ptr (some data) ↔ spaceLeft ptr < min data.length 0x40 :=
  Iff.rfl

/-- The state after an object is written in bounds. -/
def PrModbus.objectStored (s : PrModbus σ) (id : UInt8) (data : List UInt8) : PrModbus σ :=
  let s := s.stored s.ptr (objectBytes id data)
  { s.stored 7 [s.buffer 7 + 1] with ptr := s.ptr + objectSize (some data) }

/-- The state after the turn for `id`, when it does not break the loop. -/
def turned (h : Handler σ) (id : UInt8) (s : PrModbus σ) : PrModbus σ :=
  let asked := (s.askDevid h id).2.stored 6 [id + 1]
  match (h.answer s.app id).1 with
  | none => asked
  | some data => asked.objectStored id data

/-- The state after a turn for `id` that breaks the loop. -/
def broken (h : Handler σ) (id : UInt8) (s : PrModbus σ) : PrModbus σ :=
  ((s.askDevid h id).2.stored 6 [id + 1]).stored 6 [id]

@[simp] theorem askDevid_fst (h : Handler σ) (s : PrModbus σ) (id : UInt8) :
    (s.askDevid h id).1 = (h.answer s.app id).1 := by
  cases hd : h.devid <;> simp [PrModbus.askDevid, Handler.answer, hd]

@[simp] theorem askDevid_app (h : Handler σ) (s : PrModbus σ) (id : UInt8) :
    (s.askDevid h id).2.app = (h.answer s.app id).2 := by
  cases hd : h.devid <;> simp [PrModbus.askDevid, Handler.answer, hd]

@[simp] theorem askDevid_buffer (h : Handler σ) (s : PrModbus σ) (id : UInt8) :
    (s.askDevid h id).2.buffer = s.buffer := by
  cases hd : h.devid <;> simp [PrModbus.askDevid, hd]

@[simp] theorem askDevid_ptr (h : Handler σ) (s : PrModbus σ) (id : UInt8) :
    (s.askDevid h id).2.ptr = s.ptr := by
  cases hd : h.devid <;> simp [PrModbus.askDevid, hd]

theorem stored_objectBytes (s : PrModbus σ) (id : UInt8) (data : List UInt8) :
    s.stored s.ptr (objectBytes id data) =
      ((s.stored s.ptr [id]).stored (s.ptr + 1) [UInt8.ofNat (min data.length 0x40)]).stored
        (s.ptr + 2) (data.take (min data.length 0x40)) := by
  rw [show s.ptr + 1 = s.ptr + [id].length from rfl, PrModbus.stored_stored]
  exact (s.stored_stored s.ptr [id, _] _).symm

theorem putObject_ok (s : PrModbus σ) (id : UInt8) {data : List UInt8}
    (hb : s.ptr + objectSize (some data) ≤ bufferSize) :
    s.putObject id (min data.length 0x40) data = .ok (s.objectStored id data) := by
  have h1 : s.ptr + (min data.length 0x40 + 2) ≤ bufferSize := hb
  unfold PrModbus.putObject
  rw [s.put_byte_ok _ (by omega), bind_ok, PrModbus.put_byte_ok _ _ (by simp; omega), bind_ok,
    PrModbus.put_ok _ (by simp; omega), bind_ok]
  simp only [PrModbus.stored_ptr]
  rw [← stored_objectBytes, PrModbus.get_ok _ (by decide), bind_ok,
    PrModbus.put_byte_ok _ _ (by decide)]
  rfl

theorem putObject_fault (s : PrModbus σ) (id : UInt8) {data : List UInt8}
    (hb : bufferSize < s.ptr + objectSize (some data)) :
    ∃ e, s.putObject id (min data.length 0x40) data = .error (.fault e) := by
  have h1 : bufferSize < s.ptr + (min data.length 0x40 + 2) := hb
  unfold PrModbus.putObject
  -- The first of the three writes that leaves the buffer.
  rcases Nat.lt_or_ge s.ptr bufferSize with h2 | h2
  · rw [s.put_byte_ok _ h2, bind_ok]
    simp only [PrModbus.stored_ptr]
    rcases Nat.lt_or_ge (s.ptr + 1) bufferSize with h3 | h3
    · rw [PrModbus.put_byte_ok _ _ h3, bind_ok]
      have hne : data.take (min data.length 0x40) ≠ [] := by
        intro he
        have h4 := congrArg List.length he
        rw [List.length_take, List.length_nil] at h4
        omega
      refine ⟨⟨max (s.ptr + 2) bufferSize⟩, ?_⟩
      rw [PrModbus.put_fault _ (by simp; omega) hne, bind_error]
      rfl
    · refine ⟨⟨max (s.ptr + 1) bufferSize⟩, ?_⟩
      rw [PrModbus.put_fault _ (Nat.lt_succ_of_le h3) (List.cons_ne_nil _ _), bind_error]
  · refine ⟨⟨max s.ptr bufferSize⟩, ?_⟩
    rw [s.put_fault (Nat.lt_succ_of_le h2) (List.cons_ne_nil _ _), bind_error]

/-- One turn of the loop for one object: what becomes of it depends on what `devid` has answered. -/
theorem devidLoop_succ {h : Handler σ} {last id : UInt8} (fuel : Nat) {s : PrModbus σ}
    (hid : id ≤ last) :
    devidLoop h last (fuel + 1) id s =
      (let asked := (s.askDevid h id).2.stored 6 [id + 1]
      match (h.answer s.app id).1 with
      | none => devidLoop h last fuel (id + 1) asked
      | some data =>
        if spaceLeft s.ptr < min data.length 0x40 then asked.put 6 [id]
        else do
          let s ← asked.putObject id (min data.length 0x40) data
          devidLoop h last fuel (id + 1) s) := by
  rw [devidLoop, if_pos hid]
  simp only [askDevid_fst]
  rw [PrModbus.put_byte_ok _ _ (by decide)]
  exact bind_ok _ _

/-- A turn in which the object is written, or there is none. -/
theorem devidLoop_turn {h : Handler σ} {last id : UInt8} (fuel : Nat) {s : PrModbus σ}
    (hid : id ≤ last) (hbreak : ¬ Breaks s.ptr (h.answer s.app id).1)
    (hb : s.ptr + objectSize (h.answer s.app id).1 ≤ bufferSize) :
    devidLoop h last (fuel + 1) id s = devidLoop h last fuel (id + 1) (turned h id s) := by
  rw [devidLoop_succ fuel hid]
  cases hd : (h.answer s.app id).1 with
  | none => simp only [turned, hd]
  | some data =>
    rw [hd] at hbreak hb
    rw [breaks_some] at hbreak
    simp only
    rw [if_neg hbreak, putObject_ok _ _ (by simpa using hb), bind_ok]
    simp only [turned, hd]

/-- A turn in which the object does not fit ends the loop, and the `Next` field holds the id of that
object. -/
theorem devidLoop_break {h : Handler σ} {last id : UInt8} (fuel : Nat) {s : PrModbus σ}
    (hid : id ≤ last) (hbreak : Breaks s.ptr (h.answer s.app id).1) :
    devidLoop h last (fuel + 1) id s =
      .ok (broken h id s) := by
  rw [devidLoop_succ fuel hid]
  cases hd : (h.answer s.app id).1 with
  | none =>
    rw [hd] at hbreak
    exact hbreak.elim
  | some data =>
    rw [hd, breaks_some] at hbreak
    simp only
    rw [if_pos hbreak, PrModbus.put_byte_ok _ _ (by decide)]
    rfl

/-- A turn in which the object is written over the end of the buffer. -/
theorem devidLoop_fault {h : Handler σ} {last id : UInt8} (fuel : Nat) {s : PrModbus σ}
    (hid : id ≤ last) (hbreak : ¬ Breaks s.ptr (h.answer s.app id).1)
    (hb : bufferSize < s.ptr + objectSize (h.answer s.app id).1) (hs : s.ptr ≤ bufferSize) :
    ∃ e, devidLoop h last (fuel + 1) id s = .error (.fault e) := by
  rw [devidLoop_succ fuel hid]
  cases hd : (h.answer s.app id).1 with
  | none =>
    rw [hd] at hb
    exact absurd hb (Nat.not_lt_of_le hs)
  | some data =>
    rw [hd] at hbreak hb
    rw [breaks_some] at hbreak
    simp only
    rw [if_neg hbreak]
    obtain ⟨e, he⟩ := putObject_fault ((s.askDevid h id).2.stored 6 [id + 1]) id (by simpa using hb)
    exact ⟨e, by rw [he, bind_error]⟩

theorem devidLoop_end (h : Handler σ) {last id : UInt8} (fuel : Nat) (s : PrModbus σ)
    (hid : last < id) : devidLoop h last (fuel + 1) id s = .ok s := by
  rw [devidLoop, if_neg (by rw [UInt8.not_le]; exact hid)]

/-! ## 2. Many turns -/

/-- The application after `k` turns from id `first` on. -/
def appAt (h : Handler σ) (first : UInt8) (app : σ) : Nat → σ
  | 0 => app
  | k + 1 => (h.answer (appAt h first app k) (first + UInt8.ofNat k)).2

def objectAt (h : Handler σ) (first : UInt8) (app : σ) (k : Nat) : Option (List UInt8) :=
  (h.answer (appAt h first app k) (first + UInt8.ofNat k)).1

/-- `ptr` after `k` turns that do not break the loop. -/
def ptrAt (h : Handler σ) (first : UInt8) (app : σ) : Nat → Nat
  | 0 => 8
  | k + 1 => ptrAt h first app k + objectSize (objectAt h first app k)

/-- The state after `k` turns that do not break the loop. -/
def turns (h : Handler σ) (first : UInt8) (s : PrModbus σ) : Nat → PrModbus σ
  | 0 => s
  | k + 1 => turned h (first + UInt8.ofNat k) (turns h first s k)

@[simp] theorem turned_app (h : Handler σ) (id : UInt8) (s : PrModbus σ) :
    (turned h id s).app = (h.answer s.app id).2 := by
  cases hd : (h.answer s.app id).1 <;> simp [turned, hd, PrModbus.objectStored]

@[simp] theorem turned_ptr (h : Handler σ) (id : UInt8) (s : PrModbus σ) :
    (turned h id s).ptr = s.ptr + objectSize (h.answer s.app id).1 := by
  cases hd : (h.answer s.app id).1 <;> simp [turned, hd, PrModbus.objectStored, objectSize]

theorem turns_app (h : Handler σ) (first : UInt8) (s : PrModbus σ) (k : Nat) :
    (turns h first s k).app = appAt h first s.app k := by
  induction k with
  | zero => rfl
  | succ k ih => rw [turns, turned_app, ih, appAt]

theorem turns_ptr (h : Handler σ) (first : UInt8) {s : PrModbus σ} (hs : s.ptr = 8) (k : Nat) :
    (turns h first s k).ptr = ptrAt h first s.app k := by
  induction k with
  | zero => exact hs
  | succ k ih => rw [turns, turned_ptr, ih, turns_app, ptrAt, objectAt]

theorem ptrAt_mono (h : Handler σ) (first : UInt8) (app : σ) {j k : Nat} (hle : j ≤ k) :
    ptrAt h first app j ≤ ptrAt h first app k := by
  induction hle with
  | refl => exact Nat.le_refl _
  | step _ ih => exact Nat.le_trans ih (Nat.le_add_right _ _)

theorem ptrAt_ge (h : Handler σ) (first : UInt8) (app : σ) (k : Nat) :
    8 ≤ ptrAt h first app k :=
  ptrAt_mono h first app (Nat.zero_le k)

/-- Turn `k` writes its object in bounds, or has none. -/
structure Fits (h : Handler σ) (last first : UInt8) (app : σ) (k : Nat) : Prop where
  in_range : first + UInt8.ofNat k ≤ last
  not_breaks : ¬ Breaks (ptrAt h first app k) (objectAt h first app k)
  in_bounds : ptrAt h first app (k + 1) ≤ bufferSize

theorem devidLoop_turns {h : Handler σ} {last first : UInt8} {s : PrModbus σ} (hs : s.ptr = 8)
    {n : Nat} (hfit : ∀ k < n, Fits h last first s.app k) (fuel : Nat) :
    devidLoop h last (fuel + n) first s =
      devidLoop h last fuel (first + UInt8.ofNat n) (turns h first s n) := by
  induction n generalizing fuel with
  | zero => simp [turns]
  | succ n ih =>
    have hn := hfit n (Nat.lt_succ_self n)
    have h1 := ih (fun k hk => hfit k (Nat.lt_succ_of_lt hk)) (fuel + 1)
    rw [show fuel + (n + 1) = fuel + 1 + n from Nat.add_right_comm fuel n 1, h1]
    have h2 := devidLoop_turn (h := h) fuel (s := turns h first s n) hn.in_range
      (by rw [turns_ptr h first hs, turns_app]; exact hn.not_breaks)
      (by rw [turns_ptr h first hs, turns_app]; exact hn.in_bounds)
    rw [h2, turns, UInt8.ofNat_add, UInt8.add_assoc]
    rfl

theorem ptrAt_le {h : Handler σ} {last first : UInt8} {app : σ} {n : Nat}
    (hfit : ∀ k < n, Fits h last first app k) : ptrAt h first app n ≤ bufferSize := by
  cases n with
  | zero =>
    rw [ptrAt]
    decide
  | succ n => exact (hfit n (Nat.lt_succ_self n)).in_bounds

/-- A loop that ends has gone through some turns, and was then broken or came to its
end. -/
theorem devidLoop_inv {h : Handler σ} {last first : UInt8} {s s' : PrModbus σ} (hs : s.ptr = 8)
    {fuel k : Nat} (hfit : ∀ j < k, Fits h last first s.app j)
    (hloop : devidLoop h last fuel (first + UInt8.ofNat k) (turns h first s k) = .ok s') :
    ∃ n, (∀ j < n, Fits h last first s.app j) ∧
      (first + UInt8.ofNat n ≤ last ∧
          Breaks (ptrAt h first s.app n) (objectAt h first s.app n) ∧
          s' = broken h (first + UInt8.ofNat n) (turns h first s n) ∨
        last < first + UInt8.ofNat n ∧ s' = turns h first s n) := by
  induction fuel generalizing k with
  | zero => cases hloop
  | succ fuel ih =>
    have hptr := turns_ptr h first hs k
    have happ := turns_app h first s k
    rcases UInt8.lt_or_le last (first + UInt8.ofNat k) with hid | hid
    · rw [devidLoop_end h fuel _ hid] at hloop
      exact ⟨k, hfit, .inr ⟨hid, (Except.ok.inj hloop).symm⟩⟩
    by_cases hbreak : Breaks (ptrAt h first s.app k) (objectAt h first s.app k)
    · rw [devidLoop_break fuel hid (by rw [hptr, happ]; exact hbreak)] at hloop
      exact ⟨k, hfit, .inl ⟨hid, hbreak, (Except.ok.inj hloop).symm⟩⟩
    rcases Nat.lt_or_ge bufferSize (ptrAt h first s.app (k + 1)) with hb | hb
    · obtain ⟨e, he⟩ := devidLoop_fault (h := h) fuel (s := turns h first s k) hid
        (by rw [hptr, happ]; exact hbreak) (by rw [hptr, happ]; exact hb)
        (by rw [hptr]; exact ptrAt_le hfit)
      rw [he] at hloop
      cases hloop
    · rw [devidLoop_turn fuel hid (by rw [hptr, happ]; exact hbreak)
        (by rw [hptr, happ]; exact hb)] at hloop
      refine @ih (k + 1) (fun j hj => ?_) ?_
      · rcases Nat.lt_succ_iff_lt_or_eq.mp hj with hj | rfl
        · exact hfit j hj
        · exact ⟨hid, hbreak, hb⟩
      · rw [UInt8.ofNat_add, ← UInt8.add_assoc]
        exact hloop

/-! ## 3. Around the loop -/

/-- The buffer holds a device identification request for this unit, with an access
code whose last id is `last`. -/
structure DevidRequest (s : PrModbus σ) (last : UInt8) : Prop where
  addressed : s.buffer 0 = s.addr
  func : s.buffer 1 = readDeviceIdentification
  mei : s.buffer 2 = 0xe
  code : lastObjectId (s.buffer 3) = some last

def pageStart (s : PrModbus σ) : PrModbus σ :=
  { (s.stored 0 [s.addr, readDeviceIdentification]).stored 2 [0xe, s.buffer 3, 0x83, 0, 0, 0] with
    ptr := 8
    rspSize := 0 }

/-- The More and Next fields that are set behind the loop. -/
def moreNext (last : UInt8) (s : PrModbus σ) : PrModbus σ :=
  if s.buffer 6 ≥ last then s.stored 5 [0, 0] else s.stored 5 [0xff]

theorem reqReadDeviceIdentification_loop {h : Handler σ} (fuel : Nat) {s : PrModbus σ}
    {last : UInt8} (hmei : s.buffer 2 = 0xe) (hcode : lastObjectId (s.buffer 3) = some last) :
    reqReadDeviceIdentification h fuel s = (do
      let s ← devidLoop h last fuel (s.buffer 4)
        { s.stored 2 [0xe, s.buffer 3, 0x83, 0, 0, 0] with ptr := 8 }
      .ok (modbusOk, moreNext last s)) := by
  unfold reqReadDeviceIdentification
  rw [s.get_ok (by decide), bind_ok, s.get_ok (by decide), bind_ok, s.get_ok (by decide), bind_ok,
    if_neg (not_not.mpr hmei), hcode]
  simp only
  rw [s.put_ok (by simp [bufferSize]), bind_ok, hmei]
  congr 1
  funext s
  rw [s.get_ok (by decide), bind_ok, moreNext]
  split
  · rw [s.put_ok (by simp [bufferSize]), bind_ok]
  · rw [s.put_ok (by simp [bufferSize]), bind_ok]

theorem busReqSwitch_devid (h : Handler σ) (size fuel : Nat) (s : PrModbus σ) :
    busReqSwitch h size fuel readDeviceIdentification s = reqReadDeviceIdentification h fuel s := by
  rfl

theorem busReqRespond_addressed {h : Handler σ} (size fuel : Nat) {s : PrModbus σ}
    (hs : s.buffer 0 = s.addr) :
    busReqRespond h size fuel s = (do
      let (err, s) ← busReqSwitch h size fuel (s.buffer 1)
        { s.stored 0 [s.addr, s.buffer 1] with ptr := 2, rspSize := 0 }
      let s ← (if err ≠ modbusOk then respondError err s else .ok s : Outcome ..)
      let s ← respond s
      .ok (true, s)) := by
  unfold busReqRespond
  rw [s.get_ok (by decide), bind_ok, s.get_ok (by decide), bind_ok]
  simp only
  rw [if_neg (not_not.mpr hs), PrModbus.put_ok _ (by simp [bufferSize]), bind_ok]
  rfl

theorem busReqRespond_devid {h : Handler σ} (size fuel : Nat) {s : PrModbus σ} {last : UInt8}
    (hs : DevidRequest s last) :
    busReqRespond h size fuel s = (do
      let s ← devidLoop h last fuel (s.buffer 4) (pageStart s)
      let s ← respond (moreNext last s)
      .ok (true, s)) := by
  rw [busReqRespond_addressed size fuel hs.addressed, hs.func, busReqSwitch_devid]
  -- The two bytes written so far are before the ones that are read.
  have hk : ∀ i, 2 ≤ i → store s.buffer 0 [s.addr, readDeviceIdentification] i = s.buffer i :=
    fun i hi => store_apply_of_ge hi
  rw [@reqReadDeviceIdentification_loop _ h fuel _ last (by simpa [hk] using hs.mei)
    (by simpa [hk] using hs.code)]
  simp only [PrModbus.stored_buffer, hk 4 (by decide), hk 3 (by decide)]
  show (devidLoop h last fuel (s.buffer 4) (pageStart s) >>= _) >>= _ = _
  cases devidLoop h last fuel (s.buffer 4) (pageStart s) with
  | error e => rfl
  | ok s' => rfl

end Picore.Modbus
