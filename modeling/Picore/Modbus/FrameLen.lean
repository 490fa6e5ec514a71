import Picore.Lib.Reads
import Picore.Modbus.Protocol

/-!
# What the frame lengths are read from (`src/modbus/modbus.c`)

`modbus_req_frame_len` and `modbus_rsp_frame_len` get the buffer and the number of bytes received
into it. The bytes behind these are left over from earlier frames. Both functions are written
here once more, over a `read` that returns nothing where a byte is not received.

Results:
1. `reqFrameLenRead_all`, `rspFrameLenRead_all`: where every read returns the byte of the buffer,
   they are the functions of the code.
2. `reqFrameLenRead_ne_none`: the length of a request is read from received bytes.
   `rspFrameLenRead_eq_none`: that of a response is not, where the received bytes are `Stray`.
3. `reqFrameLen_mono`, `rspFrameLen_mono`: more bytes do not change a length that is known.
4. `reqFrameLen_congr`, `rspFrameLen_congr`: a length depends on received bytes. `confined_iff`:
   all of this holds exactly where the bytes are not stray.
-/

namespace Picore.Modbus

open Memory Reads

/-! ## The two functions over a read -/

/-- `modbus_req_frame_len`, over `read`. -/
def reqFrameLenRead (read : Nat → Option UInt8) (size : Nat) : Option Nat :=
  if size < 2 then some 0
  else (read 1).bind fun func =>
    if func = readCoils ∨ func = readDiscreteInputs ∨ func = readHoldingRegisters ∨
        func = readInputRegisters ∨ func = writeSingleCoil ∨ func = writeSingleRegister then some 8
    else if func = writeMultipleRegisters ∨ func = writeMultipleCoils then
      if size < 7 then some 0 else (read 6).bind fun byteCount => some (byteCount.toNat + 9)
    else if func = readDeviceIdentification then some 7
    else some 0

/-- The loop over the objects in `modbus_rsp_frame_len`. -/
def objectsLenRead (read : Nat → Option UInt8) (size : Nat) : Nat → Nat → Option Nat
  | 0, point => some point
  | count + 1, point =>
    if size < point + 1 then some 0
    else (read (point + 1)).bind fun len => objectsLenRead read size count (point + len.toNat + 2)

/-- `modbus_rsp_frame_len`, over `read`. -/
def rspFrameLenRead (read : Nat → Option UInt8) (size : Nat) : Option Nat :=
  if size < 2 then some 0
  else (read 1).bind fun func =>
    if func &&& 0x80 ≠ 0 then some 5
    else if func = readCoils ∨ func = readDiscreteInputs ∨ func = readHoldingRegisters ∨
        func = readInputRegisters then
      if size < 5 then some 0 else (read 2).bind fun byteCount => some (byteCount.toNat + 5)
    else if func = writeSingleCoil ∨ func = writeSingleRegister ∨
        func = writeMultipleRegisters ∨ func = writeMultipleCoils then some 8
    else if func = readDeviceIdentification then
      if size < 7 then some 0
      else (read 7).bind fun objectCount => objectsLenRead read size objectCount.toNat 8
    else some 0

def withPast (past : UInt8) (data : Mem UInt8) : Mem UInt8 :=
  fun i => if i < 256 then data i else past

/-- Where the `k`-th of the objects from `point` on begins. Its second byte is the length of the
rest. -/
def objectFrom (data : Mem UInt8) : Nat → Nat → Nat
  | 0, point => point
  | k + 1, point => objectFrom data k (point + (data (point + 1)).toNat + 2)

/-- The received bytes begin a device identification response and end right before the number
of objects, or right before the length of an object. -/
def Stray (data : Mem UInt8) (size : Nat) : Prop :=
  data 1 = readDeviceIdentification ∧
    (size = 7 ∨ ∃ k < (data 7).toNat, size = objectFrom data k 8 + 1)

theorem le_objectFrom (data : Mem UInt8) (k point : Nat) : point ≤ objectFrom data k point := by
  induction k generalizing point with
  | zero => exact Nat.le_refl point
  | succ k ih => exact Nat.le_trans (by omega) (ih _)

theorem Stray.seven_le {data : Mem UInt8} {size : Nat} (h : Stray data size) : 7 ≤ size := by
  rcases h.2 with h7 | ⟨k, -, hk⟩
  · exact Nat.le_of_eq h7.symm
  · rw [hk]
    exact Nat.le_trans (by decide) (Nat.succ_le_succ (le_objectFrom data k 8))

/-- The frame lengths of a buffer of which `size` bytes are received depend on these bytes. -/
structure Confined (past : UInt8) (data : Mem UInt8) (size : Nat) : Prop where
  /-- Every buffer with these bytes has the same lengths, whatever is behind it. -/
  reqSame : ∀ data' : Mem UInt8, (∀ i < size, data i = data' i) →
    modbusReqFrameLen data' size = modbusReqFrameLen data size
  rspSame : ∀ (past' : UInt8) (data' : Mem UInt8), (∀ i < size, data i = data' i) →
    modbusRspFrameLen past' data' size = modbusRspFrameLen past data size
  /-- No other byte is read. -/
  reqRead : reqFrameLenRead (known data size) size ≠ none
  rspRead : rspFrameLenRead (known data size) size ≠ none
  /-- A length that is known does not change with more bytes. -/
  reqKept : ∀ t, size ≤ t → t ≤ 256 → modbusReqFrameLen data size ≠ 0 →
    modbusReqFrameLen data t = modbusReqFrameLen data size
  rspKept : ∀ t, size ≤ t → t ≤ 256 → modbusRspFrameLen past data size ≠ 0 →
    modbusRspFrameLen past data t = modbusRspFrameLen past data size

namespace FrameLenLemmas

variable {past : UInt8} {data : Mem UInt8} {size : Nat}

/-! ## 1. The functions of the code -/

theorem reqFrameLenRead_all (data : Mem UInt8) (size : Nat) :
    reqFrameLenRead (all data) size = some (modbusReqFrameLen data size) := by
  simp only [reqFrameLenRead, modbusReqFrameLen, all, Option.bind_some, apply_ite some]

theorem objectsLenRead_all (past : UInt8) (data : Mem UInt8) (size count point : Nat) :
    objectsLenRead (all (withPast past data)) size count point =
      some (objectsLen past data size count point) := by
  induction count generalizing point with
  | zero => rfl
  | succ count ih =>
    rw [objectsLenRead, objectsLen, apply_ite some, ← ih]
    rfl

theorem rspFrameLenRead_all (past : UInt8) (data : Mem UInt8) (size : Nat) :
    rspFrameLenRead (all (withPast past data)) size = some (modbusRspFrameLen past data size) := by
  have hfront (i : Nat) (hi : i < 256) : all (withPast past data) i = some (data i) :=
    congrArg some (if_pos hi)
  simp only [rspFrameLenRead, modbusRspFrameLen, hfront 1 (by decide), hfront 2 (by decide),
    hfront 7 (by decide), Option.bind_some, objectsLenRead_all, apply_ite some]

/-! ## 2. The bytes that are read -/

theorem settled_reqFrameLenRead (size : Nat) : Settled (reqFrameLenRead · size) := by
  refine .ite (.some _) (.bind (.read 1) fun func => ?_)
  refine .ite (.some _) (.ite ?_ (.ite (.some _) (.some _)))
  exact .ite (.some _) (.bind (.read 6) fun _ => .some _)

theorem settled_objectsLenRead (size count point : Nat) :
    Settled (objectsLenRead · size count point) := by
  induction count generalizing point with
  | zero => exact .some _
  | succ count ih => exact .ite (.some _) (.bind (.read (point + 1)) fun _ => ih _)

theorem settled_rspFrameLenRead (size : Nat) : Settled (rspFrameLenRead · size) := by
  refine .ite (.some _) (.bind (.read 1) fun func => ?_)
  refine .ite (.some _) (.ite ?_ (.ite (.some _) (.ite ?_ (.some _))))
  · exact .ite (.some _) (.bind (.read 2) fun _ => .some _)
  · exact .ite (.some _) (.bind (.read 7) fun _ => settled_objectsLenRead size _ 8)

theorem known_withPast (past : UInt8) (data : Mem UInt8) (hsize : size ≤ 256) :
    known (withPast past data) size = known data size :=
  known_congr fun _ hi => if_pos (Nat.lt_of_lt_of_le hi hsize)

/-- A byte is received if the size has been tested for one behind it. -/
theorem known_of_test {least i : Nat} (h : ¬ size < least) (hi : i < least) :
    known data size i = some (data i) :=
  known_of_lt (Nat.lt_of_lt_of_le hi (Nat.not_lt.1 h))

/-- The length of a request is read from received bytes. -/
theorem reqFrameLenRead_ne_none (data : Mem UInt8) (size : Nat) :
    reqFrameLenRead (known data size) size ≠ none := by
  rw [reqFrameLenRead]
  split
  · exact Option.some_ne_none 0
  rename_i h2
  rw [known_of_test h2 (by decide), Option.bind_some]
  split
  · exact Option.some_ne_none 8
  split
  · split
    · exact Option.some_ne_none 0
    · rename_i h7
      rw [known_of_test h7 (by decide)]
      exact Option.some_ne_none _
  split
  · exact Option.some_ne_none 7
  · exact Option.some_ne_none 0

/-- The loop reads past the received bytes where these end before the length of an object. -/
theorem objectsLenRead_eq_none (count point : Nat) :
    objectsLenRead (known data size) size count point = none ↔
      ∃ k < count, size = objectFrom data k point + 1 := by
  induction count generalizing point with
  | zero => simp [objectsLenRead]
  | succ count ih =>
    rw [objectsLenRead, Nat.exists_lt_succ_left]
    rcases Nat.lt_trichotomy size (point + 1) with hlt | heq | hgt
    · -- The loop ends at this object.
      have hle (k p : Nat) (hp : point ≤ p) : size ≠ objectFrom data k p + 1 :=
        Nat.ne_of_lt (Nat.lt_of_lt_of_le hlt
          (Nat.succ_le_succ (Nat.le_trans hp (le_objectFrom data k p))))
      rw [if_pos hlt]
      refine iff_of_false (Option.some_ne_none 0) ?_
      rintro (h | ⟨k, -, h⟩)
      · exact hle 0 point (Nat.le_refl point) h
      · exact hle k _ (by omega) h
    · rw [if_neg (Nat.not_lt.2 (Nat.le_of_eq heq.symm)), known_of_ge (Nat.le_of_eq heq)]
      exact iff_of_true rfl (.inl heq)
    · have hne : size ≠ objectFrom data 0 point + 1 := Nat.ne_of_gt hgt
      rw [if_neg (Nat.not_lt.2 (Nat.le_of_lt hgt)), known_of_lt hgt, Option.bind_some, ih]
      exact (or_iff_right hne).symm

theorem rspFrameLenRead_other (hfunc : data 1 ≠ readDeviceIdentification) :
    rspFrameLenRead (known data size) size ≠ none := by
  rw [rspFrameLenRead]
  split
  · exact Option.some_ne_none 0
  rename_i h2
  rw [known_of_test h2 (by decide), Option.bind_some]
  split
  · exact Option.some_ne_none 5
  split
  · split
    · exact Option.some_ne_none 0
    · rename_i h5
      rw [known_of_test h5 (by decide)]
      exact Option.some_ne_none _
  split
  · exact Option.some_ne_none 8
  · exact Option.some_ne_none 0

/-- A device identification response is read from its eighth byte on. -/
theorem rspFrameLenRead_devid (hfunc : data 1 = readDeviceIdentification) (h7 : 7 ≤ size) :
    rspFrameLenRead (known data size) size =
      (known data size 7).bind fun objectCount =>
        objectsLenRead (known data size) size objectCount.toNat 8 := by
  have h1 : 1 < size := Nat.lt_of_lt_of_le (by decide) h7
  rw [rspFrameLenRead, if_neg (Nat.not_lt.2 h1), known_of_lt h1, Option.bind_some, hfunc,
    if_neg (by decide), if_neg (by decide), if_neg (by decide), if_pos rfl,
    if_neg (Nat.not_lt.2 h7)]

/-- The length of a response is read from a byte that is not received where the bytes are
stray. -/
theorem rspFrameLenRead_eq_none :
    rspFrameLenRead (known data size) size = none ↔ Stray data size := by
  by_cases hfunc : data 1 = readDeviceIdentification
  swap
  · exact iff_of_false (rspFrameLenRead_other hfunc) fun h => hfunc h.1
  rcases Nat.lt_trichotomy size 7 with hlt | rfl | hgt
  · -- The function code decides, or the function waits for it.
    refine iff_of_false ?_ fun h => absurd h.seven_le (Nat.not_le.2 hlt)
    rw [rspFrameLenRead]
    split
    · exact Option.some_ne_none 0
    · rename_i h2
      rw [known_of_test h2 (by decide), Option.bind_some, hfunc, if_neg (by decide),
        if_neg (by decide), if_neg (by decide), if_pos rfl]
      exact Option.some_ne_none 0
  · rw [rspFrameLenRead_devid hfunc (Nat.le_refl 7), known_of_ge (Nat.le_refl 7)]
    exact iff_of_true rfl ⟨hfunc, .inl rfl⟩
  · rw [rspFrameLenRead_devid hfunc (Nat.le_of_lt hgt), known_of_lt hgt, Option.bind_some,
      objectsLenRead_eq_none, Stray, and_iff_right hfunc, or_iff_right (Nat.ne_of_gt hgt)]

/-! ## 3. More bytes -/

/-- A test that is passed with fewer bytes is passed with more. -/
theorem size_test {j k least : Nat} (hle : j ≤ k) (hj : ¬ j < least) : ¬ k < least :=
  fun hk => hj (Nat.lt_of_le_of_lt hle hk)

theorem objectsLen_mono {j k : Nat} (hle : j ≤ k) (count point : Nat)
    (h : objectsLen past data j count point ≠ 0) :
    objectsLen past data k count point = objectsLen past data j count point := by
  induction count generalizing point with
  | zero => rfl
  | succ count ih =>
    rw [objectsLen] at h ⊢
    split at h
    · exact absurd rfl h
    · rename_i hj
      rw [objectsLen, if_neg hj, if_neg (size_test hle hj)]
      exact ih _ h

end FrameLenLemmas

open FrameLenLemmas

/-- More bytes do not change the length of a request once it is known. -/
theorem reqFrameLen_mono {m : Mem UInt8} {j k : Nat} (hle : j ≤ k)
    (h : modbusReqFrameLen m j ≠ 0) : modbusReqFrameLen m k = modbusReqFrameLen m j := by
  unfold modbusReqFrameLen at h ⊢
  split at h
  · exact absurd rfl h
  rename_i h2
  rw [if_neg (size_test hle h2), if_neg h2]
  split
  · rfl
  rename_i hfixed
  rw [if_neg hfixed] at h
  split
  · rename_i hwrite
    rw [if_pos hwrite] at h
    split at h
    · exact absurd rfl h
    · rename_i h7
      rw [if_neg (size_test hle h7), if_neg h7]
  · rfl

/-- More bytes do not change the length of a response once it is known. -/
theorem rspFrameLen_mono {past : UInt8} {m : Mem UInt8} {j k : Nat} (hle : j ≤ k)
    (h : modbusRspFrameLen past m j ≠ 0) :
    modbusRspFrameLen past m k = modbusRspFrameLen past m j := by
  unfold modbusRspFrameLen at h ⊢
  split at h
  · exact absurd rfl h
  rename_i h2
  rw [if_neg (size_test hle h2), if_neg h2]
  split
  · rfl
  rename_i herr
  rw [if_neg herr] at h
  split
  · rename_i hread
    rw [if_pos hread] at h
    split at h
    · exact absurd rfl h
    · rename_i h5
      rw [if_neg (size_test hle h5), if_neg h5]
  rename_i hread
  rw [if_neg hread] at h
  split
  · rfl
  rename_i hwrite
  rw [if_neg hwrite] at h
  split
  · rename_i hfunc
    rw [if_pos hfunc] at h
    split at h
    · exact absurd rfl h
    · rename_i h7
      rw [if_neg (size_test hle h7), if_neg h7]
      exact objectsLen_mono hle _ 8 h
  · rfl

/-! ## 4. Received bytes -/

/-- `modbus_req_frame_len` depends on the received bytes only. -/
theorem reqFrameLen_congr {m m' : Mem UInt8} {size : Nat} (h : ∀ i < size, m i = m' i) :
    modbusReqFrameLen m size = modbusReqFrameLen m' size := by
  have hread := (settled_reqFrameLenRead size).congr h (reqFrameLenRead_ne_none m size)
  rw [reqFrameLenRead_all, reqFrameLenRead_all] at hread
  exact (Option.some.inj hread).symm

/-- `modbus_rsp_frame_len` depends on the received bytes only, unless they are `Stray`: then it
reads the byte behind them. -/
theorem rspFrameLen_congr (past past' : UInt8) {m m' : Mem UInt8} {size : Nat}
    (hsize : size ≤ 256) (h : ∀ i < size, m i = m' i) (hstray : ¬ Stray m size) :
    modbusRspFrameLen past m size = modbusRspFrameLen past' m' size := by
  have hsame (i : Nat) (hi : i < size) : withPast past m i = withPast past' m' i := by
    have hi256 : i < 256 := Nat.lt_of_lt_of_le hi hsize
    rw [withPast, if_pos hi256, withPast, if_pos hi256, h i hi]
  have hsome := mt rspFrameLenRead_eq_none.1 hstray
  rw [← known_withPast past m hsize] at hsome
  have hread := (settled_rspFrameLenRead size).congr hsame hsome
  rw [rspFrameLenRead_all, rspFrameLenRead_all] at hread
  exact (Option.some.inj hread).symm

/-- The frame lengths depend on received bytes, exactly where these are not stray. Before it reads a
length, `modbus_rsp_frame_len` tests the size against an index that is one too small. -/
theorem confined_iff {past : UInt8} {data : Mem UInt8} {size : Nat} (hsize : size ≤ 256) :
    Confined past data size ↔ ¬ Stray data size :=
  ⟨fun h hstray => h.rspRead (rspFrameLenRead_eq_none.2 hstray), fun h =>
    { reqSame := fun _ hsame => (reqFrameLen_congr hsame).symm
      rspSame := fun past' _ hsame => (rspFrameLen_congr past past' hsize hsame h).symm
      reqRead := reqFrameLenRead_ne_none data size
      rspRead := mt rspFrameLenRead_eq_none.1 h
      reqKept := fun _ hle _ hne => reqFrameLen_mono hle hne
      rspKept := fun _ hle _ hne => rspFrameLen_mono hle hne }⟩

/-- Seven bytes of a device identification response without objects, and a byte of an earlier
frame. -/
def sevenOfDevid (stale : UInt8) : Mem UInt8 :=
  store (fun _ => 0) 0 [1, readDeviceIdentification, 0x0e, 1, 1, 0, 0, stale]

theorem confined_iff_eightOfDevid : 8 ≤ 256 ∧
    (Confined 0 (sevenOfDevid 3) 8 ↔ ¬ Stray (sevenOfDevid 3) 8) :=
  ⟨by decide, confined_iff (by decide)⟩

/-- The length of a response of which seven bytes are received is read from the eighth. -/
theorem sevenOfDevid_not_confined :
    (∀ i < 7, sevenOfDevid 0 i = sevenOfDevid 1 i) ∧
      modbusRspFrameLen 0 (sevenOfDevid 0) 7 = 8 ∧ modbusRspFrameLen 0 (sevenOfDevid 1) 7 = 0 ∧
      ¬ Confined 0 (sevenOfDevid 0) 7 := by
  have hsame : ∀ i < 7, sevenOfDevid 0 i = sevenOfDevid 1 i := by decide
  refine ⟨hsame, by decide, by decide, fun h => ?_⟩
  exact absurd (h.rspSame 0 (sevenOfDevid 1) hsame) (by decide)

end Picore.Modbus
