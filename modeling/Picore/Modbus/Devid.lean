import Picore.Modbus.Safety

/-!
# One page of a device identification

The response to a device identification request, as the client reads it. For an
application with given objects, these are the pages that can end somewhere.

Results:
1. `turns_holds`: the objects that the loop has written into the response.
2. `parsePage_load`, `parseObjects_objects`: the client reads what was written.
3. `responds_iff`: the pages that a unit answers with.
-/

namespace Picore.Modbus

open Memory Fuel

variable {σ : Type}

/-! ## 1. The client -/

/-- The objects of an application, none of which is empty or cut off in a response. -/
structure Catalogue where
  object : UInt8 → Option (List UInt8)
  length_pos : ∀ id data, object id = some data → 0 < data.length
  length_le : ∀ id data, object id = some data → data.length ≤ 0x40

/-- The callback answers with the objects of a catalogue, whatever state the
application is in. -/
def Serves (h : Handler σ) (c : Catalogue) : Prop :=
  ∀ app id, (h.answer app id).1 = c.object id

/-- A response to a request for identification objects, as the client reads it: whether more follow
and from which object on, and the objects with their values. -/
structure Page where
  more : UInt8
  next : UInt8
  count : UInt8
  objects : List (UInt8 × List UInt8)

def parseObjects : List UInt8 → Option (List (UInt8 × List UInt8))
  | [] => some []
  | [_] => none
  | id :: len :: rest =>
    if len.toNat ≤ rest.length then
      (parseObjects (rest.drop len.toNat)).map ((id, rest.take len.toNat) :: ·)
    else none
termination_by bytes => bytes.length
decreasing_by
  simp only [List.length_drop, List.length_cons]
  omega

/-- A response, with two bytes of CRC at its end. -/
def parsePage (rsp : List UInt8) : Option Page := do
  let more ← rsp[5]?
  let next ← rsp[6]?
  let count ← rsp[7]?
  let objects ← parseObjects ((rsp.drop 8).take (rsp.length - 10))
  some ⟨more, next, count, objects⟩

/-- The request for the identification objects of an access code, from `id` on. -/
def devidRequest (addr code id : UInt8) : List UInt8 :=
  withCrc [addr, readDeviceIdentification, 0xe, code, id]

/-- A frame is received over what was in the buffer before. -/
def PrModbus.receives (s : PrModbus σ) (frame : List UInt8) : PrModbus σ :=
  { s.stored 0 frame with ptr := frame.length }

/-- The unit answers the request for the objects from `id` on with `page`. -/
def Responds (h : Handler σ) (code : UInt8) (s : PrModbus σ) (id : UInt8) (s' : PrModbus σ)
    (page : Page) : Prop :=
  ∃ fuel, busReqRespond h 7 fuel (s.receives (devidRequest s.addr code id)) = .ok (true, s') ∧
    parsePage (load s'.buffer 0 s'.rspSize) = some page

/-- The `n` objects from `id` on, less those there are not. -/
def objectsFrom (c : Catalogue) (id n : Nat) : List (UInt8 × List UInt8) :=
  (List.range' id n).filterMap fun i =>
    (c.object (UInt8.ofNat i)).map fun data => (UInt8.ofNat i, data)

/-! ## 2. One page -/

/-- `ptr` after the turns for `n` ids from `id` on, on one page. -/
def pagePtr (c : Catalogue) (id : Nat) : Nat → Nat
  | 0 => 8
  | n + 1 => pagePtr c id n + objectSize (c.object (UInt8.ofNat (id + n)))

/-- A page can end after `n` turns from `id` on: their objects leave room for the CRC,
and the next one does not fit or there is none. -/
structure PageEnds (c : Catalogue) (last : UInt8) (id n : Nat) : Prop where
  in_range : ∀ k < n, UInt8.ofNat (id + k) ≤ last
  room : pagePtr c id n ≤ 254
  ends : UInt8.ofNat (id + n) ≤ last ∧ pagePtr c id n ≤ 252 ∧ 254 < pagePtr c id (n + 1) ∨
    last < UInt8.ofNat (id + n)

/-- The page with these objects, when `next` is what the loop leaves in Next. -/
def pageOf (last next : UInt8) (objects : List (UInt8 × List UInt8)) : Page :=
  if next ≥ last then ⟨0, 0, UInt8.ofNat objects.length, objects⟩
  else ⟨0xff, next, UInt8.ofNat objects.length, objects⟩

namespace DevidLemmas

theorem objectSize_some {c : Catalogue} {id : UInt8} {data : List UInt8}
    (h : c.object id = some data) : objectSize (some data) = data.length + 2 := by
  rw [objectSize, Nat.min_eq_left (c.length_le id data h)]

/-- The object with this id, if there is one. -/
def found (c : Catalogue) (id : UInt8) : List (UInt8 × List UInt8) :=
  ((c.object id).map fun data => (id, data)).toList

theorem objectsFrom_succ (c : Catalogue) (id n : Nat) :
    objectsFrom c id (n + 1) = objectsFrom c id n ++ found c (UInt8.ofNat (id + n)) := by
  rw [objectsFrom, List.range'_concat, List.filterMap_append, Nat.one_mul]
  congr 1

theorem objectsFrom_add (c : Catalogue) (id m n : Nat) :
    objectsFrom c id (m + n) = objectsFrom c id m ++ objectsFrom c (id + m) n := by
  rw [objectsFrom, ← List.range'_append_1, List.filterMap_append]
  rfl

theorem mem_objectsFrom {c : Catalogue} {id n : Nat} {object : UInt8 × List UInt8}
    (h : object ∈ objectsFrom c id n) : c.object object.1 = some object.2 := by
  obtain ⟨i, -, hi⟩ := List.mem_filterMap.mp h
  obtain ⟨data, hdata, rfl⟩ := Option.map_eq_some_iff.mp hi
  exact hdata

theorem ptrAt_eq {h : Handler σ} {c : Catalogue} (hserves : Serves h c) (id : Nat) (app : σ)
    (n : Nat) : ptrAt h (UInt8.ofNat id) app n = pagePtr c id n := by
  induction n with
  | zero => rfl
  | succ n ih => rw [ptrAt, pagePtr, ih, objectAt, hserves, UInt8.ofNat_add]

theorem objectAt_eq {h : Handler σ} {c : Catalogue} (hserves : Serves h c) (id : Nat) (app : σ)
    (n : Nat) : objectAt h (UInt8.ofNat id) app n = c.object (UInt8.ofNat (id + n)) := by
  rw [objectAt, hserves, UInt8.ofNat_add]

theorem pagePtr_mono (c : Catalogue) (id : Nat) {m n : Nat} (hle : m ≤ n) :
    pagePtr c id m ≤ pagePtr c id n := by
  induction hle with
  | refl => exact Nat.le_refl _
  | step _ ih => exact Nat.le_trans ih (Nat.le_add_right _ _)

/-! ### The bytes of a page -/

/-- The response holds these objects so far, and counts them. -/
structure HoldsObjects (s : PrModbus σ) (objects : List (UInt8 × List UInt8)) : Prop where
  ptr : s.ptr = 8 + (objects.flatMap fun o => objectBytes o.1 o.2).length
  bytes : load s.buffer 8 (s.ptr - 8) = objects.flatMap fun o => objectBytes o.1 o.2
  count : s.buffer 7 = UInt8.ofNat objects.length

/-- Writes to the header before the count leave the objects as they are. -/
theorem HoldsObjects.stored {s : PrModbus σ} {objects : List (UInt8 × List UInt8)}
    (hs : HoldsObjects s objects) {i : Nat} {bytes : List UInt8} (hi : i + bytes.length ≤ 7) :
    HoldsObjects (s.stored i bytes) objects where
  ptr := hs.ptr
  bytes := by
    rw [PrModbus.stored_buffer, PrModbus.stored_ptr, load_store_disjoint (.inr (by omega)),
      hs.bytes]
  count := by rw [PrModbus.stored_buffer, store_apply_of_ge hi, hs.count]

theorem HoldsObjects.asked {h : Handler σ} {s : PrModbus σ}
    {objects : List (UInt8 × List UInt8)} (hs : HoldsObjects s objects) (id : UInt8) :
    HoldsObjects (s.askDevid h id).2 objects where
  ptr := by rw [askDevid_ptr, hs.ptr]
  bytes := by rw [askDevid_buffer, askDevid_ptr, hs.bytes]
  count := by rw [askDevid_buffer, hs.count]

theorem HoldsObjects.objectStored {s : PrModbus σ} {objects : List (UInt8 × List UInt8)}
    (hs : HoldsObjects s objects) (id : UInt8) (data : List UInt8) :
    HoldsObjects (s.objectStored id data) (objects ++ [(id, data)]) where
  ptr := by simp [PrModbus.objectStored, hs.ptr, Nat.add_assoc]
  bytes := by
    have hptr : s.ptr = 8 + (s.ptr - 8) := by
      have h1 := hs.ptr
      omega
    have hlen : s.ptr + objectSize (some data) - 8 = s.ptr - 8 + objectSize (some data) := by
      omega
    show load (store (store s.buffer s.ptr (objectBytes id data)) 7 _) 8
      (s.ptr + objectSize (some data) - 8) = _
    rw [load_store_disjoint (.inr (Nat.le_refl 8)), hlen, load_append, ← hptr,
      load_store_disjoint (.inl (Nat.le_of_eq hptr.symm)), hs.bytes,
      ← length_objectBytes id data, load_store_self, List.flatMap_append, List.flatMap_singleton]
  count := by
    have hptr : 7 < s.ptr := by
      have h1 := hs.ptr
      omega
    show store (store s.buffer s.ptr (objectBytes id data)) 7
      [store s.buffer s.ptr (objectBytes id data) 7 + 1] 7 = _
    rw [store_cell, store_apply_of_lt hptr, hs.count, List.length_append, UInt8.ofNat_add]
    rfl

theorem turned_holds {h : Handler σ} {c : Catalogue} (hserves : Serves h c) {s : PrModbus σ}
    {objects : List (UInt8 × List UInt8)} (hs : HoldsObjects s objects) (id : UInt8) :
    HoldsObjects (turned h id s) (objects ++ found c id) := by
  have hd : (h.answer s.app id).1 = c.object id := hserves s.app id
  have hasked : HoldsObjects ((s.askDevid h id).2.stored 6 [id + 1]) objects :=
    (hs.asked id).stored (Nat.le_refl 7)
  cases hc : c.object id with
  | none =>
    rw [turned, hd, hc, found, hc]
    simpa using hasked
  | some data =>
    rw [turned, hd, hc, found, hc]
    exact hasked.objectStored id data

theorem objectStored_low (s : PrModbus σ) (id : UInt8) (data : List UInt8) {i : Nat}
    (hi : i < 7) (hs : i < s.ptr) : (s.objectStored id data).buffer i = s.buffer i := by
  show store (store s.buffer s.ptr (objectBytes id data)) 7
    [store s.buffer s.ptr (objectBytes id data) 7 + 1] i = _
  rw [store_apply_of_lt hi, store_apply_of_lt hs]

theorem turned_next (h : Handler σ) (id : UInt8) {s : PrModbus σ} (hs : 8 ≤ s.ptr) :
    (turned h id s).buffer 6 = id + 1 := by
  have h6 : ((s.askDevid h id).2.stored 6 [id + 1]).buffer 6 = id + 1 := by
    rw [PrModbus.stored_buffer, store_cell]
  cases hd : (h.answer s.app id).1 with
  | none =>
    rw [turned, hd]
    exact h6
  | some data =>
    rw [turned, hd]
    refine (objectStored_low _ id data (by decide) ?_).trans h6
    rw [PrModbus.stored_ptr, askDevid_ptr]
    exact Nat.lt_of_lt_of_le (by decide) hs

theorem turns_holds {h : Handler σ} {c : Catalogue} (hserves : Serves h c) {s : PrModbus σ}
    (hs : HoldsObjects s []) (id n : Nat) :
    HoldsObjects (turns h (UInt8.ofNat id) s n) (objectsFrom c id n) := by
  induction n with
  | zero => exact hs
  | succ n ih =>
    rw [turns, ← UInt8.ofNat_add, objectsFrom_succ]
    exact turned_holds hserves ih _

theorem turns_next (h : Handler σ) (id : Nat) {s : PrModbus σ} (hs : s.ptr = 8) {n : Nat}
    (hn : 0 < n) : (turns h (UInt8.ofNat id) s n).buffer 6 = UInt8.ofNat (id + n) := by
  cases n with
  | zero => exact absurd hn (Nat.lt_irrefl 0)
  | succ n =>
    rw [turns, turned_next h _ (by rw [turns_ptr h _ hs]; exact ptrAt_ge h _ _ _), ← Nat.add_assoc,
      UInt8.ofNat_add (id + n), UInt8.ofNat_add id]
    rfl

theorem broken_holds (h : Handler σ) {s : PrModbus σ} {objects : List (UInt8 × List UInt8)}
    (hs : HoldsObjects s objects) (id : UInt8) : HoldsObjects (broken h id s) objects :=
  ((hs.asked id).stored (Nat.le_refl 7)).stored (Nat.le_refl 7)

theorem broken_next (h : Handler σ) (s : PrModbus σ) (id : UInt8) :
    (broken h id s).buffer 6 = id := by
  rw [broken, PrModbus.stored_buffer, store_cell]

theorem broken_ptr (h : Handler σ) (s : PrModbus σ) (id : UInt8) :
    (broken h id s).ptr = s.ptr := by
  rw [broken, PrModbus.stored_ptr, PrModbus.stored_ptr, askDevid_ptr]

/-! ### The client reads what is there -/

theorem parseObjects_objects {objects : List (UInt8 × List UInt8)}
    (hlen : ∀ o ∈ objects, o.2.length ≤ 0x40) :
    parseObjects (objects.flatMap fun o => objectBytes o.1 o.2) = some objects := by
  induction objects with
  | nil => rw [List.flatMap_nil, parseObjects]
  | cons o objects ih =>
    have h1 : o.2.length ≤ 0x40 := hlen o List.mem_cons_self
    have h2 : (UInt8.ofNat o.2.length).toNat = o.2.length := by
      rw [UInt8.toNat_ofNat']
      omega
    rw [List.flatMap_cons, objectBytes, Nat.min_eq_left h1, List.take_length]
    simp only [List.cons_append]
    rw [parseObjects, h2, if_pos (by simp), List.drop_left, List.take_left,
      ih fun o ho => hlen o (List.mem_cons_of_mem _ ho)]
    rfl

theorem parsePage_load (m : Mem UInt8) {ptr : Nat} (h : 8 ≤ ptr) :
    parsePage (load m 0 (ptr + 2)) =
      (parseObjects (load m 8 (ptr - 8))).map fun objects => ⟨m 5, m 6, m 7, objects⟩ := by
  have hpayload : ((load m 0 (ptr + 2)).drop 8).take ((load m 0 (ptr + 2)).length - 10) =
      load m 8 (ptr - 8) := by
    rw [load_drop m (by omega), length_load, load_take m (by omega)]
    congr 1
  rw [parsePage, load_getElem? m (by omega), load_getElem? m (by omega),
    load_getElem? m (by omega), hpayload]
  cases parseObjects (load m 8 (ptr - 8)) <;> rfl

/-! ### The response -/

theorem respond_page {s : PrModbus σ} {objects : List (UInt8 × List UInt8)}
    (hs : HoldsObjects s objects) (hlen : ∀ o ∈ objects, o.2.length ≤ 0x40) (hptr : s.ptr ≤ 254)
    (last : UInt8) :
    ∃ s', respond (moreNext last s) = .ok s' ∧
      parsePage (load s'.buffer 0 s'.rspSize) = some (pageOf last (s.buffer 6) objects) := by
  have hm : HoldsObjects (moreNext last s) objects := by
    unfold moreNext
    split
    · exact hs.stored (by decide)
    · exact hs.stored (by decide)
  have hptr8 : 8 ≤ (moreNext last s).ptr := by
    rw [hm.ptr]
    exact Nat.le_add_right 8 _
  refine ⟨_, respond_ok (by rwa [moreNext_ptr]), ?_⟩
  show parsePage (load (store _ (moreNext last s).ptr _) 0 ((moreNext last s).ptr + 2)) = _
  rw [parsePage_load _ hptr8, load_store_disjoint (.inl (by omega)), hm.bytes,
    parseObjects_objects hlen, store_apply_of_lt (by omega), store_apply_of_lt (by omega),
    store_apply_of_lt (by omega), hm.count]
  unfold moreNext pageOf
  split
  · simp [store]
  · simp [store]

theorem pageStart_holds (s : PrModbus σ) : HoldsObjects (pageStart s) [] where
  ptr := rfl
  bytes := rfl
  count := by simp [pageStart, store]

theorem receives_buffer (s : PrModbus σ) (code id : UInt8) {i : Nat} (hi : i < 5) :
    (s.receives (devidRequest s.addr code id)).buffer i =
      store s.buffer 0 [s.addr, readDeviceIdentification, 0xe, code, id] i := by
  show store s.buffer 0 (_ ++ _) i = _
  rw [store_append, store_apply_of_lt (by simpa using hi)]

theorem receives_request (s : PrModbus σ) {code last : UInt8} (id : UInt8)
    (hcode : lastObjectId code = some last) :
    DevidRequest (s.receives (devidRequest s.addr code id)) last where
  addressed := receives_buffer s code id (by decide)
  func := receives_buffer s code id (by decide)
  mei := receives_buffer s code id (by decide)
  code := by
    rw [receives_buffer s code id (by decide)]
    exact hcode

theorem receives_id (s : PrModbus σ) (code id : UInt8) :
    (s.receives (devidRequest s.addr code id)).buffer 4 = id :=
  receives_buffer s code id (by decide)

/-! ### Where a page ends -/

/-- The state after the loop, when the page ends after `n` turns from `id` on. -/
def endState (h : Handler σ) (last : UInt8) (id : Nat) (s : PrModbus σ) (n : Nat) : PrModbus σ :=
  if UInt8.ofNat (id + n) ≤ last then
    broken h (UInt8.ofNat (id + n)) (turns h (UInt8.ofNat id) s n)
  else turns h (UInt8.ofNat id) s n

theorem endState_holds {h : Handler σ} {c : Catalogue} (hserves : Serves h c) {s : PrModbus σ}
    (hs : HoldsObjects s []) (last : UInt8) (id n : Nat) :
    HoldsObjects (endState h last id s n) (objectsFrom c id n) := by
  have h1 := turns_holds hserves hs id n
  unfold endState
  split
  · exact broken_holds h h1 _
  · exact h1

theorem endState_next (h : Handler σ) {last : UInt8} {id : Nat} (hid : UInt8.ofNat id ≤ last)
    {s : PrModbus σ} (hs : s.ptr = 8) (n : Nat) :
    (endState h last id s n).buffer 6 = UInt8.ofNat (id + n) := by
  unfold endState
  split
  · exact broken_next h _ _
  · rename_i hend
    refine turns_next h id hs (Nat.pos_of_ne_zero ?_)
    rintro rfl
    exact hend hid

theorem endState_ptr {h : Handler σ} {c : Catalogue} (hserves : Serves h c) (last : UInt8)
    (id : Nat) {s : PrModbus σ} (hs : s.ptr = 8) (n : Nat) :
    (endState h last id s n).ptr = pagePtr c id n := by
  have h1 : (turns h (UInt8.ofNat id) s n).ptr = pagePtr c id n := by
    rw [turns_ptr h _ hs, ptrAt_eq hserves]
  unfold endState
  split
  · rw [broken_ptr, h1]
  · exact h1

/-- Where there is room at the end of the page, the turns before have gone well. -/
theorem fits_of_room {h : Handler σ} {c : Catalogue} (hserves : Serves h c) {last : UInt8}
    {id n : Nat} (hrange : ∀ k < n, UInt8.ofNat (id + k) ≤ last) (hroom : pagePtr c id n ≤ 254)
    (app : σ) : ∀ k < n, Fits h last (UInt8.ofNat id) app k := by
  intro k hk
  have h1 : pagePtr c id (k + 1) ≤ 254 := Nat.le_trans (pagePtr_mono c id hk) hroom
  have h2 : pagePtr c id k ≤ 254 := Nat.le_trans (pagePtr_mono c id (Nat.le_succ k)) h1
  refine ⟨?_, ?_, ?_⟩
  · rw [← UInt8.ofNat_add]
    exact hrange k hk
  · rw [ptrAt_eq hserves, objectAt_eq hserves, breaks_iff (Nat.le_trans h2 (by decide))]
    rintro ⟨-, h3⟩
    exact Nat.not_lt_of_le h1 h3
  · rw [ptrAt_eq hserves]
    exact Nat.le_trans h1 (by decide)

/-- The loops that end and leave room for the CRC. -/
theorem devidLoop_page_iff {h : Handler σ} {c : Catalogue} (hserves : Serves h c) (last : UInt8)
    (id : Nat) {s : PrModbus σ} (hs : s.ptr = 8) (s' : PrModbus σ) :
    (∃ fuel, devidLoop h last fuel (UInt8.ofNat id) s = .ok s' ∧ s'.ptr ≤ 254) ↔
      ∃ n, PageEnds c last id n ∧ s' = endState h last id s n := by
  constructor
  · rintro ⟨fuel, hloop, hroom⟩
    have hloop0 : devidLoop h last fuel (UInt8.ofNat id + UInt8.ofNat 0)
        (turns h (UInt8.ofNat id) s 0) = .ok s' := by
      rw [show UInt8.ofNat 0 = 0 from rfl, UInt8.add_zero]
      exact hloop
    obtain ⟨n, hfits, hend⟩ :=
      devidLoop_inv hs (fun j hj => absurd hj (Nat.not_lt_zero j)) hloop0
    have hle := ptrAt_le hfits
    rw [ptrAt_eq hserves] at hle
    have hrange : ∀ k < n, UInt8.ofNat (id + k) ≤ last := by
      intro k hk
      rw [UInt8.ofNat_add]
      exact (hfits k hk).in_range
    rw [← UInt8.ofNat_add] at hend
    have hs' : s' = endState h last id s n := by
      rcases hend with ⟨h1, -, h2⟩ | ⟨h1, h2⟩
      · rw [endState, if_pos h1, h2]
      · rw [endState, if_neg (UInt8.not_le.mpr h1), h2]
    rw [hs', endState_ptr hserves last id hs] at hroom
    refine ⟨n, ⟨hrange, hroom, ?_⟩, hs'⟩
    refine hend.imp (fun h1 => ⟨h1.1, ?_⟩) And.left
    have h2 := h1.2.1
    rwa [ptrAt_eq hserves, objectAt_eq hserves, breaks_iff hle] at h2
  · rintro ⟨n, hn, rfl⟩
    refine ⟨1 + n, ?_, by rw [endState_ptr hserves last id hs]; exact hn.room⟩
    rw [devidLoop_turns hs (fits_of_room hserves hn.in_range hn.room s.app), ← UInt8.ofNat_add,
      endState]
    rcases hn.ends with ⟨h1, h2⟩ | h1
    · rw [if_pos h1]
      refine devidLoop_break 0 h1 ?_
      rw [turns_ptr h _ hs, ptrAt_eq hserves, hserves, breaks_iff (Nat.le_trans h2.1 (by decide))]
      exact h2
    · rw [if_neg (UInt8.not_le.mpr h1)]
      exact devidLoop_end h 0 _ h1

end DevidLemmas

open DevidLemmas

/-- A unit answers with the pages that end somewhere. -/
theorem responds_iff {h : Handler σ} {c : Catalogue} (hserves : Serves h c) {code last : UInt8}
    (hcode : lastObjectId code = some last) (s : PrModbus σ) {id : Nat}
    (hid : UInt8.ofNat id ≤ last) (page : Page) :
    (∃ s', Responds h code s (UInt8.ofNat id) s' page) ↔
      ∃ n, PageEnds c last id n ∧
        page = pageOf last (UInt8.ofNat (id + n)) (objectsFrom c id n) := by
  let r := s.receives (devidRequest s.addr code (UInt8.ofNat id))
  have hreq : DevidRequest r last := receives_request s _ hcode
  -- What is sent after a loop that ends and leaves room for the CRC.
  have hsent {n : Nat} (hn : PageEnds c last id n) :
      ∃ s', respond (moreNext last (endState h last id (pageStart r) n)) = .ok s' ∧
        parsePage (load s'.buffer 0 s'.rspSize) =
          some (pageOf last (UInt8.ofNat (id + n)) (objectsFrom c id n)) := by
    rw [← endState_next h hid (pageStart_ptr r) n]
    refine respond_page (endState_holds hserves (pageStart_holds r) last id n)
      (fun o ho => c.length_le _ _ (mem_objectsFrom ho)) ?_ last
    rw [endState_ptr hserves last id (pageStart_ptr r)]
    exact hn.room
  constructor
  · rintro ⟨s', fuel, hok, hpage⟩
    rw [busReqRespond_devid 7 fuel hreq, receives_id] at hok
    obtain ⟨s1, hloop, hok⟩ := bind_eq_ok.mp hok
    obtain ⟨s2, hresp, hok⟩ := bind_eq_ok.mp hok
    cases hok
    -- The CRC has been written, so the loop has left room for it.
    have hroom : s1.ptr ≤ 254 := by
      refine Nat.le_of_not_lt fun h1 => ?_
      obtain ⟨e, he⟩ := @respond_fault _ (moreNext last s1) (by rwa [moreNext_ptr])
      rw [he] at hresp
      cases hresp
    obtain ⟨n, hn, rfl⟩ :=
      (devidLoop_page_iff hserves last id (pageStart_ptr r) s1).mp ⟨fuel, hloop, hroom⟩
    obtain ⟨s3, hs3, hpage3⟩ := hsent hn
    rw [hresp] at hs3
    cases hs3
    exact ⟨n, hn, Option.some.inj (hpage.symm.trans hpage3)⟩
  · rintro ⟨n, hn, rfl⟩
    obtain ⟨fuel, hloop, -⟩ :=
      (devidLoop_page_iff hserves last id (pageStart_ptr r) _).mpr ⟨n, hn, rfl⟩
    obtain ⟨s', hresp, hpage⟩ := hsent hn
    refine ⟨s', fuel, ?_, hpage⟩
    rw [busReqRespond_devid 7 fuel hreq, receives_id, hloop, bind_ok, hresp, bind_ok]

end Picore.Modbus
