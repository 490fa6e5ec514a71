import Picore.Modbus.Bus

/-!
# Requests whose handling does not end

Every loop of `bus_req_handle` but one counts up to a number that its index can pass.
The index of the loop over the object ids has 8 bits, and so has its bound: up to id
0xff, the bound of access code 3, the loop has no last turn. It is left when an object
does not fit, which never happens if there are too few of them.

Results:
1. `busReqSwitch_ends`: the other function codes come to an end.
2. `devidLoop_ends`: so does the loop up to another id. `devidLoop_left`,
   `devidLoop_endless`: the loop up to id 0xff.
3. `request_returns_iff`: the exact condition.
-/

namespace Picore.Modbus

open Memory Fuel

variable {σ : Type}

/-- Some turn of the loop over the object ids breaks it. -/
def LoopLeft (h : Handler σ) (first : UInt8) (app : σ) : Prop :=
  ∃ k, Breaks (ptrAt h first app k) (objectAt h first app k)

/-! ## 1. The other function codes -/

namespace TerminationLemmas

theorem get_ends (s : PrModbus σ) (i : Nat) : Ends (s.get i) := by
  unfold PrModbus.get readAt
  split
  · exact ends_ok _
  · exact ends_fault _

theorem put_ends (s : PrModbus σ) (i : Nat) (bytes : List UInt8) : Ends (s.put i bytes) := by
  refine Ends.bind ?_ fun _ => ends_ok _
  unfold writeAt
  split
  · exact ends_ok _
  · exact ends_fault _

theorem getBe16_ends (s : PrModbus σ) (i : Nat) : Ends (s.getBe16 i) :=
  (get_ends s i).bind fun _ => (get_ends s (i + 1)).bind fun _ => ends_ok _

theorem writeLoop_ends {turn : Nat → PrModbus σ → Outcome OutOfBounds (UInt8 × PrModbus σ)}
    (hturn : ∀ off s, Ends (turn off s)) (n off : Nat) (s : PrModbus σ) :
    Ends (writeLoop turn n off s) := by
  induction n generalizing off s with
  | zero => exact ends_ok _
  | succ n ih =>
    refine (hturn off s).bind fun ⟨err, s1⟩ => ?_
    simp only
    split
    · exact ends_ok _
    · exact ih _ _

theorem readCoil_ends (event : UInt16 → Callback) (getter : BoolGetter σ) (address : UInt16)
    (off : Nat) (s : PrModbus σ) : Ends (readCoil event getter address off s) := by
  unfold readCoil
  simp only
  split
  · exact ends_ok _
  split
  · exact (get_ends _ _).bind fun _ => (put_ends _ _ _).bind fun _ => ends_ok _
  · exact ends_ok _

theorem readReg_ends (event : UInt16 → Callback) (getter : RegGetter σ) (address : UInt16)
    (off : Nat) (s : PrModbus σ) : Ends (readReg event getter address off s) := by
  unfold readReg
  simp only
  split
  · exact ends_ok _
  · exact (put_ends _ _ _).bind fun _ => ends_ok _

theorem reqReadBools_ends (event : UInt16 → Callback) (getter : Option (BoolGetter σ))
    (s : PrModbus σ) : Ends (reqReadBools event getter s) := by
  refine (getBe16_ends s 2).bind fun address => (getBe16_ends s 4).bind fun count => ?_
  unfold busReqCoilsGetMany
  simp only
  split
  · exact ends_ok _
  cases getter with
  | none => exact ends_ok _
  | some getter =>
    refine (put_ends _ _ _).bind fun _ => (put_ends _ _ _).bind fun _ => ?_
    rw [coilsLoop_eq]
    refine (writeLoop_ends (readCoil_ends event getter address) _ 0 _).bind fun r => ?_
    split
    · exact ends_ok _
    · exact ends_ok _

theorem reqReadRegs_ends (event : UInt16 → Callback) (getter : Option (RegGetter σ))
    (s : PrModbus σ) : Ends (reqReadRegs event getter s) := by
  refine (getBe16_ends s 2).bind fun address => (getBe16_ends s 4).bind fun count => ?_
  unfold busReqRegsGetMany
  simp only
  split
  · exact ends_ok _
  cases getter with
  | none => exact ends_ok _
  | some getter =>
    refine (put_ends _ _ _).bind fun _ => ?_
    rw [regsLoop_eq]
    exact writeLoop_ends (readReg_ends event getter address) _ 0 _

/-- What follows a call that sets a value: an error, or the response. -/
theorem echoUnless_ends (r : UInt8 × PrModbus σ) (first second : UInt16) :
    Ends (if r.1 ≠ modbusOk then .ok (r.1, r.2) else r.2.echo first second) := by
  split
  · exact ends_ok _
  · exact (put_ends _ _ _).bind fun _ => (put_ends _ _ _).bind fun _ => ends_ok _

theorem reqWriteMultiple_ends {Fits : UInt16 → UInt8 → Prop} [DecidableRel Fits]
    {turn : UInt16 → Nat → PrModbus σ → Outcome OutOfBounds (UInt8 × PrModbus σ)}
    (hturn : ∀ address off s, Ends (turn address off s)) (size : Nat) (s : PrModbus σ) :
    Ends (reqWriteMultiple Fits turn size s) := by
  refine (getBe16_ends s 2).bind fun address => (getBe16_ends s 4).bind fun count =>
    (get_ends s 6).bind fun byteCount => ?_
  split
  · exact ends_ok _
  split
  · exact ends_ok _
  · exact (writeLoop_ends (hturn address) _ 0 s).bind fun r => echoUnless_ends r address count

theorem reqWriteMultipleRegisters_ends (h : Handler σ) (size : Nat) (s : PrModbus σ) :
    Ends (reqWriteMultipleRegisters h size s) := by
  rw [reqWriteMultipleRegisters_eq]
  exact reqWriteMultiple_ends (fun _ _ s => (getBe16_ends s _).bind fun _ => ends_ok _) size s

theorem reqWriteMultipleCoils_ends (h : Handler σ) (size : Nat) (s : PrModbus σ) :
    Ends (reqWriteMultipleCoils h size s) := by
  rw [reqWriteMultipleCoils_eq]
  exact reqWriteMultiple_ends (fun _ _ s => (get_ends s _).bind fun _ => ends_ok _) size s

/-- Every function code but one comes to an end, whatever the fuel. -/
theorem busReqSwitch_ends (h : Handler σ) (size fuel : Nat) {func : UInt8}
    (hf : func ≠ readDeviceIdentification) (s : PrModbus σ) :
    Ends (busReqSwitch h size fuel func s) := by
  unfold busReqSwitch
  split
  · exact reqReadBools_ends _ _ s
  split
  · exact reqReadBools_ends _ _ s
  split
  · exact reqReadRegs_ends _ _ s
  split
  · exact reqReadRegs_ends _ _ s
  split
  · exact (getBe16_ends s 2).bind fun address => (getBe16_ends s 4).bind fun value =>
      echoUnless_ends _ address value
  split
  · exact (getBe16_ends s 2).bind fun address => (getBe16_ends s 4).bind fun value =>
      echoUnless_ends _ address _
  split
  · exact reqWriteMultipleRegisters_ends h size s
  split
  · exact reqWriteMultipleCoils_ends h size s
  · exact ends_ok _

/-- A device identification request that is answered with an error. -/
theorem reqReadDeviceIdentification_ends (h : Handler σ) (fuel : Nat) (s : PrModbus σ)
    (hreq : s.buffer 2 ≠ 0xe ∨ lastObjectId (s.buffer 3) = none) :
    Ends (reqReadDeviceIdentification h fuel s) := by
  unfold reqReadDeviceIdentification
  rw [s.get_ok (by decide), bind_ok, s.get_ok (by decide), bind_ok, s.get_ok (by decide), bind_ok]
  split
  · exact ends_ok _
  · rw [hreq.resolve_left ‹_›]
    exact ends_ok _

/-! ### The response -/

theorem respond_ends (s : PrModbus σ) : Ends (respond s) := by
  refine Ends.bind ?_ fun bytes => (put_ends s _ _).bind fun _ => ends_ok _
  unfold loadAt
  split
  · exact ends_ok _
  · exact ends_fault _

theorem respondError_ends (err : UInt8) (s : PrModbus σ) : Ends (respondError err s) :=
  (get_ends s 1).bind fun _ => (put_ends s _ _).bind fun _ => (put_ends _ _ _).bind fun _ =>
    ends_ok _

/-- The request comes to an end if its function code does. -/
theorem busReqRespond_ends {h : Handler σ} {size fuel : Nat} {s : PrModbus σ}
    (hs : s.buffer 0 = s.addr)
    (hsw : Ends (busReqSwitch h size fuel (s.buffer 1)
      { s.stored 0 [s.addr, s.buffer 1] with ptr := 2, rspSize := 0 })) :
    Ends (busReqRespond h size fuel s) := by
  rw [busReqRespond_addressed size fuel hs]
  refine hsw.bind fun r => ?_
  have herr : Ends (if r.1 ≠ modbusOk then respondError r.1 r.2 else .ok r.2 : Outcome ..) := by
    split
    · exact respondError_ends _ _
    · exact ends_ok _
  exact herr.bind fun s1 => (respond_ends s1).bind fun _ => ends_ok _

/-! ## 2. The loop over the object ids -/

theorem putObject_ends (s : PrModbus σ) (id : UInt8) (len : Nat) (data : List UInt8) :
    Ends (s.putObject id len data) :=
  (put_ends s _ _).bind fun _ => (put_ends _ _ _).bind fun _ => (put_ends _ _ _).bind fun _ =>
    (get_ends _ 7).bind fun _ => put_ends _ _ _

/-- Below id 0xff the index passes the last id. -/
theorem devidLoop_ends (h : Handler σ) {last : UInt8} (hlast : last ≠ 0xff) (fuel : Nat)
    (id : UInt8) (s : PrModbus σ) (hfuel : last.toNat + 1 - id.toNat < fuel) :
    Ends (devidLoop h last fuel id s) := by
  induction fuel generalizing id s with
  | zero => exact absurd hfuel (Nat.not_lt_zero _)
  | succ fuel ih =>
    rw [devidLoop]
    split
    · have hnext : last.toNat + 1 - (id + 1).toNat < fuel := by
        have h1 : last.toNat ≠ 255 := fun h2 => hlast (UInt8.toNat_inj.mp h2)
        have h2 := UInt8.le_iff_toNat_le.mp ‹id ≤ last›
        have h3 := last.toNat_lt
        have h4 : (id + 1).toNat = id.toNat + 1 := by
          rw [UInt8.toNat_add, show (1 : UInt8).toNat = 1 from rfl]
          exact Nat.mod_eq_of_lt (by omega)
        omega
      refine (put_ends _ _ _).bind fun s1 => ?_
      split
      · exact ih _ _ hnext
      · simp only
        split
        · exact put_ends _ _ _
        · exact (putObject_ends _ _ _ _).bind fun _ => ih _ _ hnext
    · exact ends_ok _

theorem devidLoop_fueled (h : Handler σ) (last id : UInt8) (s : PrModbus σ) :
    Fueled fun fuel => devidLoop h last fuel id s := by
  intro fuel
  simp only
  induction fuel generalizing id s with
  | zero => exact .timeout _
  | succ fuel ih =>
    rw [devidLoop, devidLoop]
    split
    · refine (Approx.refl _).bind fun s1 => ?_
      split
      · exact ih _ _
      · simp only
        split
        · exact .refl _
        · exact (Approx.refl _).bind fun _ => ih _ _
    · exact .refl _

/-- The turns before one that breaks the loop, when there is no overrun. -/
theorem fits_before {h : Handler σ} {first : UInt8} {app : σ}
    (hno : ¬ Overruns h 0xff first app) {n : Nat}
    (hbefore : ∀ k < n, ¬ Breaks (ptrAt h first app k) (objectAt h first app k)) :
    OnCourse h 0xff first app n ∧ ∀ k < n, Fits h 0xff first app k := by
  induction n with
  | zero => exact ⟨.inl (Nat.le_of_ble_eq_true rfl), fun k hk => absurd hk (Nat.not_lt_zero k)⟩
  | succ n ih =>
    obtain ⟨hc, hfits⟩ := ih fun k hk => hbefore k (Nat.lt_succ_of_lt hk)
    have hbreak := hbefore n (Nat.lt_succ_self n)
    have hnext := hc.succ hno (.inl rfl) hbreak
    refine ⟨hnext, fun k hk => ?_⟩
    rcases Nat.lt_succ_iff_lt_or_eq.mp hk with hk | rfl
    · exact hfits k hk
    · exact ⟨InRange.id_le (.inl rfl), hbreak, hnext.le⟩

/-- The loop up to id 0xff ends where a turn breaks it. -/
theorem devidLoop_left {h : Handler σ} {first : UInt8} {s : PrModbus σ} (hs : s.ptr = 8)
    (hno : ¬ Overruns h 0xff first s.app) (hleft : LoopLeft h first s.app) :
    ∃ fuel, Ends (devidLoop h 0xff fuel first s) := by
  classical
  let n := Nat.find hleft
  have hbreak : Breaks (ptrAt h first s.app n) (objectAt h first s.app n) := Nat.find_spec hleft
  obtain ⟨-, hfits⟩ := fits_before hno (n := n) fun k hk => Nat.find_min hleft hk
  refine ⟨1 + n, ?_⟩
  rw [devidLoop_turns hs hfits, devidLoop_break 0 (InRange.id_le (.inl rfl))]
  · exact ends_ok _
  · rw [turns_ptr h first hs, turns_app]
    exact hbreak

theorem devidLoop_endless {h : Handler σ} {first : UInt8} {s : PrModbus σ} (hs : s.ptr = 8)
    (hno : ¬ Overruns h 0xff first s.app) (hleft : ¬ LoopLeft h first s.app) (fuel : Nat) :
    devidLoop h 0xff fuel first s = .error .timeout := by
  obtain ⟨-, hfits⟩ := fits_before hno (n := fuel) fun k _ hk => hleft ⟨k, hk⟩
  have hturns := devidLoop_turns hs hfits 0
  rw [Nat.zero_add] at hturns
  rw [hturns, devidLoop]

/-- Where the loop up to id 0xff has ended, a turn has broken it. -/
theorem loopLeft_of_ok {h : Handler σ} {fuel : Nat} {first : UInt8} {s s' : PrModbus σ}
    (hs : s.ptr = 8) (hok : devidLoop h 0xff fuel first s = .ok s') : LoopLeft h first s.app := by
  have hloop : devidLoop h 0xff fuel (first + UInt8.ofNat 0) (turns h first s 0) = .ok s' := by
    rw [show UInt8.ofNat 0 = 0 from rfl, UInt8.add_zero]
    exact hok
  obtain ⟨n, -, hend⟩ := devidLoop_inv hs (fun j hj => absurd hj (Nat.not_lt_zero j)) hloop
  rcases hend with ⟨-, hbreak, -⟩ | ⟨hid, -⟩
  · exact ⟨n, hbreak⟩
  · exact absurd (InRange.id_le (.inl rfl)) (UInt8.not_le.mpr hid)

/-! ## 3. The request -/

/-- A request that is not one for device identification, as far as its loop. -/
theorem other_ends {h : Handler σ} (size fuel : Nat) {s : PrModbus σ}
    (hno : ∀ last, ¬ DevidRequest s last) : Ends (busReqRespond h size fuel s) := by
  by_cases haddr : s.buffer 0 = s.addr
  · refine busReqRespond_ends haddr ?_
    by_cases hfunc : s.buffer 1 = readDeviceIdentification
    · have hk : ∀ i, 2 ≤ i → store s.buffer 0 [s.addr, s.buffer 1] i = s.buffer i :=
        fun i hi => store_apply_of_ge hi
      rw [hfunc, busReqSwitch_devid]
      refine reqReadDeviceIdentification_ends h fuel _ ?_
      rw [PrModbus.stored_buffer, ← hfunc, hk 2 (by decide), hk 3 (by decide)]
      -- One of the two fields is wrong, or it would be such a request.
      by_cases hmei : s.buffer 2 = 0xe
      · refine .inr (Option.eq_none_iff_forall_ne_some.mpr fun last hlast => ?_)
        exact hno last ⟨haddr, hfunc, hmei, hlast⟩
      · exact .inl hmei
    · exact busReqSwitch_ends h size fuel hfunc _
  · rw [busReqRespond_other h size fuel haddr]
    exact ends_ok _

theorem devid_fueled {h : Handler σ} (size : Nat) {s : PrModbus σ} {last : UInt8}
    (hreq : DevidRequest s last) : Fueled fun fuel => busReqRespond h size fuel s := by
  intro fuel
  simp only [busReqRespond_devid size _ hreq]
  exact (devidLoop_fueled h last _ _ fuel).bind fun _ => .refl _

theorem devid_ends {h : Handler σ} (size : Nat) {s : PrModbus σ} {last : UInt8}
    (hreq : DevidRequest s last) (hno : ¬ Overruns h last (s.buffer 4) s.app)
    (hleft : last = 0xff → LoopLeft h (s.buffer 4) s.app) :
    ∃ fuel, Ends (busReqRespond h size fuel s) := by
  have hloop : ∃ fuel, Ends (devidLoop h last fuel (s.buffer 4) (pageStart s)) := by
    by_cases hlast : last = 0xff
    · subst hlast
      exact devidLoop_left (pageStart_ptr s) hno (hleft rfl)
    · exact ⟨_, devidLoop_ends h hlast _ _ _ (Nat.lt_succ_self _)⟩
  obtain ⟨fuel, hloop⟩ := hloop
  refine ⟨fuel, ?_⟩
  rw [busReqRespond_devid size fuel hreq]
  exact hloop.bind fun s1 => (respond_ends _).bind fun _ => ends_ok _

/-- A device identification request that overruns the buffer faults. -/
theorem devid_faults {h : Handler σ} (size : Nat) {s : PrModbus σ} {last : UInt8}
    (hreq : DevidRequest s last) (hover : Overruns h last (s.buffer 4) s.app) :
    ∃ fuel e, busReqRespond h size fuel s = .error (.fault e) := by
  obtain ⟨fuel, ⟨e, he⟩ | ⟨s1, hs1, hlt⟩⟩ := devidLoop_overruns (pageStart_ptr s) hover
  · exact ⟨fuel, e, by rw [busReqRespond_devid size fuel hreq, he, bind_error]⟩
  · obtain ⟨e, he⟩ := @respond_fault _ (moreNext last s1) (by rwa [moreNext_ptr])
    exact ⟨fuel, e, by rw [busReqRespond_devid size fuel hreq, hs1, bind_ok, he, bind_error]⟩

theorem returns_of_left {h : Handler σ} {size : Nat} (hsize : size ≤ bufferSize) {s : PrModbus σ}
    (hno : ∀ last, DevidRequest s last → ¬ Overruns h last (s.buffer 4) s.app)
    (hleft : DevidRequest s 0xff → LoopLeft h (s.buffer 4) s.app) :
    ∃ r, Returns (fun fuel => busReqRespond h size fuel s) r := by
  have hends : ∃ fuel, Ends (busReqRespond h size fuel s) := by
    by_cases hreq : ∃ last, DevidRequest s last
    · obtain ⟨last, hreq⟩ := hreq
      refine devid_ends size hreq (hno last hreq) ?_
      rintro rfl
      exact hleft hreq
    · exact ⟨0, other_ends size 0 fun last hlast => hreq ⟨last, hlast⟩⟩
  obtain ⟨fuel, hends⟩ := hends
  have hsafe : Safe (fun _ => True) (busReqRespond h size fuel s) :=
    safe_iff.mpr ⟨((buffer_safe_iff h hsize s).mpr hno fuel).1, fun _ _ => trivial⟩
  obtain ⟨r, hr, -⟩ := hsafe.returns hends
  exact ⟨r, fuel, hr⟩

theorem left_of_returns {h : Handler σ} {size : Nat} {s : PrModbus σ} {r : Bool × PrModbus σ}
    (hr : Returns (fun fuel => busReqRespond h size fuel s) r) :
    (∀ last, DevidRequest s last → ¬ Overruns h last (s.buffer 4) s.app) ∧
      (DevidRequest s 0xff → LoopLeft h (s.buffer 4) s.app) := by
  constructor
  · intro last hreq hover
    obtain ⟨fuel, e, he⟩ := devid_faults size hreq hover
    exact (devid_fueled size hreq).not_returns he r hr
  · intro hreq
    obtain ⟨fuel, hok⟩ := hr
    simp only [busReqRespond_devid size fuel hreq] at hok
    obtain ⟨s1, hloop, -⟩ := bind_eq_ok.mp hok
    exact @loopLeft_of_ok _ h fuel _ (pageStart s) s1 (pageStart_ptr s) hloop

theorem endless_iff {h : Handler σ} {size : Nat} {s : PrModbus σ} :
    (∀ fuel, busReqRespond h size fuel s = .error .timeout) ↔
      DevidRequest s 0xff ∧ ¬ Overruns h 0xff (s.buffer 4) s.app ∧
        ¬ LoopLeft h (s.buffer 4) s.app := by
  constructor
  · intro hforever
    have hreq : ∃ last, DevidRequest s last := by
      by_contra hno
      exact other_ends size 0 (fun last hlast => hno ⟨last, hlast⟩) (hforever 0)
    obtain ⟨last, hreq⟩ := hreq
    have hover : ¬ Overruns h last (s.buffer 4) s.app := by
      intro hover
      obtain ⟨fuel, e, he⟩ := devid_faults size hreq hover
      rw [hforever fuel] at he
      cases he
    have hends : ¬ (last = 0xff → LoopLeft h (s.buffer 4) s.app) := by
      intro hleft
      obtain ⟨fuel, hends⟩ := devid_ends size hreq hover hleft
      exact hends (hforever fuel)
    obtain ⟨rfl, hleft⟩ := Classical.not_imp.mp hends
    exact ⟨hreq, hover, hleft⟩
  · rintro ⟨hreq, hover, hleft⟩ fuel
    rw [busReqRespond_devid size fuel hreq,
      devidLoop_endless (pageStart_ptr s) hover hleft fuel, bind_error]

end TerminationLemmas

open TerminationLemmas

/-- The handling of a request returns exactly if the objects of a device identification
do not overrun the buffer and, with access code 3, one of them breaks the loop. If there
is no overrun and none does, it never comes to an end. -/
theorem request_returns_iff (h : Handler σ) {size : Nat} (hsize : size ≤ bufferSize)
    (n : Node σ) :
    ((∃ n', Returns (fun fuel => busReqHandle h size fuel n) n') ↔
      (∀ last, DevidRequest n.bus last → ¬ Overruns h last (n.bus.buffer 4) n.bus.app) ∧
        (DevidRequest n.bus 0xff → LoopLeft h (n.bus.buffer 4) n.bus.app)) ∧
    ((∀ fuel, busReqHandle h size fuel n = .error .timeout) ↔
      DevidRequest n.bus 0xff ∧ ¬ Overruns h 0xff (n.bus.buffer 4) n.bus.app ∧
        ¬ LoopLeft h (n.bus.buffer 4) n.bus.app) := by
  simp only [busReqHandle_eq, returns_map_iff, map_eq_timeout]
  refine ⟨⟨?_, ?_⟩, endless_iff⟩
  · rintro ⟨r, hr⟩
    exact left_of_returns hr
  · rintro ⟨hno, hleft⟩
    exact returns_of_left hsize hno hleft

namespace TerminationLemmas

/-- The request for all objects, from id 0 on. -/
def extendedRequest : List UInt8 := withCrc [1, 0x2b, 0x0e, 3, 0]

/-- The unit with address 1 that has received it. -/
def asked : Node Unit :=
  ⟨⟨1, store (fun _ => 0) 0 extendedRequest, 7, 0, (), []⟩, [], 256, 0, false, .idle, [], []⟩

theorem asked_request : DevidRequest asked.bus 0xff := by
  constructor <;> decide

def noCallbacks : Handler Unit := ⟨none, none, none, none, none, none, none⟩

theorem noCallbacks_ptr (k : Nat) : ptrAt noCallbacks 0 () k = 8 := by
  induction k with
  | zero => rfl
  | succ k ih => exact ih

end TerminationLemmas

open TerminationLemmas in
theorem request_returns_iff_asked :
    7 ≤ bufferSize ∧
    ((∃ n', Returns (fun fuel => busReqHandle noCallbacks 7 fuel asked) n') ↔
      (∀ last, DevidRequest asked.bus last → ¬ Overruns noCallbacks last 0 ()) ∧
        (DevidRequest asked.bus 0xff → LoopLeft noCallbacks 0 ())) :=
  ⟨by decide, (request_returns_iff noCallbacks (by decide) asked).1⟩

open TerminationLemmas in
/-- A unit that has no `devid` is asked for the objects of access code 3. It looks for objects for
ever, since no index of 8 bits is above the last id. -/
theorem devid_endless :
    modbusReqFrameLen asked.bus.buffer asked.bus.ptr = 7 ∧
    crcValid (load asked.bus.buffer 0 7) = true ∧
    (∀ fuel, busReqHandle noCallbacks 7 fuel asked = .error .timeout) ∧
    ¬ ∃ n', Returns (fun fuel => busReqHandle noCallbacks 7 fuel asked) n' := by
  have hforever : ∀ fuel, busReqHandle noCallbacks 7 fuel asked = .error .timeout := by
    intro fuel
    have hloop : devidLoop noCallbacks 0xff fuel 0 (pageStart asked.bus) = .error .timeout := by
      refine devidLoop_endless rfl ?_ ?_ fuel
      · rintro ⟨k, m, -, -, h1 | h1, -⟩
        · rw [show (pageStart asked.bus).app = () from rfl, noCallbacks_ptr] at h1
          cases h1
        · rw [show (pageStart asked.bus).app = () from rfl, noCallbacks_ptr] at h1
          cases h1
      · exact fun ⟨k, hk⟩ => hk
    rw [busReqHandle_eq, busReqRespond_devid 7 fuel asked_request]
    rw [show asked.bus.buffer 4 = 0 from rfl, hloop]
    rfl
  refine ⟨by decide, by decide +kernel, hforever, ?_⟩
  rintro ⟨n', fuel, hok⟩
  simp only [hforever fuel] at hok
  cases hok

end Picore.Modbus
