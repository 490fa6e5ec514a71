import Picore.Modbus.Bus

/-!
# Replacing the application of a unit

A unit knows its application by its callbacks alone. If those of two applications return the
same, two units with these applications are the same on the line, whatever bytes arrive, and in
every order of steps. So everything that is known of one application holds of a whole unit.

`R` relates the states of two applications, given the calls that have been made to both.

Results:
1. `Handler.Matches`: callbacks that return the same.
2. `busReqSwitch_twin`, `busReqRespond_twin`: the handling of a request.
3. `step_twin`, `exec_replaced`: units that take the same steps.
4. `exec_keeps`: what every call keeps holds of the application in every run.
-/

namespace Picore.Modbus

open Memory Fuel Transition

variable {σ τ α : Type}

/-! ## 1. Callbacks -/

/-- Two getters return the same, and lead from related states to related states. -/
def GetterMatches (R : List Callback → σ → τ → Prop) (event : UInt16 → Callback)
    (f : σ → UInt16 → UInt8 × α × σ) (g : τ → UInt16 → UInt8 × α × τ) : Prop :=
  ∀ calls s t a, R calls s t → (f s a).1 = (g t a).1 ∧ (f s a).2.1 = (g t a).2.1 ∧
    R (calls ++ [event a]) (f s a).2.2 (g t a).2.2

def SetterMatches (R : List Callback → σ → τ → Prop) (event : UInt16 → α → Callback)
    (f : σ → UInt16 → α → UInt8 × σ) (g : τ → UInt16 → α → UInt8 × τ) : Prop :=
  ∀ calls s t a v, R calls s t → (f s a v).1 = (g t a v).1 ∧
    R (calls ++ [event a v]) (f s a v).2 (g t a v).2

/-- `devid` of two applications, in states that `R` relates: the same answer, and related states
behind it. -/
def DevidMatches (R : List Callback → σ → τ → Prop) (f : DevidGetter σ) (g : DevidGetter τ) :
    Prop :=
  ∀ calls s t id, R calls s t → (f s id).1 = (g t id).1 ∧
    R (calls ++ [.devid id]) (f s id).2 (g t id).2

/-- Two applications set the same callbacks. A callback of one returns what that of the other
returns, in states that `R` relates, and leaves states that it relates. -/
structure Handler.Matches (R : List Callback → σ → τ → Prop) (h : Handler σ) (h' : Handler τ) :
    Prop where
  coil_get : Option.Rel (GetterMatches R .coilGet) h.coilGet h'.coilGet
  discrete_input_get :
    Option.Rel (GetterMatches R .discreteInputGet) h.discreteInputGet h'.discreteInputGet
  coil_set : Option.Rel (SetterMatches R .coilSet) h.coilSet h'.coilSet
  holding_register_get :
    Option.Rel (GetterMatches R .holdingRegisterGet) h.holdingRegisterGet h'.holdingRegisterGet
  input_register_get :
    Option.Rel (GetterMatches R .inputRegisterGet) h.inputRegisterGet h'.inputRegisterGet
  holding_register_set :
    Option.Rel (SetterMatches R .holdingRegisterSet) h.holdingRegisterSet h'.holdingRegisterSet
  devid : Option.Rel (DevidMatches R) h.devid h'.devid

def PrModbus.withApp (s : PrModbus σ) (app : τ) : PrModbus τ :=
  ⟨s.addr, s.buffer, s.ptr, s.rspSize, app, s.calls⟩

/-- The states of two units that differ in the state of their applications only, and there by `R`,
which may depend on the calls made so far. -/
def Twin (R : List Callback → σ → τ → Prop) (s : PrModbus σ) (t : PrModbus τ) : Prop :=
  ∃ app, t = s.withApp app ∧ R s.calls s.app app

def Node.withApp (n : Node σ) (app : τ) : Node τ :=
  ⟨n.bus.withApp app, n.rx, n.free, n.used, n.worker, n.clear, n.written, n.responses⟩

/-- Units that are the same but for the applications, which are related. -/
def NodeTwin (R : List Callback → σ → τ → Prop) (n : Node σ) (m : Node τ) : Prop :=
  ∃ app, m = n.withApp app ∧ R n.bus.calls n.bus.app app

/-- A parser gives the same answer for two units, and leaves units that differ in the state of their
applications only. -/
def ParsedTwin (R : List Callback → σ → τ → Prop) (r : Bool × Node σ) (r' : Bool × Node τ) : Prop :=
  r.1 = r'.1 ∧ NodeTwin R r.2 r'.2

def TwinResult (R : List Callback → σ → τ → Prop) (r : UInt8 × PrModbus σ)
    (r' : UInt8 × PrModbus τ) : Prop :=
  r.1 = r'.1 ∧ Twin R r.2 r'.2

section
variable {R : List Callback → σ → τ → Prop} {s : PrModbus σ} {t : PrModbus τ}

theorem Twin.get (hs : Twin R s t) (i : Nat) : t.get i = s.get i := by
  obtain ⟨app, rfl, -⟩ := hs
  rfl

theorem Twin.getBe16 (hs : Twin R s t) (i : Nat) : t.getBe16 i = s.getBe16 i := by
  obtain ⟨app, rfl, -⟩ := hs
  rfl

theorem Twin.ptr (hs : Twin R s t) : t.ptr = s.ptr := by
  obtain ⟨app, rfl, -⟩ := hs
  rfl

theorem Twin.setPtr (hs : Twin R s t) (ptr : Nat) :
    Twin R { s with ptr := ptr } { t with ptr := ptr } := by
  obtain ⟨app, rfl, happ⟩ := hs
  exact ⟨app, rfl, happ⟩

theorem NodeTwin.bus {n : Node σ} {m : Node τ} (hn : NodeTwin R n m) : Twin R n.bus m.bus := by
  obtain ⟨app, rfl, happ⟩ := hn
  exact ⟨app, rfl, happ⟩

namespace ReplaceLemmas

/-! ## 2. The function codes -/

theorem put_twin (hs : Twin R s t) (i : Nat) (bytes : List UInt8) :
    Alike (Twin R) (s.put i bytes) (t.put i bytes) := by
  obtain ⟨app, rfl, happ⟩ := hs
  refine (Alike.refl _).bind fun buffer _ heq => ?_
  subst heq
  exact .ok ⟨app, rfl, happ⟩

theorem get_twin (hs : Twin R s t) (i : Nat) : Alike (· = ·) (s.get i) (t.get i) := by
  rw [hs.get]
  exact .refl _

theorem getBe16_twin (hs : Twin R s t) (i : Nat) :
    Alike (· = ·) (s.getBe16 i) (t.getBe16 i) := by
  rw [hs.getBe16]
  exact .refl _

theorem unless_twin {r : UInt8 × PrModbus σ} {r' : UInt8 × PrModbus τ} (hr : TwinResult R r r')
    {f : PrModbus σ → Outcome OutOfBounds (UInt8 × PrModbus σ)}
    {g : PrModbus τ → Outcome OutOfBounds (UInt8 × PrModbus τ)}
    (hfg : Twin R r.2 r'.2 → Alike (TwinResult R) (f r.2) (g r'.2)) :
    Alike (TwinResult R) (if r.1 ≠ modbusOk then .ok (r.1, r.2) else f r.2)
      (if r'.1 ≠ modbusOk then .ok (r'.1, r'.2) else g r'.2) := by
  rw [hr.1]
  exact .ite (fun _ => .ok ⟨rfl, hr.2⟩) fun _ => hfg hr.2

theorem writeLoop_twin {turn : Nat → PrModbus σ → Outcome OutOfBounds (UInt8 × PrModbus σ)}
    {turn' : Nat → PrModbus τ → Outcome OutOfBounds (UInt8 × PrModbus τ)}
    (hturn : ∀ off s t, Twin R s t → Alike (TwinResult R) (turn off s) (turn' off t)) (n off : Nat)
    (hs : Twin R s t) :
    Alike (TwinResult R) (writeLoop turn n off s) (writeLoop turn' n off t) := by
  induction n generalizing off s t with
  | zero => exact .ok ⟨rfl, hs⟩
  | succ n ih =>
    exact (hturn off s t hs).bind fun r r' hr => unless_twin hr fun h1 => ih (off + 1) h1

theorem readCoil_twin {event : UInt16 → Callback} {f : BoolGetter σ} {g : BoolGetter τ}
    (hfg : GetterMatches R event f g) (address : UInt16) (off : Nat) (s : PrModbus σ)
    (t : PrModbus τ) (hs : Twin R s t) :
    Alike (TwinResult R) (readCoil event f address off s) (readCoil event g address off t) := by
  obtain ⟨app, rfl, happ⟩ := hs
  obtain ⟨herr, hvalue, hnext⟩ := hfg s.calls s.app app (address + UInt16.ofNat off) happ
  have hcalled : Twin R
      (s.called (event (address + UInt16.ofNat off)) (f s.app (address + UInt16.ofNat off)).2.2)
      ((s.withApp app).called (event (address + UInt16.ofNat off))
        (g app (address + UInt16.ofNat off)).2.2) := ⟨_, rfl, hnext⟩
  unfold readCoil
  simp only [PrModbus.withApp, ← herr, ← hvalue] at hcalled ⊢
  refine .ite (fun _ => .ok ⟨rfl, hcalled⟩) fun _ => .ite (fun _ => ?_) fun _ => .ok ⟨rfl, hcalled⟩
  refine (get_twin hcalled _).bind fun b _ heq => ?_
  subst heq
  exact (put_twin hcalled _ _).bind fun _ _ h1 => .ok ⟨rfl, h1⟩

theorem readReg_twin {event : UInt16 → Callback} {f : RegGetter σ} {g : RegGetter τ}
    (hfg : GetterMatches R event f g) (address : UInt16) (off : Nat) (s : PrModbus σ)
    (t : PrModbus τ) (hs : Twin R s t) :
    Alike (TwinResult R) (readReg event f address off s) (readReg event g address off t) := by
  obtain ⟨app, rfl, happ⟩ := hs
  obtain ⟨herr, hvalue, hnext⟩ := hfg s.calls s.app app (address + UInt16.ofNat off) happ
  have hcalled : Twin R
      (s.called (event (address + UInt16.ofNat off)) (f s.app (address + UInt16.ofNat off)).2.2)
      ((s.withApp app).called (event (address + UInt16.ofNat off))
        (g app (address + UInt16.ofNat off)).2.2) := ⟨_, rfl, hnext⟩
  unfold readReg
  simp only [PrModbus.withApp, ← herr, ← hvalue] at hcalled ⊢
  refine .ite (fun _ => .ok ⟨rfl, hcalled⟩) fun _ => ?_
  refine (put_twin hcalled _ _).bind fun s1 t1 h1 => .ok ⟨rfl, ?_⟩
  rw [h1.ptr]
  exact h1.setPtr _

theorem busReqCoilsGetMany_twin {event : UInt16 → Callback} {f : Option (BoolGetter σ)}
    {g : Option (BoolGetter τ)} (hfg : Option.Rel (GetterMatches R event) f g)
    (address count : UInt16) (hs : Twin R s t) :
    Alike (TwinResult R) (busReqCoilsGetMany event address count f s)
      (busReqCoilsGetMany event address count g t) := by
  refine .ite (fun _ => .ok ⟨rfl, hs⟩) fun _ => ?_
  cases hfg with
  | none => exact .ok ⟨rfl, hs⟩
  | some hfg =>
    simp only [coilsLoop_eq, hs.ptr]
    refine (put_twin hs _ _).bind fun s1 t1 h1 => ?_
    rw [h1.ptr]
    refine (put_twin (h1.setPtr _) _ _).bind fun s2 t2 h2 => ?_
    refine (writeLoop_twin (readCoil_twin hfg address) _ 0 h2).bind fun r r' hr => ?_
    refine unless_twin hr (f := fun s => .ok (modbusOk, { s with ptr := s.ptr + _ }))
      (g := fun t => .ok (modbusOk, { t with ptr := t.ptr + _ })) fun h3 => .ok ⟨rfl, ?_⟩
    simp only [h3.ptr]
    exact h3.setPtr _

theorem busReqRegsGetMany_twin {event : UInt16 → Callback} {f : Option (RegGetter σ)}
    {g : Option (RegGetter τ)} (hfg : Option.Rel (GetterMatches R event) f g)
    (address count : UInt16) (hs : Twin R s t) :
    Alike (TwinResult R) (busReqRegsGetMany event address count f s)
      (busReqRegsGetMany event address count g t) := by
  refine .ite (fun _ => .ok ⟨rfl, hs⟩) fun _ => ?_
  cases hfg with
  | none => exact .ok ⟨rfl, hs⟩
  | some hfg =>
    simp only [regsLoop_eq, hs.ptr]
    refine (put_twin hs _ _).bind fun s1 t1 h1 => ?_
    rw [h1.ptr]
    exact writeLoop_twin (readReg_twin hfg address) _ 0 (h1.setPtr _)

theorem fields_twin (hs : Twin R s t)
    {f : UInt16 → UInt16 → Outcome OutOfBounds (UInt8 × PrModbus σ)}
    {g : UInt16 → UInt16 → Outcome OutOfBounds (UInt8 × PrModbus τ)}
    (hfg : ∀ first second, Alike (TwinResult R) (f first second) (g first second)) :
    Alike (TwinResult R) (s.getBe16 2 >>= fun first => s.getBe16 4 >>= fun second => f first second)
      (t.getBe16 2 >>= fun first => t.getBe16 4 >>= fun second => g first second) := by
  refine (getBe16_twin hs 2).bind fun first _ heq => ?_
  subst heq
  refine (getBe16_twin hs 4).bind fun second _ heq => ?_
  subst heq
  exact hfg first second

theorem reqReadBools_twin {event : UInt16 → Callback} {f : Option (BoolGetter σ)}
    {g : Option (BoolGetter τ)} (hfg : Option.Rel (GetterMatches R event) f g)
    (hs : Twin R s t) : Alike (TwinResult R) (reqReadBools event f s) (reqReadBools event g t) :=
  fields_twin hs fun address count => busReqCoilsGetMany_twin hfg address count hs

theorem reqReadRegs_twin {event : UInt16 → Callback} {f : Option (RegGetter σ)}
    {g : Option (RegGetter τ)} (hfg : Option.Rel (GetterMatches R event) f g)
    (hs : Twin R s t) : Alike (TwinResult R) (reqReadRegs event f s) (reqReadRegs event g t) :=
  fields_twin hs fun address count => busReqRegsGetMany_twin hfg address count hs

variable {h : Handler σ} {h' : Handler τ}

theorem setCoil_twin (hh : h.Matches R h') (hs : Twin R s t) (address : UInt16) (value : Bool) :
    TwinResult R (s.setCoil h address value) (t.setCoil h' address value) := by
  obtain ⟨app, rfl, happ⟩ := hs
  have hset := hh.coil_set
  unfold PrModbus.setCoil
  generalize h.coilSet = f at hset ⊢
  generalize h'.coilSet = g at hset ⊢
  cases hset with
  | none => exact ⟨rfl, app, rfl, happ⟩
  | some hset =>
    obtain ⟨herr, hnext⟩ := hset s.calls s.app app address value happ
    exact ⟨herr, _, rfl, hnext⟩

theorem setReg_twin (hh : h.Matches R h') (hs : Twin R s t) (address value : UInt16) :
    TwinResult R (s.setReg h address value) (t.setReg h' address value) := by
  obtain ⟨app, rfl, happ⟩ := hs
  have hset := hh.holding_register_set
  unfold PrModbus.setReg
  generalize h.holdingRegisterSet = f at hset ⊢
  generalize h'.holdingRegisterSet = g at hset ⊢
  cases hset with
  | none => exact ⟨rfl, app, rfl, happ⟩
  | some hset =>
    obtain ⟨herr, hnext⟩ := hset s.calls s.app app address value happ
    exact ⟨herr, _, rfl, hnext⟩

theorem echo_twin (hs : Twin R s t) (first second : UInt16) :
    Alike (TwinResult R) (s.echo first second) (t.echo first second) := by
  unfold PrModbus.echo
  rw [hs.ptr]
  refine (put_twin hs _ _).bind fun s1 t1 h1 => ?_
  rw [h1.ptr]
  refine (put_twin h1 _ _).bind fun s2 t2 h2 => .ok ⟨rfl, ?_⟩
  rw [h2.ptr]
  exact h2.setPtr _

theorem reqWriteSingleRegister_twin (hh : h.Matches R h') (hs : Twin R s t) :
    Alike (TwinResult R) (reqWriteSingleRegister h s) (reqWriteSingleRegister h' t) :=
  fields_twin hs fun address value =>
    unless_twin (setReg_twin hh hs address value) (f := fun s => s.echo _ _)
      (g := fun t => t.echo _ _) fun h1 => echo_twin h1 _ _

theorem reqWriteSingleCoil_twin (hh : h.Matches R h') (hs : Twin R s t) :
    Alike (TwinResult R) (reqWriteSingleCoil h s) (reqWriteSingleCoil h' t) :=
  fields_twin hs fun address value =>
    unless_twin (setCoil_twin hh hs address (value != 0)) (f := fun s => s.echo _ _)
      (g := fun t => t.echo _ _) fun h1 => echo_twin h1 _ _

theorem writeReg_twin (hh : h.Matches R h') (address : UInt16) (off : Nat) (s : PrModbus σ)
    (t : PrModbus τ) (hs : Twin R s t) :
    Alike (TwinResult R) (writeReg h address off s) (writeReg h' address off t) := by
  refine (getBe16_twin hs _).bind fun value _ heq => ?_
  subst heq
  exact .ok (setReg_twin hh hs _ value)

theorem writeCoil_twin (hh : h.Matches R h') (address : UInt16) (off : Nat) (s : PrModbus σ)
    (t : PrModbus τ) (hs : Twin R s t) :
    Alike (TwinResult R) (writeCoil h address off s) (writeCoil h' address off t) := by
  refine (get_twin hs _).bind fun b _ heq => ?_
  subst heq
  exact .ok (setCoil_twin hh hs _ _)

theorem reqWriteMultiple_twin {Fits : UInt16 → UInt8 → Prop} [DecidableRel Fits]
    {turn : UInt16 → Nat → PrModbus σ → Outcome OutOfBounds (UInt8 × PrModbus σ)}
    {turn' : UInt16 → Nat → PrModbus τ → Outcome OutOfBounds (UInt8 × PrModbus τ)}
    (hturn : ∀ address off s t, Twin R s t →
      Alike (TwinResult R) (turn address off s) (turn' address off t))
    (size : Nat) (hs : Twin R s t) :
    Alike (TwinResult R) (reqWriteMultiple Fits turn size s)
      (reqWriteMultiple Fits turn' size t) := by
  refine fields_twin hs fun address count => (get_twin hs 6).bind fun bytes _ heq => ?_
  subst heq
  refine .ite (fun _ => .ok ⟨rfl, hs⟩) fun _ => .ite (fun _ => .ok ⟨rfl, hs⟩) fun _ => ?_
  exact (writeLoop_twin (hturn address) _ 0 hs).bind fun r r' hr =>
    unless_twin hr (f := fun s => s.echo _ _) (g := fun t => t.echo _ _) fun h1 => echo_twin h1 _ _

theorem reqWriteMultipleRegisters_twin (hh : h.Matches R h') (size : Nat) (hs : Twin R s t) :
    Alike (TwinResult R) (reqWriteMultipleRegisters h size s)
      (reqWriteMultipleRegisters h' size t) := by
  rw [reqWriteMultipleRegisters_eq, reqWriteMultipleRegisters_eq]
  exact reqWriteMultiple_twin (writeReg_twin hh) size hs

theorem reqWriteMultipleCoils_twin (hh : h.Matches R h') (size : Nat) (hs : Twin R s t) :
    Alike (TwinResult R) (reqWriteMultipleCoils h size s) (reqWriteMultipleCoils h' size t) := by
  rw [reqWriteMultipleCoils_eq, reqWriteMultipleCoils_eq]
  exact reqWriteMultiple_twin (writeCoil_twin hh) size hs

theorem askDevid_twin (hh : h.Matches R h') (hs : Twin R s t) (id : UInt8) :
    (s.askDevid h id).1 = (t.askDevid h' id).1 ∧
      Twin R (s.askDevid h id).2 (t.askDevid h' id).2 := by
  obtain ⟨app, rfl, happ⟩ := hs
  have hget := hh.devid
  unfold PrModbus.askDevid
  generalize h.devid = f at hget ⊢
  generalize h'.devid = g at hget ⊢
  cases hget with
  | none => exact ⟨rfl, app, rfl, happ⟩
  | some hget =>
    obtain ⟨hdata, hnext⟩ := hget s.calls s.app app id happ
    exact ⟨hdata, _, rfl, hnext⟩

theorem putObject_twin (hs : Twin R s t) (id : UInt8) (len : Nat) (data : List UInt8) :
    Alike (Twin R) (s.putObject id len data) (t.putObject id len data) := by
  unfold PrModbus.putObject
  rw [hs.ptr]
  refine (put_twin hs _ _).bind fun s1 t1 h1 => ?_
  rw [h1.ptr]
  refine (put_twin h1 _ _).bind fun s2 t2 h2 => ?_
  rw [h2.ptr]
  refine (put_twin h2 _ _).bind fun s3 t3 h3 => ?_
  rw [h3.ptr]
  refine (get_twin (h3.setPtr _) 7).bind fun count _ heq => ?_
  subst heq
  exact put_twin (h3.setPtr _) _ _

theorem devidLoop_twin (hh : h.Matches R h') (last : UInt8) (fuel : Nat) (id : UInt8)
    (hs : Twin R s t) :
    Alike (Twin R) (devidLoop h last fuel id s) (devidLoop h' last fuel id t) := by
  induction fuel generalizing id s t with
  | zero => exact .error _
  | succ fuel ih =>
    obtain ⟨hdata, hasked⟩ := askDevid_twin hh hs id
    rw [devidLoop, devidLoop]
    simp only [← hdata, hs.ptr]
    refine .ite (fun _ => ?_) fun _ => .ok hs
    refine (put_twin hasked _ _).bind fun s1 t1 h1 => ?_
    cases (s.askDevid h id).1 with
    | none => exact ih _ h1
    | some data =>
      refine .ite (fun _ => put_twin h1 _ _) fun _ => ?_
      exact (putObject_twin h1 _ _ _).bind fun _ _ h2 => ih _ h2

theorem reqReadDeviceIdentification_twin (hh : h.Matches R h') (fuel : Nat) (hs : Twin R s t) :
    Alike (TwinResult R) (reqReadDeviceIdentification h fuel s)
      (reqReadDeviceIdentification h' fuel t) := by
  refine (get_twin hs 2).bind fun mei _ heq => ?_
  subst heq
  refine (get_twin hs 3).bind fun code _ heq => ?_
  subst heq
  refine (get_twin hs 4).bind fun id _ heq => ?_
  subst heq
  refine .ite (fun _ => .ok ⟨rfl, hs⟩) fun _ => ?_
  cases lastObjectId code with
  | none => exact .ok ⟨rfl, hs⟩
  | some last =>
    refine (put_twin hs _ _).bind fun s1 t1 h1 => ?_
    refine (devidLoop_twin hh last fuel id (h1.setPtr 8)).bind fun s2 t2 h2 => ?_
    refine (get_twin h2 6).bind fun next _ heq => ?_
    subst heq
    refine .ite (fun _ => ?_) fun _ => ?_
    · exact (put_twin h2 _ _).bind fun _ _ h3 => .ok ⟨rfl, h3⟩
    · exact (put_twin h2 _ _).bind fun _ _ h3 => .ok ⟨rfl, h3⟩

theorem busReqSwitch_twin (hh : h.Matches R h') (size fuel : Nat) (func : UInt8)
    (hs : Twin R s t) :
    Alike (TwinResult R) (busReqSwitch h size fuel func s) (busReqSwitch h' size fuel func t) := by
  unfold busReqSwitch
  refine .ite (fun _ => reqReadBools_twin hh.coil_get hs) fun _ => ?_
  refine .ite (fun _ => reqReadBools_twin hh.discrete_input_get hs) fun _ => ?_
  refine .ite (fun _ => reqReadRegs_twin hh.holding_register_get hs) fun _ => ?_
  refine .ite (fun _ => reqReadRegs_twin hh.input_register_get hs) fun _ => ?_
  refine .ite (fun _ => reqWriteSingleRegister_twin hh hs) fun _ => ?_
  refine .ite (fun _ => reqWriteSingleCoil_twin hh hs) fun _ => ?_
  refine .ite (fun _ => reqWriteMultipleRegisters_twin hh size hs) fun _ => ?_
  refine .ite (fun _ => reqWriteMultipleCoils_twin hh size hs) fun _ => ?_
  exact .ite (fun _ => reqReadDeviceIdentification_twin hh fuel hs) fun _ => .ok ⟨rfl, hs⟩

theorem respondError_twin (err : UInt8) (hs : Twin R s t) :
    Alike (Twin R) (respondError err s) (respondError err t) := by
  refine (get_twin hs 1).bind fun func _ heq => ?_
  subst heq
  exact (put_twin hs _ _).bind fun _ _ h1 => (put_twin h1 _ _).bind fun _ _ h2 => .ok (h2.setPtr 3)

theorem respond_twin (hs : Twin R s t) : Alike (Twin R) (respond s) (respond t) := by
  obtain ⟨app, rfl, happ⟩ := hs
  refine (Alike.refl _).bind fun bytes _ heq => ?_
  subst heq
  refine (put_twin ⟨app, rfl, happ⟩ _ _).bind fun s1 t1 ⟨app1, h1, happ1⟩ => .ok ?_
  subst h1
  exact ⟨app1, rfl, happ1⟩

theorem busReqRespond_twin (hh : h.Matches R h') (size fuel : Nat) (hs : Twin R s t) :
    Alike (fun r r' => r.1 = r'.1 ∧ Twin R r.2 r'.2) (busReqRespond h size fuel s)
      (busReqRespond h' size fuel t) := by
  refine (get_twin hs 0).bind fun addr _ heq => ?_
  subst heq
  refine (get_twin hs 1).bind fun func _ heq => ?_
  subst heq
  obtain ⟨app, rfl, happ⟩ := hs
  have hstart : Twin R { s with ptr := 0, rspSize := 0 }
      { s.withApp app with ptr := 0, rspSize := 0 } := ⟨app, rfl, happ⟩
  refine .ite (fun _ => .ok ⟨rfl, hstart⟩) fun _ => ?_
  refine (put_twin hstart _ _).bind fun s1 t1 h1 => ?_
  refine (busReqSwitch_twin hh size fuel func (h1.setPtr 2)).bind fun r r' hr => ?_
  have herr : Alike (Twin R) (if r.1 ≠ modbusOk then respondError r.1 r.2 else .ok r.2)
      (if r'.1 ≠ modbusOk then respondError r'.1 r'.2 else .ok r'.2) := by
    rw [hr.1]
    exact .ite (fun _ => respondError_twin _ hr.2) fun _ => .ok hr.2
  exact herr.bind fun _ _ h2 => (respond_twin h2).bind fun _ _ h3 => .ok ⟨rfl, h3⟩

/-! ## 3. Units -/

theorem setBus_twin {n : Node σ} {m : Node τ} (hn : NodeTwin R n m) {bus : PrModbus σ}
    {bus' : PrModbus τ} (hbus : Twin R bus bus') :
    NodeTwin R { n with bus := bus } { m with bus := bus' } := by
  obtain ⟨app, rfl, -⟩ := hn
  obtain ⟨app', rfl, happ⟩ := hbus
  exact ⟨app', rfl, happ⟩

theorem ite_twin {α β : Type} {Q : α → β → Prop} {c : Prop} [Decidable c] {a a' : α} {b b' : β}
    (h : Q a b) (h' : Q a' b') : Q (if c then a else a') (if c then b else b') := by
  split
  · exact h
  · exact h'

theorem modbusTxTry_twin {n : Node σ} {m : Node τ} (hn : NodeTwin R n m) :
    NodeTwin R (modbusTxTry n) (modbusTxTry m) := by
  obtain ⟨app, rfl, happ⟩ := hn
  exact ite_twin ⟨app, rfl, happ⟩ ⟨app, rfl, happ⟩

theorem modbusReqTry_twin {n : Node σ} {m : Node τ} (hh : h.Matches R h') (fuel : Nat)
    (hn : NodeTwin R n m) :
    Alike (ParsedTwin R) (modbusReqTry h fuel n) (modbusReqTry h' fuel m) := by
  have hhandle (size : Nat) :
      Alike (NodeTwin R) (busReqHandle h size fuel n) (busReqHandle h' size fuel m) := by
    rw [busReqHandle_eq, busReqHandle_eq]
    refine (busReqRespond_twin hh size fuel hn.bus).bind fun r r' ⟨hcalled, hbus⟩ => .ok ?_
    unfold Node.handled
    rw [← hcalled]
    split
    · refine modbusTxTry_twin ?_
      obtain ⟨app, rfl, -⟩ := hn
      obtain ⟨app', hr, happ⟩ := hbus
      rw [hr]
      exact ⟨app', rfl, happ⟩
    · exact setBus_twin hn hbus
  have htwin := hn
  obtain ⟨app, rfl, happ⟩ := hn
  refine .ite (fun _ => .ok ⟨rfl, htwin⟩) fun _ => ?_
  refine .ite (fun _ => .ok ⟨rfl, app, rfl, happ⟩) fun _ => ?_
  refine .ite (fun _ => .ok ⟨rfl, htwin⟩) fun _ => .ite (fun _ => .ok ⟨rfl, htwin⟩) fun _ => ?_
  exact (hhandle _).bind fun _ _ h1 => .ok ⟨rfl, h1⟩

theorem modbusRspTry_twin {n : Node σ} {m : Node τ} (past : UInt8) (hn : NodeTwin R n m) :
    ParsedTwin R (modbusRspTry past n) (modbusRspTry past m) := by
  obtain ⟨app, rfl, happ⟩ := hn
  refine ite_twin ⟨rfl, app, rfl, happ⟩ ?_
  refine ite_twin ⟨rfl, app, rfl, happ⟩ ?_
  refine ite_twin ⟨rfl, app, rfl, happ⟩ ?_
  exact ite_twin ⟨rfl, app, rfl, happ⟩ ⟨rfl, app, rfl, happ⟩

theorem onWork_twin {n : Node σ} {m : Node τ} (hh : h.Matches R h') (k fuel : Nat) (past : UInt8)
    (hn : NodeTwin R n m) :
    Alike (NodeTwin R) (onWork h k fuel past n) (onWork h' k fuel past m) := by
  have hreceived : NodeTwin R (n.received k) (m.received k) := by
    obtain ⟨app, rfl, happ⟩ := hn
    exact ⟨app, rfl, happ⟩
  have hsize : m.bus.rspSize = n.bus.rspSize := by
    obtain ⟨app, rfl, -⟩ := hn
    rfl
  unfold onWork
  rw [hsize]
  refine .ite (fun _ => .ok (modbusTxTry_twin hn)) fun _ => ?_
  refine (modbusReqTry_twin hh fuel hreceived).bind fun ⟨useful, n1⟩ ⟨useful', m1⟩ ⟨heq, h1⟩ => ?_
  obtain rfl : useful = useful' := heq
  refine .ite (fun _ => .ok h1) fun _ => ?_
  obtain ⟨heq, h2⟩ := modbusRspTry_twin past h1
  simp only
  rw [← heq]
  refine .ite (fun _ => .ok h2) fun _ => ?_
  generalize (modbusRspTry past n1).2 = n2 at h2 ⊢
  generalize (modbusRspTry past m1).2 = m2 at h2 ⊢
  obtain ⟨app, rfl, happ⟩ := h2
  exact .ite (fun _ => .ok ⟨app, rfl, happ⟩) fun _ => .ok ⟨app, rfl, happ⟩

theorem step_twin {n : Node σ} {m : Node τ} (hh : h.Matches R h') (hn : NodeTwin R n m) (a : Act) :
    Option.Rel (NodeTwin R) (step h n a) (step h' m a) := by
  cases a with
  | work k fuel past =>
    have hready : NodeTwin R { n with worker := false } { m with worker := false } := by
      obtain ⟨app, rfl, happ⟩ := hn
      exact ⟨app, rfl, happ⟩
    have hworker : m.worker = n.worker := by
      obtain ⟨app, rfl, -⟩ := hn
      rfl
    rw [step, step, hworker]
    exact ite_twin (onWork_twin hh k fuel past hready).toOption .none
  | arrive bytes =>
    obtain ⟨app, rfl, happ⟩ := hn
    exact .some ⟨app, rfl, happ⟩
  | expire =>
    obtain ⟨app, rfl, happ⟩ := hn
    exact ite_twin (.some ⟨app, rfl, happ⟩) .none
  | clear =>
    obtain ⟨app, rfl, happ⟩ := hn
    exact ite_twin (.some ⟨app, rfl, happ⟩) .none
  | drain len =>
    obtain ⟨app, rfl, happ⟩ := hn
    exact ite_twin (.some ⟨app, rfl, happ⟩) .none

end ReplaceLemmas

open ReplaceLemmas

/-- If the callbacks of two applications match, both units have the same runs. They stay the
same but for the applications: they make the same calls and write the same bytes. -/
theorem exec_replaced {h : Handler σ} {h' : Handler τ} (hh : h.Matches R h') {n : Node σ} {app : τ}
    (happ : R n.bus.calls n.bus.app app) (acts : List Act) :
    Option.Rel (NodeTwin R) (exec (step h) n acts) (exec (step h') (n.withApp app) acts) :=
  exec_rel (fun _ _ a hn => step_twin hh hn a) ⟨app, rfl, happ⟩ acts

end

namespace ReplaceLemmas

def oneWord : Handler UInt16 :=
  ⟨none, none, none, some fun v _ => (modbusOk, v, v), none, some fun _ _ v => (modbusOk, v), none⟩

def invertedWord : Handler UInt16 :=
  ⟨none, none, none, some fun v _ => (modbusOk, ~~~v, v), none,
    some fun _ _ v => (modbusOk, ~~~v), none⟩

theorem oneWord_matches : oneWord.Matches (fun _ v w => w = ~~~v) invertedWord where
  coil_get := .none
  discrete_input_get := .none
  coil_set := .none
  holding_register_get := .some fun _ v w _ hv => ⟨rfl, by rw [hv, UInt16.not_not], hv⟩
  input_register_get := .none
  holding_register_set := .some fun _ _ _ _ _ _ => ⟨rfl, rfl⟩
  devid := .none

def wordStarted : Node UInt16 :=
  ⟨⟨1, fun _ => 0, 0, 0, 0, []⟩, [], 512, 0, false, .idle, [], []⟩

def wordWritten : List Act := [.arrive (withCrc [1, 6, 0, 0, 0x12, 0x34]), .work bufferSize 0 0]

end ReplaceLemmas

open ReplaceLemmas in
theorem exec_replaced_word :
    Option.Rel (NodeTwin fun _ v w => w = ~~~v) (exec (step oneWord) wordStarted wordWritten)
      (exec (step invertedWord) (wordStarted.withApp 0xffff) wordWritten) :=
  exec_replaced oneWord_matches rfl wordWritten

/-! ## 4. The state of the application -/

/-- What a call does to the state of the application. -/
def Handler.effect (h : Handler σ) (app : σ) : Callback → σ
  | .coilGet a => h.coilGet.elim app fun f => (f app a).2.2
  | .discreteInputGet a => h.discreteInputGet.elim app fun f => (f app a).2.2
  | .coilSet a v => h.coilSet.elim app fun f => (f app a v).2
  | .holdingRegisterGet a => h.holdingRegisterGet.elim app fun f => (f app a).2.2
  | .inputRegisterGet a => h.inputRegisterGet.elim app fun f => (f app a).2.2
  | .holdingRegisterSet a v => h.holdingRegisterSet.elim app fun f => (f app a v).2
  | .devid id => h.devid.elim app fun f => (f app id).2

namespace ReplaceLemmas

variable {h : Handler σ} {P : List Callback → σ → Prop}

theorem getter_keeps (hP : ∀ calls app c, P calls app → P (calls ++ [c]) (h.effect app c))
    {event : UInt16 → Callback} {get : Option (σ → UInt16 → UInt8 × α × σ)}
    (heffect : ∀ f, get = some f → ∀ app a, h.effect app (event a) = (f app a).2.2) :
    Option.Rel (GetterMatches (fun calls s t => s = t ∧ P calls s) event) get get := by
  cases get with
  | none => exact .none
  | some f =>
    refine .some fun calls s t a ⟨heq, hs⟩ => ?_
    subst heq
    exact ⟨rfl, rfl, rfl, heffect f rfl s a ▸ hP calls s (event a) hs⟩

theorem setter_keeps (hP : ∀ calls app c, P calls app → P (calls ++ [c]) (h.effect app c))
    {event : UInt16 → α → Callback} {set : Option (σ → UInt16 → α → UInt8 × σ)}
    (heffect : ∀ f, set = some f → ∀ app a v, h.effect app (event a v) = (f app a v).2) :
    Option.Rel (SetterMatches (fun calls s t => s = t ∧ P calls s) event) set set := by
  cases set with
  | none => exact .none
  | some f =>
    refine .some fun calls s t a v ⟨heq, hs⟩ => ?_
    subst heq
    exact ⟨rfl, rfl, heffect f rfl s a v ▸ hP calls s (event a v) hs⟩

theorem matches_keeps (hP : ∀ calls app c, P calls app → P (calls ++ [c]) (h.effect app c)) :
    h.Matches (fun calls s t => s = t ∧ P calls s) h where
  coil_get := getter_keeps hP fun f hf app a => by rw [Handler.effect, hf]; rfl
  discrete_input_get := getter_keeps hP fun f hf app a => by rw [Handler.effect, hf]; rfl
  coil_set := setter_keeps hP fun f hf app a v => by rw [Handler.effect, hf]; rfl
  holding_register_get := getter_keeps hP fun f hf app a => by rw [Handler.effect, hf]; rfl
  input_register_get := getter_keeps hP fun f hf app a => by rw [Handler.effect, hf]; rfl
  holding_register_set := setter_keeps hP fun f hf app a v => by rw [Handler.effect, hf]; rfl
  devid := by
    cases hget : h.devid with
    | none => exact .none
    | some f =>
      refine .some fun calls s t id ⟨heq, hs⟩ => ?_
      subst heq
      have heffect : h.effect s (.devid id) = (f s id).2 := by
        rw [Handler.effect, hget]
        rfl
      exact ⟨rfl, rfl, heffect ▸ hP calls s (.devid id) hs⟩

/-- What every call keeps holds of the application in every run. -/
theorem exec_keeps (hP : ∀ calls app c, P calls app → P (calls ++ [c]) (h.effect app c))
    {n n' : Node σ} {acts : List Act} (hn : P n.bus.calls n.bus.app)
    (hrun : exec (step h) n acts = some n') : P n'.bus.calls n'.bus.app := by
  have hboth := exec_rel (fun _ _ a hn => step_twin (matches_keeps hP) hn a)
    (show NodeTwin _ n n from ⟨n.bus.app, rfl, rfl, hn⟩) acts
  rw [hrun] at hboth
  cases hboth with
  | some htwin =>
    obtain ⟨-, -, -, hkept⟩ := htwin
    exact hkept

end ReplaceLemmas

end Picore.Modbus
