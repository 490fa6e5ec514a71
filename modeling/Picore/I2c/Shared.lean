import Picore.I2c.EepromPages
import Picore.I2c.Gpio

/-!
# A chip on a shared bus

The drivers know the bus only through the transactions that they make on it. A chip is on a
larger bus when the transactions at its addresses do to it, and return, what they do on a bus
of its own. Then no driver can tell the two apart.

Results:
1. `HostsWrites`, `Hosts`: a bus with a smaller one on it.
2. `wired`, `wired_hosts`: any number of chips, each at its own addresses.
3. `write_hosted`, `writeRead_hosted`: the bus functions. `gpioUpdate_hosted`,
   `eepromRead_hosted`, `eepromWrite_hosted`: the drivers.
-/

namespace Picore.I2c

open Memory Fuel

variable {σ β ρ : Type}

/-! ## 1. Buses on a bus -/

/-- At the addresses `owns`, writes on `large` do what they do on `inst`. `R` relates the
states of the two buses. -/
structure HostsWrites (R : σ → β → Prop) (inst : I2cInst σ) (large : I2cInst β)
    (owns : UInt8 → Prop) : Prop where
  write : ∀ {c : σ} {s : β} {saddr : UInt8}, R c s → owns saddr → ∀ data nostop,
    R (inst.writeBlocking c saddr data nostop).2 (large.writeBlocking s saddr data nostop).2 ∧
      picoToPrErr large (large.writeBlocking s saddr data nostop).1 (toInt data.length) =
        picoToPrErr inst (inst.writeBlocking c saddr data nostop).1 (toInt data.length)

/-- The bus `large` has the bus `inst` on it for reads, too: at the addresses that `inst` owns, a
read returns the same bytes and the same code on both, and keeps `R`. -/
structure Hosts (R : σ → β → Prop) (inst : I2cInst σ) (large : I2cInst β)
    (owns : UInt8 → Prop) : Prop extends HostsWrites R inst large owns where
  read : ∀ {c : σ} {s : β} {saddr : UInt8}, R c s → owns saddr → ∀ n nostop,
    R (inst.readBlocking c saddr n nostop).2.2 (large.readBlocking s saddr n nostop).2.2 ∧
      (large.readBlocking s saddr n nostop).2.1 = (inst.readBlocking c saddr n nostop).2.1 ∧
      picoToPrErr large (large.readBlocking s saddr n nostop).1 (toInt n) =
        picoToPrErr inst (inst.readBlocking c saddr n nostop).1 (toInt n)

/-! ## 2. Chips at their own addresses -/

section Wired

variable {κ : Type} [DecidableEq κ] {chip : κ → Type}

/-- The buses `inst` joined into one. `owner` has the chip that answers to each address. -/
def wired (inst : ∀ k, I2cInst (chip k)) (owner : UInt8 → Option κ) : I2cInst (∀ k, chip k) where
  errorGeneric := -1
  errorTimeout := -2
  writeBlocking s saddr data nostop :=
    match owner saddr with
    | none => (-1, s)
    | some k =>
      let (err, c) := (inst k).writeBlocking (s k) saddr data nostop
      (err, Function.update s k c)
  readBlocking s saddr n nostop :=
    match owner saddr with
    | none => (-1, [], s)
    | some k =>
      let (err, rdata, c) := (inst k).readBlocking (s k) saddr n nostop
      (err, rdata, Function.update s k c)

/-- The bus whose chip `k` is in the state `c`. -/
def Only (s : ∀ k, chip k) (k : κ) (c : chip k) (t : ∀ k, chip k) : Prop :=
  t = Function.update s k c

theorem wired_hosts (inst : ∀ k, I2cInst (chip k)) (owner : UInt8 → Option κ) (s : ∀ k, chip k)
    (k : κ) (hgeneric : (inst k).errorGeneric = -1) (htimeout : (inst k).errorTimeout = -2) :
    Hosts (Only s k) (inst k) (wired inst owner) (fun saddr => owner saddr = some k) := by
  have herr (err count : Int) :
      picoToPrErr (wired inst owner) err count = picoToPrErr (inst k) err count := by
    rw [picoToPrErr, picoToPrErr, hgeneric, htimeout]
    rfl
  refine ⟨⟨?_⟩, ?_⟩
  · rintro c t saddr rfl ha data nostop
    have hwrite : (wired inst owner).writeBlocking (Function.update s k c) saddr data nostop =
        (((inst k).writeBlocking c saddr data nostop).1,
          Function.update s k ((inst k).writeBlocking c saddr data nostop).2) := by
      simp only [wired, ha, Function.update_self, Function.update_idem]
    rw [hwrite]
    exact ⟨rfl, herr _ _⟩
  · rintro c t saddr rfl ha n nostop
    have hread : (wired inst owner).readBlocking (Function.update s k c) saddr n nostop =
        (((inst k).readBlocking c saddr n nostop).1, ((inst k).readBlocking c saddr n nostop).2.1,
          Function.update s k ((inst k).readBlocking c saddr n nostop).2.2) := by
      simp only [wired, ha, Function.update_self, Function.update_idem]
    rw [hread]
    exact ⟨rfl, rfl, herr _ _⟩

end Wired

/-! ## 3. The drivers -/

/-- Two calls, one on each bus, return the same, and leave the buses related. -/
def Same (R : σ → β → Prop) (x : ρ × σ) (y : ρ × β) : Prop := y.1 = x.1 ∧ R x.2 y.2

section Drivers

variable {R : σ → β → Prop} {inst : I2cInst σ} {large : I2cInst β} {owns : UInt8 → Prop}
  {c : σ} {s : β} {saddr : UInt8}

theorem write_hosted (h : HostsWrites R inst large owns) (hr : R c s) (ha : owns saddr)
    (data : List UInt8) :
    Same R (prI2cBusWrite inst c saddr data) (prI2cBusWrite large s saddr data) := by
  obtain ⟨h1, herr⟩ := h.write hr ha data false
  exact ⟨herr, h1⟩

theorem writeRead_hosted (h : Hosts R inst large owns) (hr : R c s) (ha : owns saddr)
    (wdata : List UInt8) (n : Nat) :
    let x := prI2cBusWriteRead inst c saddr wdata n
    let y := prI2cBusWriteRead large s saddr wdata n
    y.1 = x.1 ∧ y.2.1 = x.2.1 ∧ R x.2.2 y.2.2 := by
  obtain ⟨h1, herr⟩ := h.write hr ha wdata true
  obtain ⟨h2, hdata, herr2⟩ := h.read h1 ha n false
  simp only [prI2cBusWriteRead, herr]
  generalize picoToPrErr inst (inst.writeBlocking c saddr wdata true).1 _ = err
  cases err with
  | ok => exact ⟨herr2, hdata, h2⟩
  | _ => exact ⟨rfl, rfl, h1⟩

/-! ### The expanders -/

theorem tca9534Update_hosted (h : HostsWrites R inst large owns) (hr : R c s) (ha : owns saddr)
    (reg : UInt8) (flip : Bool) (cache mask value : UInt32) :
    let x := tca9534Update inst c saddr reg flip cache mask value
    let y := tca9534Update large s saddr reg flip cache mask value
    y.1 = x.1 ∧ Same R x.2 y.2 :=
  ⟨rfl, write_hosted h hr ha _⟩

theorem pca9575Update_hosted (h : HostsWrites R inst large owns) (hr : R c s) (ha : owns saddr)
    (reg : UInt8) (flip : Bool) (cache mask value : UInt32) :
    let x := pca9575Update inst c saddr reg flip cache mask value
    let y := pca9575Update large s saddr reg flip cache mask value
    y.1 = x.1 ∧ Same R x.2 y.2 := by
  refine ⟨rfl, ?_⟩
  simp only [pca9575Update, pca9575Send]
  split
  · exact ⟨rfl, hr⟩
  split
  · exact write_hosted h hr ha _
  split
  · exact write_hosted h hr ha _
  · exact write_hosted h hr ha _

/-! ### The EEPROMs -/

theorem retry_hosted {α α' : Type} {Q : α → α' → Prop} {attempt : α → PrError × α}
    {attempt' : α' → PrError × α'} (h : ∀ a a', Q a a' → Same Q (attempt a) (attempt' a'))
    (n : Nat) {a : α} {a' : α'} (hq : Q a a') :
    Same Q (retry attempt n a) (retry attempt' n a') := by
  induction n generalizing a a' with
  | zero => exact ⟨rfl, hq⟩
  | succ n ih =>
    obtain ⟨herr, hnext⟩ := h a a' hq
    simp only [retry, herr]
    split
    · exact ⟨rfl, hnext⟩
    · exact ih hnext

/-- Two writes, one on each bus, stand at the same place: the buses are related, and the local
variables are equal. -/
structure SameState (R : σ → β → Prop) (st : WriteState σ) (st' : WriteState β) : Prop where
  bus : R st.bus st'.bus
  offset : st'.offset = st.offset
  saddr : st'.saddr = st.saddr
  buf : st'.buf = st.buf

variable {p : Part}

theorem writeChunk_hosted (h : HostsWrites R inst large owns) {st : WriteState σ}
    {st' : WriteState β} (hst : SameState R st st') {addr : Nat}
    (ha : owns (p.slave saddr (addr + st.offset))) (data : List UInt8) (size : Nat) :
    Same (SameState R) (writeChunk p inst saddr addr data size st)
      (writeChunk p large saddr addr data size st') ∧
      owns (writeChunk p inst saddr addr data size st).2.saddr := by
  have hslave : chunkSlave p saddr addr st' = chunkSlave p saddr addr st := by
    rw [chunkSlave, hst.offset, chunkSlave]
  have hbuf : chunkBuf p addr data size st' = chunkBuf p addr data size st := by
    rw [chunkBuf, hst.offset, hst.buf, chunkBuf]
  have hown : owns (chunkSlave p saddr addr st) := ha
  have hretry := retry_hosted (Q := R) (fun c s hr => write_hosted h hr hown
    (load (chunkBuf p addr data size st) 0 (chuckSize p addr size st.offset + p.addrSize)))
    128 hst.bus
  rcases hx : retry (fun c => prI2cBusWrite inst c (chunkSlave p saddr addr st)
    (load (chunkBuf p addr data size st) 0 (chuckSize p addr size st.offset + p.addrSize)))
    128 st.bus with ⟨err, bus⟩
  rcases hy : retry (fun s => prI2cBusWrite large s (chunkSlave p saddr addr st)
    (load (chunkBuf p addr data size st) 0 (chuckSize p addr size st.offset + p.addrSize)))
    128 st'.bus with ⟨err', bus'⟩
  rw [hx, hy] at hretry
  obtain ⟨rfl, hbus⟩ : err' = err ∧ R bus bus' := hretry
  rw [← hslave, ← hbuf, ← hst.offset] at hy
  rw [writeChunk_eq p inst saddr addr data size st hx,
    writeChunk_eq p large saddr addr data size st' hy, hslave, hbuf, hst.offset]
  exact ⟨⟨rfl, hbus, rfl, rfl, rfl⟩, hown⟩

/-- The loop, over a range of the chip. Behind it the address is one of the chip. -/
theorem writeLoop_hosted (h : HostsWrites R inst large owns) {addr size : Nat}
    (hown : ∀ a, a < addr + size → owns (p.slave saddr a)) (data : List UInt8) (fuel : Nat) :
    ∀ {st : WriteState σ} {st' : WriteState β}, SameState R st st' →
      owns st.saddr ∨ st.offset < size →
      Alike (fun x y => Same (SameState R) x y ∧ (x.1 = .ok → owns x.2.saddr))
        (writeLoop p inst saddr addr data size fuel st)
        (writeLoop p large saddr addr data size fuel st') := by
  induction fuel with
  | zero => exact fun _ _ => .error .timeout
  | succ fuel ih =>
    intro st st' hst hslave
    rw [writeLoop, writeLoop, hst.offset]
    refine Alike.ite (fun hlt => ?_) fun hge => ?_
    · obtain ⟨⟨herr, hnext⟩, howns⟩ :=
        writeChunk_hosted h hst (hown _ (Nat.add_lt_add_left hlt addr)) data size
      simp only [herr]
      refine Alike.ite (fun hne => .ok ⟨⟨rfl, hnext⟩, fun hok => absurd hok hne⟩) fun _ => ?_
      exact ih hnext (.inl howns)
    · exact .ok ⟨⟨rfl, hst⟩, fun _ => hslave.resolve_right hge⟩

theorem pollOnce_hosted (h : Hosts R inst large owns) {st : WriteState σ} {st' : WriteState β}
    (hst : SameState R st st' ∧ owns st.saddr) :
    Same (fun t t' => SameState R t t' ∧ owns t.saddr) (pollOnce p inst st)
      (pollOnce p large st') := by
  obtain ⟨hst, hown⟩ := hst
  obtain ⟨herr, hdata, hbus⟩ := writeRead_hosted h hst.bus hown (load st.buf 0 p.addrSize) 1
  simp only [pollOnce, hst.saddr, hst.buf]
  exact ⟨herr, ⟨hbus, hst.offset, rfl, by rw [hdata]⟩, hown⟩

theorem pollReady_hosted (h : Hosts R inst large owns) {st : WriteState σ} {st' : WriteState β}
    (hst : SameState R st st') (hown : owns st.saddr) :
    Same (SameState R) (pollReady p inst st) (pollReady p large st') := by
  rw [pollReady_eq, pollReady_eq]
  obtain ⟨herr, hnext, -⟩ := retry_hosted (fun _ _ => pollOnce_hosted (p := p) h) 128 ⟨hst, hown⟩
  exact ⟨herr, hnext⟩

theorem eepromRead_hosted (h : Hosts R inst large owns) (hr : R c s) {addr n : Nat}
    (hown : outOfRange p addr n = false → owns (p.slave saddr addr)) :
    let x := eepromRead p inst c saddr addr n
    let y := eepromRead p large s saddr addr n
    y.1 = x.1 ∧ y.2.1 = x.2.1 ∧ R x.2.2 y.2.2 := by
  simp only [eepromRead]
  split
  · exact ⟨rfl, rfl, hr⟩
  · next hin => exact writeRead_hosted h hr (hown (Bool.eq_false_iff.mpr hin)) _ _

theorem eepromWrite_hosted (h : Hosts R inst large owns) (hr : R c s) {type : PrI2cEepromType}
    {addr size : Nat} (hpos : 0 < size)
    (hown : outOfRange type.part addr size = false →
      ∀ a, a < addr + size → owns (type.part.slave saddr a)) (data : List UInt8)
    (saddr0 : UInt8) (buf0 : Mem UInt8) (fuel : Nat) :
    Alike (Same R) (prI2cEepromWrite type inst c saddr addr data size saddr0 buf0 fuel)
      (prI2cEepromWrite type large s saddr addr data size saddr0 buf0 fuel) := by
  rw [prI2cEepromWrite_eq, prI2cEepromWrite_eq]
  refine Alike.ite (fun _ => .ok ⟨rfl, hr⟩) fun hin => ?_
  have hown := hown (Bool.eq_false_iff.mpr hin)
  have hstart : SameState R ⟨c, 0, saddr0, buf0⟩ ⟨s, 0, saddr0, buf0⟩ := ⟨hr, rfl, rfl, rfl⟩
  have hloop := writeLoop_hosted h.toHostsWrites hown data fuel hstart (.inr hpos)
  refine hloop.bind fun x y ⟨⟨herr, hst⟩, hslave⟩ => ?_
  simp only [herr]
  refine Alike.ite (fun _ => .ok ⟨rfl, hst.bus⟩) fun hok => ?_
  obtain ⟨hpoll, hst'⟩ := pollReady_hosted (p := type.part) h hst (hslave (not_not.mp hok))
  exact .ok ⟨by rw [hpoll], hst'.bus⟩

end Drivers

end Picore.I2c
