import Picore.Lib.Crc

/-!
# The CRC (`src/crc32/crc32.c`)

The header promises CRC-32C, with the Castagnoli polynomial. The table is built from
0xEDB88320, which is the polynomial of the CRC-32 of Ethernet.

Results:
1. `reflectedCrc`: the bit by bit CRC with any polynomial; `reflectedCrc_eq_run`.
2. `prCrc32cUpdate_eq`: the function is that with the polynomial of its table;
   `update_reflected`: in one call or in several.
3. `update_crc32c_iff`: the inputs on which it is CRC-32C. `update_crc32c_last`: one in 256 at
   most. `check_value_differs`: the usual test message is none of them.
-/

namespace Picore.Crc32

/-- The macro `U`: the polynomial, shifted to where bit `sh` of the index leaves it. -/
def u (x sh : UInt32) : UInt32 := if x &&& (1 <<< sh) ≠ 0 then 0xEDB88320 >>> (3 - sh) else 0

/-- The macro `T`: the table entry of four bits. -/
def tEntry (x : UInt32) : UInt32 := u x 0 ^^^ u x 1 ^^^ u x 2 ^^^ u x 3

/-- The table of `pr_crc32c_update`. -/
def t : Vector UInt32 16 :=
  #v[tEntry 0, tEntry 1, tEntry 2, tEntry 3,
    tEntry 4, tEntry 5, tEntry 6, tEntry 7,
    tEntry 8, tEntry 9, tEntry 10, tEntry 11,
    tEntry 12, tEntry 13, tEntry 14, tEntry 15]

theorem low_lt (crc : UInt32) : (crc &&& 0xf).toNat < 16 := by
  rw [UInt32.toNat_and]
  exact Nat.lt_of_le_of_lt Nat.and_le_right (by decide)

def nibble (crc : UInt32) : UInt32 := (crc >>> 4) ^^^ t.get ⟨(crc &&& 0xf).toNat, low_lt crc⟩

def prCrc32cUpdate (crc : UInt32) (data : List UInt8) : UInt32 :=
  ~~~(data.foldl (fun crc d => nibble (nibble (crc ^^^ d.toUInt32))) (~~~crc))

/-! ## 1. Bit by bit -/

def bitStep (poly crc : UInt32) : UInt32 :=
  if crc &&& 1 = 1 then (crc >>> 1) ^^^ poly else crc >>> 1

/-- The reflected CRC with complemented input and output, continued from `crc`. -/
def reflectedCrc (poly crc : UInt32) (data : List UInt8) : UInt32 :=
  ~~~(data.foldl (fun crc d => (bitStep poly)^[8] (crc ^^^ d.toUInt32)) (~~~crc))

def castagnoli : UInt32 := 0x82F63B78

/-- The reflected polynomial of the macros, as the source writes it. It is that of Ethernet. -/
def ethernet : UInt32 := 0xEDB88320

/-- CRC-32C as the header promises it: the reflected CRC with the polynomial of Castagnoli, on top
of the CRC of the bytes before. -/
def crc32c (crc : UInt32) (data : List UInt8) : UInt32 := reflectedCrc castagnoli crc data

theorem low_bit (crc : UInt32) : crc &&& 1 = 1 ↔ crc.toBitVec.getLsbD 0 = true := by
  rw [← UInt32.toBitVec_inj, UInt32.toBitVec_and]
  show crc.toBitVec &&& 1#32 = 1#32 ↔ _
  rw [BitVec.and_one_eq_setWidth_ofBool_getLsbD]
  cases crc.toBitVec.getLsbD 0 <;> decide

theorem bitStep_toBitVec (poly crc : UInt32) :
    (bitStep poly crc).toBitVec = Crc.step poly.toBitVec crc.toBitVec := by
  unfold bitStep Crc.step
  split
  · next h => rw [(low_bit crc).mp h]; rfl
  · next h => rw [Bool.eq_false_iff.mpr fun hbit => h ((low_bit crc).mpr hbit)]; simp [Crc.select]

theorem iterate_bitStep_toBitVec (poly : UInt32) (n : Nat) (crc : UInt32) :
    ((bitStep poly)^[n] crc).toBitVec = (Crc.step poly.toBitVec)^[n] crc.toBitVec := by
  induction n generalizing crc with
  | zero => rfl
  | succ n ih => rw [Function.iterate_succ_apply, Function.iterate_succ_apply, ih, bitStep_toBitVec]

def words (data : List UInt8) : List (BitVec 32) := data.map fun d => d.toUInt32.toBitVec

theorem reflectedCrc_eq_run (poly crc : UInt32) (data : List UInt8) :
    (reflectedCrc poly crc data).toBitVec =
      ~~~Crc.run poly.toBitVec 8 (~~~crc.toBitVec) (words data) := by
  have hfold : ∀ s : UInt32,
      (data.foldl (fun crc d => (bitStep poly)^[8] (crc ^^^ d.toUInt32)) s).toBitVec =
        Crc.run poly.toBitVec 8 s.toBitVec (words data) := by
    induction data with
    | nil => exact fun _ => rfl
    | cons d data ih =>
      intro s
      rw [List.foldl_cons, ih, iterate_bitStep_toBitVec]
      rfl
  rw [reflectedCrc, UInt32.toBitVec_not, hfold, UInt32.toBitVec_not]

/-! ## 2. The table -/

theorem t_eq : ∀ i : Fin 16, t.get i = (bitStep ethernet)^[4] (UInt32.ofNat i) := by
  decide

theorem nibble_eq (crc : UInt32) : nibble crc = (bitStep ethernet)^[4] crc := by
  have hentry : t.get ⟨(crc &&& 0xf).toNat, low_lt crc⟩ = (bitStep ethernet)^[4] (crc &&& 0xf) := by
    rw [t_eq, UInt32.ofNat_toNat]
  refine UInt32.toBitVec_inj.mp ?_
  rw [nibble, hentry, UInt32.toBitVec_xor, iterate_bitStep_toBitVec, iterate_bitStep_toBitVec,
    Crc.iterate_step_eq _ 4 crc.toBitVec]
  rfl

/-- The nibble table is built from the polynomial of Ethernet. -/
theorem prCrc32cUpdate_eq (crc : UInt32) (data : List UInt8) :
    prCrc32cUpdate crc data = reflectedCrc ethernet crc data := by
  have hbyte (crc : UInt32) : nibble (nibble crc) = (bitStep ethernet)^[8] crc := by
    rw [nibble_eq, nibble_eq, ← Function.iterate_add_apply]
  simp only [prCrc32cUpdate, reflectedCrc, hbyte]

/-- The function equals the bit by bit CRC with the polynomial of its macros, for every state and
every length, and it goes on with what it has returned: a message may come in pieces. -/
theorem update_reflected (crc : UInt32) (a b : List UInt8) :
    prCrc32cUpdate crc a = reflectedCrc ethernet crc a ∧
      prCrc32cUpdate (prCrc32cUpdate crc a) b = prCrc32cUpdate crc (a ++ b) := by
  refine ⟨prCrc32cUpdate_eq crc a, ?_⟩
  simp only [prCrc32cUpdate, UInt32.not_not, List.foldl_append]

/-! ## 3. Main result -/

/-- The product of both polynomials, without its leading term. -/
def product : BitVec 32 × BitVec 32 := (0xeeb72dc9, 0x13a37658)

/-- The remainder of the input, after the complemented `crc`, modulo the product of both
polynomials, in two words: the first has the degrees below 32. -/
def remainder (crc : UInt32) (data : List UInt8) : BitVec 32 × BitVec 32 :=
  Crc.run2 product 8 (~~~crc.toBitVec, 0) (words data)

theorem ethernet_divides : Crc.Divides ethernet.toBitVec product := by
  unfold Crc.Divides
  decide +kernel

theorem castagnoli_divides : Crc.Divides castagnoli.toBitVec product := by
  unfold Crc.Divides
  decide +kernel

/-- The inverse of what `Crc.Coprime` asks to be injective: its values on single bits. -/
def inverse : List (BitVec 32) :=
  [0xda7163d4, 0x93a42b19, 0x000eba83, 0x275b99b7, 0x69f1dfdf, 0xf4a5530f, 0xe94aa61e, 0xf5d3a08d,
    0xcce1adab, 0xbe85b7e7, 0x5a4d837f, 0xb49b06fe, 0x69360dfc, 0xd26c1bf8, 0x839edb41, 0x073db682,
    0x0e7b6d04, 0x3bb036b9, 0x77606d72, 0xeec0dae4, 0xdd81b5c8, 0x9c458721, 0x1fcde2f3, 0x18dd2957,
    0x31ba52ae, 0x443249ed, 0xaf227f6b, 0x5e44fed6, 0x9bcf111d, 0x10d8ce8b, 0x06f771a7, 0x0deee34e]

theorem coprime : Crc.Coprime ethernet.toBitVec castagnoli.toBitVec := by
  refine Crc.coprime_of_inverse (fun i => inverse.getD i 0) ?_
  decide +kernel

/-- The function is CRC-32C on the inputs whose remainder modulo the product of the two polynomials
has a degree below 32, and on no others. Both are remainders of the same input, and the polynomials
have no common factor. -/
theorem update_crc32c_iff (crc : UInt32) (data : List UInt8) :
    prCrc32cUpdate crc data = crc32c crc data ↔ (remainder crc data).2 = 0 := by
  rw [prCrc32cUpdate_eq, crc32c, ← UInt32.toBitVec_inj, reflectedCrc_eq_run, reflectedCrc_eq_run,
    BitVec.not_inj]
  exact Crc.run_eq_iff ethernet_divides castagnoli_divides coprime 8 _ _

/-- A byte that is not 0 does not leave a remainder of degree below 32. -/
theorem byte_remainder :
    ∀ b < 256, ((Crc.step2 product)^[8] (BitVec.ofNat 32 b, 0)).2 = 0 → b = 0 := by
  decide +kernel

/-- After the same bytes, the function is CRC-32C for one last byte at most. -/
theorem update_crc32c_last {crc : UInt32} {data : List UInt8} {d d' : UInt8}
    (h : prCrc32cUpdate crc (data ++ [d]) = crc32c crc (data ++ [d]))
    (h' : prCrc32cUpdate crc (data ++ [d']) = crc32c crc (data ++ [d'])) : d = d' := by
  have hdiff : d.toUInt32.toBitVec ^^^ d'.toUInt32.toBitVec =
      BitVec.ofNat 32 (d ^^^ d').toNat := by
    rw [← UInt32.toBitVec_xor, ← UInt8.toUInt32_xor]
    exact BitVec.eq_of_toNat_eq (by simp)
  have hlast (d : UInt8) : remainder crc (data ++ [d]) =
      Crc.run2 product 8 (~~~crc.toBitVec, 0) (words data ++ [d.toUInt32.toBitVec]) := by
    rw [remainder, words, List.map_append]
    rfl
  rw [update_crc32c_iff, hlast] at h h'
  have hzero := Crc.run2_last product 8 (~~~crc.toBitVec, 0) (words data) d.toUInt32.toBitVec
    d'.toUInt32.toBitVec
  rw [h, h', hdiff] at hzero
  have hsame : (d ^^^ d').toNat = 0 := byte_remainder _ (d ^^^ d').toNat_lt hzero.symm
  exact UInt8.xor_eq_zero_iff.mp (UInt8.toNat_inj.mp hsame)

def testMessage : List UInt8 := [0x31, 0x32, 0x33, 0x34, 0x35, 0x36, 0x37, 0x38, 0x39]

/-- For the digits from 1 to 9 the function returns the check value of Ethernet, and not that of
CRC-32C. -/
theorem check_value_differs :
    prCrc32cUpdate 0 testMessage = 0xCBF43926 ∧ crc32c 0 testMessage = 0xE3069283 ∧
      prCrc32cUpdate 0 testMessage ≠ crc32c 0 testMessage := by
  decide +kernel

end Picore.Crc32
