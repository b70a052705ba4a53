import NginBase.Hashing.CRC
import NginBase.Library.Register

namespace NginBase.Hashing.CRC

open BitVec Library Engine Register List

open Library (Register rightShifting leftShifting lowOctet highOctet spread octets absorb sliced)

variable {w : Nat}

section

variable (model : CRCModel w)

theorem eight_le (model : CRCModel w) : 8 ≤ w := by
  have := model.supported
  omega

def register : Register w := if model.refin then rightShifting model.polynomial else leftShifting model.polynomial

theorem register_right (refin : model.refin = true) : register model = rightShifting model.polynomial := if_pos refin

theorem register_left (refin : ¬ model.refin = true) : register model = leftShifting model.polynomial := if_neg refin

theorem masked_bit (x : BitVec w) (i : Nat) (inside : i < w) : x &&& (1#w <<< i) ≠ 0 ↔ x.getLsbD i = true := by
  have mask : x &&& (1#w <<< i) = if x.getLsbD i then twoPow w i else 0#w := and_twoPow x i
  have power : twoPow w i ≠ 0 := by
    intro zero
    have bit := congrArg (getLsbD · i) zero
    simp [inside] at bit
  rw [mask]
  cases x.getLsbD i
  · simp
  · simpa using power

theorem bitStep_eq (crc : BitVec w) : bitStep model crc = (register model).step crc := by
  have width := eight_le model
  unfold bitStep
  by_cases refin : model.refin = true
  · have low := masked_bit crc 0 (by omega)
    rw [shiftLeft_zero] at low
    rw [if_pos refin, register_right model refin]
    exact if_congr low rfl rfl
  · have high := masked_bit crc (w - 1) (by omega)
    rw [if_neg refin, register_left model refin]
    exact if_congr high rfl rfl

theorem bitSteps_eq (n : Nat) (crc : BitVec w) : bitSteps model n crc = (register model).steps n crc := by
  induction n generalizing crc with
  | zero => rfl
  | succ n ih => rw [bitSteps, bitStep_eq, ih, steps]

end

section

variable (model : CRCModel w)

theorem get_ofFn {n : Nat} (f : Fin n → BitVec w) (i : Fin n) : (Vector.ofFn f).get i = f i :=
  Vector.getElem_ofFn i.isLt

theorem lookup_ofFn (f : Fin 256 → BitVec w) (index : BitVec 8) : lookup (.ofFn f) index = f index.toFin :=
  get_ofFn f index.toFin

theorem lookup_table0 (index : BitVec 8) : lookup (makeTable0 model) index =
      (register model).steps 8 (if model.refin then index.setWidth w else index.setWidth w <<< (w - 8)) := by
  have width := eight_le model
  unfold makeTable0
  rw [lookup_ofFn, bitSteps_eq]
  by_cases refin : model.refin = true
  · simp [refin]
  by_cases long : 8 < w
  · simp [refin, long]
  · obtain rfl : w = 8 := by omega
    simp

theorem octet_shifted_out (byte : BitVec 8) : byte.setWidth w >>> 8 = 0 := by
  apply eq_of_getLsbD_eq
  intro i inside
  simp

theorem octet_shifted_off (wide : 8 ≤ w) (byte : BitVec 8) : (byte.setWidth w <<< (w - 8)) <<< 8 = 0 := by
  rw [← shiftLeft_add]
  exact shiftLeft_eq_zero (by omega)

theorem octet_shifted_back (wide : 8 ≤ w) (byte : BitVec 8) : (byte.setWidth w <<< (w - 8)) >>> (w - 8) = byte.setWidth w := by
  apply eq_of_getLsbD_eq
  intro i inside
  rw [getLsbD_ushiftRight, getLsbD_shiftLeft]
  by_cases low : i < 8
  · have room : w - 8 + i < w := by omega
    simp [room]
  · simp [getLsbD_of_ge byte i (by omega)]

theorem shiftRight8_eq (wide : 8 ≤ w) (crc : BitVec w) : shiftRight8 crc = crc >>> 8 := by
  unfold shiftRight8
  by_cases long : 8 < w
  · exact if_pos long
  · rw [if_neg long]
    exact (ushiftRight_eq_zero (by omega)).symm

theorem tableByteUpdate_eq : tableByteUpdate model (makeTable0 model) = bitwiseByteUpdate model := by
  have width := eight_le model
  funext crc byte
  unfold tableByteUpdate bitwiseByteUpdate
  by_cases narrow : w = 8
  · subst narrow
    rw [bitSteps_eq, lookup_table0]
    simp
  · rw [if_neg narrow]
    by_cases refin : model.refin = true
    · rw [if_pos refin, if_pos (.inr refin), bitSteps_eq, lookup_table0, if_pos refin, register_right model refin,
        rightShifting_octet _ (crc ^^^ _), ushiftRight_xor_distrib, octet_shifted_out, shiftRight8_eq width]
      exact congrArg _ xor_zero.symm
    · have octet : highOctet (crc ^^^ (byte.setWidth w <<< (w - 8))) =
          ((crc >>> (w - 8)) ^^^ byte.setWidth w).setWidth 8 := by
        rw [highOctet, ushiftRight_xor_distrib, octet_shifted_back width]
      rw [if_neg refin, if_neg (not_or.mpr ⟨narrow, refin⟩), bitSteps_eq, lookup_table0, if_neg refin,
        register_left model refin, leftShifting_octet width _ (crc ^^^ _), octet, shiftLeft_xor_distrib,
        octet_shifted_off width]
      exact congrArg _ xor_zero.symm

end

section

variable {model : CRCModel w} (refin : model.refin = true)

theorem masked_octet (x : BitVec w) : (x &&& 0xFF).setWidth 8 = lowOctet x := by
  apply eq_of_getLsbD_eq
  intro i inside
  have ones : (255 : Nat).testBit i = decide (i < 8) := by
    rw [show (255 : Nat) = 2 ^ 8 - 1 from rfl, Nat.testBit_two_pow_sub_one]
  have mask : (0xFF : BitVec w).getLsbD i = decide (i < w) := by
    rw [show (0xFF : BitVec w) = BitVec.ofNat w 255 from rfl, BitVec.getLsbD_ofNat, ones]
    simp [inside]
  rw [lowOctet, getLsbD_setWidth, getLsbD_and, mask]
  by_cases room : i < w
  · simp [room]
  · simp [getLsbD_of_ge x i (by omega)]

theorem byteAt_eq (x : BitVec w) (shift : Nat) : byteAt x shift = lowOctet (x >>> shift) := masked_octet (x >>> shift)

include refin

theorem lookup_makeTables (slice : Nat) (index : BitVec 8) : lookup (makeTables (makeTable0 model) slice) index =
      (rightShifting model.polynomial).steps (8 * (slice + 1)) (index.setWidth w) := by
  induction slice generalizing index with
  | zero =>
    rw [makeTables, lookup_table0, if_pos refin, register_right model refin]
  | succ slice ih =>
    have previous := ih index
    rw [lookup] at previous
    rw [makeTables, nextTable, lookup_ofFn, previous, masked_octet, lookup_table0, if_pos refin,
      register_right model refin, shiftRight8_eq (eight_le model), ← rightShifting_octet, ← steps_add]
    rfl

theorem bitwiseByteUpdate_absorb : bitwiseByteUpdate model = absorb model.polynomial := by
  funext crc byte
  rw [bitwiseByteUpdate, if_pos (.inr refin), bitSteps_eq, register_right model refin, absorb]

omit refin

theorem loadLittleEndian32_spread (d₀ d₁ d₂ d₃ : BitVec 8) : loadLittleEndian32 d₀ d₁ d₂ d₃ = spread [d₀, d₁, d₂, d₃] := by
  simp only [spread_cons_or, spread_nil, BitVec.shiftLeft_or_distrib, ← BitVec.shiftLeft_add, BitVec.or_assoc,
    loadLittleEndian32]
  simp

theorem loadLittleEndian64_spread (d₀ d₁ d₂ d₃ d₄ d₅ d₆ d₇ : BitVec 8) :
    loadLittleEndian64 d₀ d₁ d₂ d₃ d₄ d₅ d₆ d₇ = spread [d₀, d₁, d₂, d₃, d₄, d₅, d₆, d₇] := by
  simp only [spread_cons_or, spread_nil, BitVec.shiftLeft_or_distrib, ← BitVec.shiftLeft_add, BitVec.or_assoc,
    loadLittleEndian64]
  simp

theorem slicingBlock32_eq {model : CRCModel 32} (refin : model.refin = true) (crc : BitVec 32)
    (d₀ d₁ d₂ d₃ d₄ d₅ d₆ d₇ : BitVec 8) : slicingBlock32 (makeTables (makeTable0 model)) crc d₀ d₁ d₂ d₃ d₄ d₅ d₆ d₇ =
      [d₀, d₁, d₂, d₃, d₄, d₅, d₆, d₇].foldl (absorb model.polynomial) crc := by
  have first := absorb_all model.polynomial crc [d₀, d₁, d₂, d₃] (by simp)
  have second := absorb_all model.polynomial ([d₀, d₁, d₂, d₃].foldl (absorb model.polynomial) crc)
    [d₄, d₅, d₆, d₇] (by simp)
  rw [show [d₀, d₁, d₂, d₃, d₄, d₅, d₆, d₇] = [d₀, d₁, d₂, d₃] ++ [d₄, d₅, d₆, d₇] from rfl, foldl_append, second,
    first, steps_xor, ← steps_add, ← loadLittleEndian32_spread]
  generalize held : crc ^^^ loadLittleEndian32 d₀ d₁ d₂ d₃ = x
  have split := spread_octets 4 x (ushiftRight_eq_zero (by decide))
  have front := steps_spread model.polynomial 8 (octets 4 x) (by simp [octets]) (by simp [octets])
  have back := steps_spread model.polynomial 4 [d₄, d₅, d₆, d₇] (by simp) (by simp)
  rw [split] at front
  unfold slicingBlock32
  rw [held]
  simp only [lookup_makeTables refin, byteAt_eq]
  show _ = (rightShifting model.polynomial).steps (8 * 8) x ^^^ (rightShifting model.polynomial).steps (8 * 4) _
  rw [front, back]
  simp only [octets, sliced, xor_assoc]
  simp

theorem slicingBlock64_eq {model : CRCModel 64} (refin : model.refin = true) (crc : BitVec 64)
    (d₀ d₁ d₂ d₃ d₄ d₅ d₆ d₇ : BitVec 8) : slicingBlock64 (makeTables (makeTable0 model)) crc d₀ d₁ d₂ d₃ d₄ d₅ d₆ d₇ =
      [d₀, d₁, d₂, d₃, d₄, d₅, d₆, d₇].foldl (absorb model.polynomial) crc := by
  rw [absorb_all model.polynomial crc _ (by simp), ← loadLittleEndian64_spread]
  generalize held : crc ^^^ loadLittleEndian64 d₀ d₁ d₂ d₃ d₄ d₅ d₆ d₇ = x
  have split := spread_octets 8 x (ushiftRight_eq_zero (by decide))
  have slices := steps_spread model.polynomial 8 (octets 8 x) (by simp [octets]) (by simp [octets])
  rw [split] at slices
  unfold slicingBlock64
  rw [held]
  simp only [lookup_makeTables refin, byteAt_eq]
  show _ = (rightShifting model.polynomial).steps (8 * 8) x
  rw [slices]
  simp only [octets, sliced, xor_assoc]
  simp

theorem slicingLoop_eq {block : BitVec w → BitVec 8 → BitVec 8 → BitVec 8 → BitVec 8 → BitVec 8 → BitVec 8 → BitVec 8 →
    BitVec 8 → BitVec w} {tail : BitVec w → BitVec 8 → BitVec w} (alike : ∀ crc d₀ d₁ d₂ d₃ d₄ d₅ d₆ d₇,
      block crc d₀ d₁ d₂ d₃ d₄ d₅ d₆ d₇ = [d₀, d₁, d₂, d₃, d₄, d₅, d₆, d₇].foldl tail crc)
    (crc : BitVec w) (data : List (BitVec 8)) : slicingLoop block tail crc data = data.foldl tail crc := by
  fun_induction slicingLoop block tail crc data with
  | case1 crc d₀ d₁ d₂ d₃ d₄ d₅ d₆ d₇ data ih =>
    rw [ih, alike]
    rfl
  | case2 => rfl

theorem reflectedSlicingUpdate_eq (refin : model.refin = true) (wide : w = 32 ∨ w = 64) (crc : BitVec w)
    (data : List (BitVec 8)) : reflectedSlicingUpdate model (makeTables (makeTable0 model)) crc data =
      data.foldl (bitwiseByteUpdate model) crc := by
  have absorbs := bitwiseByteUpdate_absorb refin
  rcases wide with rfl | rfl
  · rw [reflectedSlicingUpdate, makeTables, tableByteUpdate_eq, absorbs]
    exact slicingLoop_eq (slicingBlock32_eq refin) crc data
  · rw [reflectedSlicingUpdate, makeTables, tableByteUpdate_eq, absorbs]
    exact slicingLoop_eq (slicingBlock64_eq refin) crc data

end

section

variable {model : CRCModel w}

variable (engine : Engine model)

theorem updateSpan_eq (crc : BitVec w) (data : List (BitVec 8)) :
    engine.updateSpan crc data = data.foldl (bitwiseByteUpdate model) crc := by
  cases engine with
  | bitwise => rfl
  | table =>
    rw [updateSpan, tableByteUpdate_eq]
    cases data <;> rfl
  | slicing refin wide =>
    rw [updateSpan, reflectedSlicingUpdate_eq refin wide]
    cases data <;> rfl

theorem updateConstant_eq (crc : BitVec w) (text : List (BitVec 8)) :
    engine.updateConstant crc text = text.foldl (bitwiseByteUpdate model) crc := by
  cases engine with
  | bitwise => rfl
  | table => rw [updateConstant, tableByteUpdate_eq]
  | slicing refin wide => rw [updateConstant, tableByteUpdate_eq]

theorem update_eq (crc : BitVec w) (data : Data) :
    engine.update crc data = (data.bytes.map UInt8.toBitVec).foldl (bitwiseByteUpdate model) crc := by
  cases data with
  | span data => exact updateSpan_eq engine crc _
  | pointer data =>
    cases data with
    | none => rfl
    | some data =>
      rw [update, updateSpan_eq]
      cases data <;> rfl
  | text text constant =>
    cases constant with
    | false => exact updateSpan_eq engine crc _
    | true => exact updateConstant_eq engine crc _

theorem feed_eq (state : CRCState engine) (chunks : List Data) : (chunks.foldl CRCState.update state).crc =
      ((chunks.flatMap Data.bytes).map UInt8.toBitVec).foldl (bitwiseByteUpdate model) state.crc := by
  induction chunks generalizing state with
  | nil => rfl
  | cons chunk chunks ih =>
    rw [foldl_cons, ih, flatMap_cons, map_append, foldl_append, CRCState.update, update_eq]

/-- The engines of a model leave the same register, whatever the bytes are handed over as, and a state that is
    fed chunks finalises to the checksum of all their bytes. -/
theorem engines_agree (model : CRCModel w) : (∀ (engine engine' : Engine model) (crc : BitVec w) (data : Data),
      engine.update crc data = engine'.update crc (.span data.bytes)) ∧
    ∀ (engine engine' : Engine model) (used : CRCState engine) (chunks : List Data),
      (chunks.foldl CRCState.update ({} : CRCState engine)).finalize = engine'.compute (.span (chunks.flatMap Data.bytes)) ∧
      (chunks.foldl CRCState.update used.reset).finalize = engine'.compute (.span (chunks.flatMap Data.bytes)) := by
  constructor
  · intro engine engine' crc data
    rw [update_eq, update_eq]
    rfl
  · intro engine engine' used chunks
    have fed : (chunks.foldl CRCState.update used.reset).finalize =
        engine'.compute (.span (chunks.flatMap Data.bytes)) := by
      rw [CRCState.finalize, feed_eq, compute, update_eq]
      rfl
    exact ⟨fed, fed⟩

-- the check value of the IEEE 802.3 model
example :
    let model : CRCModel 32 :=
      { polynomial := 0xEDB88320, init := 0xFFFFFFFF, refin := true, refout := true, xorout := 0xFFFFFFFF,
        supported := by decide }
    (bitwise : Engine model).compute
      (.span [0x31, 0x32, 0x33, 0x34, 0x35, 0x36, 0x37, 0x38, 0x39]) = 0xCBF43926 := by
  decide +kernel

end

theorem bitReverseLoop_bit {n i : Nat} (short : n ≤ w) (inside : i < w) (reversed value : BitVec w) :
    (bitReverseLoop n reversed value).getLsbD i = if i < n then value.getLsbD (n - 1 - i) else reversed.getLsbD (i - n) := by
  induction n generalizing reversed value with
  | zero => rfl
  | succ n ih =>
    rw [bitReverseLoop, ih (by omega), getLsbD_ushiftRight, getLsbD_or, getLsbD_shiftLeft]
    rcases Nat.lt_trichotomy i n with below | rfl | above
    · rw [if_pos below, if_pos (by omega)]
      congr 1
      omega
    · simp [show 0 < w by omega]
    · have bit : i - n - 1 = i - (n + 1) := by omega
      simp [show ¬ i < n by omega, show ¬ i < n + 1 by omega, show i - n < w by omega, show i - n ≠ 0 by omega, bit]

theorem bitReverse_bit {i : Nat} (inside : i < w) (value : BitVec w) : (bitReverse value).getLsbD i = value.getLsbD (w - 1 - i) := by
  rw [bitReverse, bitReverseLoop_bit (Nat.le_refl w) inside, if_pos inside]

theorem bitReverse_xor (x y : BitVec w) : bitReverse (x ^^^ y) = bitReverse x ^^^ bitReverse y := by
  apply eq_of_getLsbD_eq
  intro i inside
  rw [bitReverse_bit inside, getLsbD_xor, getLsbD_xor, bitReverse_bit inside, bitReverse_bit inside]

theorem bitReverse_shiftLeft (x : BitVec w) : bitReverse (x <<< 1) = bitReverse x >>> 1 := by
  apply eq_of_getLsbD_eq
  intro i inside
  rw [bitReverse_bit inside, getLsbD_shiftLeft, getLsbD_ushiftRight]
  by_cases last : i = w - 1
  · subst last
    rw [getLsbD_of_ge (bitReverse x) _ (by omega)]
    simp
  · rw [bitReverse_bit (by omega)]
    have bit : w - 1 - i - 1 = w - 1 - (1 + i) := by omega
    simp [show ¬ w - 1 - i < 1 by omega, show w - 1 - i < w by omega, bit]

theorem bitReverse_byte (wide : 8 ≤ w) (byte : BitVec 8) : bitReverse ((bitReverse byte).setWidth w <<< (w - 8)) = byte.setWidth w := by
  apply eq_of_getLsbD_eq
  intro i inside
  rw [bitReverse_bit inside, getLsbD_shiftLeft, getLsbD_setWidth, getLsbD_setWidth]
  by_cases low : i < 8
  · rw [bitReverse_bit (by omega)]
    have bit : 8 - 1 - (w - 1 - i - (w - 8)) = i := by omega
    simp [inside, show w - 1 - i < w by omega, show ¬ w - 1 - i < w - 8 by omega, show w - 1 - i - (w - 8) < w by omega, bit]
  · rw [getLsbD_of_ge byte i (by omega)]
    simp [show w - 1 - i < w - 8 by omega]

section

theorem bitReverse_step (polynomial x : BitVec w) :
    bitReverse ((leftShifting polynomial).step x) = (rightShifting (bitReverse polynomial)).step (bitReverse x) := by
  have tap : (bitReverse x).getLsbD 0 = x.getLsbD (w - 1) := by
    by_cases empty : w = 0
    · subst empty
      rw [getLsbD_of_ge _ _ (Nat.le_refl 0), getLsbD_of_ge _ _ (Nat.le_refl 0)]
    · rw [bitReverse_bit (Nat.pos_of_ne_zero empty), Nat.sub_zero]
  show bitReverse (if x.getLsbD (w - 1) then x <<< 1 ^^^ polynomial else x <<< 1) =
    if (bitReverse x).getLsbD 0 then bitReverse x >>> 1 ^^^ bitReverse polynomial else bitReverse x >>> 1
  rw [tap]
  split
  · rw [bitReverse_xor, bitReverse_shiftLeft]
  · exact bitReverse_shiftLeft x

theorem bitReverse_steps (polynomial : BitVec w) (n : Nat) (x : BitVec w) :
    bitReverse ((leftShifting polynomial).steps n x) = (rightShifting (bitReverse polynomial)).steps n (bitReverse x) := by
  induction n generalizing x with
  | zero => rfl
  | succ n ih => rw [steps, steps, ih, bitReverse_step]

/-- A model with the lowest bit first that is the mirror image of one with the highest bit first. -/
structure Mirrors (reflected normal : CRCModel w) : Prop where
  refin : reflected.refin = true
  refin' : normal.refin = false
  polynomial : reflected.polynomial = bitReverse normal.polynomial

variable {reflected normal : CRCModel w}

theorem Mirrors.byteUpdate (mirrors : Mirrors reflected normal) (crc : BitVec w) (byte : BitVec 8) :
    bitwiseByteUpdate reflected (bitReverse crc) byte = bitReverse (bitwiseByteUpdate normal crc (bitReverse byte)) := by
  have wide := eight_le normal
  have other : ¬ normal.refin = true := by rw [mirrors.refin']; decide
  have left : bitwiseByteUpdate normal crc (bitReverse byte) =
      (leftShifting normal.polynomial).steps 8 (crc ^^^ ((bitReverse byte).setWidth w <<< (w - 8))) := by
    unfold bitwiseByteUpdate
    rw [bitSteps_eq, bitSteps_eq, register_left normal other]
    split
    · rename_i narrow
      have narrow := narrow.resolve_right other
      subst narrow
      rw [shiftLeft_zero]
    · rfl
  rw [left, bitReverse_steps, bitReverse_xor, bitReverse_byte wide, bitwiseByteUpdate, if_pos (.inr mirrors.refin), bitSteps_eq,
    register_right reflected mirrors.refin, mirrors.polynomial]

theorem Mirrors.foldl (mirrors : Mirrors reflected normal) (crc : BitVec w) (data : List (BitVec 8)) :
    data.foldl (bitwiseByteUpdate reflected) (bitReverse crc) =
      bitReverse ((data.map bitReverse).foldl (bitwiseByteUpdate normal) crc) := by
  induction data generalizing crc with
  | nil => rfl
  | cons byte data ih => rw [foldl_cons, map_cons, foldl_cons, mirrors.byteUpdate, ih]

/-- Whatever engines the two models run on, the registers are mirror images when the starts and the bytes are. -/
theorem engines_mirror (mirrors : Mirrors reflected normal) (engine : Engine reflected) (engine' : Engine normal) (crc : BitVec w)
    (data : List (BitVec 8)) :
    engine.updateSpan (bitReverse crc) data = bitReverse (engine'.updateSpan crc (data.map bitReverse)) := by
  rw [updateSpan_eq, updateSpan_eq]
  exact mirrors.foldl crc data

theorem engines_mirror_ethernet : let reflected : CRCModel 32 := ⟨0xEDB88320, 0, true, true, 0, by decide⟩
    let normal : CRCModel 32 := ⟨0x04C11DB7, 0, false, false, 0, by decide⟩
    (slicing rfl (.inl rfl) : Engine reflected).updateSpan (bitReverse 1) [0x80, 0x01] =
      bitReverse ((table : Engine normal).updateSpan 1 [0x01, 0x80]) := by
  intro reflected normal
  have mirrors : Mirrors reflected normal := ⟨rfl, rfl, by decide +kernel⟩
  have bytes : ([0x80, 0x01] : List (BitVec 8)).map bitReverse = [0x01, 0x80] := by decide +kernel
  have mirrored := engines_mirror mirrors (.slicing rfl (.inl rfl)) .table 1 [0x80, 0x01]
  rwa [bytes] at mirrored

end

end NginBase.Hashing.CRC
