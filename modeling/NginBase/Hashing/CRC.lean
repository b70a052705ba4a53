import NginBase.Text.Utf8

namespace NginBase.Hashing

variable {w : Nat}

/-- The parameters of a checksum over an unsigned integer of `w` bits. The polynomial is in the form that the
    engine shifts: reflected exactly if `refin`. -/
structure CRCModel (w : Nat) where
  polynomial : BitVec w
  init : BitVec w
  refin : Bool
  refout : Bool
  xorout : BitVec w
  supported : w = 8 ∨ w = 16 ∨ w = 32 ∨ w = 64

namespace CRC

abbrev Table (w : Nat) := Vector (BitVec w) 256

def shiftRight8 (value : BitVec w) : BitVec w := if 8 < w then value >>> 8 else 0

def byteAt (value : BitVec w) (shift : Nat) : BitVec 8 := ((value >>> shift) &&& 0xFF).setWidth 8

def bitReverseLoop : Nat → BitVec w → BitVec w → BitVec w
  | 0, reversed, _ => reversed
  | n + 1, reversed, value => bitReverseLoop n ((reversed <<< 1) ||| (value &&& 1)) (value >>> 1)

def bitReverse (value : BitVec w) : BitVec w := bitReverseLoop w 0 value

def lookup (table : Table w) (index : BitVec 8) : BitVec w := table.get index.toFin

section

variable (model : CRCModel w)

def bitStep (crc : BitVec w) : BitVec w :=
  if model.refin then
    if crc &&& 1#w ≠ 0 then (crc >>> 1) ^^^ model.polynomial else crc >>> 1
  else
    if crc &&& (1#w <<< (w - 1)) ≠ 0 then (crc <<< 1) ^^^ model.polynomial else crc <<< 1

def bitSteps : Nat → BitVec w → BitVec w
  | 0, crc => crc
  | n + 1, crc => bitSteps n (bitStep model crc)

def bitwiseByteUpdate (crc : BitVec w) (byte : BitVec 8) : BitVec w :=
  if w = 8 ∨ model.refin then bitSteps model 8 (crc ^^^ byte.setWidth w)
  else bitSteps model 8 (crc ^^^ (byte.setWidth w <<< (w - 8)))

end

section

variable (model : CRCModel w)

def makeTable0 : Table w :=
  .ofFn fun n =>
    let crc := BitVec.ofNat w n
    bitSteps model 8 (if ¬ model.refin ∧ 8 < w then crc <<< (w - 8) else crc)

def nextTable (table0 previous : Table w) : Table w :=
  .ofFn fun n => lookup table0 ((previous.get n &&& 0xFF).setWidth 8) ^^^ shiftRight8 (previous.get n)

def makeTables (table0 : Table w) : Nat → Table w
  | 0 => table0
  | slice + 1 => nextTable table0 (makeTables table0 slice)

def tableByteUpdate (table : Table w) (crc : BitVec w) (byte : BitVec 8) : BitVec w :=
  if w = 8 then lookup table (crc.setWidth 8 ^^^ byte)
  else if model.refin then lookup table ((crc ^^^ byte.setWidth w).setWidth 8) ^^^ shiftRight8 crc
  else lookup table (((crc >>> (w - 8)) ^^^ byte.setWidth w).setWidth 8) ^^^ (crc <<< 8)

def loadLittleEndian32 (d₀ d₁ d₂ d₃ : BitVec 8) : BitVec 32 :=
  d₀.setWidth 32 ||| (d₁.setWidth 32 <<< 8) ||| (d₂.setWidth 32 <<< 16) ||| (d₃.setWidth 32 <<< 24)

def loadLittleEndian64 (d₀ d₁ d₂ d₃ d₄ d₅ d₆ d₇ : BitVec 8) : BitVec 64 :=
  d₀.setWidth 64 ||| (d₁.setWidth 64 <<< 8) ||| (d₂.setWidth 64 <<< 16) ||| (d₃.setWidth 64 <<< 24) |||
    (d₄.setWidth 64 <<< 32) ||| (d₅.setWidth 64 <<< 40) ||| (d₆.setWidth 64 <<< 48) ||| (d₇.setWidth 64 <<< 56)

def slicingBlock32 (tables : Nat → Table 32) (crc : BitVec 32) (d₀ d₁ d₂ d₃ d₄ d₅ d₆ d₇ : BitVec 8) : BitVec 32 :=
  let crc := crc ^^^ loadLittleEndian32 d₀ d₁ d₂ d₃
  lookup (tables 7) (byteAt crc 0) ^^^ lookup (tables 6) (byteAt crc 8) ^^^ lookup (tables 5) (byteAt crc 16) ^^^
    lookup (tables 4) (byteAt crc 24) ^^^ lookup (tables 3) d₄ ^^^ lookup (tables 2) d₅ ^^^ lookup (tables 1) d₆ ^^^
    lookup (tables 0) d₇

def slicingBlock64 (tables : Nat → Table 64) (crc : BitVec 64) (d₀ d₁ d₂ d₃ d₄ d₅ d₆ d₇ : BitVec 8) : BitVec 64 :=
  let crc := crc ^^^ loadLittleEndian64 d₀ d₁ d₂ d₃ d₄ d₅ d₆ d₇
  lookup (tables 7) (byteAt crc 0) ^^^ lookup (tables 6) (byteAt crc 8) ^^^ lookup (tables 5) (byteAt crc 16) ^^^
    lookup (tables 4) (byteAt crc 24) ^^^ lookup (tables 3) (byteAt crc 32) ^^^ lookup (tables 2) (byteAt crc 40) ^^^
    lookup (tables 1) (byteAt crc 48) ^^^ lookup (tables 0) (byteAt crc 56)

def slicingLoop (block : BitVec w → BitVec 8 → BitVec 8 → BitVec 8 → BitVec 8 → BitVec 8 → BitVec 8 → BitVec 8 →
    BitVec 8 → BitVec w) (tail : BitVec w → BitVec 8 → BitVec w) : BitVec w → List (BitVec 8) → BitVec w
  | crc, d₀ :: d₁ :: d₂ :: d₃ :: d₄ :: d₅ :: d₆ :: d₇ :: data =>
    slicingLoop block tail (block crc d₀ d₁ d₂ d₃ d₄ d₅ d₆ d₇) data
  | crc, data => data.foldl tail crc

def reflectedSlicingUpdate : {w : Nat} → CRCModel w → (Nat → Table w) → BitVec w → List (BitVec 8) → BitVec w
  | 32, model, tables => slicingLoop (slicingBlock32 tables) (tableByteUpdate model (tables 0))
  | 64, model, tables => slicingLoop (slicingBlock64 tables) (tableByteUpdate model (tables 0))
  | _, model, tables => fun crc data => data.foldl (tableByteUpdate model (tables 0)) crc

end

/-- The engines for a model. Eight tables are admitted for reflected models of 32 and 64 bits. -/
inductive Engine (model : CRCModel w)
  | bitwise
  | table
  | slicing (refin : model.refin = true) (wide : w = 32 ∨ w = 64)

namespace Engine

variable {model : CRCModel w}

def initial (_ : Engine model) : BitVec w := model.init

def updateSpan (crc : BitVec w) (data : List (BitVec 8)) : Engine model → BitVec w
  | bitwise => data.foldl (bitwiseByteUpdate model) crc
  | table => if data.isEmpty then crc else data.foldl (tableByteUpdate model (makeTable0 model)) crc
  | slicing _ _ =>
    if data.isEmpty then crc else reflectedSlicingUpdate model (makeTables (makeTable0 model)) crc data

def updateConstant (crc : BitVec w) (text : List (BitVec 8)) : Engine model → BitVec w
  | bitwise => text.foldl (bitwiseByteUpdate model) crc
  | table => text.foldl (tableByteUpdate model (makeTable0 model)) crc
  | slicing _ _ => text.foldl (tableByteUpdate model (makeTable0 model)) crc

/-- What an overload takes: a span, a pointer that may be null with a length, or a text. -/
inductive Data
  | span (data : Bytes)
  | pointer (data : Option Bytes)
  | text (text : Bytes) (constant : Bool)

def Data.bytes : Data → Bytes
  | span data => data
  | pointer data => data.getD []
  | .text characters _ => characters

def update (engine : Engine model) (crc : BitVec w) : Data → BitVec w
  | .span data => engine.updateSpan crc (data.map UInt8.toBitVec)
  | .pointer none => crc
  | .pointer (some data) => if data.length = 0 then crc else engine.updateSpan crc (data.map UInt8.toBitVec)
  | .text text true => engine.updateConstant crc (text.map UInt8.toBitVec)
  | .text text false => engine.updateSpan crc (text.map UInt8.toBitVec)

def finalize (_ : Engine model) (crc : BitVec w) : BitVec w :=
  (if model.refin ≠ model.refout then bitReverse crc else crc) ^^^ model.xorout

def compute (engine : Engine model) (data : Data) : BitVec w := engine.finalize (engine.update engine.initial data)

end Engine

structure CRCState {model : CRCModel w} (engine : Engine model) where
  crc : BitVec w := engine.initial

namespace CRCState

variable {model : CRCModel w} {engine : Engine model}

def update (state : CRCState engine) (data : Engine.Data) : CRCState engine := { crc := engine.update state.crc data }

def finalize (state : CRCState engine) : BitVec w := engine.finalize state.crc

def reset (_ : CRCState engine) : CRCState engine := { crc := engine.initial }

end CRCState

end CRC

end NginBase.Hashing
