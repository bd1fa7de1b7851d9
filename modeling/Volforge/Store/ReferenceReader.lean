import Volforge.Lib.Digits
import Volforge.Store.Codec
import Mathlib.Data.Int.Bitwise

/-!
# `Store.ReferenceReader` — the column decoder of `reference_reader.py`

The decoder that is read as a specification, in Python's unbounded integers. A buffer with a position is the byte
string from there on. `none` is an exception: an index out of range, a `struct.error` or a `ValueError`.
-/

namespace Volforge.ReferenceReader

/-- Values per block. -/
def BLOCK : Nat := 128

/-- The loop of `read_varint`. -/
def readVarintFrom (shift value : Nat) : Bytes → Option (Nat × Bytes)
  | [] => none
  | byte :: buf =>
      let value := value ||| ((byte &&& 0x7F).toNat <<< shift)
      if byte &&& 0x80 = 0 then some (value, buf)
      else if 63 < shift + 7 then none          -- varint too long
      else readVarintFrom (shift + 7) value buf

/-- LEB128, unsigned: the value is not cut to 64 bits. -/
def readVarint (buf : Bytes) : Option (Nat × Bytes) := readVarintFrom 0 0 buf

def unzigzag (v : Nat) : Int := Int.xor (v >>> 1 : Nat) (-(v &&& 1 : Nat))

/-- Reads bytes until `bits` are held. -/
def fill (bits : Nat) : Bytes → Nat → Nat → Option (Bytes × Nat × Nat)
  | [], acc, held => if held < bits then none else some ([], acc, held)
  | b :: buf, acc, held =>
      if held < bits then fill bits buf (acc ||| (b.toNat <<< held)) (held + 8) else some (b :: buf, acc, held)

/-- The loop of `unpack_bits`. -/
def unpackBitsFrom (bits : Nat) : Nat → Bytes → Nat → Nat → Option (List Nat × Bytes)
  | 0, buf, _, _ => some ([], buf)
  | count + 1, buf, acc, held => do
      let (buf, acc, held) ← fill bits buf acc held
      let (out, buf) ← unpackBitsFrom bits count buf (acc >>> bits) (held - bits)
      return ((acc &&& ((1 <<< bits) - 1)) :: out, buf)

def unpackBits (buf : Bytes) (count bits : Nat) : Option (List Nat × Bytes) :=
  if bits = 0 then some (List.replicate count 0, buf) else unpackBitsFrom bits count buf 0 0

/-- The words of `struct.unpack_from(f"<{n}Q")`. -/
def words : Nat → Bytes → List Nat
  | 0, _ => []
  | n + 1, buf => LittleEndian.value (buf.take 8) :: words n (buf.drop 8)

def readResiduals (buf : Bytes) (n bits : Nat) : Option (List Nat × Bytes) :=
  if bits = 64 then                              -- stored raw, eight bytes each
    if buf.length < n * 8 then none else some (words n buf, buf.drop (n * 8))
  else if 56 < bits then none                    -- never emitted
  else unpackBits buf n bits

/-- The values of a block. The value carried is the one reduced to 64 bits, the value emitted is signed. -/
def restoreValues (scale : Nat) (minDelta : Int) : Int → List Nat → List Int
  | _, [] => []
  | previous, r :: residuals =>
      let previous : Int := (previous + ((r : Int) + minDelta) * scale) % 2 ^ 64
      (if previous >>> (63 : Nat) ≠ 0 then previous - 2 ^ 64 else previous) ::
        restoreValues scale minDelta previous residuals

/-- The block loop, with `remaining` values still to come. -/
def decodeBlocks (scale : Nat) : Nat → Nat → Int → Bytes → Option (List Int × Bytes)
  | 0, _, _, buf => some ([], buf)
  | blocks + 1, remaining, previous, buf => do
      let n := min BLOCK remaining
      let (packedMin, buf) ← readVarint buf
      match buf with
      | [] => none
      | bits :: buf => do
          let (residuals, buf) ← readResiduals buf n bits.toNat
          let values := restoreValues scale (unzigzag packedMin) previous residuals
          let (rest, buf) ← decodeBlocks scale blocks (remaining - n) (values.getLastD previous) buf
          return (values ++ rest, buf)

/-- The decoded values and what is left of the input. -/
def readColumn (buf : Bytes) : Option (List Int × Bytes) := do
  let (count, buf) ← readVarint buf
  if count = 0 then return ([], buf)
  else do
    let (first, buf) ← readVarint buf
    let (scale, buf) ← readVarint buf
    if scale = 0 then none
    else do
      let (rest, buf) ← decodeBlocks scale (blockCount (count - 1)) (count - 1) (unzigzag first) buf
      return (unzigzag first :: rest, buf)

/-- `decode_column`: the position reached and the values. -/
def decodeColumn (buf : Bytes) : Option (Nat × List Int) := do
  let (values, rest) ← readColumn buf
  return (buf.length - rest.length, values)

end Volforge.ReferenceReader
