import Volforge.Core.Instrument

/-!
# `Store.Codec` — the integer column codec

Delta, frame of reference, common divisor, bit packing. A buffer with a write position is a byte string that
is appended to; a read pointer with its end is the byte string that is left to read. The decoder's "returns
0, the input is malformed" is `none`.

The loops are structural: a loop with a fixed number of turns (bytes of a word, blocks of a column) recurses
on that number, a loop over data on the data.
-/

namespace Volforge

/-! ## Variable-length integers -/

def zigzag (v : Int64) : UInt64 := (v.toUInt64 <<< 1) ^^^ (v >>> 63).toUInt64

def unzigzag (v : UInt64) : Int64 := ((v >>> 1) ^^^ (~~~(v &&& 1) + 1)).toInt64

/-- The loop of `put_varint`; sixty-four bits make at most ten groups of seven. -/
def putVarintFrom : Nat → UInt64 → Bytes
  | 0, v => [v.toUInt8]
  | k + 1, v => if 0x80 ≤ v then (v.toUInt8 ||| 0x80) :: putVarintFrom k (v >>> 7) else [v.toUInt8]

def putVarint (v : UInt64) : Bytes := putVarintFrom 9 v

/-- The loop of `get_varint`. Fails when the input is truncated or the varint is over-long. -/
def getVarintFrom (shift : Nat) (out : UInt64) : Bytes → Option (UInt64 × Bytes)
  | [] => none
  | byte :: p =>
      let out := out ||| ((byte &&& 0x7F).toUInt64 <<< UInt64.ofNat shift)
      if byte &&& 0x80 = 0 then some (out, p)
      else if 63 < shift + 7 then none
      else getVarintFrom (shift + 7) out p

def getVarint (p : Bytes) : Option (UInt64 × Bytes) := getVarintFrom 0 0 p

/-! ## Bit packing -/

/-- Widest bit count the packing accumulator can carry safely. -/
def kMaxPackedBits : Nat := 56

/-- Values per bit-packed block. -/
def kCodecBlock : Nat := 128

def gcdOf (a b : UInt64) : UInt64 := if b = 0 then a else gcdOf b (a % b)
termination_by b.toNat
decreasing_by
  rename_i h
  rw [UInt64.toNat_mod]
  refine Nat.mod_lt _ (Nat.pos_of_ne_zero (fun hz => h ?_))
  exact UInt64.toNat_inj.mp hz

/-- The loop of `bits_for`. -/
def bitsForFrom : Nat → UInt64 → Nat
  | 0, _ => 0
  | k + 1, range => if range = 0 then 0 else 1 + bitsForFrom k (range >>> 1)

def bitsFor (range : UInt64) : Nat := bitsForFrom 64 range

/-- The bits of a value that are packed. -/
def bitMask (bits : Nat) : UInt64 :=
  if bits = 64 then ~~~0 else ((1 : UInt64) <<< UInt64.ofNat bits) - 1

/-- Emits the `k` low bytes of the accumulator, and returns it without them. -/
def drain : Nat → UInt64 → Bytes × UInt64
  | 0, acc => ([], acc)
  | k + 1, acc => ((acc &&& 0xFF).toUInt8 :: (drain k (acc >>> 8)).1, (drain k (acc >>> 8)).2)

/-- The loop of `pack`, with `held` bits in the accumulator. -/
def packFrom (bits : Nat) : List UInt64 → UInt64 → Nat → Bytes
  | [], acc, held => if 0 < held then [(acc &&& 0xFF).toUInt8] else []
  | v :: values, acc, held =>
      let acc := acc ||| ((v &&& bitMask bits) <<< UInt64.ofNat held)
      let held := held + bits
      (drain (held / 8) acc).1 ++ packFrom bits values (drain (held / 8) acc).2 (held % 8)

def pack (values : List UInt64) (bits : Nat) : Bytes :=
  if bits = 0 then [] else packFrom bits values 0 0

def packedBytes (n bits : Nat) : Nat := (n * bits + 7) / 8

/-- Reads bytes until `bits` are held. -/
def fill (bits : Nat) : Bytes → UInt64 → Nat → Bytes × UInt64 × Nat
  | [], acc, held => ([], acc, held)
  | b :: q, acc, held =>
      if held < bits then fill bits q (acc ||| (b.toUInt64 <<< UInt64.ofNat held)) (held + 8)
      else (b :: q, acc, held)

/-- The loop of `unpack`. -/
def unpackFrom (bits : Nat) : Nat → Bytes → UInt64 → Nat → List UInt64
  | 0, _, _, _ => []
  | n + 1, q, acc, held =>
      let filled := fill bits q acc held
      (filled.2.1 &&& bitMask bits) ::
        unpackFrom bits n filled.1 (filled.2.1 >>> UInt64.ofNat bits) (filled.2.2 - bits)

def unpack (p : Bytes) (n bits : Nat) : Option (List UInt64 × Bytes) :=
  if bits = 0 then some (List.replicate n 0, p)
  else if p.length < packedBytes n bits then none
  else some (unpackFrom bits n p 0 0, p.drop (packedBytes n bits))

/-! ## Raw blocks -/

/-- The eight bytes of a residual. -/
def rawBytes (residual : UInt64) : Bytes :=
  (List.range 8).map (fun b => ((residual >>> UInt64.ofNat (8 * b)) &&& 0xFF).toUInt8)

/-- Eight bytes as a residual, or-ed together; byte `b` is shifted by `8 b`. -/
def rawWordFrom : Nat → Bytes → UInt64
  | _, [] => 0
  | b, byte :: p => (byte.toUInt64 <<< UInt64.ofNat (8 * b)) ||| rawWordFrom (b + 1) p

/-- `n` residuals of eight bytes each. -/
def rawWords : Nat → Bytes → List UInt64
  | 0, _ => []
  | n + 1, p => rawWordFrom 0 (p.take 8) :: rawWords n (p.drop 8)

/-! ## Encoding -/

/-- The wrapping differences of consecutive values. -/
def rawDeltas : Int64 → List Int64 → List Int64
  | _, [] => []
  | previous, v :: values => (v - previous) :: rawDeltas v values

def magnitude (d : Int64) : UInt64 := if d < 0 then ~~~d.toUInt64 + 1 else d.toUInt64

/-- The common divisor of the deltas; the loop stops as soon as it is one. -/
def divisorFrom : UInt64 → List Int64 → UInt64
  | scale, [] => scale
  | scale, d :: ds => if scale = 1 then scale else divisorFrom (gcdOf scale (magnitude d)) ds

def scaleOf (first : Int64) (rest : List Int64) : UInt64 :=
  let scale := divisorFrom 0 (rawDeltas first rest)
  if scale = 0 then 1 else scale          -- every delta was zero

/-- One block of at most `kCodecBlock` deltas. -/
def encodeBlock (scale : UInt64) (raw : List Int64) : Bytes :=
  let deltas := raw.map (fun d => if scale = 1 then d else d / scale.toInt64)
  let minDelta := deltas.foldl min Int64.maxValue
  -- wraps on purpose; the decoder wraps identically
  let residuals := deltas.map (fun d => d.toUInt64 - minDelta.toUInt64)
  let range := residuals.foldl max 0
  -- wider values would lose their top bits in the accumulator, so such a block is stored raw
  let bits := if kMaxPackedBits < bitsFor range then 64 else bitsFor range
  putVarint (zigzag minDelta) ++ UInt8.ofNat bits ::
    (if bits = 64 then residuals.flatMap rawBytes else pack residuals bits)

/-- The block loop; it runs once for each block of the deltas. -/
def encodeBlocks (scale : UInt64) : Nat → List Int64 → Bytes
  | 0, _ => []
  | blocks + 1, raw =>
      encodeBlock scale (raw.take kCodecBlock) ++ encodeBlocks scale blocks (raw.drop kCodecBlock)

/-- The number of blocks of `n` deltas. -/
def blockCount (n : Nat) : Nat := (n + (kCodecBlock - 1)) / kCodecBlock

def encodeColumn (values : List Int64) : Bytes :=
  putVarint (UInt64.ofNat values.length) ++
    match values with
    | [] => []
    | first :: rest =>
        putVarint (zigzag first) ++ (putVarint (scaleOf first rest) ++
          encodeBlocks (scaleOf first rest) (blockCount rest.length) (rawDeltas first rest))

/-! ## Decoding -/

/-- The residuals of a block. -/
def readResiduals (p : Bytes) (n bits : Nat) : Option (List UInt64 × Bytes) :=
  if bits = 64 then
    if p.length < n * 8 then none else some (rawWords n p, p.drop (n * 8))
  else if kMaxPackedBits < bits then none          -- encoder never emits these widths
  else unpack p n bits

/-- The values of a block, given the value before it. -/
def restoreValues (scale : UInt64) (minDelta : Int64) : Int64 → List UInt64 → List Int64
  | _, [] => []
  | previous, residual :: residuals =>
      let delta := (residual + minDelta.toUInt64).toInt64
      let delta := if scale = 1 then delta else (delta.toUInt64 * scale).toInt64
      let value := previous + delta
      value :: restoreValues scale minDelta value residuals

/-- The block loop, with `remaining` values still to come. -/
def decodeBlocks (scale : UInt64) : Nat → Nat → Int64 → Bytes → Option (List Int64 × Bytes)
  | 0, _, _, p => some ([], p)
  | blocks + 1, remaining, previous, p => do
      let n := min kCodecBlock remaining
      let (packedMin, p) ← getVarint p
      match p with
      | [] => none
      | bits :: p =>
          if 64 < bits.toNat then none
          else do
            let (residuals, p) ← readResiduals p n bits.toNat
            let values := restoreValues scale (unzigzag packedMin) previous residuals
            let (rest, p) ← decodeBlocks scale blocks (remaining - n) (values.getLastD previous) p
            return (values ++ rest, p)

/-- The decoded values and what is left of the input. -/
def readColumn (p : Bytes) : Option (List Int64 × Bytes) := do
  let (count, p) ← getVarint p
  if count = 0 then return ([], p)
  else do
    let (first, p) ← getVarint p
    let (scale, p) ← getVarint p
    if scale = 0 then none
    else do
      let (rest, p) ← decodeBlocks scale (blockCount (count.toNat - 1)) (count.toNat - 1) (unzigzag first) p
      return (unzigzag first :: rest, p)

/-- `decode_column`: the number of bytes consumed and the values. -/
def decodeColumn (data : Bytes) : Option (Nat × List Int64) := do
  let (values, rest) ← readColumn data
  return (data.length - rest.length, values)

/-- `peek_column_count`. -/
def peekColumnCount (data : Bytes) : Nat :=
  match getVarint data with
  | none => 0
  | some (count, _) => count.toNat

/-! ## The output vector -/

/-- What `resize` throws. -/
inductive AllocError where
  | lengthError
  | badAlloc
deriving DecidableEq

/-- `std::vector<std::int64_t>::max_size()`. -/
def kMaxSize : Nat := 2 ^ 60 - 1

/-- `std::vector<std::int64_t>::resize`; `room` says whether there is memory for so many values. -/
def resize (room : Nat → Bool) (n : Nat) : Except AllocError Unit :=
  if kMaxSize < n then .error .lengthError
  else if room n then .ok ()
  else .error .badAlloc

/-- A call of `decode_column`: the lengths it asks of its output, one after the other, and how it ends. -/
structure DecodeCall where
  lengths : List Nat
  result : Except AllocError (Option (Nat × List Int64))

/-- `decode_column` with its output. The vector is cleared and resized once, after the count. -/
def decodeColumnInto (room : Nat → Bool) (data : Bytes) : DecodeCall :=
  match getVarint data with
  | none => ⟨[], .ok none⟩
  | some (count, _) => ⟨[0, count.toNat], do
      resize room count.toNat
      return decodeColumn data⟩

end Volforge
