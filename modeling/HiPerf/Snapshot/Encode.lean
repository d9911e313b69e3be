import HiPerf.Cow.Model
import HiPerf.Lib.Bytes

/-!
The snapshot encoders: `snapshot.rs`, `cowsnap.rs` and the generated SBE codec
under them. An image is a message header, the scalars, a group of the occupied
levels, a group of the slots that were used, and a checksum of all that.
-/

namespace HiPerf

open Machine

def USIZE_MAX : Nat := 18446744073709551615

def HEADER_LEN : Nat := 8

def SBE_BLOCK_LENGTH : Nat := 40

def SBE_TEMPLATE_ID : Nat := 1

def SBE_SCHEMA_ID : Nat := 8

def SBE_SCHEMA_VERSION : Nat := 2

/-- `LevelsEncoder::block_length()`. -/
def LEVELS_BLOCK : Nat := 25

/-- `OrdersEncoder::block_length()`. -/
def ORDERS_BLOCK : Nat := 45

/-- The encoders at work: the buffer they write to, the end of what they
claimed of it, and the group they are in. -/
structure Encoder where
  data : List UInt8
  limit : Nat
  count : Nat
  index : Nat
  offset : Nat

namespace Encoder

/-- Write `bytes` at `index`. A slice is never as long as the address space, so
an end that wraps is out of bounds. -/
def put (index : Nat) (bytes : List UInt8) : Run Encoder Unit := fun e =>
  if index + bytes.length ≤ USIZE_MAX ∧ index + bytes.length ≤ e.data.length then
    .ok () { e with data := Bytes.put e.data index bytes }
  else .error .indexOutOfBounds e

def putU8 (index value : Nat) : Run Encoder Unit := put index (Bytes.le 1 value)

def putU16 (index value : Nat) : Run Encoder Unit := put index (Bytes.le 2 value)

def putU32 (index value : Nat) : Run Encoder Unit := put index (Bytes.le 4 value)

def putI32 (index : Nat) (value : Int) : Run Encoder Unit := put index (Bytes.le 4 (u32 value))

def putI64 (index : Nat) (value : Int) : Run Encoder Unit := put index (Bytes.le 8 (u64 value))

def setLimit (limit : Nat) : Run Encoder Unit := modify fun e => { e with limit }

/-- `LevelsEncoder::wrap` and `OrdersEncoder::wrap`. -/
def groupWrap (blockLength count : Nat) : Run Encoder Unit := do
  let initialLimit := (← get).limit
  setLimit (initialLimit + 4)
  putU16 initialLimit blockLength
  putU16 (initialLimit + 2) count
  modify fun e => { e with count, index := USIZE_MAX, offset := USIZE_MAX }

/-- `advance()` of a group. Past the declared count it is `Ok(None)`, which is
no error, and nothing moves. -/
def advance (blockLength : Nat) : Run Encoder Unit := do
  let e ← get
  let index := u64 (e.index + 1)
  if index ≥ e.count then return
  modify fun e => { e with offset := e.limit, limit := e.limit + blockLength, index }

end Encoder

/-- `side_enum(side) as u8`. -/
def sideEnum (side : Nat) : Nat := if side = 0 then 0 else 1

/-- The scalars of an image. -/
structure Scalars where
  priceMin : Int
  tick : Int
  nLevels : Nat
  capacity : Nat
  hwm : Nat
  bestBid : Int
  bestAsk : Int
  freeHead : Nat
  deriving DecidableEq, Repr

/-- What an encoder reads: scalars, and one function for each place where it
reads a level or a slot. -/
structure Source where
  scalars : Scalars
  width : Nat → Nat
  countLevel : Nat → Nat → Option PriceLevel
  level : Nat → Nat → Option PriceLevel
  order : Nat → Option Order

namespace Encoder

def read {α : Type} : Option α → Run Encoder α
  | some a => pure a
  | none => throw .indexOutOfBounds

/-- `enc.header(0)`. -/
def header : Run Encoder Unit := do
  putU16 0 SBE_BLOCK_LENGTH
  putU16 2 SBE_TEMPLATE_ID
  putU16 4 SBE_SCHEMA_ID
  putU16 6 SBE_SCHEMA_VERSION

def scalars (s : Scalars) : Run Encoder Unit := do
  putI64 HEADER_LEN s.priceMin
  putI64 (HEADER_LEN + 8) s.tick
  putU32 (HEADER_LEN + 16) s.nLevels
  putU32 (HEADER_LEN + 20) s.capacity
  putU32 (HEADER_LEN + 24) s.hwm
  putI32 (HEADER_LEN + 28) s.bestBid
  putI32 (HEADER_LEN + 32) s.bestAsk
  putU32 (HEADER_LEN + 36) s.freeHead

/-- The loop that counts the occupied levels of a lane, of which `n` are left. -/
def countLane (level : Nat → Option PriceLevel) (t : Nat) : Nat → Nat → Run Encoder Nat
  | 0, levelCount => pure levelCount
  | n + 1, levelCount => do
    let lvl ← read (level t)
    countLane level (t + 1) n (if lvl.head ≠ NIL then u16 (levelCount + 1) else levelCount)

def putLevel (side t : Nat) (lvl : PriceLevel) : Run Encoder Unit := do
  advance LEVELS_BLOCK
  let offset := (← get).offset
  putU8 offset (sideEnum side)
  putU32 (offset + 1) t
  putI64 (offset + 5) lvl.qtyTotal
  putU32 (offset + 13) lvl.count
  putU32 (offset + 17) lvl.head
  putU32 (offset + 21) lvl.tail

/-- The loop over the levels of a lane, of which `n` are left. -/
def putLane (side : Nat) (level : Nat → Option PriceLevel) (t : Nat) : Nat → Run Encoder Unit
  | 0 => pure ()
  | n + 1 => do
    let lvl ← read (level t)
    if lvl.head = NIL then putLane side level (t + 1) n
    else do
      putLevel side t lvl
      putLane side level (t + 1) n

def putOrder (slot : Nat) (o : Order) : Run Encoder Unit := do
  advance ORDERS_BLOCK
  let offset := (← get).offset
  putU32 offset slot
  putI64 (offset + 4) o.orderId
  putI64 (offset + 12) o.price
  putI64 (offset + 20) o.qty
  putI64 (offset + 28) o.filled
  putU8 (offset + 36) (sideEnum o.side)
  putU32 (offset + 37) o.next
  putU32 (offset + 41) o.prev

/-- The loop over the slots from `slot` on, of which `n` are left. -/
def putOrders (order : Nat → Option Order) (slot : Nat) : Nat → Run Encoder Unit
  | 0 => pure ()
  | n + 1 => do
    let o ← read (order slot)
    putOrder slot o
    putOrders order (slot + 1) n

/-- Write the message; the result is its length. -/
def message (v : Source) : Run Encoder Nat := do
  let levelCount ← countLane (v.countLevel 0) 0 (v.width 0) 0
  let levelCount ← countLane (v.countLevel 1) 0 (v.width 1) levelCount
  setLimit (HEADER_LEN + SBE_BLOCK_LENGTH)
  header
  scalars v.scalars
  groupWrap LEVELS_BLOCK levelCount
  putLane 0 (v.level 0) 0 (v.width 0)
  putLane 1 (v.level 1) 0 (v.width 1)
  groupWrap ORDERS_BLOCK (u16 v.scalars.hwm)
  putOrders v.order 0 v.scalars.hwm
  return (← get).limit

/-- Write the checksum behind the message. -/
def trailer (crc32c : List UInt8 → UInt32) (sbeLen : Nat) : Run Encoder Nat := do
  let e ← get
  if e.data.length < sbeLen then throw .indexOutOfBounds
  putU32 sbeLen (crc32c (e.data.take sbeLen)).toNat
  return sbeLen + 4

/-- Encode what `v` shows into `buf`; the result is the buffer and the length
of the image in it. -/
def encode (crc32c : List UInt8 → UInt32) (v : Source) (buf : List UInt8) :
    Except Panic (List UInt8 × Nat) :=
  match (message v >>= trailer crc32c) ⟨buf, 0, 0, 0, 0⟩ with
  | .ok len e => .ok (e.data, len)
  | .error p _ => .error p

end Encoder

namespace Book

/-- What `snapshot::encode` reads. -/
def source (b : Book) : Source where
  scalars := ⟨b.priceMin, b.tick, b.nLevels, u32 b.pool.size, b.hwm, b.bestBid, b.bestAsk, b.freeHead⟩
  width side := (b.lane side).size
  countLevel side t := (b.lane side)[t]?
  level side t := (b.lane side)[t]?
  order slot := b.pool[slot]?

def encode (crc32c : List UInt8 → UInt32) (b : Book) (buf : List UInt8) :
    Except Panic (List UInt8 × Nat) := Encoder.encode crc32c b.source buf

end Book

/-- The reads `encode_root` makes, one after the other: a level when it counts
the occupied ones, a level when it writes them, a slot. -/
inductive RootRead where
  | count (side t : Nat)
  | level (side t : Nat)
  | order (slot : Nat)
  deriving DecidableEq, Repr

namespace Root

/-- What `encode_root` reads while a writer goes on: each read finds the memory
`mem` has for it. -/
def source (r : Root) (mem : RootRead → Memory) : Source where
  scalars := ⟨r.priceMin, r.tick, r.nLevels, r.capacity, r.hwm, r.bestBid, r.bestAsk, r.freeHead⟩
  width _ := r.nLevels
  countLevel side t := r.level (mem (.count side t)) side t
  level side t := r.level (mem (.level side t)) side t
  order slot := r.order (mem (.order slot)) slot

end Root

def encodeRoot (crc32c : List UInt8 → UInt32) (r : Root) (mem : RootRead → Memory)
    (buf : List UInt8) : Except Panic (List UInt8 × Nat) :=
  Encoder.encode crc32c (r.source mem) buf

end HiPerf
