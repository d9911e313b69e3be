import HiPerf.Snapshot.Message

/-!
The snapshot decoders: `restore` of `snapshot.rs`, `restore_cow` of `cowsnap.rs`
and the generated SBE codec under them. Both check the trailer, then the schema
version and the capacity, and write what the image holds into a fresh book.
-/

namespace HiPerf

open Machine Exec Bytes

/-- Why there is no restored book: a panic, or a reported error. -/
inductive Fault where
  | panic (p : Panic)
  | err (text : String)
  deriving DecidableEq, Repr

abbrev Restoring (σ α : Type) := EStateM Fault σ α

/-- Where a decoder puts what it reads. -/
structure Sink (σ : Type) where
  setHead : Int → Int → Nat → Nat → Int → Int → σ → σ
  setFreeHead : Nat → σ → σ
  putLevel : Nat → Nat → PriceLevel → Run σ Unit
  putOrder : Nat → Order → Run σ Unit

/-- `side_u8(Side::from(v))`. -/
def sideU8 (v : Nat) : Nat := if v = 1 then 1 else 0

namespace Decoder

variable {σ α : Type}

def get (buf : List UInt8) (index k : Nat) : Restoring σ (List UInt8) :=
  if index + k ≤ buf.length then pure (Bytes.get buf index k) else throw (.panic .indexOutOfBounds)

def getU8 (buf : List UInt8) (index : Nat) : Restoring σ Nat := return unle (← get buf index 1)

def getU16 (buf : List UInt8) (index : Nat) : Restoring σ Nat := return unle (← get buf index 2)

def getU32 (buf : List UInt8) (index : Nat) : Restoring σ Nat := return unle (← get buf index 4)

def getI32 (buf : List UInt8) (index : Nat) : Restoring σ Int := return i32 (unle (← get buf index 4))

def getI64 (buf : List UInt8) (index : Nat) : Restoring σ Int := return i64 (unle (← get buf index 8))

/-- A group being read. -/
structure Group where
  blockLength : Nat
  count : Nat
  index : Nat
  offset : Nat
  limit : Nat

/-- `LevelsDecoder::wrap` and `OrdersDecoder::wrap`. -/
def groupWrap (buf : List UInt8) (initialOffset : Nat) : Restoring σ Group := do
  let blockLength ← getU16 buf initialOffset
  let count ← getU16 buf (initialOffset + 2)
  return ⟨blockLength, count, USIZE_MAX, 0, initialOffset + 4⟩

/-- `advance()` of a group; none past the declared count. -/
def Group.advance (g : Group) : Option Group :=
  let index := u64 (g.index + 1)
  if index ≥ g.count then none
  else some { g with offset := g.limit, limit := g.limit + g.blockLength, index }

/-- Carry a call on the book under way into the decoder. -/
def lift (x : Run σ α) : Restoring σ α := fun s =>
  match x s with
  | .ok a s' => .ok a s'
  | .error p s' => .error (.panic p) s'

def getLevel (buf : List UInt8) (offset : Nat) : Restoring σ LevelRec := do
  let side ← getU8 buf offset
  let t ← getU32 buf (offset + 1)
  let head ← getU32 buf (offset + 17)
  let tail ← getU32 buf (offset + 21)
  let qtyTotal ← getI64 buf (offset + 5)
  let count ← getU32 buf (offset + 13)
  return (sideU8 side, t, { head, tail, qtyTotal, count })

def getOrder (buf : List UInt8) (offset : Nat) : Restoring σ OrderRec := do
  let slot ← getU32 buf offset
  let orderId ← getI64 buf (offset + 4)
  let price ← getI64 buf (offset + 12)
  let qty ← getI64 buf (offset + 20)
  let filled ← getI64 buf (offset + 28)
  let next ← getU32 buf (offset + 37)
  let prev ← getU32 buf (offset + 41)
  let side ← getU8 buf (offset + 36)
  return (slot, { orderId, price, qty, filled, next, prev, side := sideU8 side })

variable (S : Sink σ)

/-- The loop over a group, of which `n` blocks are left. -/
def readLevels (buf : List UInt8) : Nat → Group → Restoring σ Group
  | 0, g => pure g
  | n + 1, g =>
    match g.advance with
    | none => throw (.panic (.message "level present"))
    | some g => do
      let (side, t, lvl) ← getLevel buf g.offset
      lift (S.putLevel side t lvl)
      readLevels buf n g

def readOrders (buf : List UInt8) : Nat → Group → Restoring σ Group
  | 0, g => pure g
  | n + 1, g =>
    match g.advance with
    | none => throw (.panic (.message "order present"))
    | some g => do
      let (slot, o) ← getOrder buf g.offset
      lift (S.putOrder slot o)
      readOrders buf n g

/-- Both groups, the first of which starts at `limit`. -/
def groups (buf : List UInt8) (limit : Nat) : Restoring σ Unit := do
  let g ← groupWrap buf limit
  let g ← readLevels S buf g.count g
  let g ← groupWrap buf g.limit
  let _ ← readOrders S buf g.count g

/-- Read a message into a fresh book with room for `cap` orders. -/
def message (buf : List UInt8) (cap : Nat) : Restoring σ Unit := do
  let schemaVersion ← getU16 buf 6
  if schemaVersion ≠ 2 then
    throw (.err s!"unsupported snapshot schema version {schemaVersion} (expected 2)")
  let actingBlockLength ← getU16 buf 0
  let priceMin ← getI64 buf HEADER_LEN
  let tick ← getI64 buf (HEADER_LEN + 8)
  let nLevels ← getU32 buf (HEADER_LEN + 16)
  let hwm ← getU32 buf (HEADER_LEN + 24)
  let bestBid ← getI32 buf (HEADER_LEN + 28)
  let bestAsk ← getI32 buf (HEADER_LEN + 32)
  modify (S.setHead priceMin tick nLevels hwm bestBid bestAsk)
  let capacity ← getU32 buf (HEADER_LEN + 20)
  if capacity ≠ cap then
    throw (.err s!"snapshot capacity {capacity} != SMRC_CAP {cap}")
  let freeHead ← getU32 buf (HEADER_LEN + 36)
  modify (S.setFreeHead freeHead)
  groups S buf (HEADER_LEN + actingBlockLength)

/-- The message of an image whose trailer is right. -/
def checked (crc32c : List UInt8 → UInt32) (image : List UInt8) : Except Fault (List UInt8) :=
  if image.length < 4 then throw (.err "snapshot too short")
  else
    let sbeLen := image.length - 4
    if (crc32c (image.take sbeLen)).toNat ≠ unle (image.drop sbeLen) then
      throw (.err "crc32c mismatch")
    else pure (image.take sbeLen)

/-- Restore into the fresh book `s`. -/
def into (buf : List UInt8) (cap : Nat) (s : σ) : Except Fault σ :=
  match message S buf cap s with
  | .ok _ s => pure s
  | .error f _ => throw f

end Decoder

namespace Book

def sink : Sink Book where
  setHead priceMin tick nLevels hwm bestBid bestAsk b :=
    { b with priceMin, tick, nLevels, hwm, bestBid, bestAsk }
  setFreeHead freeHead b := { b with freeHead }
  putLevel := setLevel
  putOrder slot o := do
    setOrder slot o
    if o.orderId ≠ 0 then modify fun b => { b with idmap := b.idmap.insert o.orderId slot }

def restore (crc32c : List UInt8 → UInt32) (image : List UInt8) (cfg : SmrConfig) :
    Except Fault Book := do
  let buf ← Decoder.checked crc32c image
  Decoder.into sink buf cfg.cap (new cfg)

end Book

namespace CowBook

def sink : Sink CowBook where
  setHead priceMin tick nLevels hwm bestBid bestAsk w :=
    { w with priceMin, tick, nLevels, hwm, bestBid, bestAsk }
  setFreeHead freeHead w := { w with freeHead }
  putLevel side t lvl := do
    let _ ← levelMut side t fun _ => lvl
  putOrder slot o := do
    let _ ← orderMut slot fun _ => o
    if o.orderId ≠ 0 then modify fun w => { w with idmap := w.idmap.insert o.orderId slot }

end CowBook

def restoreCow (crc32c : List UInt8 → UInt32) (image : List UInt8) (cfg : SmrConfig) :
    Except Fault CowBook := do
  let buf ← Decoder.checked crc32c image
  match CowBook.new cfg with
  | .ok w => Decoder.into CowBook.sink buf cfg.cap w
  | .error p => throw (.panic p)

end HiPerf
